import MPlayer.Config.Options

/-!
# Expanding property strings

`m_properties_expand_string` and what it asks of the properties.  The control function of a
property is a parameter: its answers to the actions that are used here, for the key behind a
slash or for none.

Reading behind the NUL of a string, reading a freed string, writing behind `ret` and an overflow
of an `int` end a run (`none`).
-/

namespace MPlayer.Property

/-! ## Properties -/

/-- `M_PROPERTY_OK`. -/
def mPropertyOk : Int := 1

/-- `M_PROPERTY_ERROR`. -/
def mPropertyError : Int := 0

/-- `M_PROPERTY_NOT_IMPLEMENTED`. -/
def mPropertyNotImplemented : Int := -2

/-- `M_PROPERTY_UNKNOWN`. -/
def mPropertyUnknown : Int := -3

/-- What a `char*` variable is set to: nothing, `NULL` or a fresh string. -/
inductive Stored where
  | untouched
  | null
  | str (s : CStr)
deriving DecidableEq

/-- A later store hides an earlier one. -/
def Stored.over : Stored → Stored → Stored
  | untouched, old => old
  | new, _ => new

variable {V : Type}

/-- `m_option_t` of a property.  `printValue` is `m_option_print` with its type: nothing for -1,
else a string or `NULL`.  `probe` is `M_PROPERTY_GET` without an argument. -/
structure MProperty (V : Type) where
  name : CStr
  wildcard : Bool
  printValue : V → Option (Option CStr)
  print : Option CStr → Int × Stored
  toStr : Option CStr → Int × Stored
  getType : Option CStr → Int × (V → Option (Option CStr))
  get : Option CStr → Int × V
  probe : Option CStr → Int

/-- `m_option_list_find`. -/
def mOptionListFind (propList : List (MProperty V)) (name : CStr) : Option (MProperty V) :=
  propList.find? fun p => nameMatches (p.wildcard && decide (1 < p.name.length)) p.name name

/-- The property that `do_action` asks, and the key it asks for. -/
def findProp (propList : List (MProperty V)) (name : CStr) :
    Option (MProperty V × Option CStr) :=
  let base := name.takeWhile (· ≠ '/')
  let key := name.drop (base.length + 1)
  if key ≠ [] then (mOptionListFind propList base).map (·, some key)
  else (mOptionListFind propList name).map (·, none)

/-- `do_action` with an action that is answered with a code and a store. -/
def doAction (propList : List (MProperty V)) (name : CStr)
    (action : MProperty V → Option CStr → Int × Stored) : Int × Stored :=
  match findProp propList name with
  | none => (mPropertyUnknown, .untouched)
  | some (prop, key) => action prop key

/-- `do_action` with `M_PROPERTY_GET_TYPE`: a property that does not tell its type is its own
type, except for a key. -/
def doGetType (propList : List (MProperty V)) (name : CStr) :
    Int × Option (V → Option (Option CStr)) :=
  match findProp propList name with
  | none => (mPropertyUnknown, none)
  | some (prop, key) =>
    let (r, opt) := prop.getType key
    if key = none ∧ r < 0 then (mPropertyOk, some prop.printValue) else (r, some opt)

/-- `do_action` with `M_PROPERTY_GET`. -/
def doGet (propList : List (MProperty V)) (name : CStr) : Int × Option V :=
  match findProp propList name with
  | none => (mPropertyUnknown, none)
  | some (prop, key) => ((prop.get key).1, some (prop.get key).2)

/-- `m_property_do` with `M_PROPERTY_GET` and no argument. -/
def mPropertyProbe (propList : List (MProperty V)) (name : CStr) : Int :=
  match findProp propList name with
  | none => mPropertyUnknown
  | some (prop, key) => prop.probe key

/-- `m_property_do` with `M_PROPERTY_PRINT`: the answer of the property, its `TO_STRING`, or its
value as its type prints it. -/
def mPropertyPrint (propList : List (MProperty V)) (name : CStr) : Int × Stored :=
  let (r, st) := doAction propList name MProperty.print
  if 0 ≤ r then (r, st)
  else
    let (r, st') := doAction propList name MProperty.toStr
    let st := st'.over st
    if r ≠ mPropertyNotImplemented then (r, st)
    else
      match doGetType propList name with
      | (r, none) => (r, st)
      | (r, some printValue) =>
        if r ≤ 0 then (r, st)
        else
          match doGet propList name with
          | (r, none) => (r, st)
          | (r, some val) =>
            if r ≤ 0 then (r, st)
            else
              match printValue val with
              | none => (mPropertyError, .null)
              | some none => (mPropertyOk, .null)
              | some (some s) => (mPropertyOk, .str s)

/-- Printing a property fails and stores nothing, or stores a string or `NULL`. -/
def PrintsOrFails (propList : List (MProperty V)) : Prop :=
  ∀ name, let (r, st) := mPropertyPrint propList name
    (r < 0 ∧ st = .untouched) ∨ (0 ≤ r ∧ st ≠ .untouched)

theorem mem_of_findProp {propList : List (MProperty V)} {name : CStr} {prop : MProperty V}
    {key : Option CStr} (h : findProp propList name = some (prop, key)) : prop ∈ propList := by
  have hmem : ∀ n, mOptionListFind propList n = some prop → prop ∈ propList := fun _ hn =>
    List.mem_of_find?_eq_some hn
  simp only [findProp] at h
  split at h
  · obtain ⟨p, hp, he⟩ := Option.map_eq_some_iff.1 h
    obtain ⟨rfl, -⟩ := Prod.mk.inj he
    exact hmem _ hp
  · obtain ⟨p, hp, he⟩ := Option.map_eq_some_iff.1 h
    obtain ⟨rfl, -⟩ := Prod.mk.inj he
    exact hmem _ hp

/-- Printing fails or stores if the properties themselves fail or store, and tell their types and
values or fail. -/
theorem printsOrFails_of_answers {propList : List (MProperty V)}
    (h : ∀ p ∈ propList, ∀ key,
      (((p.print key).1 < 0 ∧ (p.print key).2 = .untouched) ∨
        (0 ≤ (p.print key).1 ∧ (p.print key).2 ≠ .untouched)) ∧
      (((p.toStr key).1 < 0 ∧ (p.toStr key).2 = .untouched) ∨
        (0 ≤ (p.toStr key).1 ∧ (p.toStr key).2 ≠ .untouched)) ∧
      (p.getType key).1 ≠ 0 ∧ (p.get key).1 ≠ 0) : PrintsOrFails propList := by
  intro name
  cases hfind : findProp propList name with
  | none => simp [mPropertyPrint, doAction, hfind, mPropertyUnknown, mPropertyNotImplemented,
      Stored.over]
  | some found =>
    obtain ⟨prop, key⟩ := found
    obtain ⟨hprint, htoStr, htype, hget⟩ := h prop (mem_of_findProp hfind) key
    simp only [mPropertyPrint, doAction, doGetType, doGet, hfind]
    rcases hprint with ⟨hr, hst⟩ | hprint
    · rw [if_neg (by omega), hst]
      rcases htoStr with ⟨hr', hst'⟩ | ⟨hr', hst'⟩
      · rw [hst']
        grind [Stored.over, mPropertyOk, mPropertyError]
      · have hne : (prop.toStr key).1 ≠ mPropertyNotImplemented := by
          unfold mPropertyNotImplemented
          omega
        rw [if_pos hne]
        refine .inr ⟨hr', ?_⟩
        cases hcase : (prop.toStr key).2 <;> simp_all [Stored.over]
    · rw [if_pos hprint.1]
      exact .inr hprint

/-! ## The loop -/

/-- `INT_MAX`. -/
def intMax : Nat := 0x7fffffff

/-- Where `p` points: to a literal, to `num_val`, into the template or to the `id`th string that
was printed. -/
inductive Ptr where
  | null
  | literal (s : CStr)
  | numVal (c : Char)
  | template (s : CStr)
  | heap (id : Nat) (s : CStr)
deriving DecidableEq

/-- The string that `p` is of those that were printed. -/
def Ptr.id : Ptr → Option Nat
  | heap id _ => some id
  | _ => none

/-- The variables of `m_properties_expand_string`.  `ret` is what is written, `printed` counts the
strings that were printed, and `freed` are the pointers that were freed, by the number of their
string. -/
structure Expand where
  ret : CStr
  size : Nat
  p : Ptr
  fr : Bool
  skip : Bool
  lvl : Nat
  skipLvl : Nat
  printed : Nat
  freed : List (Option Nat)
deriving DecidableEq

/-- The characters that `p` points to. -/
def Expand.text (s : Expand) : Option CStr :=
  match s.p with
  | .null => none
  | .literal v => some v
  | .numVal c => some [c]
  | .template v => some v
  | .heap id v => if some id ∈ s.freed then none else some v

/-- `strlen(p)`.  There is no NUL behind `num_val`. -/
def Expand.strlen (s : Expand) : Option Nat :=
  match s.p with
  | .numVal _ => none
  | _ => s.text.map List.length

/-- What `m_property_do` leaves in `p`. -/
def Expand.store (s : Expand) : Stored → Expand
  | .untouched => s
  | .null => { s with p := .null }
  | .str v => { s with p := .heap s.printed v, printed := s.printed + 1 }

/-- A backslash: what follows it, the state and `l`.  One at the end of the template takes its NUL
for a character, and the loop goes on behind it. -/
def scanEscape (str : CStr) (s : Expand) : Option (CStr × Expand × Nat) :=
  match str with
  | [] => none
  | 'e' :: str => some (str, { s with p := .literal ['\x1b'] }, 1)
  | 'n' :: str => some (str, { s with p := .literal ['\n'] }, 1)
  | 'r' :: str => some (str, { s with p := .literal ['\x0d'] }, 1)
  | 't' :: str => some (str, { s with p := .literal ['\t'] }, 1)
  | 'x' :: str =>
    if str = [] then some (str, s, 0)
    else
      let num := str.take 2
      let (n, stop) := strtoll 16 num
      -- `sl` does not count the `x`
      let sl := num.length - stop.length
      some (('x' :: str).drop sl, { s with p := .numVal (Char.ofNat (n % 256).toNat) }, 1)
  | c :: str => some (str, { s with p := .template (c :: str) }, 1)

/-- `${`, the name and `}`. -/
def scanSubst (propList : List (MProperty V)) (name rest : CStr) (s : Expand) :
    Option (CStr × Expand × Nat) :=
  let (r, st) := mPropertyPrint propList name
  let s := s.store st
  if 0 ≤ r ∧ s.p ≠ .null then do
    let l ← s.strlen
    some (rest, { s with fr := true }, l)
  else some (rest, s, 0)

/-- `?(`, the name and `:`. -/
def scanCond (propList : List (MProperty V)) (isNot : Bool) (pname : CStr) (s : Expand) :
    Expand :=
  let s := { s with lvl := s.lvl + 1 }
  if s.skip then s
  else if mPropertyProbe propList pname < 0 then
    if isNot then s else { s with skip := true, skipLvl := s.lvl }
  else if isNot then { s with skip := true, skipLvl := s.lvl }
  else s

/-- `)` in a condition. -/
def scanClose (s : Expand) : Expand :=
  { s with
    skip := if s.skip ∧ s.lvl ≤ s.skipLvl then false else s.skip
    lvl := s.lvl - 1 }

/-- What stands between an opening and the next `stop`, and what follows it. -/
def between (start stop : Char) (str : CStr) : Option (CStr × CStr) :=
  match str with
  | c :: str =>
    if c = start ∧ stop ∈ str then
      let name := str.takeWhile (· ≠ stop)
      some (name, str.drop (name.length + 1))
    else none
  | [] => none

/-- The first half of the body of the loop, for a template that begins with `c`. -/
def scan (propList : List (MProperty V)) (c : Char) (str : CStr) (s : Expand) :
    Option (CStr × Expand × Nat) :=
  if c = '\\' then scanEscape str s
  else if 0 < s.lvl ∧ c = ')' then some (str, scanClose s, 0)
  else
    match (if c = '$' then between '{' '}' str else none) with
    | some (name, rest) => scanSubst propList name rest s
    | none =>
      match (if c = '?' then between '(' ':' str else none) with
      | some (name, rest) =>
        let isNot := decide (name.head? = some '!')
        some (rest, scanCond propList isNot (if isNot then name.tail else name) s, 0)
      | none => some (str, { s with p := .template (c :: str) }, 1)

/-- The size of `ret` for `l` more characters and a NUL. -/
def grow (size pos l : Nat) : Nat := if size < pos + l + 1 then pos + l + 512 else size

/-- The second half: `l` characters from `p` are written, and `p` is freed if `fr` is set. -/
def emit (s : Expand) (l : Nat) : Option Expand :=
  if s.skip ∨ l = 0 then some s
  else
    let pos := s.ret.length
    let size := grow s.size pos l
    if intMax < size then none
    else
      match s.text with
      | none => none
      | some v =>
        if v.length < l ∨ size < pos + l then none
        else some { s with
          ret := s.ret ++ v.take l
          size := size
          fr := false
          freed := if s.fr then s.p.id :: s.freed else s.freed }

/-- The loop of `m_properties_expand_string`. -/
def expandLoop (propList : List (MProperty V)) : Nat → CStr → Expand → Option Expand
  | _, [], s => some s
  | 0, _ :: _, _ => none
  | fuel + 1, c :: str, s =>
    match scan propList c str s with
    | none => none
    | some (rest, s, l) =>
      match emit s l with
      | none => none
      | some s => expandLoop propList fuel rest s

/-- `m_properties_expand_string`: the variables at its end.  A turn of the loop takes at least one
character of the template. -/
def mPropertiesExpandString (propList : List (MProperty V)) (str : CStr) : Option Expand :=
  let size := str.length + 512
  if intMax < size then none
  else
    match expandLoop propList str.length str ⟨[], size, .null, false, false, 0, 0, 0, []⟩ with
    | none => none
    | some s => if s.ret.length < s.size then some s else none

end MPlayer.Property
