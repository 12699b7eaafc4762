import MPlayer.Config.Options

/-!
# Config files

`m_config_parse_config_file` reads every line into the same buffer and scans it with one index.
All but one of the loops that move the index stop at the `NUL` that ends the line; the one that
copies a quoted parameter stops at the quote only, and goes on through what an earlier line has
left behind the `NUL`.

The memory behind the index is a list, from which a scan takes characters.  A scan gives `none`
when it examines a character that isn't there.  So a line that is scanned with nothing behind
its `NUL` is one that is parsed from its own text.
-/

namespace MPlayer

/-! ## Scanning -/

/-- The character that ends a string. -/
def nul : Char := Char.ofNat 0

/-- `isprint` in the C locale. -/
def isPrint (c : Char) : Bool := 32 ≤ c.toNat && c.toNat ≤ 126

/-- A single or a double quote. -/
def isQuote (c : Char) : Bool := c.toNat == 34 || c.toNat == 39

/-- `MAX_LINE_LEN`. -/
def maxLineLen : Nat := 10000

/-- `MAX_OPT_LEN`. -/
def maxOptLen : Nat := 1000

/-- `MAX_PARAM_LEN`. -/
def maxParamLen : Nat := 1500

/-- The loops that skip whitespace. -/
def skipSpaces : CStr → Option CStr
  | [] => none
  | c :: s => if isSpace c then skipSpaces s else some (c :: s)

/-- The loops that copy characters as long as `p` holds: the copy and what is behind it, or
`none` within if `k` characters are copied, which are too many. -/
def copyWhile (p : Char → Bool) : Nat → CStr → Option (Option (CStr × CStr))
  | _, [] => none
  | k, c :: s =>
    if p c then
      if k ≤ 1 then some none
      else (copyWhile p (k - 1) s).map (Option.map fun (w, s) => (c :: w, s))
    else some (some ([], c :: s))

/-- What a line asks for: nothing, as it is empty or a comment; an error; a profile; or an
option, with or without extra characters behind the parameter. -/
inductive LineAct where
  | blank
  | error
  | profile (name : CStr)
  | option (opt param : CStr) (extra : Bool)
deriving DecidableEq

/-- The characters of an option's name. -/
def isOptChar (c : Char) : Bool := isPrint c && c != ' ' && c != '#' && c != '='

/-- The characters of a parameter without quotes. -/
def isParamChar (c : Char) : Bool := isPrint c && !isSpace c && c != '#'

/-- A line up to its parameter: what it asks for, or the option and the line from the
parameter on. -/
def scanHead (line : CStr) : Option (LineAct ⊕ (CStr × CStr)) :=
  match skipSpaces line with
  | some (c :: s) =>
    if c = nul ∨ c = '#' then some (.inl .blank)
    else
      match copyWhile isOptChar maxOptLen (c :: s) with
      | none => none
      | some none => some (.inl .error)
      | some (some (opt, s)) =>
        if opt = [] then some (.inl .error)
        else if 2 < opt.length ∧ opt.head? = some '[' ∧ opt.getLast? = some ']' then
          some (.inl (.profile opt.tail.dropLast))
        else
          match skipSpaces s with
          | some (d :: s) =>
            if d = '=' then (skipSpaces s).map fun s => .inr (opt, s) else some (.inl .error)
          | _ => none
  | _ => none

/-- Copy a parameter, which begins with the character `c`. -/
def copyParam (c : Char) (s : CStr) : Option (Option (CStr × CStr)) :=
  if isQuote c then
    (copyWhile (· != c) maxParamLen s).map (Option.map fun (w, s) => (w, s.tail))
  else copyWhile isParamChar maxParamLen (c :: s)

/-- A line from its parameter on. -/
def scanParam (opt : CStr) : CStr → Option LineAct
  | [] => none
  | c :: s =>
    match copyParam c s with
    | none => none
    | some none => some .error
    | some (some (param, s)) =>
      if param = [] then some .error
      else
        match skipSpaces s with
        | some (d :: _) =>
          some (.option opt (param.takeWhile (· != nul)) (d != nul && d != '#'))
        | _ => none

/-- A whole line. -/
def scanLine (line : CStr) : Option LineAct :=
  match scanHead line with
  | none => none
  | some (.inl act) => some act
  | some (.inr (opt, s)) => scanParam opt s

/-! ## Lines -/

/-- `fgets` with room for `n` characters: the line, and what is left of the file. -/
def fgets : Nat → CStr → CStr × CStr
  | 0, s => ([], s)
  | _ + 1, [] => ([], [])
  | n + 1, c :: s => if c = '\n' then ([c], s) else (c :: (fgets n s).1, (fgets n s).2)

theorem fgets_length : ∀ (n : Nat) (s : CStr),
    (fgets n s).1.length ≤ n ∧ (fgets n s).1.length + (fgets n s).2.length = s.length
  | 0, s => ⟨Nat.le_refl 0, Nat.zero_add _⟩
  | n + 1, [] => ⟨Nat.zero_le _, rfl⟩
  | n + 1, c :: s => by
    have ih := fgets_length n s
    rw [fgets]
    split <;> simp only [List.length_cons, List.length_nil] <;> omega

/-- The lines that the calls of `fgets` find. -/
def fgetsLines : CStr → List CStr
  | [] => []
  | c :: s => (fgets (maxLineLen - 1) (c :: s)).1 :: fgetsLines (fgets (maxLineLen - 1) (c :: s)).2
termination_by s => s.length
decreasing_by
  have hlen := fgets_length (maxLineLen - 1) (c :: s)
  have hpos : 0 < (fgets (maxLineLen - 1) (c :: s)).1.length := by
    rw [show maxLineLen - 1 = 9998 + 1 from rfl, fgets]
    split <;> exact Nat.zero_lt_succ _
  omega

/-! ## `m_config_parse_config_file` -/

/-- The calls on the config: `m_config_add_profile`, `m_profile_set_desc`,
`m_config_set_profile_option` and `m_config_set_option`, and the field `mode`. -/
structure ConfigOps (C P : Type) where
  mode : C → ParserMode
  setMode : ParserMode → C → C
  addProfile : CStr → C → P × C
  setDesc : P → CStr → C → C
  setProfileOption : P → CStr → CStr → C → Int × C
  setOption : CStr → CStr → C → Int × C

/-- The variables of the loop over the lines. -/
structure FileState (C P : Type) where
  config : C
  profile : Option P
  errors : Nat
  ret : Int

variable {C P : Type}

/-- An error in a line. -/
def FileState.fail (st : FileState C P) : FileState C P :=
  { st with errors := st.errors + 1, ret := -1 }

/-- Do what a line asks for. -/
def applyAct (ops : ConfigOps C P) (act : LineAct) (st : FileState C P) : FileState C P :=
  match act with
  | .blank => st
  | .error => st.fail
  | .profile name =>
    if name = "default".toList then { st with profile := none }
    else
      let (p, c) := ops.addProfile name st.config
      { st with profile := some p, config := c }
  | .option opt param extra =>
    let st := if extra then { st with ret := -1 } else st
    let (tmp, c) :=
      match st.profile with
      | some p =>
        if opt = "profile-desc".toList then (1, ops.setDesc p param st.config)
        else ops.setProfileOption p opt param st.config
      | none => ops.setOption opt param st.config
    let st := { st with config := c }
    if tmp < 0 ∧ tmp ≠ mOptUnknown then st.fail else st

/-- The buffer after `fgets` has put a line into it. -/
def putLine (line buf : CStr) : CStr := line ++ nul :: buf.drop (line.length + 1)

/-- The loop over the lines. -/
def parseLines (ops : ConfigOps C P) : List CStr → CStr → FileState C P → Option (FileState C P)
  | [], _, st => some st
  | line :: lines, buf, st =>
    if 16 ≤ st.errors then some st
    else
      match scanLine (putLine line buf) with
      | none => none
      | some act => parseLines ops lines (putLine line buf) (applyAct ops act st)

/-- `MAX_RECURSION_DEPTH`. -/
def maxRecursionDepth : Nat := 8

/-- `m_config_parse_config_file`, called at a depth of includes, with what the buffer holds at
first and the text of the file, if it can be opened. -/
def mConfigParseConfigFile (ops : ConfigOps C P) (depth : Nat) (buf : CStr) (file : Option CStr)
    (silent : Bool) (config : C) : Option (Int × C) :=
  if maxRecursionDepth < depth + 1 then some (-1, config)
  else
    let entered := ops.setMode .configFile config
    match file with
    | none => some (if silent then 0 else -1, ops.setMode (ops.mode config) entered)
    | some text =>
      (parseLines ops (fgetsLines text) buf ⟨entered, none, 0, 1⟩).map fun st =>
        (st.ret, ops.setMode (ops.mode config) st.config)

end MPlayer
