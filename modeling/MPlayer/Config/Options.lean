/-!
# Options

`m_option_t` and the parser of sub-option groups.  A C string is the list of its
characters.  The option types other than the groups are left to a parameter: what
`m_config` uses of an `m_option_type_t` is gathered in `MOptionTypes`.
-/

namespace MPlayer

/-! ## Strings -/

/-- A C string, without its NUL. -/
abbrev CStr := List Char

/-- Whether `av_strcasecmp` finds two strings equal. -/
def strcaseeq (a b : CStr) : Bool := a.map Char.toLower = b.map Char.toLower

/-- Whether `av_strncasecmp` finds the first `n` characters equal. -/
def strncaseeq (a b : CStr) (n : Nat) : Bool := strcaseeq (a.take n) (b.take n)

/-- Whether `m_config_get_co` finds a name to be that of an option. -/
def nameMatches (wildcard : Bool) (optName name : CStr) : Bool :=
  if wildcard && optName.getLast? == some '*' then strncaseeq optName name (optName.length - 1)
  else strcaseeq optName name

/-- The digits that a string begins with, as numbers, and the rest. -/
def digits (base : Nat) : CStr → List Nat × CStr
  | [] => ([], [])
  | c :: s =>
    let v :=
      if '0' ≤ c ∧ c ≤ '9' then c.toNat - 48
      else if 'a' ≤ c.toLower ∧ c.toLower ≤ 'z' then c.toLower.toNat - 87
      else base
    if v < base then (v :: (digits base s).1, (digits base s).2) else ([], c :: s)

/-- The number that digits stand for. -/
def ofDigits (base : Nat) (ds : List Nat) : Nat := ds.foldl (fun n d => n * base + d) 0

/-- `LLONG_MAX`. -/
def llongMax : Int := 0x7fffffffffffffff

/-- `isspace`. -/
def isSpace (c : Char) : Bool := c == ' ' || (9 ≤ c.toNat && c.toNat ≤ 13)

/-- What follows the prefix of a hexadecimal number, if there is a digit. -/
def hexPrefix : CStr → Option CStr
  | '0' :: x :: c :: s =>
    if x.toLower = 'x' ∧ (digits 16 [c]).1 ≠ [] then some (c :: s) else none
  | _ => none

/-- The base a number is read in, and its digits without the prefix.  Base 0 means that the
prefix tells the base. -/
def detectBase (base : Nat) (s : CStr) : Nat × CStr :=
  match hexPrefix s with
  | some t => if base = 0 ∨ base = 16 then (16, t) else (base, s)
  | none => if base = 0 then (if s.head? = some '0' then 8 else 10, s) else (base, s)

/-- `strtoll(s, &end, base)`, and `strtol`, as `long` is as wide as `long long`: the number
and the string from `end` on, which is the whole string if there are no digits. -/
def strtoll (base : Nat) (s : CStr) : Int × CStr :=
  let body := s.dropWhile isSpace
  let (neg, body) :=
    match body with
    | '-' :: t => (true, t)
    | '+' :: t => (false, t)
    | t => (false, t)
  let (base, body) := detectBase base body
  let (ds, rest) := digits base body
  if ds = [] then (0, s)
  else
    let n : Int := ofDigits base ds
    (if neg then max (-n) (-llongMax - 1) else min n llongMax, rest)

/-- The value an `int` takes from a `long`. -/
def toInt32 (n : Int) : Int := (n + 0x80000000) % 0x100000000 - 0x80000000

/-! ## Return codes and modes -/

/-- `M_OPT_UNKNOWN`. -/
def mOptUnknown : Int := -1

/-- `M_OPT_MISSING_PARAM`. -/
def mOptMissingParam : Int := -2

/-- `M_OPT_INVALID`. -/
def mOptInvalid : Int := -3

/-- `M_OPT_OUT_OF_RANGE`. -/
def mOptOutOfRange : Int := -4

/-- `M_OPT_EXIT`. -/
def mOptExit : Int := -6

/-- `OptionParserModes`. -/
inductive ParserMode where
  | configFile
  | commandLine
  | commandLinePreParse
deriving DecidableEq

/-! ## Options -/

/-- The flags of an option that `m_config` reads. -/
structure MOptionFlags where
  noCfg : Bool := false
  noCmd : Bool := false
  global : Bool := false
  noSave : Bool := false
  old : Bool := false
  preParse : Bool := false
deriving DecidableEq

/-- An option without children.  `p` is the address of its variable, or `NULL`.  `type`
stands for the type with the `min`, `max` and `priv` that its functions read. -/
structure PlainOption (T : Type) where
  name : CStr
  p : Option Nat
  type : T
  flags : MOptionFlags

/-- `m_option_t`.  The type of an option with children is `m_option_type_subconfig`, the
only one with `M_OPT_TYPE_HAS_CHILD`. -/
inductive MOption (T : Type) where
  | plain (opt : PlainOption T)
  | group (name : CStr) (children : List (MOption T)) (flags : MOptionFlags)

variable {T V : Type}

/-- The name of an option. -/
def MOption.name : MOption T → CStr
  | plain opt => opt.name
  | group name _ _ => name

/-- The flags of an option. -/
def MOption.flags : MOption T → MOptionFlags
  | plain opt => opt.flags
  | group _ _ flags => flags

/-- The variable behind an option. -/
def MOption.var : MOption T → Option Nat
  | plain opt => opt.p
  | group _ _ _ => none

/-- The functions and flags of the types of options.  `parse` is given what `dst` holds,
unless it is `NULL`, and answers with the return code and what it writes to `dst`; `set`
answers with what it writes to the variable. -/
structure MOptionTypes (T V : Type) where
  allowWildcard : T → Bool
  dynamic : T → Bool
  zero : T → V
  isNull : V → Bool
  parse : PlainOption T → CStr → Option CStr → Option V → ParserMode → Int × Option V
  save : PlainOption T → V → Option V → V
  set : PlainOption T → Option V → V → Option V
  copy : PlainOption T → V → V → V

/-- Whether the name of an option may end in a wildcard. -/
def MOptionTypes.wildcard (types : MOptionTypes T V) : MOption T → Bool
  | .plain opt => types.allowWildcard opt.type
  | .group _ _ _ => false

/-! ## `parse_subconf` -/

/-- The parameter of a suboption and what is left to parse behind it. -/
def subconfParam : CStr → Option (CStr × CStr)
  | '=' :: '\"' :: p =>
    let value := p.takeWhile (· ≠ '\"')
    match p.drop value.length with
    | '\"' :: p => some (value, p)
    | _ => none
  | '=' :: '%' :: p =>
    let (n, p) := strtoll 0 p
    let optlen := toInt32 n
    match p with
    | '%' :: p => if 0 ≤ optlen ∧ optlen ≤ p.length then
        some (p.take optlen.toNat, p.drop optlen.toNat) else none
    | _ => none
  | '=' :: p => some (p.takeWhile (· ≠ ':'), p.dropWhile (· ≠ ':'))
  | p => some ([], p)

/-- `subparam[0] == 0 ? NULL : subparam`. -/
def nonEmpty (s : CStr) : Option CStr := if s = [] then none else some s

/-- The loop of `parse_subconf`.  `check name param` is the answer of the suboption
`name`, if there is one. -/
def parseSubconfLoop (check : CStr → Option CStr → Option Int) : Nat → CStr →
    Int × List (CStr × Option CStr)
  | _, [] => (1, [])
  | 0, _ :: _ => (mOptInvalid, [])
  | fuel + 1, p =>
    let subopt := p.takeWhile fun c => c ≠ ':' ∧ c ≠ '='
    match subconfParam (p.drop subopt.length) with
    | none => (mOptInvalid, [])
    | some (subparam, p) =>
      let next :=
        match p with
        | [] => some []
        | c :: p => if c = ':' then some p else none
      match next with
      | none => (mOptInvalid, [])
      | some p =>
        match check subopt (nonEmpty subparam) with
        | none => (mOptUnknown, [])
        | some r =>
          if r < 0 then (r, [])
          else
            let (r, lst) := parseSubconfLoop check fuel p
            if r < 0 then (r, []) else (r, (subopt, nonEmpty subparam) :: lst)

/-- `parse_subconf` with a non-`NULL` `dst`, to which it writes a list only if it
succeeds. -/
def parseSubconf (check : CStr → Option CStr → Option Int) :
    Option CStr → Int × List (CStr × Option CStr)
  | none => (mOptMissingParam, [])
  | some [] => (mOptMissingParam, [])
  | some param => parseSubconfLoop check param.length param

mutual

/-- `m_option_parse` with a `NULL` `dst`. -/
def MOption.check (types : MOptionTypes T V) : MOption T → CStr → Option CStr → ParserMode → Int
  | .plain opt, name, param, mode => (types.parse opt name param none mode).1
  | .group _ children _, _, param, mode =>
    (parseSubconf (fun subopt subparam => checkSubopt types children subopt subparam mode) param).1

/-- What the first suboption called `subopt` answers. -/
def checkSubopt (types : MOptionTypes T V) : List (MOption T) → CStr → Option CStr →
    ParserMode → Option Int
  | [], _, _, _ => none
  | opt :: opts, subopt, subparam, mode =>
    if opt.name = subopt then some (opt.check types subopt subparam mode)
    else checkSubopt types opts subopt subparam mode

end

end MPlayer
