import MPlayer.Stream.Text

/-!
# Parsing a command

`mp_input_parse_cmd` reads the name of a command and its arguments from a line.  An argument is
a number, or a string up to an unescaped blank or in quotes.  The backslashes of a string are taken
out of the line in place, so what is behind it moves.

A pointer into the line is the text from it on.  The table of commands and the floating point
numbers of the C library are parameters.
-/

namespace MPlayer

universe u

/-! ## Commands -/

/-- The type of an argument.  The last one of a command has type -1. -/
inductive CmdArgType where
  | int
  | float
  | string
  | void
  | last
deriving DecidableEq

/-- `mp_cmd_arg_value_t`. -/
inductive CmdValue (F : Type u) where
  | int (i : Int)
  | float (f : F)
  | string (s : Option (List UInt8))

/-- `mp_cmd_arg_t`. -/
structure MpCmdArg (F : Type u) where
  type : CmdArgType
  v : CmdValue F

/-- The ids of commands that are told apart. -/
inductive CmdId where
  | keydownEvents
  | setMousePos
  | other (id : Nat)
deriving DecidableEq

/-- `mp_cmd_t`, as it stands in the table and as it is returned. -/
structure MpCmd (F : Type u) where
  id : CmdId
  name : List UInt8
  nargs : Nat
  args : List (MpCmdArg F)
  pausing : Int

/-- Reading floating point numbers, whether that sets `errno`, and how many characters are read:
none if there is no number. -/
structure FloatLib (F : Type u) where
  atof : List UInt8 → F
  atofErrno : List UInt8 → Bool
  atofLength : List UInt8 → Nat

/-- Whether `atoi` sets `errno`. -/
def atoiErrno (s : List UInt8) : Bool :=
  let body := splitSign (s.dropWhile fun c => c = 32 ∨ 9 ≤ c ∧ c ≤ 13)
  let n : Int := decimalValue (body.2.takeWhile isDigit)
  if body.1 then llongMax + 1 < n else llongMax < n

/-- What separates arguments. -/
def isCmdBlank (c : UInt8) : Bool := c = ascii ' ' || c = 9

def isQuoteChar (c : UInt8) : Bool := c = 39 || c = 34

/-! ## Strings -/

/-- The length up to the first `term` that has no backslash in front of it.  The character in front
doesn't count at the place where the search begins again. -/
@[grind =] def stringEnd (term : UInt8) : Option UInt8 → List UInt8 → Option Nat
  | _, [] => none
  | before, c :: s =>
    if c = term then
      if before = some (ascii '\\') then (stringEnd term none s).map (· + 1) else some 0
    else (stringEnd term (some c) s).map (· + 1)

/-- A string without its backslashes.  The character behind a backslash is kept. -/
@[grind =] def unescapeArg : List UInt8 → List UInt8
  | [] => []
  | c :: s =>
    if c = ascii '\\' then
      match s with
      | [] => []
      | d :: s => d :: unescapeArg s
    else c :: unescapeArg s

/-- A string argument, if it ends, and the line from where the search for the next one begins. -/
def readString (ptr : List UInt8) : Option (List UInt8 × List UInt8) :=
  match ptr.head?.filter isQuoteChar with
  | some term =>
    let start := ptr.drop 1
    (stringEnd term none start).map fun l =>
      let s := unescapeArg (start.take l)
      (s, (s ++ start.drop l).drop (s.length + 1))
  | none =>
    let l := (stringEnd (ascii ' ') none ptr).getD ptr.length
    let s := unescapeArg (ptr.take l)
    some (s, s ++ ptr.drop l)

/-! ## Arguments -/

variable {F : Type u}

/-- An argument of a type, and the line for the next one if there may be one. -/
def readArg (lib : FloatLib F) (type : CmdArgType) (ptr : List UInt8) :
    MpCmdArg F × Option (List UInt8) :=
  match type with
  | .int => (⟨.int, .int (atoi ptr)⟩, if atoiErrno ptr then none else some ptr)
  | .float => (⟨.float, .float (lib.atof ptr)⟩, if lib.atofErrno ptr then none else some ptr)
  | .string => (⟨.string, .string ((readString ptr).map Prod.fst)⟩, (readString ptr).map Prod.snd)
  | .void => (⟨.void, .int 0⟩, some ptr)
  | .last => (⟨.last, .int 0⟩, none)

/-- The place of the next argument.  A comment ends the line. -/
def nextArg (ptr : List UInt8) : Option (List UInt8) :=
  match (ptr.dropWhile (!isCmdBlank ·)).dropWhile isCmdBlank with
  | [] => none
  | c :: s => if c = ascii '#' then none else some (c :: s)

/-- The loop over the arguments. -/
@[grind =] def readArgs (lib : FloatLib F) : List (MpCmdArg F) → List UInt8 → List (MpCmdArg F)
  | [], _ => []
  | d :: ds, ptr =>
    match nextArg ptr with
    | none => []
    | some ptr =>
      let r := readArg lib d.type ptr
      r.1 :: match r.2 with
        | none => []
        | some ptr => readArgs lib ds ptr

/-- The word in front that asks for a pause, and what is behind it. -/
def splitPausing (str : List UInt8) : Option Int × List UInt8 :=
  if asciis "pausing " <+: str then (some 1, str.drop 8)
  else if asciis "pausing_keep " <+: str then (some 2, str.drop 13)
  else if asciis "pausing_toggle " <+: str then (some 3, str.drop 15)
  else if asciis "pausing_keep_force " <+: str then (some 4, str.drop 19)
  else (none, str)

/-- Whether a command pauses if that isn't asked for. -/
def pausingFor (pausingDefault : Int) : CmdId → Int
  | .keydownEvents => 4
  | .setMousePos => 4
  | .other _ => pausingDefault

/-- `mp_input_parse_cmd` with a table of commands. -/
def mpInputParseCmd (lib : FloatLib F) (mpCmds : List (MpCmd F)) (pausingDefault : Int)
    (line : List UInt8) : Option (MpCmd F) :=
  let head := splitPausing ((cstr line).dropWhile isCmdBlank)
  let str := head.2
  let l := (str.takeWhile (!isCmdBlank ·)).length
  if l = 0 then none
  else
    match mpCmds.find? fun d => avStrncaseeq d.name str l with
    | none => none
    | some d =>
      let args := readArgs lib d.args str
      if args.length < d.nargs then none
      else some {
        id := d.id
        name := d.name
        nargs := args.length
        args := args ++ (d.args.drop args.length).takeWhile fun a => decide (a.type ≠ .last)
        pausing := head.1.getD (pausingFor pausingDefault d.id) }

end MPlayer
