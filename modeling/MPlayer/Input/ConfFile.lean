import MPlayer.Stream.Text
import MPlayer.Lib.Fuel

/-!
# The file input.conf

`mp_input_parse_config` reads a file of key bindings through a window of `BS_MAX` bytes.  A round
of its loop first fills the window with one `read`, then looks for the end of a comment, for the
name of a key combination, or for a command, and moves the window behind what it has found.

The window is the text in `buffer` up to the NUL.  What `read` gives in its `k`-th call is a
parameter, and so is the table of key names.
-/

namespace MPlayer

open Lib

/-! ## Key names -/

/-- The continuation bytes of `GET_UTF8`. -/
def getUtf8Loop (val top : UInt32) : List UInt8 → Option (UInt32 × List UInt8)
  | [] => if val &&& top = 0 then some (val &&& ((top <<< 1) - 1), []) else none
  | c :: s =>
    if val &&& top = 0 then some (val &&& ((top <<< 1) - 1), c :: s)
    else if (c.toUInt32 - 128) >>> 6 ≠ 0 then none
    else getUtf8Loop ((val <<< 6) + (c.toUInt32 - 128)) (top <<< 5) s

/-- `GET_UTF8` from a string, and what follows, or `none` for an error. -/
def getUtf8 : List UInt8 → Option (UInt32 × List UInt8)
  | [] => none
  | c :: s =>
    let val := c.toUInt32
    if val &&& 0xc0 = 0x80 ∨ 0xFE ≤ val then none else getUtf8Loop val ((val &&& 128) >>> 1) s

/-- `strtol` with base 16 of a string that begins with `0x`. -/
def strtolHex (name : List UInt8) : Int :=
  let ds := ((name.drop 2).map hexVal).takeWhile Option.isSome
  min (ds.foldl (fun n d => n * 16 + (d.getD 0).toNat) 0 : Nat) llongMax

/-- `KEY_BASE`. -/
def keyBase : UInt32 := 0x1000000

/-- `mp_input_get_key_from_name`, with the table of key names. -/
def mpInputGetKeyFromName (keyNames : List (Int × List UInt8)) (name : List UInt8) : Int :=
  match name with
  | [c] => c.toNat
  | _ =>
    if 2 < name.length ∧ avStrncaseeq (asciis "0x") name 2 then toInt32 (strtolHex name)
    else
      match keyNames.find? fun k => avStrcaseeq k.2 name with
      | some k => k.1
      | none =>
        match getUtf8 name with
        | some (utf8, []) => if utf8 < keyBase then utf8.toNat else -1
        | _ => -1

/-- The first name of a combination, and what follows the `-` behind it. -/
def cutKeyName (ptr : List UInt8) : List UInt8 × List UInt8 :=
  let front := ptr.takeWhile (· ≠ ascii '-')
  match ptr.dropWhile (· ≠ ascii '-') with
  | _ :: c :: rest => if c = ascii '-' then (front ++ [c], rest) else (front, c :: rest)
  | _ => (ptr, [])

/-- The loop of `mp_input_get_input_from_name` with room for `n` more keys. -/
def keyLoop (keyNames : List (Int × List UInt8)) : Nat → List UInt8 → Option (List Int)
  | _, [] => some []
  | 0, _ => some []
  | n + 1, ptr =>
    let cut := cutKeyName ptr
    let key := mpInputGetKeyFromName keyNames cut.1
    if key < 0 then none else (keyLoop keyNames n cut.2).map (key :: ·)

/-- `mp_input_get_input_from_name`: the keys up to the zero behind them, or `none` for an unknown
one. -/
def mpInputGetInputFromName (keyNames : List (Int × List UInt8)) (name : List UInt8) :
    Option (List Int) :=
  (keyLoop keyNames 8 name).map fun keys => keys.takeWhile (· ≠ 0)

/-! ## Bindings -/

/-- `SPACE_CHAR`. -/
def isSpaceChar (c : UInt8) : Bool := c = ascii ' ' || c = 10 || c = 13 || c = 9

/-- The sections of `cmd_binds_section`, each with its keys and their commands. -/
abbrev CmdBinds : Type := List (List UInt8 × List (List Int × List UInt8))

/-- The entry for keys set in a section. -/
def setBind (keys : List Int) (cmd : List UInt8) :
    List (List Int × List UInt8) → List (List Int × List UInt8)
  | [] => [(keys, cmd)]
  | b :: bs => if b.1 = keys then (keys, cmd) :: bs else b :: setBind keys cmd bs

/-- A section changed, which is made if it isn't there. -/
def inSection (name : List UInt8)
    (f : List (List Int × List UInt8) → List (List Int × List UInt8)) : CmdBinds → CmdBinds
  | [] => [(name, f [])]
  | s :: ss => if s.1 = name then (s.1, f s.2) :: ss else s :: inSection name f ss

/-- The section in front of a command, and the command. -/
def splitSection (cmd : List UInt8) : List UInt8 × List UInt8 :=
  match cmd with
  | c :: rest =>
    if c = ascii '{' ∧ ascii '}' ∈ rest then
      (rest.takeWhile (· ≠ ascii '}'),
        ((rest.dropWhile (· ≠ ascii '}')).drop 1).dropWhile isSpaceChar)
    else (asciis "default", cmd)
  | [] => (asciis "default", cmd)

/-- `mp_input_bind_keys`. -/
def mpInputBindKeys (keys : List Int) (cmd : List UInt8) (binds : CmdBinds) : CmdBinds :=
  let split := splitSection cmd
  inSection split.1 (setBind keys split.2) binds

/-! ## The window -/

/-- `BS_MAX`. -/
def bsMax : Nat := 256

/-- What a call of `read` is asked to give: up to a number of bytes, `EINTR`, or an error. -/
inductive ReadTry where
  | size (n : Nat)
  | interrupted
  | failed

/-- The local variables of `mp_input_parse_config` and the bindings.  `rest` has not been read, and
`reads` counts the calls of `read`. -/
structure ConfFile where
  rest : List UInt8
  reads : Nat
  eof : Bool
  comments : Bool
  buffer : List UInt8
  keys : List Int
  binds : CmdBinds

/-- How a round of the loop ends. -/
inductive ConfRound where
  | done (res : Int) (binds : CmdBinds)
  | next (s : ConfFile)

/-- How many bytes a `read` of up to `count` gives that is asked for `n`. -/
def readSize (n count left : Nat) : Nat := if left = 0 then 0 else max 1 (min n (min count left))

/-- The text moved to the front of the window. -/
def ConfFile.moveTo (s : ConfFile) (buffer : List UInt8) : ConfFile := { s with buffer := buffer }

/-- The branch in a comment. -/
def confComment (s : ConfFile) : ConfRound :=
  match s.buffer.dropWhile (· ≠ 10) with
  | [] => .next (s.moveTo [])
  | _ :: text => .next { s with comments := false, buffer := text }

/-- The branch for a key combination. -/
def confKeys (keyNames : List (Int × List UInt8)) (s : ConfFile) : ConfRound :=
  let iter := s.buffer.dropWhile isSpaceChar
  match iter with
  | [] => .next (s.moveTo [])
  | c :: _ =>
    if c = ascii '#' then .next { s with comments := true }
    else
      match iter.dropWhile (!isSpaceChar ·) with
      | [] => if s.buffer = iter then .done 0 s.binds else .next (s.moveTo iter)
      | _ :: text =>
        match mpInputGetInputFromName keyNames (iter.takeWhile (!isSpaceChar ·)) with
        | none => .done 0 s.binds
        | some keys => .next { s with keys := keys, buffer := text }

/-- The end of a line in the window. -/
def isConfLineEnd (c : UInt8) : Bool := c = 10 || c = 13

/-- The branch for a command. -/
def confCommand (s : ConfFile) : ConfRound :=
  let iter := s.buffer.dropWhile fun c => c = ascii ' ' || c = 9
  match iter.dropWhile (!isConfLineEnd ·) with
  | [] => if iter = s.buffer then .done 0 s.binds else .next (s.moveTo iter)
  | _ :: text =>
    let cmd := iter.takeWhile (!isConfLineEnd ·)
    if cmd = [] then .next { s with keys := [], buffer := text }
    else .next { s with keys := [], buffer := text, binds := mpInputBindKeys s.keys cmd s.binds }

/-- A round behind the `read`. -/
def confLook (keyNames : List (Int × List UInt8)) (s : ConfFile) : ConfRound :=
  if s.buffer = [] then .done 1 s.binds
  else if s.comments then confComment s
  else if s.keys = [] then confKeys keyNames s
  else confCommand s

/-- The window when a `read` has given `r` bytes. -/
def ConfFile.fill (s : ConfFile) (r : Nat) : ConfFile :=
  { s with
    buffer := cstr (s.buffer ++ s.rest.take r)
    rest := s.rest.drop r
    reads := s.reads + 1
    eof := r = 0 }

/-- How many bytes the `read` of a round gives. -/
def ConfFile.readLength (s : ConfFile) (n : Nat) : Nat :=
  readSize n (bsMax - 1 - s.buffer.length) s.rest.length

/-- A round of the loop. -/
def confRound (keyNames : List (Int × List UInt8)) (read : Nat → ReadTry) (s : ConfFile) :
    ConfRound :=
  if s.eof = true ∨ bsMax - 1 ≤ s.buffer.length then confLook keyNames s
  else
    match read s.reads with
    | .interrupted => .next { s with reads := s.reads + 1 }
    | .failed => .done 0 s.binds
    | .size n => confLook keyNames (s.fill (s.readLength n))

/-- The loop of `mp_input_parse_config`. -/
def confLoop (keyNames : List (Int × List UInt8)) (read : Nat → ReadTry) :
    Nat → ConfFile → Option (Int × CmdBinds)
  | 0, _ => none
  | fuel + 1, s =>
    match confRound keyNames read s with
    | .done res binds => some (res, binds)
    | .next s => confLoop keyNames read fuel s

/-- `mp_input_parse_config` on an open file. -/
def mpInputParseConfig (keyNames : List (Int × List UInt8)) (read : Nat → ReadTry)
    (file : List UInt8) (binds : CmdBinds) (fuel : Nat) : Option (Int × CmdBinds) :=
  confLoop keyNames read fuel ⟨file, 0, false, false, [], [], binds⟩

end MPlayer
