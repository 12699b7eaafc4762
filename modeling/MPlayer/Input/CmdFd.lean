import MPlayer.Lib.Lines

/-!
# Command file descriptors

A command fd delivers the text of slave mode commands in pieces of any size.
`mp_input_read_cmd` collects them in a buffer of `MP_CMD_MAX_SIZE` bytes and takes
one command out of it at each call.

The buffer is kept as the bytes before `pos`, so `pos` is its length, and the NUL
that the code writes behind them ends every search.  What the `read_func` of the fd
answers is given as a list.
-/

namespace MPlayer

open Lib

/-! ## Data -/

/-- `MP_CMD_MAX_SIZE`. -/
def mpCmdMaxSize : Nat := 4096

/-- `mp_input_fd_t` of a command fd. -/
structure MpInputFd where
  eof : Bool
  drop : Bool
  dead : Bool
  gotCmd : Bool
  noSelect : Bool
  buffer : Option (List UInt8)
  size : Nat
deriving DecidableEq

/-- `mp_input_add_cmd_fd`. -/
def mpInputAddCmdFd (select : Bool) : MpInputFd where
  eof := false
  drop := false
  dead := false
  gotCmd := false
  noSelect := !select
  buffer := none
  size := 0

/-- An answer of a `read_func`. -/
inductive CmdRead where
  | error
  | dead
  | nothing
  | retry
  | eof
  | data (bytes : List UInt8)
deriving DecidableEq

/-- What `mp_input_read_cmd` returns. -/
inductive CmdResult where
  | cmd (text : List UInt8)
  | nothing
  | error
  | dead
deriving DecidableEq

/-- The command returned, if there is one. -/
def CmdResult.text : CmdResult → List (List UInt8)
  | cmd text => [text]
  | _ => []

/-- What is returned with `*ret`. -/
def CmdResult.ofRet : Option (List UInt8) → CmdResult
  | some text => cmd text
  | none => nothing

/-! ## Finding the end of a command -/

/-- `strchr` on bytes with a NUL behind them: the index of the first `c`. -/
def strchr (s : List UInt8) (c : UInt8) : Option Nat :=
  (s.takeWhile fun b => b ≠ 0).findIdx? fun b => b = c

/-- `end = strchr(buffer,'\r'); if (end) *end = '\n';`. -/
def crToLf (s : List UInt8) : List UInt8 :=
  match strchr s 13 with
  | some i => s.set i 10
  | none => s

/-! ## `mp_input_read_cmd` -/

/-- Allocate the buffer if it doesn't exist. -/
def mpInputAlloc (fd : MpInputFd) : MpInputFd :=
  match fd.buffer with
  | none => { fd with buffer := some [], size := mpCmdMaxSize }
  | some _ => fd

/-- There is room for data, and some is needed and possible. -/
def MpInputFd.wantsData (fd : MpInputFd) (buf : List UInt8) : Bool :=
  !fd.gotCmd && !fd.eof && fd.size - buf.length > 1

/-- The first loop.  It gives a result if the call returns there, and the answers it
has not asked for. -/
def mpInputReadData (fd : MpInputFd) (buf : List UInt8) (reads : List CmdRead) :
    Option (Option CmdResult × MpInputFd × List CmdRead) :=
  if fd.wantsData buf then
    match reads with
    | [] => none
    | .error :: reads => some (some .error, fd, reads)
    | .dead :: reads => some (some .dead, fd, reads)
    | .nothing :: reads => some (some .nothing, fd, reads)
    | .retry :: reads => mpInputReadData fd buf reads
    | .eof :: reads => some (none, { fd with eof := true }, reads)
    | .data bytes :: reads => some (none, { fd with buffer := some (buf ++ bytes) }, reads)
  else some (none, fd, reads)

/-- The second loop, with the command found so far. -/
def mpInputTakeCmd : Nat → MpInputFd → List UInt8 → Option (List UInt8) →
    Option (MpInputFd × Option (List UInt8))
  | 0, _, _, _ => none
  | fuel + 1, fd, buf, ret =>
    let buf := crToLf buf
    match strchr buf 10 with
    | none =>
      if fd.size - buf.length ≤ 1 then
        some ({ fd with buffer := some [], drop := true }, ret)
      else some ({ fd with buffer := some buf }, ret)
    | some l =>
      if ret.isSome then some ({ fd with buffer := some buf, gotCmd := true }, ret)
      else if fd.drop then mpInputTakeCmd fuel { fd with drop := false } (buf.drop (l + 1)) none
      else mpInputTakeCmd fuel fd (buf.drop (l + 1)) (some (buf.take l))

/-- What `mp_input_read_cmd` does after its first loop. -/
def mpInputNextCmd (fuel : Nat) (fd : MpInputFd) : Option (CmdResult × MpInputFd) :=
  (mpInputTakeCmd fuel { fd with gotCmd := false } (fd.buffer.getD []) none).map fun (fd, ret) =>
    (.ofRet ret, fd)

/-- `mp_input_read_cmd`. -/
def mpInputReadCmd (fuel : Nat) (reads : List CmdRead) (fd : MpInputFd) :
    Option (CmdResult × MpInputFd × List CmdRead) :=
  let fd := mpInputAlloc fd
  (mpInputReadData fd (fd.buffer.getD []) reads).bind fun (early, fd, reads) =>
    match early with
    | some result => some (result, fd, reads)
    | none => (mpInputNextCmd fuel fd).map fun (result, fd) => (result, fd, reads)

/-! ## `read_events` -/

/-- Whether `read_events` removes the fd before it reads any. -/
def MpInputFd.isRemoved (fd : MpInputFd) : Bool := fd.dead || fd.eof

/-- What `read_events` does with a command fd, where `isset` is the answer of
`select`: the command read, if there is one. -/
def readEventsCmdFd (fuel : Nat) (isset : Bool) (reads : List CmdRead) (fd : MpInputFd) :
    Option (List (List UInt8) × MpInputFd × List CmdRead) :=
  if !fd.noSelect && !isset && !fd.gotCmd then some ([], fd, reads)
  else
    (mpInputReadCmd fuel reads fd).map fun (result, fd, reads) =>
      (result.text, if result = .dead then { fd with dead := true } else fd, reads)

end MPlayer
