import Mathlib.Logic.Function.Basic

/-!
# Closed captions

`cc_decode_EIA608` gets two bytes at a time.  Characters are appended to the last line of the back
buffer, and control codes begin a line, clear a buffer, swap the two, or choose between roll-on mode
and roll-up mode, where a new line scrolls the buffer.

A line is the memory that `calloc` gives, so its text ends at the first zero.  All allocations
succeed. What is displayed decides nothing here and is left out.
-/

namespace MPlayer

/-! ## Buffers -/

/-- `SUB_MAX_TEXT`. -/
def subMaxText : Nat := 12

/-- `CC_MAX_LINE_LENGTH`. -/
def ccMaxLineLength : Nat := 64

/-- The fields of a `subtitle` that hold its text. -/
structure CcBuffer where
  lines : Nat
  text : Nat → Option (List UInt8)

namespace CcBuffer

/-- The length of the text of the last line. -/
def lastLength (buf : CcBuffer) : Nat :=
  match buf.text (buf.lines - 1) with
  | some line => (line.takeWhile (· ≠ 0)).length
  | none => 0

/-- `clear_buffer`. -/
def clear (buf : CcBuffer) : CcBuffer where
  lines := 0
  text := fun i => if i < subMaxText then none else buf.text i

/-- A new text for the last line. -/
def setLast (buf : CcBuffer) (line : List UInt8) : CcBuffer :=
  { buf with text := Function.update buf.text (buf.lines - 1) (some line) }

/-- A turn of the loop in `scroll_buffer`. -/
def scrollOnce (buf : CcBuffer) : CcBuffer where
  lines := buf.lines - 1
  text := fun i =>
    if i < buf.lines - 1 then buf.text (i + 1)
    else if i = buf.lines - 1 then none
    else buf.text i

/-- The loop in `scroll_buffer`, with so many turns at most. -/
def scrollLoop (ccLines : Nat) : Nat → CcBuffer → CcBuffer
  | 0, buf => buf
  | turns + 1, buf => if ccLines < buf.lines then scrollLoop ccLines turns buf.scrollOnce else buf

/-- `scroll_buffer`. -/
def scroll (ccLines : Nat) (buf : CcBuffer) : CcBuffer := scrollLoop ccLines buf.lines buf

end CcBuffer

/-! ## The decoder -/

/-- `cc_mode`. -/
inductive CcMode where
  | rollOn
  | rollUp
deriving DecidableEq

/-- The static variables of `sub_cc.c`. -/
structure ClosedCaptions where
  fb : CcBuffer
  bb : CcBuffer
  cursorPos : Nat
  ccMode : CcMode
  ccLines : Nat
  channel : Int
  lastcode : UInt16

/-- `chartbl`. -/
def chartbl (c : UInt8) : UInt8 :=
  if c = 0x2a then 0xe1
  else if c = 0x5c then 0xe9
  else if c = 0x5e then 0xed
  else if c = 0x5f then 0xf3
  else if c = 0x60 then 0xfa
  else if c = 0x7b then 0xe7
  else if c = 0x7c then 0xf7
  else if c = 0x7d then 0xd1
  else if c = 0x7e then 0xf1
  else if c = 0x7f then 0xa4
  else c

/-- The character `'\n'`. -/
def newline : UInt8 := 10

namespace ClosedCaptions

/-- The variables behind `subcc_init`. -/
def init : ClosedCaptions where
  fb := ⟨0, fun _ => none⟩
  bb := ⟨0, fun _ => none⟩
  cursorPos := 0
  ccMode := .rollOn
  ccLines := 4
  channel := -1
  lastcode := 0

/-- The line that `calloc` gives. -/
def emptyLine : List UInt8 := List.replicate ccMaxLineLength 0

/-- The first line, if there is none. -/
def firstLine (s : ClosedCaptions) : ClosedCaptions :=
  if s.bb.lines = 0 then { s with bb := { s.bb with lines := 1 }, cursorPos := 0 } else s

/-- Memory for the last line, if it has none. -/
def allocLine (s : ClosedCaptions) : ClosedCaptions :=
  match s.bb.text (s.bb.lines - 1) with
  | some _ => s
  | none => { s with bb := s.bb.setLast emptyLine, cursorPos := 0 }

/-- The next line.  In roll-up mode the buffer is scrolled. -/
def newLine (s : ClosedCaptions) : ClosedCaptions :=
  if 0 < s.cursorPos ∧ s.bb.lines < subMaxText then
    let s := { s with bb := { s.bb with lines := s.bb.lines + 1 }, cursorPos := 0 }
    match s.ccMode with
    | .rollOn => s
    | .rollUp => { s with bb := (s.bb.setLast emptyLine).scroll s.ccLines }
  else s

/-- A character at the cursor, if there is room for it. -/
def putChar (c : UInt8) (s : ClosedCaptions) : ClosedCaptions :=
  if s.cursorPos = ccMaxLineLength - 1 then s
  else
    let line := (s.bb.text (s.bb.lines - 1)).getD []
    { s with bb := s.bb.setLast (line.set s.cursorPos c), cursorPos := s.cursorPos + 1 }

/-- `append_char`. -/
def appendChar (c : UInt8) (s : ClosedCaptions) : ClosedCaptions :=
  let s := s.firstLine.allocLine
  if c = newline then s.newLine else s.putChar c

/-- The codes with `c1` = 0x14. -/
def command (c2 : UInt8) (s : ClosedCaptions) : ClosedCaptions :=
  if c2 = 0x00 then { s with ccMode := .rollOn }
  else if c2 = 0x25 ∨ c2 = 0x26 ∨ c2 = 0x27 then
    { s with ccLines := (c2 - 0x23).toNat, ccMode := .rollUp }
  else if c2 = 0x2c then { s with fb := s.fb.clear }
  else if c2 = 0x2d then s.appendChar newline
  else if c2 = 0x2e then { s with bb := s.bb.clear }
  else if c2 = 0x2f then { s with fb := s.bb, bb := s.fb.clear }
  else s

/-- A control code of the selected channel, which is not the same as the last code. -/
def control (c1 c2 : UInt8) (s : ClosedCaptions) : ClosedCaptions :=
  if c2 &&& 0x40 ≠ 0 then s.appendChar newline
  else if c1 = 0x14 then s.command c2
  else s

/-- The first byte without its parity. -/
def c1 (data : UInt16) : UInt8 := data.toUInt8 &&& 0x7f

/-- The second byte without its parity. -/
def c2 (data : UInt16) : UInt8 := (data >>> 8).toUInt8 &&& 0x7f

/-- The channel of a control code. -/
def channelOf (data : UInt16) : Int := ((c1 data &&& 0x08) >>> 3).toNat

/-- `cc_decode_EIA608`, where `selected` is the value of `selected_channel`. -/
def decode (selected : Int) (data : UInt16) (s : ClosedCaptions) : ClosedCaptions :=
  if c1 data &&& 0x60 ≠ 0 then
    if s.channel ≠ selected % 2 then s
    else
      let s := s.appendChar (chartbl (c1 data))
      let s := if c2 data &&& 0x60 ≠ 0 then s.appendChar (chartbl (c2 data)) else s
      { s with lastcode := data }
  else if c1 data &&& 0x10 ≠ 0 then
    let s := { s with channel := channelOf data }
    if s.channel ≠ selected % 2 then s
    else
      let s := if data ≠ s.lastcode then s.control (c1 data &&& 0xf7) (c2 data) else s
      { s with lastcode := data }
  else { s with lastcode := data }

end ClosedCaptions

end MPlayer
