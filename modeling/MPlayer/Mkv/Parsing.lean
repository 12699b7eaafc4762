import MPlayer.Mkv.Header

/-!
# Where the header is read

The functions of `demux_mkv.c` that read the header: where they read, and when their loops over the
elements go on and end.  What they make of the values decides nothing about that and is left out,
but for the entries of a seek head.

*Lengths.*  A loop takes the lengths of each element off the 64-bit number of bytes that it has
left. An id or a length that can't be read leaves the variables `il` and `l` as they were: those of
a function keep the lengths of the element before, and those of a block hold anything (`junk`).

*Rounds.*  No loop is followed for more than `rounds` rounds.  What a run has done is counted beside
the variables of the source.
-/

namespace MPlayer

open Lib

/-! ## States -/

/-- The position in the stream and the variables of the demuxer that decide what is read.  Beside
them stand the number of elements that were read apart from seek heads and cues, the number of
rounds of all loops, whether a round went on without a byte of the stream, and whether the end of
the stream cut off an id or a length. -/
structure ParseState where
  pos : Nat
  parsedCues : List Nat
  parsedSeekhead : List Nat
  chapters : Bool
  others : Nat
  iterations : Nat
  stuck : Bool
  cut : Bool
deriving DecidableEq

/-- The state that `demux_mkv_open` begins with. -/
def ParseState.start : ParseState := ⟨0, [], [], false, 0, 0, false, false⟩

/-- What a run depends on: the file, `segment_start`, `movi_end`, `index_mode`, what the
variables hold that are not set, which memory `malloc` gives, and whether a seek to the end of
the file succeeds. -/
structure ParseEnv where
  file : List UInt8
  segmentStart : Nat
  moviEnd : Nat
  moviEnd_le : moviEnd ≤ file.length
  indexMode : Int
  junk : ParseState → Nat → Nat
  malloc : ParseState → Nat → Bool
  seekEnd : ParseState → Bool
  rounds : Nat

/-- A function is left before its end, or a loop takes more rounds than are followed. -/
inductive ParseStop where
  | left
  | endless
deriving DecidableEq

/-- A part of the code that reads the header. -/
abbrev Parse := EStateM ParseStop ParseState

namespace Parse

variable (env : ParseEnv)

/-! ## Reading -/

/-- The stream at a position. -/
def reader (pos : Nat) : Reader := ⟨pos, env.file.drop pos, false⟩

/-- What the unset variable `x` holds. -/
def junk (x : Nat) : Parse Nat := fun s => .ok (env.junk s x) s

/-- `ebml_read_id`. -/
def readId : Parse (Nat × Option Nat) := fun s =>
  let (id, r) := ebmlReadId (reader env s.pos)
  .ok id { s with pos := r.pos, cut := s.cut || r.eof }

/-- A function of `ebml.c` that begins with `ebml_read_length`. -/
def readElement {α : Type} (read : Reader → α × Reader) : Parse α := fun s =>
  let (a, r) := read (reader env s.pos)
  .ok a { s with pos := r.pos, cut := s.cut || (ebmlReadLength (reader env s.pos)).2.eof }

/-- `ebml_read_length`. -/
def readLength : Parse (Nat × Option Nat) := readElement env ebmlReadLength

/-- `ebml_read_float`: whether it gives a value, and the value of `*length`. -/
def ebmlReadFloat (r : Reader) : (Bool × Option Nat) × Reader :=
  let ((len, l), r) := ebmlReadLength r
  let (bytes, r') := r.read len
  -- the bytes of `EBML_FLOAT_INVALID`
  if len = 4 then ((decide (bytes ≠ [0xCE, 0x6E, 0x6B, 0x28]), l.map (len + ·)), r')
  else if len = 8 then
    ((decide (bytes ≠ [0xC1, 0xCD, 0xCD, 0x65, 0, 0, 0, 0]), l.map (len + ·)), r')
  else ((false, none), r)

/-- `ebml_read_skip`: a length that the end of the stream cuts off is a skip backwards. -/
def readSkip : Parse (Option Nat) := fun s =>
  let ((len, l), r) := ebmlReadLength (reader env s.pos)
  match ebmlReadSkip (reader env s.pos) with
  | some (length, r') => .ok length { s with pos := r'.pos, cut := s.cut || r.eof }
  | none => .ok (l.map (len + ·)) { s with pos := r.pos - (2 ^ 64 - len), cut := s.cut || r.eof }

/-- `stream_read` of `len` bytes, which it takes for an `int`: the number it returns. -/
def streamRead (len : Nat) : Parse Int := fun s =>
  if toInt32 len < 0 then .ok (toInt32 len) s
  else
    let (bytes, r) := (reader env s.pos).read (toInt32 len).toNat
    .ok bytes.length { s with pos := r.pos }

/-- `stream_seek`. -/
def streamSeek (pos : Nat) : Parse Bool := fun s =>
  .ok (decide (pos < env.file.length) || (decide (pos = env.file.length) && env.seekEnd s))
    { s with pos := min pos env.file.length }

/-! ## Loops -/

/-- The variables of a loop. -/
structure Vars where
  length : Nat
  l : Nat
  il : Nat

/-- `length -= l + il`. -/
def Vars.next (v : Vars) (l il : Option Nat) : Vars where
  length := (v.length + 2 ^ 64 - (l.getD v.l + il.getD v.il) % 2 ^ 64) % 2 ^ 64
  l := l.getD v.l
  il := il.getD v.il

/-- A round, counted. -/
def round {σ : Type} (body : Vars × σ → Parse (Vars × σ)) (v : Vars × σ) : Parse (Vars × σ) :=
    fun s =>
  match body v { s with iterations := s.iterations + 1 } with
  | .ok v s' => .ok v { s' with stuck := s'.stuck || decide (s'.pos ≤ s.pos) }
  | .error e s' => .error e s'

/-- `while (length > 0)`, for as many rounds as are followed. -/
def loop {σ : Type} (body : Vars × σ → Parse (Vars × σ)) : Nat → Vars × σ → Parse σ
  | 0, v => if v.1.length = 0 then pure v.2 else throw .endless
  | n + 1, v => if v.1.length = 0 then pure v.2 else round body v >>= loop body n

/-- Where the variables `l` and `il` of a loop are declared. -/
inductive Scope where
  | function
  | block
deriving DecidableEq

/-- What the variables of a loop hold in a round before they are set. -/
def declared (scope : Scope) (v : Vars) : Parse Vars :=
  match scope with
  | .function => return v
  | .block => return { v with l := ← junk env 0, il := ← junk env 1 }

/-- A round of a loop over elements. -/
def elementRound {σ : Type} (scope : Scope) (child : Nat → σ → Parse (σ × Option Nat))
    (v : Vars × σ) : Parse (Vars × σ) := do
  let (id, il) ← readId env
  let v' ← declared env scope v.1
  let (x, l) ← child id v.2
  return (v'.next l il, x)

/-- A loop over elements with `length` bytes left. -/
def elementLoop {σ : Type} (scope : Scope) (child : Nat → σ → Parse (σ × Option Nat))
    (length : Nat) (il : Option Nat) (x : σ) : Parse σ := do
  let l ← junk env 0
  let unset ← junk env 1
  loop (elementRound env scope child) env.rounds (⟨length, l, il.getD unset⟩, x)

/-! ## Elements -/

/-- A number without which the function is left. -/
def uint : Parse (Option Nat) := do
  let (num, l) ← readElement env ebmlReadUint
  if num = ebmlUintInvalid then throw .left else return l

/-- A number. -/
def anyUint : Parse (Option Nat) := do
  let (_, l) ← readElement env ebmlReadUint
  return l

/-- A float without which the function is left. -/
def float : Parse (Option Nat) := do
  let (ok, l) ← readElement env ebmlReadFloat
  if ok then return l else throw .left

/-- A string without which the function is left. -/
def string : Parse (Option Nat) := do
  let (str, l) ← readElement env ebmlReadAscii
  if str.isNone then throw .left else return l

/-- A string. -/
def anyString : Parse (Option Nat) := do
  let (_, l) ← readElement env ebmlReadAscii
  return l

/-- An element with children of its own that is read in place. -/
def master {σ : Type} (child : Nat → σ → Parse (σ × Option Nat)) (x : σ) :
    Parse (σ × Option Nat) := do
  let (len, i) ← readLength env
  let unset ← junk env 2
  let x ← elementLoop env .block child len none x
  return (x, some (len + i.getD unset))

/-- An `int` that is returned, as a number of 64 bits. -/
def returned (len : Nat) : Nat := (toInt32 len % 2 ^ 64).toNat

/-- An element with children that a function of its own reads, which returns 0 if it is left. -/
def called (child : Nat → Parse (Option Nat)) : Parse (Option Nat) := do
  let (length, il) ← readLength env
  let unset ← junk env 2
  let _ ← elementLoop env .function (fun id _ => return ((), ← child id)) length il ()
  let l := returned (length + il.getD unset)
  if l = 0 then throw .left else return some l

/-- An element whose children nothing is kept of. -/
def nested (child : Nat → Parse (Option Nat)) : Parse (Option Nat) := do
  let (_, l) ← master env (fun id _ => return ((), ← child id)) ()
  return l

/-- The elements of the segment that are neither seek heads nor cues: they are counted. -/
def element (child : Nat → Parse (Option Nat)) : Parse Unit := do
  let (length, _) ← readLength env
  let _ ← elementLoop env .function (fun id _ => return ((), ← child id)) length none ()

/-- One more element is read. -/
def opened : Parse Unit := modify fun s => { s with others := s.others + 1 }

/-! ## Information and tracks -/

/-- `demux_mkv_read_info`. -/
def demuxMkvReadInfo : Parse Unit := do
  opened
  element env fun id =>
    if id = 0x2AD7B1 then uint env
    else if id = 0x4489 then float env
    else readSkip env

/-- The settings of a compression. -/
def compSettings : Parse (Option Nat) := do
  let (l, i) ← readLength env
  let unset ← junk env 2
  let _ ← streamRead env l
  return some (l + i.getD unset)

/-- `demux_mkv_read_trackencodings`. -/
def demuxMkvReadTrackencodings : Parse (Option Nat) :=
  called env fun id =>
    if id = 0x6240 then
      nested env fun id =>
        if id = 0x5031 then uint env
        else if id = 0x5032 then uint env
        else if id = 0x5033 then uint env
        else if id = 0x5034 then
          nested env fun id =>
            if id = 0x4254 then uint env
            else if id = 0x4255 then compSettings env
            else readSkip env
        else readSkip env
    else readSkip env

/-- `demux_mkv_read_trackaudio`. -/
def demuxMkvReadTrackaudio : Parse (Option Nat) :=
  called env fun id =>
    if id = 0xB5 then float env
    else if id = 0x6264 then uint env
    else if id = 0x9F then uint env
    else readSkip env

/-- `demux_mkv_read_trackvideo`. -/
def demuxMkvReadTrackvideo : Parse (Option Nat) :=
  called env fun id =>
    if id = 0x2383E3 then float env
    else if id = 0x54B0 then uint env
    else if id = 0x54BA then uint env
    else if id = 0xB0 then uint env
    else if id = 0xBA then uint env
    else readSkip env

/-- The private data of a codec. -/
def codecPrivate : Parse (Option Nat) := do
  let (num, x) ← readLength env
  let unset ← junk env 2
  if 2 ^ 64 - 1 - 1000 < num then throw .left
  else do
    let n ← streamRead env num
    if n ≠ toInt32 num then throw .left else return some (x.getD unset + num)

/-- `demux_mkv_read_trackentry`. -/
def demuxMkvReadTrackentry : Parse (Option Nat) :=
  called env fun id =>
    if id = 0xD7 then uint env
    else if id = 0x536E then string env
    else if id = 0x83 then uint env
    else if id = 0xE1 then demuxMkvReadTrackaudio env
    else if id = 0xE0 then demuxMkvReadTrackvideo env
    else if id = 0x86 then string env
    else if id = 0x63A2 then codecPrivate env
    else if id = 0x22B59C then string env
    else if id = 0x88 then uint env
    else if id = 0x23E383 then uint env
    else if id = 0x6D80 then demuxMkvReadTrackencodings env
    else readSkip env

/-- `demux_mkv_read_tracks`. -/
def demuxMkvReadTracks : Parse Unit := do
  opened
  element env fun id =>
    if id = 0xAE then demuxMkvReadTrackentry env else readSkip env

/-! ## Cues, tags, chapters and attachments -/

/-- An element that is skipped. -/
def skipped : Parse Unit := do
  let _ ← readSkip env

/-- The points of the cues. -/
def cuePoints : Parse Unit :=
  element env fun id =>
    if id = 0xBB then
      nested env fun id =>
        if id = 0xB3 then anyUint env
        else if id = 0xB7 then
          nested env fun id =>
            if id = 0xF7 then anyUint env
            else if id = 0xF1 then anyUint env
            else readSkip env
        else readSkip env
    else readSkip env

/-- `demux_mkv_read_cues`: cues are read only once. -/
def demuxMkvReadCues : Parse Unit := do
  let s ← get
  if env.indexMode = 0 ∨ s.pos ∈ s.parsedCues then skipped env
  else do
    set { s with parsedCues := s.parsedCues ++ [s.pos] }
    cuePoints env

/-- `demux_mkv_read_tags`. -/
def demuxMkvReadTags : Parse Unit := skipped env

/-- A chapter, behind which `demuxer->chapters` is set. -/
def chapterAtom : Parse (Option Nat) := do
  let l ← nested env fun id =>
    if id = 0x91 then anyUint env
    else if id = 0x92 then anyUint env
    else if id = 0x80 then
      nested env fun id => if id = 0x85 then anyString env else readSkip env
    else readSkip env
  modify fun s => { s with chapters := true }
  return l

/-- `demux_mkv_read_chapters`: nothing is read if there are chapters. -/
def demuxMkvReadChapters : Parse Unit := do
  let s ← get
  if s.chapters then skipped env
  else do
    opened
    element env fun id =>
      if id = 0x45B9 then
        nested env fun id => if id = 0xB6 then chapterAtom env else readSkip env
      else readSkip env

/-- The data of an attachment. -/
def fileData : Parse (Option Nat) := do
  let (num, x) ← readLength env
  let unset ← junk env 2
  let s ← get
  if env.malloc s num = false then throw .left
  else do
    let n ← streamRead env num
    if n ≠ toInt32 num then throw .left else return some (x.getD unset + num)

/-- `demux_mkv_read_attachments`. -/
def demuxMkvReadAttachments : Parse Unit := do
  opened
  element env fun id =>
    if id = 0x61A7 then
      nested env fun id =>
        if id = 0x466E then string env
        else if id = 0x4660 then string env
        else if id = 0x465C then fileData env
        else readSkip env
    else readSkip env

/-! ## Seek heads -/

/-- The value that a function returns: whether it was left. -/
def failed (f : Parse Unit) : Parse Bool := fun s =>
  match f s with
  | .ok _ s' => .ok false s'
  | .error .left s' => .ok true s'
  | .error .endless s' => .error .endless s'

/-- `seek_id` and `seek_pos`. -/
structure SeekEntry where
  seekId : Nat
  seekPos : Nat

/-- An entry of a seek head. -/
def seekEntry (id : Nat) (e : SeekEntry) : Parse (SeekEntry × Option Nat) :=
  if id = 0x53AB then do
    let (num, l) ← readElement env ebmlReadUint
    return (if num ≠ ebmlUintInvalid then { e with seekId := num % 2 ^ 32 } else e, l)
  else if id = 0x53AC then do
    let (num, l) ← readElement env ebmlReadUint
    return ({ e with seekPos := num }, l)
  else return (e, ← readSkip env)

/-- The element that an entry leads to, and the value of `il` behind that. -/
def follow (seekhead : Parse Unit) (seekId : Nat) : Parse (Bool × Option Nat) := do
  let (id, il) ← readId env
  if id ≠ seekId then return (true, il)
  else if seekId = 0x1C53BB6B then return (← failed (demuxMkvReadCues env), il)
  else if seekId = 0x1254C367 then return (← failed (demuxMkvReadTags env), il)
  else if seekId = 0x114D9B74 then return (← failed seekhead, il)
  else if seekId = 0x1043A770 then return (← failed (demuxMkvReadChapters env), il)
  else return (false, il)

/-- The way to another position of the stream, and what is read there. -/
def away (pos : Nat) (there : Parse (Bool × Option Nat)) : Parse (Bool × Option Nat) := do
  let found ← streamSeek env pos
  if found then there else return (true, none)

/-- The way back to `saved_pos`. -/
def back (saved : Nat) (r : Bool × Option Nat) : Parse (Option Nat) := do
  let _ ← streamSeek env saved
  if r.1 then throw .left else return r.2

/-- A detour to another position of the stream. -/
def detour (pos : Nat) (there : Parse (Bool × Option Nat)) : Parse (Option Nat) := do
  let s ← get
  away env pos there >>= back env s.pos

/-- A round of the loop over a seek head, which is left if an entry leads nowhere. -/
def seekheadRound (seekhead : Parse Unit) (v : Vars × Unit) : Parse (Vars × Unit) := do
  let (id, il) ← readId env
  let (e, l) ←
    if id = 0x4DBB then master env (seekEntry env) ⟨0, ebmlUintInvalid⟩
    else do
      let l ← readSkip env
      pure (⟨0, ebmlUintInvalid⟩, l)
  let v := v.1.next l il
  let target := (env.segmentStart + e.seekPos) % 2 ^ 64
  if e.seekId = 0 ∨ e.seekId = 0x1F43B675 ∨ e.seekPos = ebmlUintInvalid ∨ env.moviEnd ≤ target then
    return (v, ())
  else do
    let il ← detour env target (follow env seekhead e.seekId)
    return ({ v with il := il.getD v.il }, ())

/-- `demux_mkv_read_seekhead`: a seek head is read only once.  If an entry leads nowhere, the rest
is skipped with a seek. -/
def demuxMkvReadSeekhead : Nat → Parse Unit
  | 0 => throw .endless
  | depth + 1 => do
    let s ← get
    if s.pos ∈ s.parsedSeekhead then skipped env
    else if intMax ≤ s.parsedSeekhead.length then return
    else do
      set { s with parsedSeekhead := s.parsedSeekhead ++ [s.pos] }
      let (length, _) ← readLength env
      let s ← get
      let l ← junk env 0
      let il ← junk env 1
      let res ← failed (loop (seekheadRound env (demuxMkvReadSeekhead depth)) env.rounds
        (⟨length, l, il⟩, ()))
      if res then do
        let off := (s.pos + length) % 2 ^ 64
        let found ← streamSeek env (if off < 2 ^ 63 then off else 0)
        if found then return else throw .left
      else return

/-! ## Headers -/

/-- The elements of a segment that are read before the clusters. -/
inductive HeaderElement where
  | info
  | tracks
  | cues
  | tags
  | seekhead
  | chapters
  | attachments
deriving DecidableEq

/-- The function that reads an element. -/
def readHeaderElement : HeaderElement → Parse Unit
  | .info => demuxMkvReadInfo env
  | .tracks => demuxMkvReadTracks env
  | .cues => demuxMkvReadCues env
  | .tags => demuxMkvReadTags env
  | .seekhead => demuxMkvReadSeekhead env env.rounds
  | .chapters => demuxMkvReadChapters env
  | .attachments => demuxMkvReadAttachments env

/-- Elements read one after the other, each at a position of the stream. -/
def readHeader : List (Nat × HeaderElement) → Parse Unit
  | [] => return
  | (pos, e) :: es => do
    let _ ← streamSeek env pos
    let _ ← failed (readHeaderElement env e)
    readHeader es

end Parse

end MPlayer
