import MPlayer.Lib.Loops
import Mathlib.Algebra.Group.Nat.Defs

/-!
# QuickTime sample tables

`lschunks_intrak` reads the tables of a track atom by atom, and `mov_build_index` expands them into
a sample table.  The chunks come from `stco` or `co64`, their numbers of samples from `stsc`, the
sizes of the samples from `stsz` and their durations from `stts`.

An atom comes with the numbers that the stream gives from its body on, however long it claims to
be.  An array has its length and, as in the track, a size of its own.  Any allocation may fail.
-/

namespace MPlayer

open Lib

/-- A number as `int`. -/
@[irreducible] def cInt (n : Int) : Int := (n + 0x80000000) % 0x100000000 - 0x80000000

/-- A number as `off_t`. -/
@[irreducible] def offT (n : Int) : Int :=
  (n + 0x8000000000000000) % 0x10000000000000000 - 0x8000000000000000

/-- More turns than an `int` counts. -/
@[irreducible] def turns : Nat := 0x80000000

/-- `mov_sample_t`. -/
structure MovSample where
  pts : UInt32
  size : UInt32
  pos : Int
deriving DecidableEq

/-- `mov_chunk_t`. -/
structure MovChunk where
  sample : UInt32
  size : UInt32
  desc : Int
  pos : Int
deriving DecidableEq

/-- `mov_chunkmap_t`. -/
structure MovChunkmap where
  first : UInt32
  spc : UInt32
  sdid : UInt32
deriving DecidableEq

/-- `mov_durmap_t`. -/
structure MovDurmap where
  num : UInt32
  dur : UInt32
deriving DecidableEq

/-- `mov_editlist_t`. -/
structure MovEditlist where
  dur : UInt32
  pos : UInt32
  speed : Int
  frames : Int
  startSample : Int
  startFrame : Int
  ptsOffset : Int
deriving DecidableEq

inductive MovTrakType where
  | unknown
  | video
  | audio
  | generic
deriving DecidableEq

/-- The fields of `mov_track_t` that hold tables or steer their use. -/
structure MovTrack where
  type : MovTrakType
  timescale : Int
  samplesize : Int
  duration : Int
  samplesSize : Int
  samples : List MovSample
  chunksSize : Int
  chunks : List MovChunk
  chunkmapSize : Int
  chunkmap : List MovChunkmap
  durmapSize : Int
  durmap : List MovDurmap
  editlistSize : Int
  editlist : List MovEditlist
deriving DecidableEq

/-- A track from `calloc`. -/
def MovTrack.zero : MovTrack := ⟨.unknown, 0, 0, 0, 0, [], 0, [], 0, [], 0, [], 0, []⟩

def MovSample.zero : MovSample := ⟨0, 0, 0⟩

def MovChunk.zero : MovChunk := ⟨0, 0, 0, 0⟩

def MovEditlist.zero : MovEditlist := ⟨0, 0, 0, 0, 0, 0, 0⟩

/-- Whether a request for this many elements is met. -/
abbrev Heap := Nat → Bool

/-- An array of `n` elements and its size.  A negative `n` asks for more bytes than there are. -/
@[irreducible] def callocArray {α : Type} (heap : Heap) (n : Int) (zero : α) : List α × Int :=
  if 0 ≤ n ∧ heap n.toNat then (List.replicate n.toNat zero, n) else ([], 0)

/-! ## Reading the tables -/

/-- An atom of a track, with the numbers that follow its header. -/
inductive MovAtom where
  | mdhd (timescale : UInt32)
  | vmhd
  | smhd
  | gmhd
  | nmhd
  | stts (len : UInt32) (rows : Nat → MovDurmap)
  | stsc (len : UInt32) (rows : Nat → MovChunkmap)
  | stsz (ss entries : UInt32) (sizes : Nat → UInt32)
  | stco (len : UInt32) (offsets : Nat → UInt32)
  | co64 (len : UInt32) (offsets : Nat → UInt64)
  | elst (entries : UInt32) (dur pos speed : Nat → UInt32)

/-- The chunk table, longer if needed. -/
def MovTrack.extendChunks (t : MovTrack) (heap : Heap) (len : Int) : MovTrack :=
  if t.chunksSize < len then
    let r := callocArray heap len MovChunk.zero
    { t with chunks := r.1, chunksSize := r.2 }
  else t

/-- `lschunks_intrak`. -/
def lschunksIntrak (heap : Heap) (t : MovTrack) : MovAtom → Except Halt MovTrack
  | .mdhd timescale => return { t with timescale := cInt timescale.toNat }
  | .vmhd => return { t with type := .video }
  | .smhd => return { t with type := .audio }
  | .gmhd => return { t with type := .generic }
  | .nmhd => return { t with type := .generic }
  | .stts len rows => do
      let r := callocArray heap (cInt len.toNat) (⟨0, 0⟩ : MovDurmap)
      let durmap ← each turns r.2 (fun i _ => rows i) r.1
      return { t with durmap := durmap, durmapSize := r.2 }
  | .stsc len rows => do
      let r := callocArray heap (cInt len.toNat) (⟨0, 0, 0⟩ : MovChunkmap)
      let chunkmap ← each turns r.2 (fun i _ => { rows i with first := (rows i).first - 1 }) r.1
      return { t with chunkmap := chunkmap, chunkmapSize := r.2 }
  | .stsz ss entries sizes =>
    if ss = 0 then do
      let r := callocArray heap (cInt entries.toNat) MovSample.zero
      let samples ← each turns r.2 (fun i x => { x with size := sizes i }) r.1
      return { t with samplesize := cInt ss.toNat, samples := samples, samplesSize := r.2 }
    else return { t with samplesize := cInt ss.toNat }
  | .stco len offsets => do
      let t := t.extendChunks heap (cInt len.toNat)
      let chunks ← each turns t.chunksSize (fun i c => { c with pos := (offsets i).toNat }) t.chunks
      return { t with chunks := chunks }
  | .co64 len offsets => do
      let t := t.extendChunks heap (cInt len.toNat)
      let chunks ← each turns t.chunksSize
        (fun i c => { c with pos := offT (offsets i).toNat }) t.chunks
      return { t with chunks := chunks }
  | .elst entries dur pos speed => do
      let r := callocArray heap (cInt entries.toNat) MovEditlist.zero
      let editlist ← each turns r.2
        (fun i el => { el with dur := dur i, pos := pos i, speed := cInt (speed i).toNat }) r.1
      return { t with editlist := editlist, editlistSize := r.2 }

/-- The atoms of a track, each with the heap at its time. -/
def lschunks (t : MovTrack) : List (Heap × MovAtom) → Except Halt MovTrack
  | [] => return t
  | (heap, a) :: atoms => do lschunks (← lschunksIntrak heap t a) atoms

/-! ## Building the index -/

/-- `FFMIN` of an `unsigned` and an `int`. -/
def ffmin (a : UInt32) (b : Int) : UInt32 := if UInt32.ofInt b < a then UInt32.ofInt b else a

/-- A chunk with the values of an entry of the chunk map. -/
def MovChunk.describe (c : MovChunk) (m : MovChunkmap) : MovChunk :=
  { c with desc := cInt m.sdid.toNat, size := m.spc }

/-- A turn of the loop over the chunks of an entry. -/
def describeTurn (m : MovChunkmap) (last : Int) (s : Int × List MovChunk) :
    Except Halt (Turn (Int × List MovChunk)) :=
  if 0 ≤ s.1 ∧ s.1 < last then do
    return .again (s.1 + 1, ← amend s.2 s.1 fun c => c.describe m)
  else return .leave s

/-- The variables of the loop over the chunk map. -/
structure ChunkmapLoop where
  i : Int
  last : Int
  chunks : List MovChunk

def chunkmapTurn (t : MovTrack) (s : ChunkmapLoop) : Except Halt (Turn ChunkmapLoop) :=
  if 0 < s.i then do
    let i := s.i - 1
    let m ← fetch t.chunkmap i
    let (_, chunks) ← loop (describeTurn m s.last) turns (cInt m.first.toNat, s.chunks)
    return .again ⟨i, cInt (ffmin m.first t.chunksSize).toNat, chunks⟩
  else return .leave s

/-- The chunks after processing the chunk map. -/
def processChunkmap (t : MovTrack) : Except Halt (List MovChunk) := do
  return (← loop (chunkmapTurn t) turns ⟨t.chunkmapSize, t.chunksSize, t.chunks⟩).chunks

/-- The variables of the loop that numbers the samples of the chunks. -/
structure NumberLoop where
  j : Int
  s : Int
  chunks : List MovChunk

def numberTurn (chunksSize : Int) (l : NumberLoop) : Except Halt (Turn NumberLoop) :=
  if l.j < chunksSize then do
    let chunks ← amend l.chunks l.j fun c => { c with sample := UInt32.ofInt l.s }
    let c ← fetch chunks l.j
    return .again ⟨l.j + 1, cInt (l.s + c.size.toNat), chunks⟩
  else return .leave l

/-- A turn of the loop that counts the samples of the duration table. -/
def countTurn (t : MovTrack) (l : Int × Int) : Except Halt (Turn (Int × Int)) :=
  if l.1 < t.durmapSize then do
    let r ← fetch t.durmap l.1
    return .again (l.1 + 1, cInt (l.2 + r.num.toNat))
  else return .leave l

/-- The variables of the loops over the samples. -/
structure SampleLoop where
  i : Int
  s : Int
  samples : List MovSample

/-- A turn of the loop over the samples of a duration; the time is a variable of it, too. -/
def durationTurn (t : MovTrack) (r : MovDurmap) (l : UInt32 × SampleLoop) :
    Except Halt (Turn (UInt32 × SampleLoop)) :=
  if l.2.i < r.num.toNat then
    if l.2.s ≥ t.samplesSize then return .leave l
    else do
      let samples ← amend l.2.samples l.2.s fun x => { x with pts := l.1 }
      return .again (l.1 + r.dur, ⟨l.2.i + 1, l.2.s + 1, samples⟩)
  else return .leave l

def durmapTurn (t : MovTrack) (l : Int × UInt32 × SampleLoop) :
    Except Halt (Turn (Int × UInt32 × SampleLoop)) :=
  if l.1 < t.durmapSize then do
    let r ← fetch t.durmap l.1
    return .again (l.1 + 1, ← loop (durationTurn t r) turns (l.2.1, { l.2.2 with i := 0 }))
  else return .leave l

/-- The samples with their times. -/
def calcPts (t : MovTrack) : Except Halt (List MovSample) := do
  return (← loop (durmapTurn t) turns (0, 0, ⟨0, 0, t.samples⟩)).2.2.samples

/-- A turn of the loop over the samples of a chunk; the position is a variable of it, too. -/
def offsetTurn (t : MovTrack) (c : MovChunk) (l : Int × SampleLoop) :
    Except Halt (Turn (Int × SampleLoop)) :=
  if l.2.i < c.size.toNat then
    if l.2.s ≥ t.samplesSize then return .leave l
    else do
      let samples ← amend l.2.samples l.2.s fun x => { x with pos := l.1 }
      let x ← fetch samples l.2.s
      return .again (offT (l.1 + x.size.toNat), ⟨l.2.i + 1, l.2.s + 1, samples⟩)
  else return .leave l

def chunkTurn (t : MovTrack) (l : Int × SampleLoop) : Except Halt (Turn (Int × SampleLoop)) :=
  if l.1 < t.chunksSize then do
    let c ← fetch t.chunks l.1
    let (_, s) ← loop (offsetTurn t c) turns (c.pos, { l.2 with i := 0 })
    return .again (l.1 + 1, s)
  else return .leave l

/-- The samples with their positions. -/
def calcOffsets (t : MovTrack) : Except Halt (List MovSample) := do
  return (← loop (chunkTurn t) turns (0, ⟨0, 0, t.samples⟩)).2.samples

/-- A turn of a loop that looks for a sample. -/
def searchTurn (t : MovTrack) (found : UInt32 → Bool) (sample : Int) :
    Except Halt (Turn Int) :=
  if sample < t.samplesSize then do
    if found (← fetch t.samples sample).pts then return .leave sample
    else return .again (sample + 1)
  else return .leave sample

/-- Division, which traps on 0. -/
def divide (a b : Int) : Except Halt Int := if b = 0 then .error .divide else .ok (a.tdiv b)

/-- The variables of the loop over the edit list. -/
structure EditLoop where
  i : Int
  frame : Int
  ePts : Int
  editlist : List MovEditlist

def editTurn (timescale : Int) (t : MovTrack) (l : EditLoop) : Except Halt (Turn EditLoop) :=
  if l.i < t.editlistSize then do
    let el ← fetch l.editlist l.i
    let pts := cInt el.pos.toNat
    if pts < 0 then
      let skip ← store l.editlist l.i { el with startFrame := l.frame, frames := 0 }
      return .again { l with i := l.i + 1, editlist := skip }
    else
      let first ← loop (searchTurn t fun p => UInt32.ofInt pts ≤ p) turns 0
      if first ≥ t.samplesSize then
        let skip ← store l.editlist l.i { el with startFrame := l.frame, frames := 0 }
        return .again { l with i := l.i + 1, editlist := skip }
      else
        let start ← fetch t.samples first
        let offset ← divide (l.ePts * t.timescale) timescale
        let length ← divide (el.dur.toNat * t.timescale) timescale
        let last ← loop (searchTurn t fun p => UInt32.ofInt (cInt (pts + length)) < p) turns first
        let editlist ← store l.editlist l.i
          { el with
            startFrame := l.frame
            startSample := first
            ptsOffset := cInt (offset - start.pts.toNat)
            frames := last - first }
        return .again
          ⟨l.i + 1, cInt (l.frame + (last - first)), cInt (l.ePts + el.dur.toNat), editlist⟩
  else return .leave l

/-- The track with its edit list worked out. -/
def precalcEditlist (timescale : Int) (t : MovTrack) : Except Halt MovTrack := do
  return { t with editlist := (← loop (editTurn timescale t) turns ⟨0, 0, 0, t.editlist⟩).editlist }

/-- The workaround for video frames of a fixed size. -/
def fixedSizeFrames (heap : Heap) (s : Int) (t : MovTrack) : Except Halt MovTrack :=
  if t.samplesSize = 0 ∧ t.type ≠ .audio then do
    let r := callocArray heap s MovSample.zero
    let samples ← each turns r.2 (fun _ x => { x with size := UInt32.ofInt t.samplesize }) r.1
    return { t with samples := samples, samplesSize := r.2, samplesize := 0 }
  else return t

/-- Whether the samples have one duration, as far as it is looked for. -/
def oneDuration (t : MovTrack) : Except Halt Bool :=
  if t.durmapSize = 1 then return true
  else if t.durmapSize = 2 then do return (← fetch t.durmap 1).num = 1
  else return false

/-- A track of samples of one size. -/
def constantSamplesize (t : MovTrack) : Except Halt MovTrack := do
  if ← oneDuration t then return { t with duration := cInt (← fetch t.durmap 0).dur.toNat }
  else return t

/-- A sample table that holds `s` samples. -/
def MovTrack.extendSamples (t : MovTrack) (heap : Heap) (s : Int) : MovTrack :=
  if t.samplesSize < s then
    let r := callocArray heap s MovSample.zero
    { t with samples := r.1, samplesSize := r.2 }
  else t

/-- `mov_build_index`. -/
def movBuildIndex (heap : Heap) (timescale : Int) (t : MovTrack) : Except Halt MovTrack := do
  let chunks ← processChunkmap t
  let numbered ← loop (numberTurn t.chunksSize) turns ⟨0, 0, chunks⟩
  let t := { t with chunks := numbered.chunks }
  let counted ← loop (countTurn t) turns (0, 0)
  let s := if counted.2 > numbered.s then counted.2 else numbered.s
  let t ← fixedSizeFrames heap s t
  if t.samplesSize = 0 then constantSamplesize t
  else do
    let t := t.extendSamples heap s
    let t := { t with samples := ← calcPts t }
    let t := { t with samples := ← calcOffsets t }
    precalcEditlist timescale t

/-- The track of some atoms, with its index. -/
def movTrak (heap : Heap) (timescale : Int) (atoms : List (Heap × MovAtom)) :
    Except Halt MovTrack := do
  movBuildIndex heap timescale (← lschunks .zero atoms)

end MPlayer
