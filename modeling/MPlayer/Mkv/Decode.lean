import MPlayer.Mkv.Encodings

/-!
# Decoding

`demux_mkv_decode` is to undo the content encodings of a frame.  It goes through them in the
order in which they were applied, and every one of them reads the source that the function
was called with, so that a chain is undone only in trivial cases.

What the decompressors of zlib and LZO do is left to a parameter.
-/

namespace MPlayer

open Lib

/-! ## The decompressors -/

/-- `Z_OK`. -/
def zOk : Int := 0

/-- `Z_STREAM_END`. -/
def zStreamEnd : Int := 1

/-- `AV_LZO_INPUT_DEPLETED`. -/
def lzoInputDepleted : Nat := 1

/-- `AV_LZO_OUTPUT_FULL`. -/
def lzoOutputFull : Nat := 2

/-- The functions of the libraries.  `inflate` is given the rest of its input and the room
for its output, and answers with its result, the output and what is left of the input.
`lzoDecode` is given the room for its output and the input, and answers with the flags of
its errors and the output. -/
structure Decompressors (Z : Type) where
  inflateInit : Option Z
  inflate : Z → List UInt8 → Nat → Int × List UInt8 × List UInt8 × Z
  lzoDecode : Nat → List UInt8 → Nat × List UInt8

variable {Z : Type}

/-! ## `demux_mkv_decode` -/

/-- What `*dest` points to: the source, nothing, or a buffer of its own. -/
inductive Dest where
  | src
  | null
  | fresh (bytes : List UInt8)
deriving DecidableEq

/-- What `demux_mkv_decode` gives back. -/
structure Decoded where
  modified : Bool
  dest : Dest
  size : Nat
deriving DecidableEq

/-- The loop around `inflate`, with `*size`, the room for the output and the output so far.
It gives `*size` and the output, `none` if it fails. -/
def inflateLoop (lib : Decompressors Z) (z : Z) (size : Nat) (availIn : List UInt8)
    (availOut : Nat) (out : List UInt8) : Nat × Option (List UInt8) :=
  if 2 ^ 64 - 1 - 4000 - 8 < size then (size, none)
  else
    match lib.inflate z availIn availOut with
    | (result, bytes, availIn, z) =>
      if result ≠ zOk ∧ result ≠ zStreamEnd then (size + 4000, none)
      else
        let out := out ++ bytes
        let availOut := (availOut - bytes.length + 4000) % 2 ^ 32
        if availOut = 4000 ∧ availIn ≠ [] ∧ result ≠ zStreamEnd then
          inflateLoop lib z (size + 4000) availIn availOut out
        else (out.length, some out)
termination_by 2 ^ 64 - size

/-- `av_lzo1x_decode`, which looks at the lengths first. -/
def lzo1xDecode (lib : Decompressors Z) (outlen inlen : Int) (input : List UInt8) :
    Nat × List UInt8 :=
  if outlen ≤ 0 ∨ inlen ≤ 0 then
    ((if outlen ≤ 0 then lzoOutputFull else 0) + (if inlen ≤ 0 then lzoInputDepleted else 0), [])
  else lib.lzoDecode outlen.toNat input

/-- The loop around `av_lzo1x_decode` with room for `dstlen` bytes, which is doubled until
the output fits.  It gives up when a buffer can't be had, and the doubling overflows before
the fuel runs out unless it starts at zero, from where it goes on for ever. -/
def lzoLoop (lib : Decompressors Z) (srclen : Int) (input : List UInt8) : Nat → Int →
    Except Fault (Option (List UInt8))
  | 0, _ => .error .undefined
  | fuel + 1, dstlen =>
    if dstlen < 0 then .ok none
    else
      match lzo1xDecode lib dstlen srclen input with
      | (result, bytes) =>
        if result = 0 then .ok (some bytes)
        else if result &&& lzoOutputFull = 0 then .ok none
        else if 2 ^ 31 ≤ 2 * dstlen then .error .undefined
        else lzoLoop lib srclen input fuel (2 * dstlen)

/-- Reading `size` bytes at `src`. -/
def readSrc (src : List UInt8) (size : Nat) : Except Fault (List UInt8) :=
  if src.length < size then .error .undefined else .ok (src.take size)

/-- The body of the loop of `demux_mkv_decode`: what it makes of its variables, and whether
the function returns then. -/
def decodeStage (lib : Decompressors Z) (e : ContentEncoding) (src : List UInt8) (d : Decoded) :
    Except Fault (Bool × Decoded) :=
  if e.compAlgo = 0 then do
    match lib.inflateInit with
    | none => .ok (true, d)
    | some z =>
      let input ← readSrc src (d.size % 2 ^ 32)
      match inflateLoop lib z d.size input (d.size % 2 ^ 32) [] with
      | (size, none) => .ok (true, ⟨true, .null, size⟩)
      | (size, some out) => .ok (false, ⟨true, .fresh out, size⟩)
  else if e.compAlgo = 2 then do
    let srclen := Int.bmod d.size (2 ^ 32)
    let input ← readSrc src srclen.toNat
    let dstlen := if (2 ^ 64 - 1) / 3 < d.size then d.size else d.size * 3
    match ← lzoLoop lib srclen input 32 (Int.bmod dstlen (2 ^ 32)) with
    | none => .ok (true, ⟨d.modified, .null, d.size⟩)
    | some out => .ok (false, ⟨d.modified, .fresh out, out.length⟩)
  else if e.compAlgo = 3 then do
    let input ← readSrc src d.size
    let out := e.compSettings ++ input
    .ok (false, ⟨true, .fresh out, d.size + e.compSettings.length⟩)
  else .ok (false, d)

/-- The loop of `demux_mkv_decode`.  Every stage reads at `src`. -/
def decodeLoop (lib : Decompressors Z) (type : Nat) (src : List UInt8) :
    List ContentEncoding → Decoded → Except Fault Decoded
  | [], d => .ok d
  | e :: encodings, d =>
    if e.scope &&& type = 0 then decodeLoop lib type src encodings d
    else do
      let (done, d) ← decodeStage lib e src d
      if done then .ok d else decodeLoop lib type src encodings d

/-- `demux_mkv_decode`. -/
def demuxMkvDecode (lib : Decompressors Z) (encodings : List ContentEncoding) (src : List UInt8)
    (size type : Nat) : Except Fault Decoded :=
  decodeLoop lib type src encodings ⟨false, .src, size⟩

/-! ## Encoding -/

/-- `data` is a zlib stream of `frame`: a call of `inflate` with room for some bytes gives as
many of the next bytes of the frame, the stream ends only behind its last byte, and what
ends the stream is read last. -/
def InflatesTo (lib : Decompressors Z) (data frame : List UInt8) : Prop :=
  data ≠ [] ∧ ∃ (z : Z) (At : Z → List UInt8 → Nat → Prop), lib.inflateInit = some z ∧ At z data 0 ∧
    ∀ z input p room, At z input p → 0 < room →
      ∃ result input' z', lib.inflate z input room =
          (result, (frame.drop p).take room, input', z') ∧
        (result = zStreamEnd ∧ frame.length ≤ p + room ∨
          result = zOk ∧ p + room ≤ frame.length ∧ input' ≠ [] ∧ At z' input' (p + room))

/-- `data` is an LZO stream of `frame`, which is decoded as soon as there is room for it. -/
def LzoDecodesTo (lib : Decompressors Z) (data frame : List UInt8) : Prop :=
  data ≠ [] ∧ ∀ room, 0 < room →
    (frame.length ≤ room → lib.lzoDecode room data = (0, frame)) ∧
      (room < frame.length → (lib.lzoDecode room data).1 &&& lzoOutputFull ≠ 0)

/-- What an encoding makes of a frame. -/
inductive Encodes (lib : Decompressors Z) (e : ContentEncoding) :
    List UInt8 → List UInt8 → Prop
  | zlib {frame data : List UInt8} (halgo : e.compAlgo = 0) (h : InflatesTo lib data frame) :
      Encodes lib e frame data
  | lzo {frame data : List UInt8} (halgo : e.compAlgo = 2) (h : LzoDecodesTo lib data frame) :
      Encodes lib e frame data
  | strip (data : List UInt8) (halgo : e.compAlgo = 3) : Encodes lib e (e.compSettings ++ data) data

/-- What a chain of encodings makes of a frame, the first one applied first. -/
def EncodesChain (lib : Decompressors Z) : List ContentEncoding → List UInt8 → List UInt8 → Prop
  | [], frame, data => data = frame
  | e :: chain, frame, data => ∃ mid, Encodes lib e frame mid ∧ EncodesChain lib chain mid data

/-- The encodings that apply to frames. -/
def frameScope (chain : List ContentEncoding) : List ContentEncoding :=
  chain.filter fun e => e.scope &&& 1 ≠ 0

/-- The bytes that `*dest` points to. -/
def Dest.bytes (src : List UInt8) : Dest → List UInt8
  | .src => src
  | .null => []
  | .fresh bytes => bytes

/-- The encodings are undone: the frame comes back with its size, nothing is read beyond the
data, and the frame is in a buffer of its own exactly if it is reported as modified. -/
def DecodesTo (lib : Decompressors Z) (chain : List ContentEncoding) (data frame : List UInt8) :
    Prop :=
  ∃ d, demuxMkvDecode lib chain data data.length 1 = .ok d ∧ d.dest ≠ .null ∧
    d.dest.bytes data = frame ∧ d.size = frame.length ∧
    (d.modified = true ↔ ∃ bytes, d.dest = .fresh bytes)

/-- Three times the size, doubled some times, is room for the frame and a positive `int`. -/
def LzoFits (size n : Nat) : Prop :=
  ∃ k : Nat, 0 < Int.bmod (size * 3 : Nat) (2 ^ 32) ∧
    (n : Int) ≤ Int.bmod (size * 3 : Nat) (2 ^ 32) * 2 ^ k ∧
    Int.bmod (size * 3 : Nat) (2 ^ 32) * 2 ^ k < 2 ^ 31

/-- When encodings are undone: all but the last do nothing, and if the last is LZO it is not
the first, and there is room for its output. -/
def Undone (encodings : List ContentEncoding) (data frame : List UInt8) : Prop :=
  encodings = [] ∨ ∃ init last, encodings = init ++ [last] ∧
    (∀ e ∈ init, e.compAlgo = 3 ∧ e.compSettings = []) ∧
    (last.compAlgo = 2 → init ≠ [] ∧ LzoFits data.length frame.length)

/-! ## zlib -/

theorem readSrc_all (src : List UInt8) : readSrc src src.length = .ok src := by
  rw [readSrc, if_neg (Nat.lt_irrefl _), List.take_length]

variable {lib : Decompressors Z} {frame data : List UInt8} {e : ContentEncoding} {d d' : Decoded}
  {room : Int} {done : Bool}

/-- The loop goes on behind what it has got of the frame. -/
theorem inflateLoop_inflates {lib : Decompressors Z} {frame : List UInt8}
    {At : Z → List UInt8 → Nat → Prop}
    (hinflate : ∀ z input p room, At z input p → 0 < room →
      ∃ result input' z', lib.inflate z input room =
          (result, (frame.drop p).take room, input', z') ∧
        (result = zStreamEnd ∧ frame.length ≤ p + room ∨
          result = zOk ∧ p + room ≤ frame.length ∧ input' ≠ [] ∧ At z' input' (p + room)))
    (left : Nat) : ∀ (z : Z) (size room p : Nat) (input : List UInt8), frame.length - p ≤ left →
      At z input p → p ≤ frame.length → 0 < room → room < 2 ^ 31 →
      size + (frame.length - p) + 8000 < 2 ^ 64 - 1 - 4000 - 8 + min room 4000 →
      inflateLoop lib z size input room (frame.take p) = (frame.length, some frame) := by
  induction left using Nat.strongRecOn with
  | ind left ih =>
    intro z size room p input hleft hat hp hroom hlt hsize
    obtain ⟨result, input', z', heq, hend | hmore⟩ := hinflate z input p room hat hroom
    · obtain ⟨rfl, hfull⟩ := hend
      have hout : frame.take p ++ (frame.drop p).take room = frame := by
        rw [← List.take_add, List.take_of_length_le hfull]
      rw [inflateLoop, if_neg (by omega), heq]
      simp [hout, zStreamEnd, zOk]
    · obtain ⟨rfl, hfull, hne, hat'⟩ := hmore
      have hlen : ((frame.drop p).take room).length = room := by simp; omega
      have hout : frame.take p ++ (frame.drop p).take room = frame.take (p + room) :=
        (List.take_add).symm
      have hrec := ih (frame.length - (p + room)) (by omega) z' (size + 4000) 4000 (p + room)
        input' (Nat.le_refl _) hat' hfull (by decide) (by decide) (by omega)
      rw [inflateLoop, if_neg (by omega), heq]
      simp only [hlen, hout, Nat.sub_self, Nat.zero_add]
      rw [if_neg (by decide), if_pos ⟨by decide, hne, by decide⟩]
      exact hrec

theorem decodeStage_zlib (halgo : e.compAlgo = 0) (h : InflatesTo lib data frame)
    (hdata : data.length < 2 ^ 31) (hframe : frame.length < 2 ^ 63) (hsize : d.size = data.length) :
    decodeStage lib e data d = .ok (false, ⟨true, .fresh frame, frame.length⟩) := by
  obtain ⟨hne, z, At, hinit, hat, hinflate⟩ := h
  have hpos := List.length_pos_iff.2 hne
  have hmod : data.length % 2 ^ 32 = data.length := Nat.mod_eq_of_lt (by omega)
  have hloop := inflateLoop_inflates hinflate frame.length z data.length data.length 0 data
    (Nat.sub_le _ _) hat (Nat.zero_le _) hpos hdata (by omega)
  rw [List.take_zero] at hloop
  rw [decodeStage, if_pos halgo, hinit, hsize, hmod]
  simp only [readSrc_all, ok_bind, hloop]

/-! ## LZO -/

theorem lzo1xDecode_enough (h : LzoDecodesTo lib data frame) (hroom : 0 < room)
    (hfits : frame.length ≤ room) : lzo1xDecode lib room data.length data = (0, frame) := by
  have hpos := List.length_pos_iff.2 h.1
  rw [lzo1xDecode, if_neg (by omega)]
  exact (h.2 room.toNat (by omega)).1 (by omega)

theorem lzo1xDecode_full (h : LzoDecodesTo lib data frame) (hroom : 0 < room)
    (hfull : room < frame.length) :
    (lzo1xDecode lib room data.length data).1 &&& lzoOutputFull ≠ 0 := by
  have hpos := List.length_pos_iff.2 h.1
  rw [lzo1xDecode, if_neg (by omega)]
  exact (h.2 room.toNat (by omega)).2 (by omega)

theorem lzoLoop_enough (h : LzoDecodesTo lib data frame) (fuel : Nat) (hroom : 0 < room)
    (hfits : frame.length ≤ room) :
    lzoLoop lib data.length data (fuel + 1) room = .ok (some frame) := by
  rw [lzoLoop, if_neg (by omega), lzo1xDecode_enough h hroom hfits]
  rfl

/-- A buffer that is too small is doubled. -/
theorem lzoLoop_full (h : LzoDecodesTo lib data frame) (fuel : Nat) (hroom : 0 < room)
    (hfull : room < frame.length) :
    lzoLoop lib data.length data (fuel + 1) room =
      if 2 ^ 31 ≤ 2 * room then .error .undefined
      else lzoLoop lib data.length data fuel (2 * room) := by
  have hflag := lzo1xDecode_full h hroom hfull
  have hzero : (lzo1xDecode lib room data.length data).1 ≠ 0 := by
    intro heq
    rw [heq] at hflag
    exact hflag rfl
  rw [lzoLoop, if_neg (by omega)]
  simp only [if_neg hzero, if_neg hflag]

theorem lzoLoop_fits (h : LzoDecodesTo lib data frame) (k : Nat) :
    ∀ {fuel : Nat} {room : Int}, k ≤ fuel →
      0 < room → frame.length ≤ room * 2 ^ k → room * 2 ^ k < 2 ^ 31 →
      lzoLoop lib data.length data (fuel + 1) room = .ok (some frame) := by
  induction k with
  | zero =>
    intro fuel room _ hroom hfits _
    exact lzoLoop_enough h fuel hroom (by omega)
  | succ k ih =>
    intro fuel room hfuel hroom hfits hlt
    rcases Int.lt_or_le room frame.length with hfull | henough
    · obtain ⟨fuel, rfl⟩ : ∃ n, fuel = n + 1 := ⟨fuel - 1, by omega⟩
      have hdouble : room * 2 ^ (k + 1) = 2 * room * 2 ^ k := by
        rw [Int.pow_succ, Int.mul_comm (2 ^ k) 2, ← Int.mul_assoc, Int.mul_comm room 2]
      have hle : 2 * room * 1 ≤ 2 * room * 2 ^ k :=
        Int.mul_le_mul_of_nonneg_left (Int.pow_pos (by decide)) (by omega)
      rw [hdouble] at hfits hlt
      rw [lzoLoop_full h (fuel + 1) hroom hfull, if_neg (by omega)]
      exact ih (by omega) (by omega) hfits hlt
    · exact lzoLoop_enough h fuel hroom henough

/-- What the loop ends with is the frame, and there was room for it. -/
theorem lzoLoop_some {out : List UInt8} (h : LzoDecodesTo lib data frame) (fuel : Nat) :
    ∀ {room : Int}, 0 < room → room < 2 ^ 31 →
      lzoLoop lib data.length data fuel room = .ok (some out) →
      ∃ k : Nat, (frame.length : Int) ≤ room * 2 ^ k ∧ room * 2 ^ k < 2 ^ 31 := by
  induction fuel with
  | zero =>
    intro room _ _ hloop
    cases hloop
  | succ fuel ih =>
    intro room hroom hlt hloop
    rcases Int.lt_or_le room frame.length with hfull | henough
    · rw [lzoLoop_full h fuel hroom hfull] at hloop
      split at hloop
      · cases hloop
      · obtain ⟨k, hfits, hbound⟩ := ih (by omega) (by omega) hloop
        have hdouble : room * 2 ^ (k + 1) = 2 * room * 2 ^ k := by
          rw [Int.pow_succ, Int.mul_comm (2 ^ k) 2, ← Int.mul_assoc, Int.mul_comm room 2]
        exact ⟨k + 1, hdouble ▸ hfits, hdouble ▸ hbound⟩
    · exact ⟨0, by omega, by omega⟩

theorem lzo1xDecode_nothing (lib : Decompressors Z) {srclen : Int} (input : List UInt8)
    (hle : srclen ≤ 0 ∨ room ≤ 0) : (lzo1xDecode lib room srclen input).1 ≠ 0 := by
  rw [lzo1xDecode, if_pos (by omega)]
  by_cases hroom : room ≤ 0
  · simp [hroom, lzoOutputFull]
  · simp [hroom, hle.resolve_right hroom, lzoInputDepleted]

/-- Without input or room nothing is decoded. -/
theorem lzoLoop_nothing (lib : Decompressors Z) {srclen : Int} {input out : List UInt8}
    (fuel : Nat) : ∀ {room : Int}, srclen ≤ 0 ∨ room ≤ 0 →
      lzoLoop lib srclen input fuel room ≠ .ok (some out) := by
  induction fuel with
  | zero =>
    intro room _ hloop
    cases hloop
  | succ fuel ih =>
    intro room hle hloop
    rw [lzoLoop] at hloop
    simp only [if_neg (lzo1xDecode_nothing lib input hle)] at hloop
    repeat' split at hloop
    · cases hloop
    · cases hloop
    · cases hloop
    · exact ih (by omega) hloop

theorem decodeStage_lzo_eq (halgo : e.compAlgo = 2) (hdata : data.length < 2 ^ 31)
    (hsize : d.size = data.length) :
    decodeStage lib e data d =
      lzoLoop lib data.length data 32 (Int.bmod (data.length * 3 : Nat) (2 ^ 32)) >>= fun out =>
        match out with
        | none => .ok (true, ⟨d.modified, .null, d.size⟩)
        | some out => .ok (false, ⟨d.modified, .fresh out, out.length⟩) := by
  have hsrc : Int.bmod data.length (2 ^ 32) = data.length := Int.bmod_eq_of_le (by omega) (by omega)
  have hdst : (if (2 ^ 64 - 1) / 3 < data.length then data.length else data.length * 3) =
      data.length * 3 := if_neg (by omega)
  rw [decodeStage, if_neg (by omega), if_pos halgo, hsize, hsrc, hdst]
  dsimp only
  rw [Int.toNat_natCast, readSrc_all, ok_bind]

theorem decodeStage_lzo (halgo : e.compAlgo = 2) (h : LzoDecodesTo lib data frame)
    (hdata : data.length < 2 ^ 31) (hfits : LzoFits data.length frame.length)
    (hsize : d.size = data.length) :
    decodeStage lib e data d = .ok (false, ⟨d.modified, .fresh frame, frame.length⟩) := by
  obtain ⟨k, hpos, hroom, hlt⟩ := hfits
  have hone : 1 * (2 : Int) ^ k ≤ Int.bmod (data.length * 3 : Nat) (2 ^ 32) * 2 ^ k :=
    Int.mul_le_mul_of_nonneg_right hpos (Int.le_of_lt (Int.pow_pos (by decide)))
  have hpow : 2 ^ k < 2 ^ 31 := by
    have hint : (2 : Int) ^ k < 2 ^ 31 := by omega
    exact_mod_cast hint
  have hk : k < 31 := (Nat.pow_lt_pow_iff_right (by decide)).1 hpow
  rw [decodeStage_lzo_eq halgo hdata hsize, lzoLoop_fits h k (by omega) hpos hroom hlt]
  rfl

/-- What comes out of LZO is reported as before, and there was room for it. -/
theorem decodeStage_lzo_out (halgo : e.compAlgo = 2) (h : LzoDecodesTo lib data frame)
    (hdata : data.length < 2 ^ 31) (hsize : d.size = data.length)
    (hstage : decodeStage lib e data d = .ok (done, d')) (hdest : d'.dest ≠ .null) :
    LzoFits data.length frame.length ∧ d'.modified = d.modified ∧
      ∃ bytes, d'.dest = .fresh bytes := by
  rw [decodeStage_lzo_eq halgo hdata hsize, bind_ok_iff] at hstage
  obtain ⟨out, hloop, hout⟩ := hstage
  cases out with
  | none =>
    cases hout
    exact absurd rfl hdest
  | some out =>
    cases hout
    rcases Int.lt_or_le 0 (Int.bmod (data.length * 3 : Nat) (2 ^ 32)) with hpos | hle
    · have hlt : Int.bmod (data.length * 3 : Nat) (2 ^ 32) < 2 ^ 31 :=
        Int.bmod_lt (by decide)
      obtain ⟨k, hroom, hbound⟩ := lzoLoop_some h 32 hpos hlt hloop
      exact ⟨⟨k, hpos, hroom, hbound⟩, rfl, _, rfl⟩
    · exact absurd hloop (lzoLoop_nothing lib 32 (.inr hle))

/-! ## Header stripping -/

theorem decodeStage_strip (halgo : e.compAlgo = 3) (hsize : d.size = data.length) :
    decodeStage lib e data d = .ok (false,
      ⟨true, .fresh (e.compSettings ++ data), data.length + e.compSettings.length⟩) := by
  rw [decodeStage, if_neg (by omega), if_neg (by omega), if_pos halgo, hsize]
  simp only [readSrc_all, ok_bind]

/-- Behind something stripped, the next encoding reads beyond the source or fails. -/
theorem decodeStage_overread {mid : List UInt8} (hencodes : Encodes lib e frame mid)
    (hdata : data.length < 2 ^ 31) {k : Nat} (hsize : d.size = data.length + k) (hk : 0 < k)
    (hlt : k < 2 ^ 31) (hstage : decodeStage lib e data d = .ok (done, d')) :
    done = true ∧ d'.dest = .null := by
  have hmore {n : Nat} (hn : data.length < n) : readSrc data n = .error .undefined := if_pos hn
  rw [decodeStage] at hstage
  cases hencodes with
  | zlib halgo h =>
    obtain ⟨_, z, _, hinit, _⟩ := h
    rw [if_pos halgo, hinit] at hstage
    simp only [hmore (by omega : data.length < d.size % 2 ^ 32), error_bind] at hstage
    cases hstage
  | lzo halgo h =>
    rw [if_neg (by omega), if_pos halgo] at hstage
    dsimp only at hstage
    rcases Nat.lt_or_ge d.size (2 ^ 31) with hpos | hneg
    · have hsrc : Int.bmod d.size (2 ^ 32) = d.size := Int.bmod_eq_of_le (by omega) (by omega)
      rw [hsrc, Int.toNat_natCast, hmore (by omega), error_bind] at hstage
      cases hstage
    · have hsrc : Int.bmod d.size (2 ^ 32) ≤ 0 := by
        rw [Int.bmod_def]
        split <;> omega
      obtain ⟨_, _, hstage⟩ := bind_ok_iff.1 hstage
      obtain ⟨out, hloop, hout⟩ := bind_ok_iff.1 hstage
      cases out with
      | none =>
        cases hout
        exact ⟨rfl, rfl⟩
      | some out => exact absurd hloop (lzoLoop_nothing lib 32 (.inl hsrc))
  | strip _ halgo =>
    rw [if_neg (by omega), if_neg (by omega), if_pos halgo, hmore (by omega),
      error_bind] at hstage
    cases hstage

/-! ## Chains -/

/-- Encodings that do not apply to frames are passed over. -/
theorem decodeLoop_frameScope (lib : Decompressors Z) (src : List UInt8) :
    (chain : List ContentEncoding) → (d : Decoded) →
      decodeLoop lib 1 src chain d = decodeLoop lib 1 src (frameScope chain) d
  | [], _ => rfl
  | e :: chain, d => by
    by_cases hscope : e.scope &&& 1 = 0
    · have hfilter : frameScope (e :: chain) = frameScope chain :=
        List.filter_cons_of_neg (by simp [hscope])
      rw [hfilter, decodeLoop, if_pos hscope]
      exact decodeLoop_frameScope lib src chain d
    · have hfilter : frameScope (e :: chain) = e :: frameScope chain :=
        List.filter_cons_of_pos (decide_eq_true hscope)
      simp only [hfilter, decodeLoop, if_neg hscope, decodeLoop_frameScope lib src chain]

theorem scope_of_mem_frameScope {chain : List ContentEncoding} (h : e ∈ frameScope chain) :
    e.scope &&& 1 ≠ 0 := by
  simpa using (List.mem_filter.1 h).2

theorem decodeLoop_cons {src : List UInt8} (chain : List ContentEncoding)
    (hscope : e.scope &&& 1 ≠ 0) (h : decodeStage lib e src d = .ok (done, d')) :
    decodeLoop lib 1 src (e :: chain) d = if done then .ok d'
      else decodeLoop lib 1 src chain d' := by
  rw [decodeLoop, if_neg hscope, h]
  rfl

/-- Encodings that strip nothing leave the size as it is. -/
theorem decodeLoop_trivial (lib : Decompressors Z) (data : List UInt8)
    (rest : List ContentEncoding) :
    (init : List ContentEncoding) → (∀ e ∈ init, e.scope &&& 1 ≠ 0) →
      (∀ e ∈ init, e.compAlgo = 3 ∧ e.compSettings = []) → (d : Decoded) →
      d.size = data.length → ∃ d', d'.size = data.length ∧
        d'.modified = (d.modified || !init.isEmpty) ∧
        decodeLoop lib 1 data (init ++ rest) d = decodeLoop lib 1 data rest d'
  | [], _, _, d, hsize => ⟨d, hsize, by simp, rfl⟩
  | e :: init, hscope, hinit, d, hsize => by
    obtain ⟨halgo, hsettings⟩ := hinit e List.mem_cons_self
    obtain ⟨d', hsize', hmodified, hloop⟩ := decodeLoop_trivial lib data rest init
      (fun e' he' => hscope e' (List.mem_cons_of_mem _ he'))
      (fun e' he' => hinit e' (List.mem_cons_of_mem _ he'))
      ⟨true, .fresh (e.compSettings ++ data), data.length + e.compSettings.length⟩
      (by simp [hsettings])
    refine ⟨d', hsize', by simp [hmodified], ?_⟩
    rw [List.cons_append,
      decodeLoop_cons _ (hscope e List.mem_cons_self) (decodeStage_strip halgo hsize)]
    exact hloop

theorem EncodesChain.append {lib : Decompressors Z} {frame data : List UInt8} :
    {init rest : List ContentEncoding} → EncodesChain lib (init ++ rest) frame data →
      ∃ mid, EncodesChain lib init frame mid ∧ EncodesChain lib rest mid data
  | [], _, h => ⟨frame, rfl, h⟩
  | _ :: _, _, ⟨mid, he, h⟩ =>
    let ⟨mid', hinit, hrest⟩ := EncodesChain.append h
    ⟨mid', ⟨mid, he, hinit⟩, hrest⟩

theorem EncodesChain.trivial {lib : Decompressors Z} {frame data : List UInt8} :
    {init : List ContentEncoding} → EncodesChain lib init frame data →
      (∀ e ∈ init, e.compAlgo = 3 ∧ e.compSettings = []) → data = frame
  | [], h, _ => h
  | e :: init, ⟨mid, he, h⟩, hinit => by
    obtain ⟨halgo, hsettings⟩ := hinit e List.mem_cons_self
    have hmid : mid = data := (h.trivial fun e' he' => hinit e' (List.mem_cons_of_mem _ he')).symm
    cases he with
    | zlib h' => omega
    | lzo h' => omega
    | strip => rw [hmid, hsettings, List.nil_append]

/-- The last stage gives the frame back. -/
theorem decodeStage_last (hencodes : Encodes lib e frame data) (hdata : data.length < 2 ^ 31)
    (hframe : frame.length < 2 ^ 63) (hlzo : e.compAlgo = 2 → LzoFits data.length frame.length)
    (hsize : d.size = data.length) :
    ∃ modified, decodeStage lib e data d = .ok (false, ⟨modified, .fresh frame, frame.length⟩) ∧
      modified = (d.modified || e.compAlgo != 2) := by
  cases hencodes with
  | zlib halgo h => exact ⟨_, decodeStage_zlib halgo h hdata hframe hsize, by simp [halgo]⟩
  | lzo halgo h => exact ⟨_, decodeStage_lzo halgo h hdata (hlzo halgo) hsize, by simp [halgo]⟩
  | strip _ halgo =>
    refine ⟨_, ?_, (by simp [halgo] : true = _)⟩
    rw [decodeStage_strip halgo hsize, List.length_append, Nat.add_comm]

theorem decodesTo_iff_loop (lib : Decompressors Z) (chain : List ContentEncoding)
    (data frame : List UInt8) : DecodesTo lib chain data frame ↔
      DecodesTo lib (frameScope chain) data frame := by
  rw [DecodesTo, DecodesTo, demuxMkvDecode, demuxMkvDecode, decodeLoop_frameScope lib data chain,
    decodeLoop_frameScope lib data (frameScope chain)]

/-- Chains that do nothing before their last encoding are undone. -/
theorem decodesTo_of_undone {es : List ContentEncoding} (hscope : ∀ e ∈ es, e.scope &&& 1 ≠ 0)
    (hchain : EncodesChain lib es frame data) (hdata : data.length < 2 ^ 31)
    (hframe : frame.length < 2 ^ 63) (h : Undone es data frame) : DecodesTo lib es data frame := by
  rcases h with rfl | ⟨init, last, rfl, hinit, hlzo⟩
  · cases hchain
    exact ⟨_, rfl, by simp, rfl, rfl, by simp⟩
  · obtain ⟨mid, hmid, _, hlast, hdone⟩ := hchain.append
    cases hmid.trivial hinit
    cases hdone
    obtain ⟨d, hsize, hmodified, hloop⟩ := decodeLoop_trivial lib data [last] init
      (fun e he => hscope e (List.mem_append_left _ he)) hinit ⟨false, .src, data.length⟩ rfl
    obtain ⟨modified, hstage, hmod⟩ :=
      decodeStage_last hlast hdata hframe (fun halgo => (hlzo halgo).2) hsize
    refine ⟨⟨modified, .fresh frame, frame.length⟩, ?_, by simp, rfl, rfl, ?_⟩
    · rw [demuxMkvDecode, hloop, decodeLoop_cons _ (hscope last (by simp)) hstage]
      rfl
    · have htrue : modified = true := by
        by_cases halgo : last.compAlgo = 2
        · have hne := (hlzo halgo).1
          simp [hmod, hmodified, hne]
        · simp [hmod, halgo]
      simp [htrue]

/-- Where all but the last encoding strip headers, no other chain is undone. -/
theorem undone_of_decodesTo {last : ContentEncoding} {mid : List UInt8}
    (hlast : Encodes lib last mid data) (hdata : data.length < 2 ^ 31) :
    (init : List ContentEncoding) → (∀ e ∈ init ++ [last], e.scope &&& 1 ≠ 0) →
      (∀ e ∈ init, e.compAlgo = 3 ∧ e.compSettings.length < 2 ^ 31) → (d : Decoded) →
      d.size = data.length →
      {d' : Decoded} → decodeLoop lib 1 data (init ++ [last]) d = .ok d' → d'.dest ≠ .null →
      (∀ e ∈ init, e.compSettings = []) ∧
        (last.compAlgo = 2 → LzoFits data.length mid.length ∧
          d'.modified = (d.modified || !init.isEmpty) ∧ ∃ bytes, d'.dest = .fresh bytes)
  | [], hscope, _, d, hsize, d', hloop, hdest => by
    refine ⟨by simp, fun halgo => ?_⟩
    cases hlast with
    | zlib halgo' h => omega
    | strip _ halgo' => omega
    | lzo _ h =>
      rw [List.nil_append, decodeLoop, if_neg (hscope last (by simp)), bind_ok_iff] at hloop
      obtain ⟨⟨done, d''⟩, hstage, hrest⟩ := hloop
      have hd : d'' = d' := by cases done <;> exact Except.ok.inj hrest
      subst hd
      obtain ⟨hfits, hmodified, hfresh⟩ := decodeStage_lzo_out halgo h hdata hsize hstage hdest
      exact ⟨hfits, by simp [hmodified], hfresh⟩
  | e :: init, hscope, hinit, d, hsize, d', hloop, hdest => by
    obtain ⟨halgo, hlt⟩ := hinit e List.mem_cons_self
    have hscope' : ∀ e ∈ init ++ [last], e.scope &&& 1 ≠ 0 :=
      fun e' he' => hscope e' (List.mem_cons_of_mem _ he')
    have hinit' : ∀ e ∈ init, e.compAlgo = 3 ∧ e.compSettings.length < 2 ^ 31 :=
      fun e' he' => hinit e' (List.mem_cons_of_mem _ he')
    rw [List.cons_append, decodeLoop_cons _ (hscope e List.mem_cons_self)
      (decodeStage_strip halgo hsize)] at hloop
    rcases Nat.eq_zero_or_pos e.compSettings.length with hzero | hpos
    · obtain ⟨hsettings, hlzo⟩ := undone_of_decodesTo hlast hdata init hscope' hinit' _
        (by simp [hzero]) hloop hdest
      refine ⟨?_, fun halgo => ?_⟩
      · intro e' he'
        cases he' with
        | head => exact List.eq_nil_of_length_eq_zero hzero
        | tail _ he' => exact hsettings e' he'
      · obtain ⟨hfits, hmodified, hfresh⟩ := hlzo halgo
        exact ⟨hfits, by simp [hmodified], hfresh⟩
    · obtain ⟨next, rest, hnext, frame', mid', hencodes⟩ : ∃ next rest,
          init ++ [last] = next :: rest ∧ ∃ frame' mid', Encodes lib next frame' mid' := by
        cases init with
        | nil => exact ⟨last, [], rfl, mid, data, hlast⟩
        | cons e' init =>
          exact ⟨e', init ++ [last], rfl, _, [], .strip [] (hinit' e' List.mem_cons_self).1⟩
      rw [hnext] at hloop hscope'
      rw [if_neg (by decide), decodeLoop, if_neg (hscope' next List.mem_cons_self),
        bind_ok_iff] at hloop
      obtain ⟨⟨done, d''⟩, hstage, hrest⟩ := hloop
      obtain ⟨rfl, hnull⟩ := decodeStage_overread hencodes hdata rfl hpos hlt hstage
      cases hrest
      exact absurd hnull hdest

/-- Where all but the last encoding strip headers, the chains that do nothing before it are the
only ones that are undone. -/
theorem decodesTo_iff_undone {es : List ContentEncoding} (hscope : ∀ e ∈ es, e.scope &&& 1 ≠ 0)
    (hsettings : ∀ e ∈ es, e.compSettings.length < 2 ^ 31)
    (hchain : EncodesChain lib es frame data) (hdata : data.length < 2 ^ 31)
    (hframe : frame.length < 2 ^ 63) (hstrip : ∀ e ∈ es.dropLast, e.compAlgo = 3) :
    DecodesTo lib es data frame ↔ Undone es data frame := by
  refine ⟨?_, decodesTo_of_undone hscope hchain hdata hframe⟩
  rintro ⟨d, hloop, hdest, -, -, hmodified⟩
  rcases List.eq_nil_or_concat es with rfl | ⟨init, last, rfl⟩
  · exact .inl rfl
  rw [List.concat_eq_append] at *
  rw [List.dropLast_concat] at hstrip
  obtain ⟨mid, hmid, _, hlast, hdone⟩ := hchain.append
  cases hdone
  obtain ⟨hempty, hlzo⟩ := undone_of_decodesTo hlast hdata init hscope
    (fun e he => ⟨hstrip e he, hsettings e (List.mem_append_left _ he)⟩) _ rfl hloop hdest
  have hinit : ∀ e ∈ init, e.compAlgo = 3 ∧ e.compSettings = [] :=
    fun e he => ⟨hstrip e he, hempty e he⟩
  cases hmid.trivial hinit
  refine .inr ⟨init, last, rfl, hinit, fun halgo => ?_⟩
  obtain ⟨hfits, hmod, hfresh⟩ := hlzo halgo
  refine ⟨?_, hfits⟩
  rintro rfl
  rw [hmodified.2 hfresh] at hmod
  cases hmod

/-- A chain of encodings is undone if all but the last do nothing; where these strip headers, it
is undone only then. -/
theorem content_encodings_undone (lib : Decompressors Z) {lw : Nat} {body rest : List UInt8}
    {r : Reader} {es chain : List ContentEncoding} (hlen : Coded lw body.length)
    (hbody : Children EncodingsField [] body es) (hr : r.rest = vlen lw body.length ++ body ++ rest)
    (hperm : chain.Perm es) (hsorted : chain.Pairwise fun e e' => e.order < e'.order) :
    (∃ l r', readTrackEncodings r = .ok (chain, l, r')) ∧
      ∀ frame data, EncodesChain lib (frameScope chain) frame data → data.length < 2 ^ 31 →
        frame.length < 2 ^ 63 →
        (Undone (frameScope chain) data frame → DecodesTo lib chain data frame) ∧
          ((∀ e ∈ (frameScope chain).dropLast, e.compAlgo = 3) →
            (DecodesTo lib chain data frame ↔ Undone (frameScope chain) data frame)) := by
  constructor
  · have hread := readTrackEncodings_written hlen hbody hr
    rw [sortEncodings_eq hperm hsorted] at hread
    exact ⟨_, _, hread⟩
  · intro frame data hchain hdata hframe
    have hscope : ∀ e ∈ frameScope chain, e.scope &&& 1 ≠ 0 := fun e => scope_of_mem_frameScope
    have hsettings : ∀ e ∈ frameScope chain, e.compSettings.length < 2 ^ 31 :=
      fun e he => EncodingsField.settings_lt hbody e (hperm.subset (List.mem_filter.1 he).1)
    rw [decodesTo_iff_loop]
    exact ⟨decodesTo_of_undone hscope hchain hdata hframe,
      decodesTo_iff_undone hscope hsettings hchain hdata hframe⟩

/-- The letter a, compressed by zlib. -/
def zlibLetter : List UInt8 := [0x78, 0x9c, 0x4b, 0x04, 0, 0, 0x62, 0, 0x62]

/-- A library that knows this letter. -/
def letterLib : Decompressors Unit where
  inflateInit := some ()
  inflate := fun _ input room =>
    if input = zlibLetter ∧ 0 < room then (zStreamEnd, [97], [], ()) else (-3, [], input, ())
  lzoDecode := fun _ _ => (4, [])

theorem inflatesTo_letter : InflatesTo letterLib zlibLetter [97] := by
  refine ⟨by decide, (), fun _ input p => input = zlibLetter ∧ p = 0, rfl, ⟨rfl, rfl⟩, ?_⟩
  rintro z input p room ⟨rfl, rfl⟩ hroom
  refine ⟨zStreamEnd, [], (), ?_, .inl ⟨rfl, by simp; omega⟩⟩
  obtain ⟨n, rfl⟩ := Nat.exists_eq_add_of_lt hroom
  simp [letterLib]

/-- Two encodings in a file: zlib, and before it one that strips nothing. -/
theorem letter_encodings : Children EncodingsField [] [0x62, 0x40, 0x84, 0x50, 0x31, 0x81, 1,
    0x62, 0x40, 0x87, 0x50, 0x34, 0x84, 0x42, 0x54, 0x81, 3]
    [⟨1, 0, 1, 0, []⟩, ⟨0, 0, 1, 3, []⟩] := by
  have one (b : UInt8) (hb : b.toNat < 2 ^ 32) : IsUint [b] :=
    ⟨by simp, by simp, by simpa [beValue] using hb⟩
  have hcoded {n : Nat} (hn : n < 100) : Coded 1 n := ⟨by decide, by decide, by omega⟩
  have hzlib : Children EncodingField .default (elementBytes 2 0x5031 1 [1] ++ []) _ :=
    .cons ⟨by decide, by decide, by decide, by decide⟩ (hcoded (by decide))
      (.order (one 1 (by decide)) _) (.nil _)
  have halgo : Children CompressionField .default (elementBytes 2 0x4254 1 [3] ++ []) _ :=
    .cons ⟨by decide, by decide, by decide, by decide⟩ (hcoded (by decide))
      (.algo (one 3 (by decide)) _) (.nil _)
  have hstrip : Children EncodingField .default
      (elementBytes 2 0x5034 1 (elementBytes 2 0x4254 1 [3] ++ []) ++ []) _ :=
    .cons ⟨by decide, by decide, by decide, by decide⟩ (hcoded (by decide))
      (.compression halgo) (.nil _)
  have hboth : Children EncodingsField [] (elementBytes 2 0x6240 1 (elementBytes 2 0x5031 1 [1] ++
      []) ++ (elementBytes 2 0x6240 1
        (elementBytes 2 0x5034 1 (elementBytes 2 0x4254 1 [3] ++ []) ++
      []) ++ [])) _ :=
    .cons ⟨by decide, by decide, by decide, by decide⟩ (hcoded (by decide)) (.encoding hzlib [])
      (.cons ⟨by decide, by decide, by decide, by decide⟩ (hcoded (by decide))
        (.encoding hstrip _) (.nil _))
  exact hboth

/-- zlib behind stripping nothing, written in the reverse order. -/
theorem content_encodings_undone_letter :
    (∃ l r', readTrackEncodings ⟨0, [0x91, 0x62, 0x40, 0x84, 0x50, 0x31, 0x81, 1,
        0x62, 0x40, 0x87, 0x50, 0x34, 0x84, 0x42, 0x54, 0x81, 3], false⟩ =
      .ok ([⟨0, 0, 1, 3, []⟩, ⟨1, 0, 1, 0, []⟩], l, r')) ∧
    DecodesTo letterLib [⟨0, 0, 1, 3, []⟩, ⟨1, 0, 1, 0, []⟩] zlibLetter [97] := by
  obtain ⟨hread, hundone⟩ := content_encodings_undone letterLib
    (⟨by decide, by decide, by decide⟩ : Coded 1 17) letter_encodings
    (rfl : (⟨0, _, false⟩ : Reader).rest = vlen 1 17 ++ _ ++ []) (List.Perm.swap _ _ []) (by simp)
  refine ⟨hread, (hundone [97] zlibLetter ?_ (by decide) (by decide)).1 ?_⟩
  · exact ⟨[97], .strip [97] rfl, zlibLetter, .zlib rfl inflatesTo_letter, rfl⟩
  · exact .inr ⟨[⟨0, 0, 1, 3, []⟩], ⟨1, 0, 1, 0, []⟩, rfl, by simp, by simp⟩

/-- Of two headers that were stripped, neither comes back. -/
theorem content_encodings_not_undone :
    ¬ ∀ (chain : List ContentEncoding) (frame data : List UInt8),
      chain.Pairwise (fun e e' => e.order < e'.order) →
      EncodesChain letterLib (frameScope chain) frame data →
      DecodesTo letterLib chain data frame := by
  intro h
  obtain ⟨d, hd, -⟩ := h [⟨0, 0, 1, 3, [1]⟩, ⟨1, 0, 1, 3, [2]⟩] [1, 2, 9] [9] (by simp)
    ⟨[2, 9], .strip [2, 9] rfl, [9], .strip [9] rfl, rfl⟩
  cases hd

end MPlayer
