import MPlayer.Lib.Fuel
import Mathlib.Algebra.GroupWithZero.Nat

/-!
# Removing Shoutcast metadata

A Shoutcast server sends `metaint` bytes of data, a byte `L` and `16 * L` bytes of metadata, and
so on.  `scast_streaming_read` gives the data only, and keeps in `metapos` how much of the
interval it has passed.

*Reading.*  `my_read` takes what is left of the body that came with the header, and then the
socket.  How the bytes are split is not seen in its result (`myRead_fst`, `myRead_rest`).

*Interval.*  `dataFrom metaint p` is the data in a stream of which `p` bytes of the interval are
behind it.  A read takes a piece of it off (`scastStreamingRead_returns`).

*Stream.*  A stream is built from blocks whose bytes are marked as data or not, and it may end
anywhere.  `dataFrom` gives the bytes that are marked (`dataFrom_marks`).
-/

namespace MPlayer

/-! ## The code -/

/-- A socket, as the pieces in which its bytes arrive. -/
abbrev Socket := List { p : List UInt8 // p ≠ [] }

/-- What is left of a piece. -/
def pieceDrop (p : List UInt8) (n : Nat) (h : n < p.length) : { p : List UInt8 // p ≠ [] } :=
  ⟨p.drop n, List.ne_nil_of_length_pos (by rw [List.length_drop]; omega)⟩

/-- `recv` gives what it can of the next piece, and nothing at the end of input. -/
def recv (fd : Socket) (n : Nat) : List UInt8 × Socket :=
  match fd with
  | [] => ([], [])
  | p :: ps => if h : n < p.1.length then (p.1.take n, pieceDrop p.1 n h :: ps) else (p.1, ps)

/-- The body that came with the header, how much of it has been read, and the socket. -/
structure StreamingCtrl where
  buffer : List UInt8
  bufferPos : Nat
  fd : Socket

/-- The loop of `my_read`, with the bytes that are still asked for. -/
def recvLoop (fd : Socket) (len : Nat) : List UInt8 × Socket :=
  if 0 < len then
    if 0 < (recv fd len).1.length then
      let rest := recvLoop (recv fd len).2 (len - (recv fd len).1.length)
      ((recv fd len).1 ++ rest.1, rest.2)
    else ([], (recv fd len).2)
  else ([], fd)
termination_by len

def myRead (sc : StreamingCtrl) (len : Nat) : List UInt8 × StreamingCtrl :=
  let cpLen := min (sc.buffer.length - sc.bufferPos) len
  let copied := (sc.buffer.drop sc.bufferPos).take cpLen
  let ret := recvLoop sc.fd (len - cpLen)
  (copied ++ ret.1, { sc with bufferPos := sc.bufferPos + cpLen, fd := ret.2 })

structure ScastData where
  metaint : Nat
  metapos : Nat
  isUltravox : Bool

/-- Bytes that `my_read` writes into an array. -/
def storeAt (info : List UInt8) (i : Nat) (bytes : List UInt8) : List UInt8 :=
  info.take i ++ bytes ++ info.drop (i + bytes.length)

/-- A round of `uvox_meta_read`: the array `info`, and whether all of it has been read. -/
def uvoxInfo (sc : StreamingCtrl) (info : List UInt8) : List UInt8 × Bool × StreamingCtrl :=
  let r := myRead sc 1
  let info := storeAt info 0 r.1
  if info.getD 0 0 = 0 then
    let s := myRead r.2 6
    (storeAt info 0 s.1, s.1.length = 6, s.2)
  else
    let s := myRead r.2 5
    (storeAt info 1 s.1, r.1.length + s.1.length = 6, s.2)

/-- The loop of `uvox_meta_read`.  The result is the length of the data behind the metadata, or
`0`. -/
def uvoxLoop : Nat → StreamingCtrl → List UInt8 → Option (Nat × StreamingCtrl)
  | 0, _, _ => none
  | fuel + 1, sc, info =>
    let r := uvoxInfo sc info
    let byte := fun i => (r.1.getD i 0).toNat
    let metaint := byte 4 * 256 + byte 5
    if r.2.1 = false then some (0, r.2.2)
    else if byte 0 ≠ 0x5a ∨ byte 1 / 4 ≠ 0 then some (0, r.2.2)
    else if byte 3 % 16 < 7 then uvoxLoop fuel (myRead r.2.2 metaint).2 r.1
    else some (metaint, r.2.2)

def uvoxMetaRead (fuel : Nat) (sc : StreamingCtrl) : Option (Nat × StreamingCtrl) :=
  uvoxLoop fuel sc (List.replicate 6 0)

/-- `scast_meta_read`.  A length that cannot be read counts as `0`. -/
def scastMetaRead (sc : StreamingCtrl) : StreamingCtrl :=
  let r := myRead sc 1
  let metalen := (r.1.getD 0 0).toNat * 16
  if 0 < metalen then (myRead r.2 metalen).2 else r.2

/-- A block of data that is read behind what the buffer holds.  A read that falls short ends the
call. -/
def readBlock (buffer : List UInt8) (size block : Nat) (sd : ScastData) (sc : StreamingCtrl) :
    List UInt8 × Nat × ScastData × StreamingCtrl :=
  let r := myRead sc block
  let buffer := buffer ++ r.1
  (buffer, if r.1.length ≠ block then buffer.length else size,
    { sd with metapos := sd.metapos + r.1.length }, r.2)

/-- The metadata in front of a block: the length of the block, where `0` ends the call. -/
def metaRead (fuel : Nat) (sd : ScastData) (sc : StreamingCtrl) :
    Option (ScastData × StreamingCtrl × Bool) :=
  if sd.isUltravox then
    (uvoxMetaRead fuel sc).map fun r => ({ sd with metaint := r.1 }, r.2, r.1 = 0)
  else some (sd, scastMetaRead sc, false)

/-- A round of the loop of `scast_streaming_read`: metadata, and a block of data. -/
def scastRound (fuel : Nat) (buffer : List UInt8) (size : Nat) (sd : ScastData)
    (sc : StreamingCtrl) : Option (List UInt8 × Nat × ScastData × StreamingCtrl) :=
  (metaRead fuel sd sc).map fun r =>
    let size := if r.2.2 then buffer.length else size
    readBlock buffer size (min (size - buffer.length) r.1.metaint) { r.1 with metapos := 0 } r.2.1

/-- The loop of `scast_streaming_read`, with what the buffer holds. -/
def scastLoop : Nat → List UInt8 → Nat → ScastData → StreamingCtrl →
    Option (List UInt8 × ScastData × StreamingCtrl)
  | 0, _, _, _, _ => none
  | fuel + 1, buffer, size, sd, sc =>
    if buffer.length < size then
      (scastRound fuel buffer size sd sc).bind fun r =>
        scastLoop fuel r.1 r.2.1 r.2.2.1 r.2.2.2
    else some (buffer, sd, sc)

def scastStreamingRead (fuel size : Nat) (sd : ScastData) (sc : StreamingCtrl) :
    Option (List UInt8 × ScastData × StreamingCtrl) :=
  let r := readBlock [] size (min (sd.metaint - sd.metapos) size) sd sc
  scastLoop fuel r.1 r.2.1 r.2.2.1 r.2.2.2

/-- Calls of `scast_streaming_read` one after the other, with what each of them gives. -/
def scastReads (fuel : Nat) : List Nat → ScastData → StreamingCtrl → Option (List (List UInt8))
  | [], _, _ => some []
  | size :: sizes, sd, sc => do
      let (buffer, sd, sc) ← scastStreamingRead fuel size sd sc
      return buffer :: (← scastReads fuel sizes sd sc)

/-- What `scast_streaming_start` sets up for a Shoutcast stream. -/
def scastStart (metaint : Nat) : ScastData := ⟨metaint, 0, false⟩

/-! ## Reading -/

def Socket.bytes (fd : Socket) : List UInt8 := (fd.map Subtype.val).flatten

/-- What is still to be read. -/
def StreamingCtrl.rest (sc : StreamingCtrl) : List UInt8 :=
  sc.buffer.drop sc.bufferPos ++ sc.fd.bytes

@[simp] theorem Socket.bytes_nil : Socket.bytes [] = [] := rfl

@[simp] theorem Socket.bytes_cons (p : { p : List UInt8 // p ≠ [] }) (ps : Socket) :
    Socket.bytes (p :: ps) = p.1 ++ Socket.bytes ps := rfl

/-- What `recv` gives is in front of what it leaves. -/
theorem recv_bytes (fd : Socket) (n : Nat) :
    (recv fd n).1 ++ (recv fd n).2.bytes = fd.bytes := by
  cases fd with
  | nil => rfl
  | cons p ps =>
    rw [recv]
    split
    · rw [Socket.bytes_cons, Socket.bytes_cons, pieceDrop, ← List.append_assoc,
        List.take_append_drop]
    · rfl

theorem recv_length_le (fd : Socket) (n : Nat) : (recv fd n).1.length ≤ n := by
  cases fd with
  | nil => exact Nat.zero_le n
  | cons p ps =>
    rw [recv]
    split
    · exact List.length_take_le n p.1
    · rename_i h
      exact Nat.le_of_not_lt h

variable {n : Nat} {sd sd' : ScastData} {sc sc' : StreamingCtrl} {out : List UInt8}

/-- `recv` gives nothing only at the end of input. -/
theorem recv_length_pos {fd : Socket} (hn : 0 < n) (h : (recv fd n).1.length = 0) :
    fd.bytes = [] ∧ (recv fd n).2.bytes = [] := by
  cases fd with
  | nil => exact ⟨rfl, rfl⟩
  | cons p ps =>
    have hp : 0 < p.1.length := List.length_pos_iff.mpr p.2
    rw [recv] at h
    split at h
    · rw [List.length_take] at h
      omega
    · exact absurd h (by show p.1.length ≠ 0; omega)

theorem recvLoop_eq (fd : Socket) (len : Nat) :
    (recvLoop fd len).1 = fd.bytes.take len ∧ (recvLoop fd len).2.bytes = fd.bytes.drop len := by
  fun_induction recvLoop fd len with
  | case1 fd len hlen hret rest ih =>
    have hle := recv_length_le fd len
    obtain ⟨h1, h2⟩ := ih
    rw [← recv_bytes fd len, List.take_append, List.drop_append, List.take_of_length_le hle,
      List.drop_of_length_le hle, List.nil_append, ← h1, ← h2]
    exact ⟨rfl, rfl⟩
  | case2 fd len hlen hret =>
    obtain ⟨h1, h2⟩ := recv_length_pos hlen (Nat.eq_zero_of_not_pos hret)
    rw [h1, h2, List.take_nil, List.drop_nil]
    exact ⟨rfl, rfl⟩
  | case3 fd len hlen =>
    rw [Nat.eq_zero_of_not_pos hlen]
    exact ⟨rfl, rfl⟩

/-- `my_read` gives the next bytes, wherever they are. -/
theorem myRead_fst (sc : StreamingCtrl) (len : Nat) : (myRead sc len).1 = sc.rest.take len := by
  have hlen : (sc.buffer.drop sc.bufferPos).length = sc.buffer.length - sc.bufferPos :=
    List.length_drop
  rw [StreamingCtrl.rest, List.take_append, hlen]
  show List.take _ _ ++ (recvLoop sc.fd _).1 = _
  rw [(recvLoop_eq sc.fd _).1]
  rcases Nat.le_total (sc.buffer.length - sc.bufferPos) len with h | h
  · have hall : (sc.buffer.drop sc.bufferPos).take len = sc.buffer.drop sc.bufferPos :=
      List.take_of_length_le (hlen ▸ h)
    rw [Nat.min_eq_left h, List.take_of_length_le (Nat.le_of_eq hlen), hall]
  · rw [Nat.min_eq_right h, Nat.sub_self, Nat.sub_eq_zero_of_le h]

theorem myRead_rest (sc : StreamingCtrl) (len : Nat) :
    (myRead sc len).2.rest = sc.rest.drop len := by
  have hlen : (sc.buffer.drop sc.bufferPos).length = sc.buffer.length - sc.bufferPos :=
    List.length_drop
  rw [StreamingCtrl.rest, StreamingCtrl.rest, List.drop_append, hlen]
  show List.drop (sc.bufferPos + _) sc.buffer ++ Socket.bytes (recvLoop sc.fd _).2 = _
  rw [(recvLoop_eq sc.fd _).2, ← List.drop_drop]
  rcases Nat.le_total (sc.buffer.length - sc.bufferPos) len with h | h
  · have hnone : (sc.buffer.drop sc.bufferPos).drop len = [] :=
      List.drop_of_length_le (hlen ▸ h)
    rw [Nat.min_eq_left h, List.drop_of_length_le (Nat.le_of_eq hlen), hnone]
  · rw [Nat.min_eq_right h, Nat.sub_self, Nat.sub_eq_zero_of_le h]

/-! ## Interval -/

/-- The data in a stream in which `p` bytes of the interval have been passed. -/
def dataFrom (metaint p : Nat) (xs : List UInt8) : List UInt8 :=
  xs.take (metaint - p) ++
    match h : xs.drop (metaint - p) with
    | [] => []
    | l :: ys => dataFrom metaint 0 (ys.drop (l.toNat * 16))
termination_by xs.length
decreasing_by
  have hlen := congrArg List.length h
  rw [List.length_drop, List.length_cons] at hlen
  rw [List.length_drop]
  omega

/-- The data in a stream that goes on with metadata. -/
def dataBehind (metaint : Nat) : List UInt8 → List UInt8
  | [] => []
  | l :: ys => dataFrom metaint 0 (ys.drop (l.toNat * 16))

theorem dataFrom_eq (metaint p : Nat) (xs : List UInt8) :
    dataFrom metaint p xs = xs.take (metaint - p) ++
      dataBehind metaint (xs.drop (metaint - p)) := by
  rw [dataFrom]
  congr 1
  split
  · rename_i h
    rw [h]
    rfl
  · rename_i h
    rw [h]
    rfl

@[simp] theorem dataFrom_nil (metaint p : Nat) : dataFrom metaint p [] = [] := by
  rw [dataFrom_eq, List.take_nil, List.drop_nil]
  rfl

/-- Data that is read passes that much of the interval. -/
theorem dataFrom_take {metaint p k : Nat} (xs : List UInt8) (h : p + k ≤ metaint) :
    dataFrom metaint p xs = xs.take k ++ dataFrom metaint (p + k) (xs.drop k) := by
  obtain ⟨n, hn⟩ : ∃ n, metaint - p = k + n := ⟨metaint - p - k, by omega⟩
  rw [dataFrom_eq, dataFrom_eq metaint (p + k), hn, show metaint - (p + k) = n by omega,
    List.take_add, List.append_assoc, List.drop_drop]

/-- At the end of the interval there is metadata. -/
theorem dataFrom_metaint (metaint : Nat) (xs : List UInt8) :
    dataFrom metaint metaint xs = dataBehind metaint xs := by
  rw [dataFrom_eq, Nat.sub_self]
  rfl

theorem scastMetaRead_rest (sc : StreamingCtrl) (metaint : Nat) :
    dataFrom metaint 0 (scastMetaRead sc).rest = dataBehind metaint sc.rest := by
  have h1 : (scastMetaRead sc).rest =
      (sc.rest.drop 1).drop (((sc.rest.take 1).getD 0 0).toNat * 16) := by
    rw [scastMetaRead, myRead_fst]
    split
    · rw [myRead_rest, myRead_rest]
    · rename_i h
      rw [myRead_rest, Nat.eq_zero_of_not_pos h]
      rfl
  rw [h1]
  cases sc.rest with
  | nil => exact dataFrom_nil metaint 0
  | cons l ys => rfl

/-! ## Calls -/

/-- What a call does: it takes a piece off the data, and the interval goes on behind it. -/
structure TakesData (want : Nat) (sd sd' : ScastData) (sc sc' : StreamingCtrl) (out : List UInt8) :
    Prop where
  out : out = (dataFrom sd.metaint sd.metapos sc.rest).take want
  rest : dataFrom sd'.metaint sd'.metapos sc'.rest =
    (dataFrom sd.metaint sd.metapos sc.rest).drop want
  metaint : sd'.metaint = sd.metaint
  metapos : sd'.metapos ≤ sd'.metaint
  isUltravox : sd'.isUltravox = false

theorem TakesData.trans {m : Nat} {sd'' : ScastData} {sc'' : StreamingCtrl} {out' : List UInt8}
    (h : TakesData m sd sd' sc sc' out) (h' : TakesData n sd' sd'' sc' sc'' out') :
    TakesData (m + n) sd sd'' sc sc'' (out ++ out') where
  out := by rw [List.take_add, ← h.out, ← h.rest, ← h'.out]
  rest := by rw [← List.drop_drop, ← h.rest, ← h'.rest]
  metaint := h'.metaint.trans h.metaint
  metapos := h'.metapos
  isUltravox := h'.isUltravox

/-- At the end of input, a call is as good as a longer one. -/
theorem TakesData.ends {m : Nat} (h : TakesData m sd sd' sc sc' out) (hrest : sc'.rest = [])
    (hmn : m ≤ n) : TakesData n sd sd' sc sc' out := by
  have hnone := h.rest
  rw [hrest, dataFrom_nil] at hnone
  have hle : (dataFrom sd.metaint sd.metapos sc.rest).length ≤ m :=
    List.drop_eq_nil_iff.mp hnone.symm
  constructor
  · rw [h.out, List.take_of_length_le hle, List.take_of_length_le (Nat.le_trans hle hmn)]
  · rw [hrest, dataFrom_nil, List.drop_of_length_le (Nat.le_trans hle hmn)]
  · exact h.metaint
  · exact h.metapos
  · exact h.isUltravox

/-- Metadata is passed over. -/
theorem TakesData.metaRead (hp : sd.metapos = sd.metaint)
    (h : TakesData n { sd with metapos := 0 } sd' (scastMetaRead sc) sc' out) :
    TakesData n sd sd' sc sc' out := by
  have hdata : dataFrom sd.metaint 0 (scastMetaRead sc).rest =
      dataFrom sd.metaint sd.metapos sc.rest := by
    rw [scastMetaRead_rest, hp, dataFrom_metaint]
  exact ⟨h.out.trans (by rw [← hdata]), h.rest.trans (by rw [← hdata]), h.metaint, h.metapos,
    h.isUltravox⟩

/-- A block that lies in the interval is taken off the data. -/
theorem readBlock_takes (buffer : List UInt8) (size block : Nat) (sd : ScastData)
    (sc : StreamingCtrl) (h : sd.metapos + block ≤ sd.metaint) (hu : sd.isUltravox = false) :
    ∃ out sd' sc', readBlock buffer size block sd sc =
        (buffer ++ out, if out.length ≠ block then (buffer ++ out).length else size, sd', sc') ∧
      TakesData block sd sd' sc sc' out ∧ (out.length = block → sd'.metapos = sd.metapos + block) ∧
      (out.length ≠ block → out.length < block ∧ sc'.rest = []) := by
  have hfst := myRead_fst sc block
  have hrest := myRead_rest sc block
  have hdata := dataFrom_take sc.rest h
  have hlen : (myRead sc block).1.length = min block sc.rest.length := by
    rw [hfst, List.length_take]
  refine ⟨(myRead sc block).1, { sd with metapos := sd.metapos + (myRead sc block).1.length },
    (myRead sc block).2, rfl, ?_, fun hblock => congrArg (sd.metapos + ·) hblock, ?_⟩
  · by_cases hblock : (myRead sc block).1.length = block
    · have htake : (sc.rest.take block).length = block := hfst ▸ hblock
      constructor
      · rw [hdata, List.take_append_of_le_length (Nat.le_of_eq htake.symm), hfst,
          List.take_take, Nat.min_self]
      · show dataFrom sd.metaint (sd.metapos + _) _ = _
        rw [hblock, hrest, hdata, List.drop_append_of_le_length (Nat.le_of_eq htake.symm),
          List.drop_of_length_le (Nat.le_of_eq htake), List.nil_append]
      · rfl
      · show sd.metapos + _ ≤ sd.metaint
        omega
      · exact hu
    · have hdrop : sc.rest.drop block = [] := List.drop_of_length_le (by omega)
      rw [hdrop, dataFrom_nil, List.append_nil] at hdata
      constructor
      · rw [hdata, hfst, List.take_take, Nat.min_self]
      · rw [hrest, hdrop, dataFrom_nil, hdata]
        exact (List.drop_of_length_le (List.length_take_le block sc.rest)).symm
      · rfl
      · show sd.metapos + _ ≤ sd.metaint
        omega
      · exact hu
  · intro hblock
    exact ⟨by omega, hrest.trans (List.drop_of_length_le (by omega))⟩

theorem metaRead_scast (fuel : Nat) (sc : StreamingCtrl) (hu : sd.isUltravox = false) :
    metaRead fuel sd sc = some (sd, scastMetaRead sc, false) := by
  rw [metaRead, hu]
  rfl

theorem scastRound_scast (fuel : Nat) (buffer : List UInt8) (size : Nat) (sc : StreamingCtrl)
    (hu : sd.isUltravox = false) :
    scastRound fuel buffer size sd sc =
      some (readBlock buffer size (min (size - buffer.length) sd.metaint)
        { sd with metapos := 0 } (scastMetaRead sc)) := by
  rw [scastRound, metaRead_scast fuel sc hu]
  rfl

/-- The loop is at the end of the interval, or of the call. -/
theorem scastLoop_takes (n : Nat) (buffer : List UInt8) (size : Nat) (sd : ScastData)
    (sc : StreamingCtrl) (hn : size - buffer.length ≤ n) (hm : 0 < sd.metaint)
    (hle : buffer.length ≤ size) (hp : buffer.length < size → sd.metapos = sd.metaint)
    (hpos : sd.metapos ≤ sd.metaint) (hu : sd.isUltravox = false) :
    ∃ out sd' sc', (∀ fuel, size - buffer.length < fuel →
        scastLoop fuel buffer size sd sc = some (buffer ++ out, sd', sc')) ∧
      TakesData (size - buffer.length) sd sd' sc sc' out := by
  induction n generalizing buffer size sd sc with
  | zero =>
    refine ⟨[], sd, sc, fun fuel hfuel => ?_, ?_⟩
    · obtain ⟨fuel, rfl⟩ : ∃ m, fuel = m + 1 := ⟨fuel - 1, by omega⟩
      rw [scastLoop, if_neg (by omega), List.append_nil]
    · rw [Nat.eq_zero_of_le_zero hn]
      exact ⟨rfl, rfl, rfl, hpos, hu⟩
  | succ n ih =>
    by_cases hlt : buffer.length < size
    · obtain ⟨block, hblock⟩ : ∃ b, b = min (size - buffer.length) sd.metaint := ⟨_, rfl⟩
      obtain ⟨out, sd', sc', hread, htakes, hfull, hshort⟩ :=
        readBlock_takes buffer size block { sd with metapos := 0 } (scastMetaRead sc)
          (by show 0 + block ≤ sd.metaint; omega) hu
      have hout : (buffer ++ out).length = buffer.length + out.length := List.length_append
      have hmeta : sd'.metaint = sd.metaint := htakes.metaint
      have hround : ∀ fuel, scastLoop (fuel + 1) buffer size sd sc = scastLoop fuel
          (buffer ++ out) (if out.length ≠ block then (buffer ++ out).length else size)
          sd' sc' := fun fuel => by
        rw [scastLoop, if_pos hlt, scastRound_scast fuel buffer size sc hu, ← hblock, hread,
          Option.bind_some]
      by_cases hl : out.length = block
      · rw [if_neg (not_not_intro hl)] at hround
        have hp' : (buffer ++ out).length < size → sd'.metapos = sd'.metaint := fun h =>
          (hfull hl).trans (by show 0 + block = sd'.metaint; omega)
        obtain ⟨out', sd'', sc'', hloop, htakes'⟩ := ih (buffer ++ out) size sd' sc'
          (by omega) (by omega) (by omega) hp' htakes.metapos htakes.isUltravox
        refine ⟨out ++ out', sd'', sc'', fun fuel hfuel => ?_, ?_⟩
        · obtain ⟨fuel, rfl⟩ : ∃ m, fuel = m + 1 := ⟨fuel - 1, by omega⟩
          rw [hround, hloop fuel (by omega), List.append_assoc]
        · have hsum : size - buffer.length = block + (size - (buffer ++ out).length) := by
            omega
          rw [hsum]
          exact TakesData.metaRead (hp hlt) (htakes.trans htakes')
      · rw [if_pos hl] at hround
        obtain ⟨hlen, hrest⟩ := hshort hl
        obtain ⟨out', sd'', sc'', hloop, htakes'⟩ := ih (buffer ++ out) _ sd' sc'
          (by omega) (by omega) (Nat.le_refl (buffer ++ out).length)
          (fun h => absurd h (Nat.lt_irrefl _)) htakes.metapos htakes.isUltravox
        refine ⟨out ++ out', sd'', sc'', fun fuel hfuel => ?_, ?_⟩
        · obtain ⟨fuel, rfl⟩ : ∃ m, fuel = m + 1 := ⟨fuel - 1, by omega⟩
          rw [hround, hloop fuel (by omega), List.append_assoc]
        · have hends : TakesData (size - buffer.length) _ sd' _ sc' out :=
            htakes.ends hrest (by omega)
          have hsum := hends.trans htakes'
          rw [Nat.sub_self] at hsum
          exact TakesData.metaRead (hp hlt) hsum
    · exact ih buffer size sd sc (by omega) hm hle hp hpos hu

/-- A call takes what it is asked for off the data. -/
theorem scastStreamingRead_takes (size : Nat) (sc : StreamingCtrl) (hm : 0 < sd.metaint)
    (hpos : sd.metapos ≤ sd.metaint) (hu : sd.isUltravox = false) :
    ∃ out sd' sc', (∀ fuel, size < fuel → scastStreamingRead fuel size sd sc =
        some (out, sd', sc')) ∧ TakesData size sd sd' sc sc' out := by
  obtain ⟨block, hblock⟩ : ∃ b, b = min (sd.metaint - sd.metapos) size := ⟨_, rfl⟩
  obtain ⟨out, sd', sc', hread, htakes, hfull, hshort⟩ :=
    readBlock_takes [] size block sd sc (by omega) hu
  have hmeta : sd'.metaint = sd.metaint := htakes.metaint
  rw [List.nil_append] at hread
  have hcall : ∀ fuel, scastStreamingRead fuel size sd sc =
      scastLoop fuel out (if out.length ≠ block then out.length else size) sd' sc' :=
    fun fuel => by rw [scastStreamingRead, ← hblock, hread]
  by_cases hl : out.length = block
  · rw [if_neg (not_not_intro hl)] at hcall
    obtain ⟨out', sd'', sc'', hloop, htakes'⟩ := scastLoop_takes size out size sd' sc' (by omega)
      (by omega) (by omega) (fun h => (hfull hl).trans (by omega)) htakes.metapos
      htakes.isUltravox
    refine ⟨out ++ out', sd'', sc'',
      fun fuel hfuel => (hcall fuel).trans (hloop fuel (by omega)), ?_⟩
    have hsum : size = block + (size - out.length) := by omega
    rw [hsum]
    exact htakes.trans htakes'
  · rw [if_pos hl] at hcall
    obtain ⟨hlen, hrest⟩ := hshort hl
    obtain ⟨out', sd'', sc'', hloop, htakes'⟩ := scastLoop_takes size out _ sd' sc' (by omega)
      (by omega) (Nat.le_refl out.length) (fun h => absurd h (Nat.lt_irrefl _)) htakes.metapos
      htakes.isUltravox
    refine ⟨out ++ out', sd'', sc'',
      fun fuel hfuel => (hcall fuel).trans (hloop fuel (by omega)), ?_⟩
    have hends : TakesData size sd sd' sc sc' out := htakes.ends hrest (by omega)
    have hsum := hends.trans htakes'
    rw [Nat.sub_self] at hsum
    exact hsum

/-- Calls one after the other take pieces off the data that fit together. -/
theorem scastReads_flatten : ∀ (sizes : List Nat) {sd : ScastData} (sc : StreamingCtrl),
    0 < sd.metaint → sd.metapos ≤ sd.metaint → sd.isUltravox = false →
    ∃ outs, (∀ fuel, sizes.sum < fuel → scastReads fuel sizes sd sc = some outs) ∧
      outs.flatten = (dataFrom sd.metaint sd.metapos sc.rest).take sizes.sum
  | [], _, _, _, _, _ => ⟨[], fun _ _ => rfl, rfl⟩
  | size :: sizes, sd, sc, hm, hpos, hu => by
    obtain ⟨out, sd', sc', hread, h⟩ := scastStreamingRead_takes size sc hm hpos hu
    obtain ⟨outs, hreads, houts⟩ := scastReads_flatten sizes sc' (h.metaint ▸ hm) h.metapos
      h.isUltravox
    refine ⟨out :: outs, fun fuel hfuel => ?_, ?_⟩
    · rw [List.sum_cons] at hfuel
      rw [scastReads, hread fuel (by omega)]
      show (do return out :: (← scastReads fuel sizes sd' sc')) = _
      rw [hreads fuel (by omega)]
      rfl
    · rw [List.flatten_cons, houts, List.sum_cons, List.take_add, ← h.out, h.rest]

/-! ## Stream -/

/-- A block of the stream: data, and metadata behind its length. -/
structure ScastBlock (metaint : Nat) where
  data : List UInt8
  l : UInt8
  info : List UInt8
  data_length : data.length = metaint
  info_length : info.length = 16 * l.toNat

/-- The bytes of a block, marked as data or not. -/
def ScastBlock.marks {metaint : Nat} (b : ScastBlock metaint) : List (UInt8 × Bool) :=
  b.data.map (·, true) ++ (b.l, false) :: b.info.map (·, false)

/-- The bytes of a stream. -/
def bytesOf (ms : List (UInt8 × Bool)) : List UInt8 := ms.map Prod.fst

/-- The bytes of a stream that are data. -/
def dataOf (ms : List (UInt8 × Bool)) : List UInt8 := (ms.filter Prod.snd).map Prod.fst

@[simp] theorem dataOf_append (xs ys : List (UInt8 × Bool)) :
    dataOf (xs ++ ys) = dataOf xs ++ dataOf ys := by
  rw [dataOf, List.filter_append, List.map_append]
  rfl

@[simp] theorem bytesOf_append (xs ys : List (UInt8 × Bool)) :
    bytesOf (xs ++ ys) = bytesOf xs ++ bytesOf ys := List.map_append

@[simp] theorem dataOf_data (xs : List UInt8) : dataOf (xs.map (·, true)) = xs := by
  induction xs with
  | nil => rfl
  | cons x xs ih => exact congrArg (x :: ·) ih

@[simp] theorem dataOf_info (xs : List UInt8) : dataOf (xs.map (·, false)) = [] := by
  induction xs with
  | nil => rfl
  | cons x xs ih => exact ih

@[simp] theorem bytesOf_map (xs : List UInt8) (b : Bool) : bytesOf (xs.map (·, b)) = xs := by
  induction xs with
  | nil => rfl
  | cons x xs ih => exact congrArg (x :: ·) ih

/-- Behind the metadata. -/
theorem bytesOf_drop_info (info : List UInt8) (ys : List (UInt8 × Bool)) (k : Nat) :
    (bytesOf ((info.map (·, false) ++ ys).take k)).drop info.length =
      bytesOf (ys.take (k - info.length)) := by
  have hinfo : (info.map (·, false)).length = info.length := List.length_map _
  rw [bytesOf, ← List.map_drop, List.drop_take, List.drop_left' hinfo]
  rfl

theorem dataOf_info_cons (l : UInt8) (info : List UInt8) (ys : List (UInt8 × Bool)) (k : Nat) :
    dataOf ((l, false) :: (info.map (·, false) ++ ys).take k) =
      dataOf (ys.take (k - info.length)) := by
  have hinfo : (info.map (·, false)).length = info.length := List.length_map _
  show dataOf ((info.map (·, false) ++ ys).take k) = _
  rw [List.take_append, dataOf_append, ← List.map_take, dataOf_info, hinfo, List.nil_append]

/-- What is read of a stream that ends anywhere is what is marked as data. -/
theorem dataFrom_marks {metaint : Nat} : ∀ (blocks : List (ScastBlock metaint)) (n : Nat),
    dataFrom metaint 0 (bytesOf ((blocks.flatMap ScastBlock.marks).take n)) =
      dataOf ((blocks.flatMap ScastBlock.marks).take n)
  | [], n => by
    rw [List.flatMap_nil, List.take_nil]
    exact dataFrom_nil metaint 0
  | b :: bs, n => by
    have hdata : (b.data.map (·, true)).length = metaint :=
      (List.length_map _).trans b.data_length
    rw [List.flatMap_cons, ScastBlock.marks, List.append_assoc, List.take_append, hdata,
      List.cons_append]
    rcases Nat.lt_or_ge metaint n with hn | hn
    · obtain ⟨k, hk⟩ : ∃ k, n - metaint = k + 1 := ⟨n - metaint - 1, by omega⟩
      have ih := dataFrom_marks bs (k - b.info.length)
      rw [hk, List.take_of_length_le (by omega), bytesOf_append, bytesOf_map, dataFrom_eq,
        Nat.sub_zero, List.take_left' b.data_length, List.drop_left' b.data_length,
        dataOf_append, dataOf_data]
      congr 1
      rw [List.take_succ_cons, dataOf_info_cons, ← ih]
      show dataFrom metaint 0 ((bytesOf ((b.info.map (·, false) ++ _).take k)).drop _) = _
      rw [Nat.mul_comm, ← b.info_length, bytesOf_drop_info]
    · have hxs : (b.data.map (·, true)).take n = (b.data.take n).map (·, true) :=
        List.map_take.symm
      rw [Nat.sub_eq_zero_of_le hn, List.take_zero, List.append_nil, hxs, bytesOf_map,
        dataOf_data, dataFrom_eq, Nat.sub_zero, List.take_take, Nat.min_eq_right hn,
        List.drop_of_length_le (by rw [List.length_take]; omega)]
      exact List.append_nil _

/-- However the stream is split and however it is read, what the calls give is its data, as far
as they ask for it and the stream goes. -/
theorem scastReads_eq_data {metaint : Nat} (hm : 0 < metaint)
    (blocks : List (ScastBlock metaint)) (n : Nat) (buffer : List UInt8) (fd : Socket)
    (hsplit : buffer ++ fd.bytes = bytesOf ((blocks.flatMap ScastBlock.marks).take n))
    (sizes : List Nat) :
    ∃ outs, Lib.Returns (fun fuel => scastReads fuel sizes (scastStart metaint) ⟨buffer, 0, fd⟩)
        outs ∧
      outs.flatten = (dataOf ((blocks.flatMap ScastBlock.marks).take n)).take sizes.sum := by
  have hrest : StreamingCtrl.rest ⟨buffer, 0, fd⟩ = bytesOf _ := hsplit
  have hstart : 0 < (scastStart metaint).metaint := hm
  obtain ⟨outs, hreads, hflat⟩ :=
    scastReads_flatten sizes ⟨buffer, 0, fd⟩ hstart (Nat.zero_le metaint) rfl
  refine ⟨outs, Lib.Returns.of_forall (sizes.sum + 1) hreads, ?_⟩
  rw [hflat, hrest]
  exact congrArg (List.take sizes.sum) (dataFrom_marks blocks n)

/-- A stream with metadata of 16 bytes behind two bytes of data. -/
def scastSample : List (ScastBlock 2) :=
  [⟨[1, 2], 1, List.replicate 16 9, by decide, by decide⟩, ⟨[3, 4], 0, [], by decide, by decide⟩]

theorem scastReads_eq_data_sample :
    ∃ outs, Lib.Returns (fun fuel => scastReads fuel [1, 3, 5] (scastStart 2)
        ⟨[1, 2, 1, 9], 0, [⟨List.replicate 10 9, by decide⟩,
          ⟨List.replicate 5 9 ++ [3, 4], by decide⟩]⟩) outs ∧
      outs.flatten = [1, 2, 3, 4] :=
  scastReads_eq_data (by decide) scastSample 21 [1, 2, 1, 9] _ (by decide) [1, 3, 5]

end MPlayer
