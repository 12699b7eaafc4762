import MPlayer.Lib.Counter
import Mathlib.Data.BitVec

/-!
# The key FIFO

Key events pass through a ring of `key_fifo_size` codes.  The counters for reading and writing
are unsigned ints that run freely, and the cell of a counter is its remainder.  Near the end of the
room key-down events are refused, and the last cell takes an event only with
`MP_KEY_RELEASE_ALL`.

What the ring should do is a queue of accepted events, each with the cell it was put in
(`FaithfulFifo`).  It does, as long as no accepted event comes into a cell still in use, which
happens when the write counter has just wrapped (`CounterClash`).
-/

namespace MPlayer

open Lib

/-! ## Key codes -/

/-- `MP_KEY_DOWN`. -/
def mpKeyDown : BitVec 32 := 1 <<< 29

/-- `MP_NO_REPEAT_KEY`. -/
def mpNoRepeatKey : BitVec 32 := 1 <<< 28

/-- `MP_KEY_RELEASE_ALL`. -/
def mpKeyReleaseAll : BitVec 32 := 1 <<< 27

/-- `MP_INPUT_NOTHING`. -/
def mpInputNothing : BitVec 32 := -3

/-! ## The code -/

/-- The static variables of `mp_fifo.c`.  `keyFifoData` is `none` as long as it is NULL. -/
structure KeyFifo where
  keyFifoData : Option (Nat → BitVec 32)
  keyFifoRead : Nat
  keyFifoWrite : Nat
  previousDownKey : BitVec 32

namespace KeyFifo

/-- The FIFO when the program starts. -/
def init : KeyFifo := ⟨none, 0, 0, 0⟩

/-- `fifo_free`, an int made of unsigned ones. -/
def fifoFree (keyFifoSize : Nat) (f : KeyFifo) : Int :=
  Int.bmod (f.keyFifoRead + keyFifoSize - f.keyFifoWrite) (2 ^ 32)

/-- The code that `mplayer_put_key_internal` stores for an event, if it accepts it. -/
def stored (keyFifoSize : Nat) (f : KeyFifo) (code : BitVec 32) : Option (BitVec 32) :=
  if f.fifoFree keyFifoSize = 0 then none
  else if code &&& mpKeyDown ≠ 0 ∧ f.fifoFree keyFifoSize ≤ (keyFifoSize >>> 1 : Nat) then none
  else if f.fifoFree keyFifoSize = 1 then
    if f.previousDownKey &&& mpKeyReleaseAll ≠ 0 then none
    else some ((if code ≠ f.previousDownKey then 0 else code) ||| mpKeyReleaseAll)
  else some code

end KeyFifo

/-- `mplayer_put_key_internal`.  What `malloc` gives is `fresh`. -/
def mplayerPutKeyInternal (keyFifoSize : Nat) (fresh : Nat → BitVec 32) (f : KeyFifo)
    (code : BitVec 32) : KeyFifo :=
  let data := f.keyFifoData.getD fresh
  match f.stored keyFifoSize code with
  | none => { f with keyFifoData := some data }
  | some code =>
    { keyFifoData := some (Function.update data (f.keyFifoWrite % keyFifoSize) code)
      keyFifoRead := f.keyFifoRead
      keyFifoWrite := (f.keyFifoWrite + 1) % 2 ^ 32
      previousDownKey :=
        if code &&& mpKeyDown ≠ 0 then code &&& ~~~mpKeyDown else code &&& mpKeyReleaseAll }

/-- `mplayer_get_key`. -/
def mplayerGetKey (keyFifoSize : Nat) (f : KeyFifo) : BitVec 32 × KeyFifo :=
  match f.keyFifoData with
  | none => (mpInputNothing, f)
  | some data =>
    if f.keyFifoWrite = f.keyFifoRead then (mpInputNothing, f)
    else (data (f.keyFifoRead % keyFifoSize),
      { f with keyFifoRead := (f.keyFifoRead + 1) % 2 ^ 32 })

/-- A call of `mplayer_put_key_internal` or of `mplayer_get_key`. -/
inductive FifoCall where
  | put (code : BitVec 32)
  | get

/-! ## What the FIFO is for -/

variable (size : Nat) (fresh : Nat → BitVec 32)

/-- In a run of calls each `mplayer_get_key` returns the oldest event of the queue `q`, or
`MP_INPUT_NOTHING` when there is none, and no accepted event comes into the cell of one that is
still in the queue.  The queue has each event with its cell. -/
def FaithfulFifo : List (Nat × BitVec 32) → KeyFifo → List FifoCall → Prop
  | _, _, [] => True
  | q, f, .put code :: calls =>
    match f.stored size code with
    | none => FaithfulFifo q (mplayerPutKeyInternal size fresh f code) calls
    | some e =>
      (∀ p ∈ q, p.1 ≠ f.keyFifoWrite % size) ∧
        FaithfulFifo (q ++ [(f.keyFifoWrite % size, e)])
          (mplayerPutKeyInternal size fresh f code) calls
  | q, f, .get :: calls =>
    (mplayerGetKey size f).1 = (q.head?.map Prod.snd).getD mpInputNothing ∧
      FaithfulFifo q.tail (mplayerGetKey size f).2 calls

/-- How many events the counters say are waiting. -/
def KeyFifo.waiting (f : KeyFifo) : Nat := (f.keyFifoWrite + 2 ^ 32 - f.keyFifoRead) % 2 ^ 32

/-- In a run of calls no event is accepted when the write counter is less than `2 ^ 32 % size` and
at least that many events are waiting. -/
def WrapsSafely : KeyFifo → List FifoCall → Prop
  | _, [] => True
  | f, .put code :: calls =>
    ((f.stored size code).isSome → ¬ CounterClash (2 ^ 32) size f.keyFifoWrite f.waiting) ∧
      WrapsSafely (mplayerPutKeyInternal size fresh f code) calls
  | f, .get :: calls => WrapsSafely (mplayerGetKey size f).2 calls

/-! ## The counters and the queue -/

variable {size} {fresh}

/-- The FIFO holds the events `q`, and `r` events have been returned before. -/
structure KeyFifo.Holds (size : Nat) (f : KeyFifo) (r : Nat) (q : List (Nat × BitVec 32)) :
    Prop where
  read : f.keyFifoRead = r % 2 ^ 32
  write : f.keyFifoWrite = (r + q.length) % 2 ^ 32
  room : q.length ≤ size
  cells : ∀ i p, q[i]? = some p → p.1 = counterCell (2 ^ 32) size (r + i)
  data : ∀ m, f.keyFifoData = some m → CounterHolds (2 ^ 32) size m r (q.map Prod.snd)
  null : f.keyFifoData = none → q = []

namespace KeyFifo

theorem init_holds : init.Holds size 0 [] where
  read := rfl
  write := rfl
  room := Nat.zero_le _
  cells := by simp
  data := by simp [init]
  null := by simp

namespace Holds

variable {f : KeyFifo} {r : Nat} {q : List (Nat × BitVec 32)}

/-- The counters give the free room. -/
theorem fifoFree (h : f.Holds size r q) (hsize : size < 2 ^ 31) :
    f.fifoFree size = (size - q.length : Int) := by
  have hroom := h.room
  rw [KeyFifo.fifoFree, h.read, h.write, Int.bmod_def]
  split
  · omega
  · omega

theorem waiting (h : f.Holds size r q) (hsize : size < 2 ^ 31) : f.waiting = q.length := by
  have hroom := h.room
  rw [KeyFifo.waiting, h.read, h.write]
  omega

theorem cell (h : f.Holds size r q) :
    f.keyFifoWrite % size = counterCell (2 ^ 32) size (r + q.length) := by
  rw [h.write, counterCell]

/-- An event that is accepted finds room. -/
theorem room_of_stored (h : f.Holds size r q) (hsize : size < 2 ^ 31) {code e : BitVec 32}
    (he : f.stored size code = some e) : q.length < size := by
  have hroom := h.room
  have hfree : f.fifoFree size ≠ 0 := by
    intro hzero
    simp [stored, hzero] at he
  rw [h.fifoFree hsize] at hfree
  omega

/-- The cell of an accepted event is in use exactly if the counters clash. -/
theorem clash_iff (h : f.Holds size r q) (hsize : size < 2 ^ 31) (hroom : q.length < size) :
    CounterClash (2 ^ 32) size f.keyFifoWrite f.waiting ↔
      ∃ p ∈ q, p.1 = f.keyFifoWrite % size := by
  have hclash : CounterClash (2 ^ 32) size f.keyFifoWrite f.waiting ↔
      CounterClash (2 ^ 32) size (r + q.length) q.length := by
    rw [h.waiting hsize, h.write, CounterClash, CounterClash, Nat.mod_mod]
  rw [hclash, counterClash_iff (by omega) hroom, h.cell]
  constructor
  · rintro ⟨i, hi, heq⟩
    exact ⟨q[i], List.getElem_mem hi, (h.cells i _ (List.getElem?_eq_getElem hi)).trans heq⟩
  · rintro ⟨p, hp, heq⟩
    obtain ⟨i, hi, rfl⟩ := List.mem_iff_getElem.mp hp
    exact ⟨i, hi, (h.cells i _ (List.getElem?_eq_getElem hi)).symm.trans heq⟩

/-- An event that is refused changes nothing but that there is memory. -/
theorem refuse (h : f.Holds size r q) (fresh : Nat → BitVec 32) {code : BitVec 32}
    (he : f.stored size code = none) :
    (mplayerPutKeyInternal size fresh f code).Holds size r q := by
  have hput : mplayerPutKeyInternal size fresh f code =
      { f with keyFifoData := some (f.keyFifoData.getD fresh) } := by
    simp [mplayerPutKeyInternal, he]
  rw [hput]
  refine { h with data := ?_, null := by simp }
  intro m hm
  cases hdata : f.keyFifoData with
  | none =>
    rw [h.null hdata]
    exact .nil m r
  | some data =>
    simp only [hdata, Option.getD_some, Option.some.injEq] at hm
    exact hm ▸ h.data data hdata

/-- An event that is accepted without a clash is the last of the queue. -/
theorem accept (h : f.Holds size r q) (fresh : Nat → BitVec 32) (hsize : size < 2 ^ 31)
    {code e : BitVec 32} (he : f.stored size code = some e)
    (hclash : ¬ CounterClash (2 ^ 32) size f.keyFifoWrite f.waiting) :
    (mplayerPutKeyInternal size fresh f code).Holds size r (q ++ [(f.keyFifoWrite % size, e)]) := by
  have hroom := h.room_of_stored hsize he
  rw [h.waiting hsize, h.write, CounterClash, Nat.mod_mod] at hclash
  have hheld : CounterHolds (2 ^ 32) size (f.keyFifoData.getD fresh) r (q.map Prod.snd) := by
    cases hdata : f.keyFifoData with
    | none =>
      rw [h.null hdata]
      exact .nil _ r
    | some data => exact h.data data hdata
  have hput : mplayerPutKeyInternal size fresh f code =
      { keyFifoData := some (Function.update (f.keyFifoData.getD fresh)
          (f.keyFifoWrite % size) e)
        keyFifoRead := f.keyFifoRead
        keyFifoWrite := (f.keyFifoWrite + 1) % 2 ^ 32
        previousDownKey :=
          if e &&& mpKeyDown ≠ 0 then e &&& ~~~mpKeyDown else e &&& mpKeyReleaseAll } := by
    simp [mplayerPutKeyInternal, he]
  rw [hput]
  refine ⟨h.read, ?_, ?_, ?_, ?_, by simp⟩
  · simp only [h.write, List.length_append, List.length_singleton]
    omega
  · simpa using Nat.succ_le_of_lt hroom
  · intro i p hp
    rcases Nat.lt_trichotomy i q.length with hi | rfl | hi
    · rw [List.getElem?_append_left hi] at hp
      exact h.cells i p hp
    · simp only [List.getElem?_concat_length, Option.some.injEq] at hp
      rw [← hp, h.cell]
    · rw [List.getElem?_eq_none (by simp; omega)] at hp
      cases hp
  · intro m hm
    cases hm
    rw [List.map_append, h.cell]
    have hlen : (q.map Prod.snd).length = q.length := List.length_map _
    rw [← hlen] at hclash hroom ⊢
    exact hheld.push (by omega) hroom e hclash

/-- Nothing is returned from an empty queue. -/
theorem getNothing (h : f.Holds size r []) : mplayerGetKey size f = (mpInputNothing, f) := by
  have hsame : f.keyFifoWrite = f.keyFifoRead := by
    rw [h.read, h.write]
    simp
  cases hdata : f.keyFifoData with
  | none => simp [mplayerGetKey, hdata]
  | some data => simp [mplayerGetKey, hdata, hsame]

/-- The oldest event of a queue is returned. -/
theorem getOldest {p : Nat × BitVec 32} (h : f.Holds size r (p :: q)) (hsize : size < 2 ^ 31) :
    (mplayerGetKey size f).1 = p.2 ∧ (mplayerGetKey size f).2.Holds size (r + 1) q := by
  have hroom := h.room
  have hread := h.read
  have hwrite := h.write
  simp only [List.length_cons] at hroom hwrite
  have hdiff : f.keyFifoWrite ≠ f.keyFifoRead := by omega
  obtain ⟨data, hdata⟩ : ∃ data, f.keyFifoData = some data := by
    cases hdata : f.keyFifoData with
    | none => exact absurd (h.null hdata) (List.cons_ne_nil p q)
    | some data => exact ⟨data, rfl⟩
  have hget : mplayerGetKey size f = (data (f.keyFifoRead % size),
      { f with keyFifoRead := (f.keyFifoRead + 1) % 2 ^ 32 }) := by
    simp [mplayerGetKey, hdata, hdiff]
  have hheld := h.data data hdata
  rw [hget]
  refine ⟨?_, ⟨?_, ?_, by omega, ?_, ?_, ?_⟩⟩
  · simpa [hread, counterCell] using hheld.head
  · simp only [hread]
    omega
  · simp only [hwrite]
    omega
  · intro i x hx
    rw [Nat.add_assoc, Nat.add_comm 1]
    exact h.cells (i + 1) x (by simpa using hx)
  · intro m hm
    simp only [hdata, Option.some.injEq] at hm
    exact hm ▸ hheld.tail
  · intro hnull
    simp [hdata] at hnull

/-- A FIFO that holds its events goes on faithfully exactly if the counters never clash. -/
theorem faithful_iff (h : f.Holds size r q) (fresh : Nat → BitVec 32) (hsize : size < 2 ^ 31)
    (calls : List FifoCall) :
    FaithfulFifo size fresh q f calls ↔ WrapsSafely size fresh f calls := by
  induction calls generalizing f r q with
  | nil => simp [FaithfulFifo, WrapsSafely]
  | cons call calls ih =>
    cases call with
    | get =>
      cases q with
      | nil =>
        simp only [FaithfulFifo, WrapsSafely, h.getNothing, List.head?_nil, Option.map_none,
          Option.getD_none, List.tail_nil, true_and]
        exact ih h
      | cons p q =>
        obtain ⟨hget, hnext⟩ := h.getOldest hsize
        simp only [FaithfulFifo, WrapsSafely, hget, List.head?_cons, Option.map_some,
          Option.getD_some, List.tail_cons, true_and]
        exact ih hnext
    | put code =>
      cases he : f.stored size code with
      | none =>
        simp only [FaithfulFifo, WrapsSafely, he, Option.isSome_none, Bool.false_eq_true,
          false_implies, true_and]
        exact ih (h.refuse fresh he)
      | some e =>
        have hroom := h.room_of_stored hsize he
        have hfree : (∀ p ∈ q, p.1 ≠ f.keyFifoWrite % size) ↔
            ¬ CounterClash (2 ^ 32) size f.keyFifoWrite f.waiting := by
          simp only [h.clash_iff hsize hroom, not_exists, not_and]
        simp only [FaithfulFifo, WrapsSafely, he, Option.isSome_some, forall_const, hfree]
        constructor
        · rintro ⟨hclash, hrun⟩
          exact ⟨hclash, (ih (h.accept fresh hsize he hclash)).mp hrun⟩
        · rintro ⟨hclash, hrun⟩
          exact ⟨hclash, (ih (h.accept fresh hsize he hclash)).mpr hrun⟩

end Holds

end KeyFifo

/-! ## Runs -/

variable (size) (fresh)

/-- What a call leaves. -/
def KeyFifo.call (f : KeyFifo) : FifoCall → KeyFifo
  | .put code => mplayerPutKeyInternal size fresh f code
  | .get => (mplayerGetKey size f).2

/-- What a run of calls leaves. -/
def KeyFifo.after (f : KeyFifo) (calls : List FifoCall) : KeyFifo := calls.foldl (call size fresh) f

variable {size} {fresh}

@[simp] theorem KeyFifo.after_nil (f : KeyFifo) : f.after size fresh [] = f := rfl

@[simp] theorem KeyFifo.after_cons (f : KeyFifo) (call : FifoCall) (calls : List FifoCall) :
    f.after size fresh (call :: calls) = (f.call size fresh call).after size fresh calls := rfl

theorem WrapsSafely.append_iff {f : KeyFifo} {as bs : List FifoCall} :
    WrapsSafely size fresh f (as ++ bs) ↔
      WrapsSafely size fresh f as ∧ WrapsSafely size fresh (f.after size fresh as) bs := by
  induction as generalizing f with
  | nil => simp [WrapsSafely]
  | cons call as ih =>
    cases call with
    | put code => simp [WrapsSafely, ih, KeyFifo.call, and_assoc]
    | get => simp [WrapsSafely, ih, KeyFifo.call]

/-- `n` events are waiting behind `r` returned ones. -/
structure KeyFifo.Waits (f : KeyFifo) (r n : Nat) : Prop where
  read : f.keyFifoRead = r % 2 ^ 32
  write : f.keyFifoWrite = (r + n) % 2 ^ 32

namespace KeyFifo

theorem init_waits : init.Waits 0 0 := ⟨rfl, rfl⟩

namespace Waits

variable {f : KeyFifo} {r n : Nat} {code : BitVec 32}

theorem fifoFree (h : f.Waits r n) (hint : size < 2 ^ 31) (hn : n ≤ size) :
    f.fifoFree size = (size - n : Int) := by
  rw [KeyFifo.fifoFree, h.read, h.write, Int.bmod_def]
  split
  · omega
  · omega

/-- An event is stored as it is, if it is not the last that finds room and no down event that is
refused. -/
theorem stored (h : f.Waits r n) (hint : size < 2 ^ 31) (hn : n + 1 < size)
    (hdown : code &&& mpKeyDown = 0 ∨ (size >>> 1 : Nat) < (size - n : Int)) :
    f.stored size code = some code := by
  have h0 : (size - n : Int) ≠ 0 := by omega
  have h1 : (size - n : Int) ≠ 1 := by omega
  have hfull : ¬ (code &&& mpKeyDown ≠ 0 ∧ (size - n : Int) ≤ (size >>> 1 : Nat)) := by
    rintro ⟨hdown', hle⟩
    rcases hdown with hup | hlt
    · exact hdown' hup
    · exact absurd hlt (Int.not_lt.mpr hle)
  rw [KeyFifo.stored, h.fifoFree hint (by omega), if_neg h0, if_neg hfull, if_neg h1]

theorem put (h : f.Waits r n) (fresh : Nat → BitVec 32) (he : f.stored size code = some code) :
    (mplayerPutKeyInternal size fresh f code).Waits r (n + 1) ∧
      (mplayerPutKeyInternal size fresh f code).keyFifoData =
        some (Function.update (f.keyFifoData.getD fresh) (counterCell (2 ^ 32) size (r + n))
          code) := by
  have hread := h.read
  have hwrite := h.write
  refine ⟨⟨?_, ?_⟩, ?_⟩
  · simp [mplayerPutKeyInternal, he, hread]
  · simp only [mplayerPutKeyInternal, he, hwrite]
    omega
  · simp [mplayerPutKeyInternal, he, hwrite, counterCell]

theorem get (h : f.Waits r (n + 1)) (hint : size < 2 ^ 31) (hn : n < size)
    {data : Nat → BitVec 32} (hdata : f.keyFifoData = some data) :
    (mplayerGetKey size f).1 = data (counterCell (2 ^ 32) size r) ∧
      (mplayerGetKey size f).2.Waits (r + 1) n ∧
      (mplayerGetKey size f).2.keyFifoData = some data := by
  have hread := h.read
  have hwrite := h.write
  have hdiff : f.keyFifoWrite ≠ f.keyFifoRead := by omega
  have hget : mplayerGetKey size f = (data (f.keyFifoRead % size),
      { f with keyFifoRead := (f.keyFifoRead + 1) % 2 ^ 32 }) := by
    simp [mplayerGetKey, hdata, hdiff]
  rw [hget]
  refine ⟨by rw [hread, counterCell], ⟨?_, ?_⟩, hdata⟩
  · simp only [hread]
    omega
  · simp only [hwrite]
    omega

end Waits

end KeyFifo

/-- Each of `n` events is returned before the next one is put. -/
def putAndGet (code : BitVec 32) (n : Nat) : List FifoCall :=
  (List.replicate n [.put code, .get]).flatten

theorem putAndGet_succ (code : BitVec 32) (n : Nat) :
    putAndGet code (n + 1) = .put code :: .get :: putAndGet code n := by
  simp [putAndGet, List.replicate_succ]

/-- Up events that are put and returned one by one leave the FIFO empty. -/
theorem KeyFifo.Waits.rounds {f : KeyFifo} {r : Nat} (h : f.Waits r 0) (hsize : 1 < size)
    (hint : size < 2 ^ 31) {code : BitVec 32} (hdown : code &&& mpKeyDown = 0) (n : Nat) :
    (f.after size fresh (putAndGet code n)).Waits (r + n) 0 := by
  induction n generalizing f r with
  | zero => exact h
  | succ n ih =>
    obtain ⟨hput, hdata⟩ := h.put fresh (h.stored hint hsize (.inl hdown))
    have hrounds := ih (hput.get hint (by omega) hdata).2.1
    rw [putAndGet_succ]
    rw [Nat.add_assoc, Nat.add_comm 1] at hrounds
    exact hrounds

/-! ## Results -/

/-- The FIFO is a faithful queue exactly if no event is accepted when the write counter has just
wrapped and too many events are waiting. -/
theorem key_fifo_faithful_iff {size : Nat} (hint : size < 2 ^ 31)
    (fresh : Nat → BitVec 32) (calls : List FifoCall) :
    FaithfulFifo size fresh [] .init calls ↔ WrapsSafely size fresh .init calls :=
  KeyFifo.init_holds.faithful_iff fresh hint calls

theorem key_fifo_faithful_iff_seven :
    FaithfulFifo 7 (fun _ => 0) [] .init [.put 0x61, .put 0x62, .get, .get, .get] ↔
      WrapsSafely 7 (fun _ => 0) .init [.put 0x61, .put 0x62, .get, .get, .get] :=
  key_fifo_faithful_iff (by decide) (fun _ => 0) _

/-- A FIFO of seven cells, when `2 ^ 32 - 1` events have come and gone: the fifth one that waits
comes into the cell of the first. -/
theorem key_fifo_not_faithful :
    ¬ FaithfulFifo 7 (fun _ => 0) [] .init
      (putAndGet 0x61 (2 ^ 32 - 1) ++ List.replicate 5 (.put 0x61)) := by
  rw [KeyFifo.init_holds.faithful_iff _ (by decide), WrapsSafely.append_iff]
  rintro ⟨-, hrun⟩
  have hstored : ∀ {f : KeyFifo} {n : Nat}, f.Waits (2 ^ 32 - 1) n → n < 5 →
      f.stored 7 0x61 = some 0x61 := fun h hn => h.stored (by decide) (by omega) (.inl (by decide))
  have h0 : (KeyFifo.init.after 7 (fun _ => 0) (putAndGet 0x61 (2 ^ 32 - 1))).Waits
      (0 + (2 ^ 32 - 1)) 0 :=
    KeyFifo.init_waits.rounds (by decide) (by decide) (by decide) (2 ^ 32 - 1)
  rw [Nat.zero_add] at h0
  have h1 := (h0.put (fun _ => 0) (hstored h0 (by decide))).1
  have h2 := (h1.put (fun _ => 0) (hstored h1 (by decide))).1
  have h3 := (h2.put (fun _ => 0) (hstored h2 (by decide))).1
  have h4 := (h3.put (fun _ => 0) (hstored h3 (by decide))).1
  have hclash := hrun.2.2.2.2.1 (by rw [hstored h4 (by decide)]; rfl)
  rw [CounterClash, KeyFifo.waiting, h4.read, h4.write] at hclash
  exact hclash (by decide)

end MPlayer
