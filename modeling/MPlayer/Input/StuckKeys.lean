import MPlayer.Input.KeyFifo

/-!
# No stuck keys

When room gets short the key FIFO refuses key-down events first, and the last free cell takes an
event only together with `MP_KEY_RELEASE_ALL`.  So a key whose down event was accepted is
released by what is accepted behind it, as soon as its up event has been put
(`KeyFifo.Holds.released`).

What is delivered is what was accepted, as long as the counters don't clash (`Holds.delivered_eq`).
-/

namespace MPlayer

open Lib

variable (size : Nat) (fresh : Nat → BitVec 32)

/-! ## Events -/

/-- The codes that a run of calls stores. -/
@[grind =] def acceptedEvents : KeyFifo → List FifoCall → List (BitVec 32)
  | _, [] => []
  | f, .put code :: calls =>
    (f.stored size code).toList ++ acceptedEvents (mplayerPutKeyInternal size fresh f code) calls
  | f, .get :: calls => acceptedEvents (mplayerGetKey size f).2 calls

/-- The codes that a run of calls returns.  From an empty FIFO nothing is returned. -/
@[grind =] def deliveredEvents : KeyFifo → List FifoCall → List (BitVec 32)
  | _, [] => []
  | f, .put code :: calls => deliveredEvents (mplayerPutKeyInternal size fresh f code) calls
  | f, .get :: calls =>
    if f.keyFifoWrite = f.keyFifoRead then deliveredEvents (mplayerGetKey size f).2 calls
    else (mplayerGetKey size f).1 :: deliveredEvents (mplayerGetKey size f).2 calls

/-- A code without flags for down events or the release of all keys. -/
structure IsKeyCode (k : BitVec 32) : Prop where
  up : k &&& mpKeyDown = 0
  one : k &&& mpKeyReleaseAll = 0

/-- Each key-down put of a run is later followed by the put of that key's up event. -/
def KeysReleased (calls : List FifoCall) : Prop :=
  ∀ as bs k, IsKeyCode k → calls = as ++ .put (k ||| mpKeyDown) :: bs → .put k ∈ bs

/-- Whenever a down event of a key was accepted and the up event has been put, what is delivered
behind the down event until the FIFO is empty has the up event or the release of all keys. -/
def NoStuckKeys (calls : List FifoCall) : Prop :=
  ∀ as bs k, IsKeyCode k → calls = as ++ .put (k ||| mpKeyDown) :: bs →
    (KeyFifo.init.after size fresh as).stored size (k ||| mpKeyDown) = some (k ||| mpKeyDown) →
    .put k ∈ bs →
    ∃ e ∈ (deliveredEvents size fresh
        ((KeyFifo.init.after size fresh as).call size fresh (.put (k ||| mpKeyDown)))
        (bs ++ List.replicate size .get)).drop ((KeyFifo.init.after size fresh as).waiting + 1),
      e = k ∨ e &&& mpKeyReleaseAll ≠ 0

variable {size} {fresh}

/-! ## What is delivered -/

namespace KeyFifo

variable {f : KeyFifo} {r : Nat} {q : List (Nat × BitVec 32)}

theorem Holds.isEmpty_iff (h : f.Holds size r q) (hint : size < 2 ^ 31) :
    f.keyFifoWrite = f.keyFifoRead ↔ q = [] := by
  have hroom := h.room
  rw [h.read, h.write, ← List.length_eq_zero_iff]
  omega

/-- The events in the FIFO and those accepted later are delivered in order, and the others still
wait at the end. -/
theorem Holds.after (h : f.Holds size r q) (hint : size < 2 ^ 31) {calls : List FifoCall}
    (hsafe : WrapsSafely size fresh f calls) :
    ∃ r' q', (f.after size fresh calls).Holds size r' q' ∧
      deliveredEvents size fresh f calls ++ q'.map Prod.snd =
        q.map Prod.snd ++ acceptedEvents size fresh f calls := by
  induction calls generalizing f r q with
  | nil => exact ⟨r, q, h, by simp [deliveredEvents, acceptedEvents]⟩
  | cons call calls ih =>
    cases call with
    | get =>
      cases q with
      | nil =>
        obtain ⟨r', q', hend, heq⟩ := ih (f := (mplayerGetKey size f).2) (r := r) (q := [])
          (by rw [h.getNothing]; exact h) hsafe
        refine ⟨r', q', hend, ?_⟩
        rw [deliveredEvents, if_pos ((h.isEmpty_iff hint).mpr rfl), acceptedEvents]
        exact heq
      | cons p q =>
        obtain ⟨hget, hnext⟩ := h.getOldest hint
        obtain ⟨r', q', hend, heq⟩ := ih hnext hsafe
        refine ⟨r', q', hend, ?_⟩
        have hne := mt (h.isEmpty_iff hint).mp (List.cons_ne_nil p q)
        rw [deliveredEvents, if_neg hne, acceptedEvents, hget, List.cons_append, heq]
        rfl
    | put code =>
      obtain ⟨hclash, hsafe⟩ := hsafe
      cases he : f.stored size code with
      | none =>
        obtain ⟨r', q', hend, heq⟩ := ih (h.refuse fresh he) hsafe
        refine ⟨r', q', hend, ?_⟩
        rw [deliveredEvents, acceptedEvents, he, heq]
        rfl
      | some e =>
        obtain ⟨r', q', hend, heq⟩ :=
          ih (h.accept fresh hint he (hclash (by simp [he]))) hsafe
        refine ⟨r', q', hend, ?_⟩
        rw [deliveredEvents, acceptedEvents, he, heq]
        simp

/-- Nothing waits behind as many reads as there are cells. -/
theorem Holds.drained (h : f.Holds size r q) (hint : size < 2 ^ 31) (n : Nat) :
    deliveredEvents size fresh f (List.replicate n .get) = (q.map Prod.snd).take n := by
  induction n generalizing f r q with
  | zero => simp [deliveredEvents]
  | succ n ih =>
    rw [List.replicate_succ]
    cases q with
    | nil =>
      rw [deliveredEvents, if_pos ((h.isEmpty_iff hint).mpr rfl), h.getNothing, ih h]
      simp
    | cons p q =>
      obtain ⟨hget, hnext⟩ := h.getOldest hint
      rw [deliveredEvents, if_neg (mt (h.isEmpty_iff hint).mp (List.cons_ne_nil p q)), hget,
        ih hnext]
      simp

end KeyFifo

theorem deliveredEvents_append (f : KeyFifo) (as bs : List FifoCall) :
    deliveredEvents size fresh f (as ++ bs) =
      deliveredEvents size fresh f as ++ deliveredEvents size fresh (f.after size fresh as) bs := by
  induction as generalizing f with
  | nil => simp [deliveredEvents]
  | cons call as ih =>
    cases call with
    | put code => simp [deliveredEvents, ih, KeyFifo.call]
    | get =>
      simp only [List.cons_append, deliveredEvents, ih, KeyFifo.after_cons, KeyFifo.call]
      split
      · rfl
      · rfl

/-- A FIFO that is read until it is empty delivers what was in it and what is accepted. -/
theorem KeyFifo.Holds.delivered_eq {f : KeyFifo} {r : Nat} {q : List (Nat × BitVec 32)}
    (h : f.Holds size r q) (hint : size < 2 ^ 31) {calls : List FifoCall}
    (hsafe : WrapsSafely size fresh f calls) :
    deliveredEvents size fresh f (calls ++ List.replicate size .get) =
      q.map Prod.snd ++ acceptedEvents size fresh f calls := by
  obtain ⟨r', q', hend, heq⟩ := h.after hint hsafe
  have hroom : (q'.map Prod.snd).length ≤ size := by simpa using hend.room
  rw [deliveredEvents_append, hend.drained hint, List.take_of_length_le hroom, heq]

/-! ## Releases -/

/-- An event of a key that is not down any more. -/
def Releases (k e : BitVec 32) : Prop := e = k ∨ e &&& mpKeyReleaseAll ≠ 0

/-- There is room, and the last event was not the release of all keys. -/
structure KeyFifo.Open (size : Nat) (f : KeyFifo) (q : List (Nat × BitVec 32)) : Prop where
  room : q.length < size
  previous : f.previousDownKey &&& mpKeyReleaseAll = 0

namespace KeyFifo

variable {f : KeyFifo} {r : Nat} {q : List (Nat × BitVec 32)} {k e : BitVec 32}

theorem previous_of_stored {code : BitVec 32} (he : f.stored size code = some e)
    (hall : e &&& mpKeyReleaseAll = 0) :
    (mplayerPutKeyInternal size fresh f code).previousDownKey &&& mpKeyReleaseAll = 0 := by
  have hput : (mplayerPutKeyInternal size fresh f code).previousDownKey =
      if e &&& mpKeyDown ≠ 0 then e &&& ~~~mpKeyDown else e &&& mpKeyReleaseAll := by
    simp [mplayerPutKeyInternal, he]
  rw [hput]
  split
  · rw [BitVec.and_assoc, BitVec.and_comm (~~~mpKeyDown), ← BitVec.and_assoc, hall]
    exact BitVec.zero_and
  · rw [hall]
    exact BitVec.zero_and

/-- The last free cell takes only the release of all keys. -/
theorem releaseAll_of_last {code : BitVec 32} (he : f.stored size code = some e)
    (hfree : f.fifoFree size = 1) : e &&& mpKeyReleaseAll ≠ 0 := by
  have hor : ∀ c : BitVec 32, (c ||| mpKeyReleaseAll) &&& mpKeyReleaseAll ≠ 0 := by
    intro c
    rw [BitVec.and_or_distrib_right, BitVec.and_self]
    intro hzero
    exact absurd (BitVec.or_eq_zero_iff.mp hzero).2 (by decide)
  rw [stored, if_neg (by omega)] at he
  split at he
  · cases he
  · split at he
    · cases he
    · cases he
      exact hor _

/-- An event without the release of all keys leaves the FIFO open. -/
theorem Holds.stays_open (h : f.Holds size r q) (fresh : Nat → BitVec 32)
    (hint : size < 2 ^ 31) {code : BitVec 32}
    (he : f.stored size code = some e) (hall : e &&& mpKeyReleaseAll = 0) :
    (mplayerPutKeyInternal size fresh f code).Open size (q ++ [(f.keyFifoWrite % size, e)]) := by
  refine ⟨?_, previous_of_stored he hall⟩
  have hroom := h.room_of_stored hint he
  have hfree : f.fifoFree size ≠ 1 := fun hone => releaseAll_of_last he hone hall
  rw [h.fifoFree hint] at hfree
  simp only [List.length_append, List.length_singleton]
  omega

/-- An up event put into an open FIFO is accepted as a release. -/
theorem Holds.accepts_up (h : f.Holds size r q) (hint : size < 2 ^ 31) (ho : f.Open size q)
    (hk : IsKeyCode k) : ∃ e, f.stored size k = some e ∧ Releases k e := by
  have hfree := h.fifoFree hint
  have hroom := ho.room
  have h0 : f.fifoFree size ≠ 0 := by omega
  cases he : f.stored size k with
  | none =>
    simp only [stored, h0, hk.up, ho.previous, ne_eq, not_true_eq_false, false_and, if_false] at he
    split at he
    · cases he
    · cases he
  | some e =>
    refine ⟨e, rfl, ?_⟩
    rcases eq_or_ne (f.fifoFree size) 1 with hone | hmore
    · exact .inr (releaseAll_of_last he hone)
    · simp [stored, h0, hk.up, hmore] at he
      exact .inl he.symm

/-- In a run from an open FIFO that puts an up event a release is accepted. -/
theorem Holds.released (h : f.Holds size r q) (hint : size < 2 ^ 31) (ho : f.Open size q)
    (hk : IsKeyCode k) {calls : List FifoCall} (hsafe : WrapsSafely size fresh f calls)
    (hput : .put k ∈ calls) : ∃ e ∈ acceptedEvents size fresh f calls, Releases k e := by
  induction calls generalizing f r q with
  | nil => cases hput
  | cons call calls ih =>
    cases call with
    | get =>
      have hput : .put k ∈ calls := by simpa using hput
      have hprevious : (mplayerGetKey size f).2.previousDownKey = f.previousDownKey := by
        unfold mplayerGetKey
        split
        · rfl
        · split
          · rfl
          · rfl
      cases q with
      | nil =>
        rw [acceptedEvents, h.getNothing]
        rw [WrapsSafely, h.getNothing] at hsafe
        exact ih h ho hsafe hput
      | cons p q =>
        have hroom := ho.room
        exact ih (h.getOldest hint).2
          ⟨by simp at hroom; omega, by rw [hprevious]; exact ho.previous⟩ hsafe hput
    | put code =>
      obtain ⟨hclash, hsafe⟩ := hsafe
      rw [acceptedEvents]
      cases he : f.stored size code with
      | none =>
        have hne : code ≠ k := by
          rintro rfl
          obtain ⟨e, hstored, -⟩ := h.accepts_up hint ho hk
          simp [he] at hstored
        have hput : .put k ∈ calls := by
          simpa [hne.symm] using hput
        have ho' : (mplayerPutKeyInternal size fresh f code).Open size q :=
          ⟨ho.room, by simpa [mplayerPutKeyInternal, he] using ho.previous⟩
        exact ih (h.refuse fresh he) ho' hsafe hput
      | some e =>
        by_cases hrel : Releases k e
        · exact ⟨e, by simp, hrel⟩
        · -- An event that releases nothing is no up event of the key.
          obtain ⟨hne, hall⟩ := not_or.mp hrel
          have hput : .put k ∈ calls := by
            rcases List.mem_cons.mp hput with heq | hmem
            · cases heq
              obtain ⟨e', hstored, hrel'⟩ := h.accepts_up hint ho hk
              rw [he] at hstored
              cases hstored
              exact absurd hrel' hrel
            · exact hmem
          obtain ⟨e', hmem, hrel'⟩ := ih (h.accept fresh hint he (hclash (by simp [he])))
            (h.stays_open fresh hint he (by simpa using hall)) hsafe hput
          exact ⟨e', by simp [hmem], hrel'⟩

end KeyFifo

/-! ## Results -/

theorem IsKeyCode.down_one {k : BitVec 32} (hk : IsKeyCode k) :
    (k ||| mpKeyDown) &&& mpKeyReleaseAll = 0 := by
  have hdown : mpKeyDown &&& mpKeyReleaseAll = 0 := by decide
  rw [BitVec.and_or_distrib_right, hk.one, hdown]
  rfl

/-- As long as no event is accepted when the write counter has just wrapped and too many events are
waiting, no key is stuck. -/
theorem no_stuck_keys {size : Nat} (hint : size < 2 ^ 31) {fresh : Nat → BitVec 32}
    {calls : List FifoCall} (hsafe : WrapsSafely size fresh .init calls) :
    NoStuckKeys size fresh calls := by
  intro as bs k hk hcalls hstored hput
  rw [hcalls, WrapsSafely.append_iff] at hsafe
  obtain ⟨hbefore, hclash, hsafe⟩ := hsafe
  obtain ⟨r, q, h, -⟩ := KeyFifo.init_holds.after hint hbefore
  have haccept := h.accept fresh hint hstored (hclash (by simp [hstored]))
  have hopen := h.stays_open fresh hint hstored hk.down_one
  have hdrop : (KeyFifo.init.after size fresh as).waiting + 1 =
      ((q ++ [((KeyFifo.init.after size fresh as).keyFifoWrite % size,
        k ||| mpKeyDown)]).map Prod.snd).length := by
    simp [h.waiting hint]
  rw [KeyFifo.call, haccept.delivered_eq hint hsafe, hdrop, List.drop_left]
  exact haccept.released hint hopen hk hsafe hput

theorem no_stuck_keys_pair :
    NoStuckKeys 7 (fun _ => 0) [.put (0x61 ||| mpKeyDown), .get, .put 0x61] :=
  no_stuck_keys (by decide) ⟨fun _ => by decide, fun _ => by decide, trivial⟩

namespace KeyFifo.Waits

variable {f : KeyFifo} {r n : Nat}

/-- Reads of an empty FIFO deliver nothing. -/
theorem delivered_nil (h : f.Waits r 0) (k : Nat) :
    deliveredEvents size fresh f (List.replicate k .get) = [] := by
  have hempty : f.keyFifoWrite = f.keyFifoRead := by
    rw [h.read, h.write]
    simp
  have hget : (mplayerGetKey size f).2 = f := by
    cases hdata : f.keyFifoData with
    | none => simp [mplayerGetKey, hdata]
    | some data => simp [mplayerGetKey, hdata, hempty]
  induction k with
  | zero => rfl
  | succ k ih => rw [List.replicate_succ, deliveredEvents, if_pos hempty, hget, ih]

/-- Enough reads deliver the events that wait behind `r` returned ones. -/
theorem delivered (h : f.Waits r n) (fresh : Nat → BitVec 32) (hint : size < 2 ^ 31) (hn : n ≤ size)
    {data : Nat → BitVec 32} (hdata : f.keyFifoData = some data) (k : Nat) :
    deliveredEvents size fresh f (List.replicate (n + k) .get) =
      (List.range' r n).map fun i => data (counterCell (2 ^ 32) size i) := by
  induction n generalizing f r with
  | zero =>
    rw [Nat.zero_add, h.delivered_nil]
    rfl
  | succ n ih =>
    obtain ⟨hget, hnext, hdata'⟩ := h.get hint (by omega) hdata
    have hread := h.read
    have hwrite := h.write
    rw [Nat.add_right_comm, List.replicate_succ, deliveredEvents, if_neg (by omega), hget,
      ih hnext (by omega) hdata', List.range'_succ, List.map_cons]

end KeyFifo.Waits

/-- The run of a key that gets stuck in a FIFO of seven cells: its up event is put in front of the
wrap, and the fourth event behind it comes into the same cell. -/
def stuckRun : List FifoCall :=
  putAndGet 0x62 (2 ^ 32 - 3) ++ [.put (0x61 ||| mpKeyDown), .get, .put 0x61] ++
    List.replicate 4 (.put 0x62)

theorem not_up_of_down {k code : BitVec 32} (hup : code &&& mpKeyDown = 0) :
    k ||| mpKeyDown ≠ code := by
  rintro rfl
  rw [BitVec.and_or_distrib_right, BitVec.and_self] at hup
  exact absurd (BitVec.or_eq_zero_iff.mp hup).2 (by decide)

theorem IsKeyCode.eq_of_down {k l : BitVec 32} (hk : IsKeyCode k) (hl : IsKeyCode l)
    (h : k ||| mpKeyDown = l ||| mpKeyDown) : k = l := by
  have hclear : ∀ {c : BitVec 32}, IsKeyCode c → (c ||| mpKeyDown) &&& ~~~mpKeyDown = c := by
    intro c hc
    have hsplit : c &&& (mpKeyDown ||| ~~~mpKeyDown) = c := by
      have hones : mpKeyDown ||| ~~~mpKeyDown = BitVec.allOnes 32 := by decide
      rw [hones, BitVec.and_allOnes]
    rw [BitVec.and_or_distrib_left, hc.up] at hsplit
    have hdown : mpKeyDown &&& ~~~mpKeyDown = 0 := by decide
    rw [BitVec.and_or_distrib_right, hdown]
    simpa using hsplit
  rw [← hclear hk, h, hclear hl]

theorem down_not_mem_putAndGet {code : BitVec 32} (hup : code &&& mpKeyDown = 0) (n : Nat)
    (k : BitVec 32) : .put (k ||| mpKeyDown) ∉ putAndGet code n := by
  intro hmem
  simp only [putAndGet, List.mem_flatten, List.mem_replicate] at hmem
  obtain ⟨round, ⟨-, rfl⟩, hmem⟩ := hmem
  simp [not_up_of_down hup] at hmem

theorem stuckRun_released : KeysReleased stuckRun := by
  intro as bs k hk hcalls
  rw [stuckRun, List.append_assoc] at hcalls
  have hinside : ∃ as', [FifoCall.put (0x61 ||| mpKeyDown), .get, .put 0x61] ++
      List.replicate 4 (.put 0x62) = as' ++ .put (k ||| mpKeyDown) :: bs := by
    rcases List.append_eq_append_iff.mp hcalls with ⟨as', -, heq⟩ | ⟨front, hfront, heq⟩
    · exact ⟨as', heq⟩
    · cases front with
      | nil => exact ⟨[], heq.symm⟩
      | cons call front =>
        have hcall : FifoCall.put (k ||| mpKeyDown) = call := (List.cons.inj heq).1
        have hmem : call ∈ putAndGet 0x62 (2 ^ 32 - 3) := by
          rw [hfront]
          simp
        rw [← hcall] at hmem
        exact absurd hmem (down_not_mem_putAndGet (by decide) _ k)
  obtain ⟨as', heq⟩ := hinside
  cases as' with
  | nil =>
    obtain ⟨hcode, rfl⟩ := List.cons.inj heq
    have hk' : k = 0x61 :=
      hk.eq_of_down ⟨by decide, by decide⟩ (FifoCall.put.inj hcode).symm
    simp [hk']
  | cons call as' =>
    have hmem : FifoCall.put (k ||| mpKeyDown) ∈
        [FifoCall.get, .put 0x61] ++ List.replicate 4 (.put 0x62) := by
      have htail := (List.cons.inj heq).2
      simp only [List.append_eq] at htail
      rw [show [FifoCall.get, .put 0x61] ++ List.replicate 4 (.put 0x62) =
        as' ++ .put (k ||| mpKeyDown) :: bs from htail]
      simp
    simp only [List.replicate, List.cons_append, List.nil_append, List.mem_cons, reduceCtorEq,
      FifoCall.put.injEq, List.not_mem_nil, or_false, false_or, or_self] at hmem
    rcases hmem with hmem | hmem
    · exact absurd hmem (not_up_of_down (by decide))
    · exact absurd hmem (not_up_of_down (by decide))

/-- A run of puts and gets with a key that gets stuck. -/
theorem stuck_key : KeysReleased stuckRun ∧ ¬ NoStuckKeys 7 (fun _ => 0) stuckRun := by
  refine ⟨stuckRun_released, ?_⟩
  intro hnone
  have h0 : (KeyFifo.init.after 7 (fun _ => 0) (putAndGet 0x62 (2 ^ 32 - 3))).Waits
      (0 + (2 ^ 32 - 3)) 0 :=
    KeyFifo.init_waits.rounds (by decide) (by decide) (by decide) (2 ^ 32 - 3)
  rw [Nat.zero_add] at h0
  have hdown : (KeyFifo.init.after 7 (fun _ => 0) (putAndGet 0x62 (2 ^ 32 - 3))).stored 7
      (0x61 ||| mpKeyDown) = some (0x61 ||| mpKeyDown) :=
    h0.stored (by decide) (by decide) (.inr (by decide))
  obtain ⟨e, hmem, hrel⟩ := hnone (putAndGet 0x62 (2 ^ 32 - 3))
    (.get :: .put 0x61 :: List.replicate 4 (.put 0x62)) 0x61 ⟨by decide, by decide⟩
    (by simp [stuckRun]) hdown (by simp)
  generalize KeyFifo.init.after 7 (fun _ => 0) (putAndGet 0x62 (2 ^ 32 - 3)) = f
    at h0 hdown hmem
  have hup : ∀ (code : BitVec 32) {f : KeyFifo} {n : Nat}, f.Waits (2 ^ 32 - 2) n → n < 5 →
      code &&& mpKeyDown = 0 → f.stored 7 code = some code := by
    intro code f n h hn hcode
    exact h.stored (by decide) (by omega) (.inl hcode)
  obtain ⟨h1, d1⟩ := h0.put (fun _ => 0) hdown
  obtain ⟨-, h2, d2⟩ := h1.get (show 7 < 2 ^ 31 by decide) (by decide) d1
  obtain ⟨h3, d3⟩ := h2.put (fun _ => 0) (hup 0x61 h2 (by decide) (by decide))
  obtain ⟨h4, d4⟩ := h3.put (fun _ => 0) (hup 0x62 h3 (by decide) (by decide))
  obtain ⟨h5, d5⟩ := h4.put (fun _ => 0) (hup 0x62 h4 (by decide) (by decide))
  obtain ⟨h6, d6⟩ := h5.put (fun _ => 0) (hup 0x62 h5 (by decide) (by decide))
  obtain ⟨h7, d7⟩ := h6.put (fun _ => 0) (hup 0x62 h6 (by decide) (by decide))
  have hfull : ¬ (mplayerPutKeyInternal 7 (fun _ => 0) f (0x61 ||| mpKeyDown)).keyFifoWrite =
      (mplayerPutKeyInternal 7 (fun _ => 0) f (0x61 ||| mpKeyDown)).keyFifoRead := by
    rw [h1.read, h1.write]
    decide
  have hwaiting : f.waiting = 0 := by
    rw [KeyFifo.waiting, h0.read, h0.write]
    decide
  have hrest := h7.delivered (fun _ => 0) (show 7 < 2 ^ 31 by decide) (by decide) d7 2
  rw [hwaiting, KeyFifo.call, List.cons_append, deliveredEvents, if_neg hfull,
    List.drop_succ_cons, List.drop_zero] at hmem
  change e ∈ deliveredEvents 7 _ _ (List.replicate 7 .get) at hmem
  rw [hrest, d6, d5, d4, d3] at hmem
  have he : e = 0x62 := by
    simpa [List.range', counterCell, Function.update_apply] using hmem
  subst he
  rcases hrel with hkey | hall
  · exact absurd hkey (by decide)
  · exact hall (by decide)

end MPlayer
