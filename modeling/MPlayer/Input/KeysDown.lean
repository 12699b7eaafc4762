import MPlayer.Input.KeyFifo
import MPlayer.Lib.Loops
import Mathlib.Data.List.Nodup

/-!
# Pressed keys

`interpret_key` keeps the keys that are down in an array of `MP_MAX_KEY_DOWN` codes.  A down event
adds its key, an up event runs the command bound to the keys that are down and takes its key out.
An up event without a down event adds the key first.

A down event is refused only when there are already more keys than the array has room for, so with
a full array it is written behind the end.  While the menu has a callback, up events go to the
callback first, and what is left of them has lost `MP_NO_REPEAT_KEY`.
-/

namespace MPlayer

open Lib

variable {C : Type}

/-! ## The code -/

/-- `MP_MAX_KEY_DOWN`. -/
def mpMaxKeyDown : Nat := 8

/-- The static variables of `input.c` for pressed keys. -/
structure KeyState (C : Type) where
  keyDown : List (BitVec 32)
  numKeyDown : Nat
  lastKeyDown : Nat
  arState : Int
  arCmd : Option C

/-- What a call of `interpret_key` finds: `mp_input_key_cb`, the result of `GetTimer`, and
`mp_input_get_cmd_from_keys`. -/
structure KeyEnv (C : Type) where
  keyCb : Option (BitVec 32 → Bool)
  timer : Nat
  getCmd : List (BitVec 32) → Option C

/-- The first of `n` keys that is `code`, or `n`. -/
def findKey (keyDown : List (BitVec 32)) (n : Nat) (code : BitVec 32) : Except Halt Nat :=
  let j := (keyDown.take n).idxOf code
  if j < keyDown.length ∨ n ≤ keyDown.length then .ok j else .error .bounds

/-- `memmove` of the `n - (j + 1)` keys behind place `j` down by one. -/
def moveKeys (keyDown : List (BitVec 32)) (j n : Nat) : Except Halt (List (BitVec 32)) :=
  if n ≤ keyDown.length then
    .ok (keyDown.take j ++ (keyDown.take n).drop (j + 1) ++ keyDown.drop (n - 1))
  else .error .bounds

/-- The branch for a down event. -/
def keyPressed (env : KeyEnv C) (s : KeyState C) (code : BitVec 32) :
    Except Halt (Option C × KeyState C) :=
  if mpMaxKeyDown < s.numKeyDown then .ok (none, s)
  else do
    let code := code &&& ~~~mpKeyDown
    let j ← findKey s.keyDown s.numKeyDown code
    if j ≠ s.numKeyDown then return (none, s)
    else
      return (none, {
        keyDown := ← store s.keyDown s.numKeyDown code
        numKeyDown := s.numKeyDown + 1
        lastKeyDown := env.timer
        arState := 0
        arCmd := s.arCmd })

/-- The command for the keys that are down, and the removal of the key at place `j`. -/
def removeKey (env : KeyEnv C) (s : KeyState C) (j : Nat) : Except Halt (Option C × KeyState C) :=
    do
  let ret := if s.lastKeyDown ≠ 0 then env.getCmd (s.keyDown.take s.numKeyDown) else none
  let keyDown ←
    if j + 1 < s.numKeyDown then moveKeys s.keyDown j s.numKeyDown else .ok s.keyDown
  return (ret, {
    keyDown := keyDown
    numKeyDown := s.numKeyDown - 1
    lastKeyDown := 0
    arState := -1
    arCmd := none })

/-- The branch for an up event. -/
def keyReleased (env : KeyEnv C) (s : KeyState C) (code : BitVec 32) :
    Except Halt (Option C × KeyState C) := do
  let j ← findKey s.keyDown s.numKeyDown code
  if j = s.numKeyDown then
    if mpMaxKeyDown ≤ s.numKeyDown then return (none, s)
    else
      let keyDown ← store s.keyDown s.numKeyDown code
      removeKey env
        { s with keyDown := keyDown, numKeyDown := s.numKeyDown + 1, lastKeyDown := 1 } j
  else removeKey env s j

/-- What `MP_KEY_RELEASE_ALL` does. -/
def KeyState.releaseAll (s : KeyState C) : KeyState C :=
  { s with keyDown := List.replicate mpMaxKeyDown 0, numKeyDown := 0, lastKeyDown := 0 }

/-- `interpret_key` behind its first branch. -/
def interpretOneKey (env : KeyEnv C) (s : KeyState C) (code : BitVec 32) :
    Except Halt (Option C × KeyState C) :=
  match env.keyCb with
  | some cb =>
    if code &&& mpKeyDown ≠ 0 then .ok (none, s)
    else
      let code := code &&& ~~~(mpKeyDown ||| mpNoRepeatKey)
      if cb code then .ok (none, s) else keyReleased env s code
  | none => if code &&& mpKeyDown ≠ 0 then keyPressed env s code else keyReleased env s code

/-- `interpret_key`: the command to run and what it leaves, or where it leaves the array. -/
def interpretKey (env : KeyEnv C) (s : KeyState C) (code : BitVec 32) :
    Except Halt (Option C × KeyState C) :=
  if code &&& mpKeyReleaseAll ≠ 0 then
    if code &&& ~~~mpKeyReleaseAll = 0 then .ok (none, s.releaseAll)
    else interpretOneKey env s.releaseAll (code &&& ~~~mpKeyReleaseAll)
  else interpretOneKey env s code

/-- The state when the program starts. -/
def KeyState.init : KeyState C := ⟨List.replicate mpMaxKeyDown 0, 0, 0, -1, none⟩

/-! ## What should hold -/

/-- The keys that are down. -/
def KeyState.held (s : KeyState C) : List (BitVec 32) := s.keyDown.take s.numKeyDown

/-- There is room for the keys that are down, and each of them is there once. -/
structure KeyState.Consistent (s : KeyState C) : Prop where
  room : s.numKeyDown ≤ mpMaxKeyDown
  distinct : s.held.Nodup
  size : s.keyDown.length = mpMaxKeyDown

/-- In a run of key events nothing is written outside of the array, the keys that are down stay
consistent, and behind an up event its key is not among them. -/
def KeysConsistent : KeyState C → List (KeyEnv C × BitVec 32) → Prop
  | _, [] => True
  | s, (env, code) :: events =>
    ∃ ret s', interpretKey env s code = .ok (ret, s') ∧ s'.Consistent ∧
      (code &&& mpKeyDown = 0 → code &&& ~~~mpKeyReleaseAll ∉ s'.held) ∧
      KeysConsistent s' events

/-- The keys that are down when an event is looked at. -/
def KeyState.heldBy (s : KeyState C) (code : BitVec 32) : List (BitVec 32) :=
  if code &&& mpKeyReleaseAll ≠ 0 then [] else s.held

/-- A down event finds room or its key down already, or goes to the menu.  An up event of a key
that is down isn't taken by the menu, and doesn't lose `MP_NO_REPEAT_KEY` to it. -/
structure KeyEventOk (env : KeyEnv C) (s : KeyState C) (code : BitVec 32) : Prop where
  down : code &&& mpKeyDown ≠ 0 → env.keyCb = none →
    (s.heldBy code).length < mpMaxKeyDown ∨
      code &&& ~~~mpKeyReleaseAll &&& ~~~mpKeyDown ∈ s.heldBy code
  up : code &&& mpKeyDown = 0 → code &&& ~~~mpKeyReleaseAll ∈ s.heldBy code →
    ∀ cb, env.keyCb = some cb → cb (code &&& ~~~mpKeyReleaseAll) = false ∧
      code &&& mpNoRepeatKey = 0

/-- A run of key events that are all looked at in such a state. -/
def KeyEventsOk : KeyState C → List (KeyEnv C × BitVec 32) → Prop
  | _, [] => True
  | s, (env, code) :: events =>
    KeyEventOk env s code ∧
      ∀ ret s', interpretKey env s code = .ok (ret, s') → KeyEventsOk s' events

/-! ## The branches -/

namespace KeyState

variable {s : KeyState C} {env : KeyEnv C} {code : BitVec 32}

theorem init_consistent : (init : KeyState C).Consistent where
  room := Nat.zero_le _
  distinct := by simp [held, init]
  size := by simp [init]

theorem releaseAll_consistent (s : KeyState C) : s.releaseAll.Consistent where
  room := Nat.zero_le _
  distinct := by simp [held, KeyState.releaseAll]
  size := by simp [KeyState.releaseAll]

theorem Consistent.held_length (h : s.Consistent) : s.held.length = s.numKeyDown := by
  have hroom := h.room
  have hsize := h.size
  rw [held, List.length_take]
  omega

theorem Consistent.findKey (h : s.Consistent) (code : BitVec 32) :
    findKey s.keyDown s.numKeyDown code = .ok (s.held.idxOf code) := by
  have hroom : s.numKeyDown ≤ s.keyDown.length := by
    rw [h.size]
    exact h.room
  simp [MPlayer.findKey, held, hroom]

theorem Consistent.idxOf_eq_iff (h : s.Consistent) (code : BitVec 32) :
    s.held.idxOf code = s.numKeyDown ↔ code ∉ s.held := by
  rw [← h.held_length, List.idxOf_eq_length_iff]

theorem removeKey_eq (env : KeyEnv C) {j : Nat} {keyDown : List (BitVec 32)}
    (hmove : (if j + 1 < s.numKeyDown then moveKeys s.keyDown j s.numKeyDown
      else .ok s.keyDown) = .ok keyDown) :
    removeKey env s j = .ok (if s.lastKeyDown ≠ 0 then env.getCmd s.held else none,
      ⟨keyDown, s.numKeyDown - 1, 0, -1, none⟩) := by
  unfold removeKey
  split at hmove
  · rename_i hlast
    rw [if_pos hlast, hmove]
    rfl
  · rename_i hlast
    cases hmove
    rw [if_neg hlast]
    rfl

/-- The key at a place is taken out. -/
theorem removeKey_held (env : KeyEnv C) (hroom : s.numKeyDown ≤ mpMaxKeyDown)
    (hsize : s.keyDown.length = mpMaxKeyDown) {j : Nat} (hj : j < s.numKeyDown) :
    ∃ ret s', removeKey env s j = .ok (ret, s') ∧ s'.held = s.held.eraseIdx j ∧
      s'.numKeyDown = s.numKeyDown - 1 ∧ s'.keyDown.length = mpMaxKeyDown := by
  by_cases hlast : j + 1 < s.numKeyDown
  · have hmove := removeKey_eq env (show (if j + 1 < s.numKeyDown then
        moveKeys s.keyDown j s.numKeyDown else .ok s.keyDown) = _ by
      rw [if_pos hlast, moveKeys, if_pos (by omega)])
    refine ⟨_, _, hmove, ?_, rfl, ?_⟩
    · have hfront : (s.keyDown.take j ++ (s.keyDown.take s.numKeyDown).drop (j + 1)).length =
          s.numKeyDown - 1 := by
        simp only [List.length_append, List.length_take, List.length_drop]
        omega
      rw [held, List.take_left' hfront, List.eraseIdx_eq_take_drop_succ, held, List.take_take,
        Nat.min_eq_left (Nat.le_of_lt hj)]
    · simp only [List.length_append, List.length_take, List.length_drop]
      omega
  · have hstay := removeKey_eq env (show (if j + 1 < s.numKeyDown then
        moveKeys s.keyDown j s.numKeyDown else .ok s.keyDown) = _ from if_neg hlast)
    refine ⟨_, _, hstay, ?_, rfl, hsize⟩
    have hj' : j = s.numKeyDown - 1 := by omega
    rw [held, held, List.eraseIdx_eq_take_drop_succ, List.take_take, List.drop_eq_nil_of_le,
      List.append_nil, hj', Nat.min_eq_left (Nat.sub_le _ _)]
    rw [List.length_take]
    omega

/-- An up event takes its key out. -/
theorem Consistent.keyReleased (h : s.Consistent) (env : KeyEnv C) (code : BitVec 32) :
    ∃ ret s', keyReleased env s code = .ok (ret, s') ∧ s'.Consistent ∧
      s'.held = s.held.erase code := by
  have hroom := h.room
  have hsize := h.size
  rw [MPlayer.keyReleased, h.findKey, ok_bind]
  by_cases hmem : code ∈ s.held
  · have hj := mt (h.idxOf_eq_iff code).mp (not_not.mpr hmem)
    have hlt : s.held.idxOf code < s.numKeyDown := by
      rw [← h.held_length]
      exact List.idxOf_lt_length_iff.mpr hmem
    obtain ⟨ret, s', hok, hheld, hnum, hlen⟩ := removeKey_held env hroom hsize hlt
    have herase : s'.held = s.held.erase code := by
      rw [hheld, List.erase_eq_eraseIdx_of_idxOf rfl]
    rw [if_neg hj]
    exact ⟨ret, s', hok, ⟨by omega, herase ▸ h.distinct.erase code, hlen⟩, herase⟩
  · rw [if_pos ((h.idxOf_eq_iff code).mpr hmem), List.erase_of_not_mem hmem]
    by_cases hfull : mpMaxKeyDown ≤ s.numKeyDown
    · rw [if_pos hfull]
      exact ⟨none, s, rfl, h, rfl⟩
    · rw [if_neg hfull, store_eq (by omega), ok_bind, (h.idxOf_eq_iff code).mpr hmem]
      obtain ⟨ret, s', hok, hheld, hnum, hlen⟩ := removeKey_held env
        (s := { s with keyDown := s.keyDown.set s.numKeyDown code,
                       numKeyDown := s.numKeyDown + 1, lastKeyDown := 1 })
        (j := s.numKeyDown) (Nat.not_le.mp hfull) (by simpa using hsize) (Nat.lt_succ_self _)
      have hsame : s'.held = s.held := by
        rw [hheld, List.eraseIdx_eq_take_drop_succ, held, held, List.take_take,
          List.drop_eq_nil_of_le, List.append_nil, Nat.min_eq_left (Nat.le_succ _),
          List.take_set_of_le (Nat.le_refl _)]
        simp only [List.length_take]
        omega
      exact ⟨ret, s', hok, ⟨by simp only at hnum; omega, hsame ▸ h.distinct, hlen⟩, hsame⟩

/-- A down event keeps the keys consistent, or comes when the array is full. -/
theorem Consistent.keyPressed (h : s.Consistent) (env : KeyEnv C) (code : BitVec 32) :
    (∃ ret s', keyPressed env s code = .ok (ret, s') ∧ s'.Consistent) ↔
      s.held.length < mpMaxKeyDown ∨ code &&& ~~~mpKeyDown ∈ s.held := by
  have hroom := h.room
  have hsize := h.size
  rw [MPlayer.keyPressed, if_neg (Nat.not_lt.mpr hroom), h.held_length]
  simp only [h.findKey, ok_bind]
  by_cases hmem : code &&& ~~~mpKeyDown ∈ s.held
  · rw [if_pos (mt (h.idxOf_eq_iff _).mp (not_not.mpr hmem))]
    exact ⟨fun _ => .inr hmem, fun _ => ⟨none, s, rfl, h⟩⟩
  · rw [if_neg (not_not.mpr ((h.idxOf_eq_iff _).mpr hmem))]
    by_cases hfull : s.numKeyDown < mpMaxKeyDown
    · rw [store_eq (by omega), ok_bind]
      refine ⟨fun _ => .inl hfull, fun _ => ⟨none, _, rfl, hfull, ?_, by simpa using hsize⟩⟩
      rw [held, List.take_succ_eq_append_getElem (by simp; omega),
        List.take_set_of_le (Nat.le_refl _), List.getElem_set_self]
      exact List.concat_eq_append ▸ List.Nodup.concat hmem h.distinct
    · have hstore : store s.keyDown s.numKeyDown (code &&& ~~~mpKeyDown) = .error .bounds := by
        rw [store, if_neg]
        rintro ⟨-, hlt⟩
        rw [Int.toNat_natCast] at hlt
        omega
      rw [hstore, error_bind]
      constructor
      · rintro ⟨ret, s', hok, -⟩
        cases hok
      · rintro (hlt | hin)
        · exact absurd hlt hfull
        · exact absurd hin hmem

end KeyState

/-! ## One event -/

/-- What should hold behind an event: the array is as it was before or was written inside, the keys
are consistent, and behind an up event its key is not down. -/
def StepsWell (x : Except Halt (Option C × KeyState C)) (code : BitVec 32) : Prop :=
  ∃ ret s', x = .ok (ret, s') ∧ s'.Consistent ∧ (code &&& mpKeyDown = 0 → code ∉ s'.held)

theorem and_not_or_of_zero {c a b : BitVec 32} (ha : c &&& a = 0) (hb : c &&& b = 0) :
    c &&& ~~~(a ||| b) = c := by
  have hor : c &&& (a ||| b) = 0 := by
    rw [BitVec.and_or_distrib_left, ha, hb]
    rfl
  have hsplit : c &&& (a ||| b) ||| c &&& ~~~(a ||| b) = c := by
    rw [← BitVec.and_or_distrib_left, BitVec.or_not_self, BitVec.and_allOnes]
  rw [hor] at hsplit
  simpa using hsplit

theorem and_not_ne {c a : BitVec 32} (h : c &&& a ≠ 0) (b : BitVec 32) :
    c &&& ~~~(b ||| a) ≠ c := by
  intro heq
  apply h
  rw [← heq, BitVec.and_assoc, BitVec.not_or, BitVec.and_assoc, BitVec.not_and_self]
  simp

namespace KeyState

variable {s : KeyState C} {env : KeyEnv C} {code : BitVec 32}

/-- An up event that is looked at takes the key of its code out, and no other one. -/
theorem Consistent.keyReleased_iff (h : s.Consistent) (env : KeyEnv C) (code c : BitVec 32) :
    (∃ ret s', MPlayer.keyReleased env s code = .ok (ret, s') ∧ s'.Consistent ∧ c ∉ s'.held) ↔
      c ∈ s.held → code = c := by
  obtain ⟨ret, s', hok, hcons, hheld⟩ := h.keyReleased env code
  constructor
  · rintro ⟨ret', s'', hok', -, hnot⟩ hmem
    rw [hok] at hok'
    cases hok'
    rw [hheld, h.distinct.mem_erase_iff] at hnot
    by_contra hne
    exact hnot ⟨fun heq => hne heq.symm, hmem⟩
  · intro heq
    refine ⟨ret, s', hok, hcons, ?_⟩
    rw [hheld, h.distinct.mem_erase_iff]
    rintro ⟨hne, hmem⟩
    exact hne (heq hmem).symm

/-- When an event without the release of all keys leaves the keys well. -/
theorem Consistent.interpretOneKey_iff (h : s.Consistent) (env : KeyEnv C) (code : BitVec 32) :
    StepsWell (interpretOneKey env s code) code ↔
      (code &&& mpKeyDown ≠ 0 → env.keyCb = none →
        s.held.length < mpMaxKeyDown ∨ code &&& ~~~mpKeyDown ∈ s.held) ∧
      (code &&& mpKeyDown = 0 → code ∈ s.held →
        ∀ cb, env.keyCb = some cb → cb code = false ∧ code &&& mpNoRepeatKey = 0) := by
  by_cases hdown : code &&& mpKeyDown = 0
  · simp only [hdown, ne_eq, not_true_eq_false, false_implies, true_and, true_implies,
      StepsWell, interpretOneKey, if_false]
    cases hcb : env.keyCb with
    | none =>
      simp only [reduceCtorEq, false_implies, implies_true, iff_true]
      exact (h.keyReleased_iff env code code).mpr fun _ => rfl
    | some cb =>
      simp only [Option.some.injEq, forall_eq']
      by_cases hrepeat : code &&& mpNoRepeatKey = 0
      · rw [and_not_or_of_zero hdown hrepeat]
        cases hcall : cb code with
        | true =>
          simp only [if_true, hrepeat, and_true, Bool.true_eq_false, imp_false]
          constructor
          · rintro ⟨ret, s', hok, -, hnot⟩
            cases hok
            exact hnot
          · intro hnot
            exact ⟨none, s, rfl, h, hnot⟩
        | false =>
          simp only [Bool.false_eq_true, if_false, hrepeat, and_true, implies_true, iff_true]
          exact (h.keyReleased_iff env code code).mpr fun _ => rfl
      · simp only [hrepeat, and_false, imp_false]
        split
        · constructor
          · rintro ⟨ret, s', hok, -, hnot⟩
            cases hok
            exact hnot
          · intro hnot
            exact ⟨none, s, rfl, h, hnot⟩
        · rw [h.keyReleased_iff env _ code]
          constructor
          · intro heq hmem
            exact and_not_ne hrepeat mpKeyDown (heq hmem)
          · intro hnot hmem
            exact absurd hmem hnot
  · simp only [hdown, ne_eq, not_false_eq_true, true_implies, false_implies, and_true,
      StepsWell, interpretOneKey, if_true]
    cases hcb : env.keyCb with
    | none =>
      simp only [true_implies]
      exact h.keyPressed env code
    | some cb =>
      simp only [reduceCtorEq, false_implies, iff_true]
      exact ⟨none, s, rfl, h⟩

theorem down_and_not_releaseAll (code : BitVec 32) :
    code &&& ~~~mpKeyReleaseAll &&& mpKeyDown = code &&& mpKeyDown := by
  have hdown : ~~~mpKeyReleaseAll &&& mpKeyDown = mpKeyDown := by decide
  rw [BitVec.and_assoc, hdown]

theorem noRepeat_and_not_releaseAll (code : BitVec 32) :
    code &&& ~~~mpKeyReleaseAll &&& mpNoRepeatKey = code &&& mpNoRepeatKey := by
  have hrepeat : ~~~mpKeyReleaseAll &&& mpNoRepeatKey = mpNoRepeatKey := by decide
  rw [BitVec.and_assoc, hrepeat]

theorem and_not_of_zero {c a : BitVec 32} (h : c &&& a = 0) : c &&& ~~~a = c := by
  have hself := and_not_or_of_zero h h
  rwa [BitVec.or_self] at hself

/-- When an event leaves the keys well. -/
theorem Consistent.interpretKey_iff (h : s.Consistent) (env : KeyEnv C) (code : BitVec 32) :
    (∃ ret s', interpretKey env s code = .ok (ret, s') ∧ s'.Consistent ∧
      (code &&& mpKeyDown = 0 → code &&& ~~~mpKeyReleaseAll ∉ s'.held)) ↔
    KeyEventOk env s code := by
  have hok : KeyEventOk env s code ↔
      (code &&& mpKeyDown ≠ 0 → env.keyCb = none → (s.heldBy code).length < mpMaxKeyDown ∨
        code &&& ~~~mpKeyReleaseAll &&& ~~~mpKeyDown ∈ s.heldBy code) ∧
      (code &&& mpKeyDown = 0 → code &&& ~~~mpKeyReleaseAll ∈ s.heldBy code →
        ∀ cb, env.keyCb = some cb →
          cb (code &&& ~~~mpKeyReleaseAll) = false ∧ code &&& mpNoRepeatKey = 0) :=
    ⟨fun hok => ⟨hok.down, hok.up⟩, fun hok => ⟨hok.1, hok.2⟩⟩
  have hone := fun (t : KeyState C) (ht : t.Consistent) =>
    ht.interpretOneKey_iff env (code &&& ~~~mpKeyReleaseAll)
  simp only [StepsWell, down_and_not_releaseAll, noRepeat_and_not_releaseAll] at hone
  rw [hok]
  by_cases hall : code &&& mpKeyReleaseAll = 0
  · have hby : s.heldBy code = s.held := by simp [heldBy, hall]
    have hcode := hone s h
    rw [and_not_of_zero hall] at hcode
    rw [hby, interpretKey, if_neg (not_not.mpr hall), and_not_of_zero hall]
    exact hcode
  · have hby : s.heldBy code = s.releaseAll.held := by
      rw [heldBy, if_pos hall]
      simp [held, KeyState.releaseAll]
    rw [hby, interpretKey, if_pos hall]
    by_cases hzero : code &&& ~~~mpKeyReleaseAll = 0
    · -- Nothing is left of the event.
      have hempty : s.releaseAll.held = [] := by simp [held, KeyState.releaseAll]
      rw [if_pos hzero, hempty]
      simp only [List.length_nil, List.not_mem_nil, or_false, false_implies, implies_true, and_true]
      refine ⟨fun _ _ _ => by decide, fun _ => ⟨none, _, rfl, releaseAll_consistent s, ?_⟩⟩
      simp [hempty]
    · rw [if_neg hzero]
      exact hone s.releaseAll (releaseAll_consistent s)

/-! ## Runs -/

theorem Consistent.keysConsistent_iff (h : s.Consistent) (events : List (KeyEnv C × BitVec 32)) :
    KeysConsistent s events ↔ KeyEventsOk s events := by
  induction events generalizing s with
  | nil => simp [KeysConsistent, KeyEventsOk]
  | cons event events ih =>
    obtain ⟨env, code⟩ := event
    rw [KeysConsistent, KeyEventsOk]
    constructor
    · rintro ⟨ret, s', hok, hcons, hup, hrun⟩
      refine ⟨(h.interpretKey_iff env code).mp ⟨ret, s', hok, hcons, hup⟩, ?_⟩
      intro ret' s'' hok'
      rw [hok] at hok'
      cases hok'
      exact (ih hcons).mp hrun
    · rintro ⟨hevent, hrun⟩
      obtain ⟨ret, s', hok, hcons, hup⟩ := (h.interpretKey_iff env code).mpr hevent
      exact ⟨ret, s', hok, hcons, hup, (ih hcons).mpr (hrun ret s' hok)⟩

end KeyState

/-- Pressed keys stay consistent in a run exactly if each event is looked at in a state in which it
finds room, and the menu leaves the up events of pressed keys alone. -/
theorem keys_consistent_iff (events : List (KeyEnv C × BitVec 32)) :
    KeysConsistent .init events ↔ KeyEventsOk .init events :=
  KeyState.init_consistent.keysConsistent_iff events

/-- Nine keys are pressed. -/
def nineKeys : List (KeyEnv Unit × BitVec 32) :=
  (List.range 9).map fun i => (⟨none, 1, fun _ => none⟩, BitVec.ofNat 32 (0x61 + i) ||| mpKeyDown)

/-- The ninth key is written behind the end of the array.  A key that the menu takes away stays
down. -/
theorem keys_not_consistent : ¬ KeysConsistent .init nineKeys ∧
    ¬ KeysConsistent .init
      [((⟨none, 1, fun _ => none⟩ : KeyEnv Unit), 0x61 ||| mpKeyDown),
        (⟨some fun _ => true, 1, fun _ => none⟩, 0x61)] := by
  constructor
  · intro hrun
    have h := (KeyState.init_consistent.keysConsistent_iff _).mp hrun
    have h := (((((((h.2 none _ rfl).2 none _ rfl).2 none _ rfl).2 none _ rfl).2 none _ rfl).2
      none _ rfl).2 none _ rfl).2 none _ rfl
    have hdown := h.1.down (by decide) rfl
    revert hdown
    decide
  · intro hrun
    have h := (KeyState.init_consistent.keysConsistent_iff _).mp hrun
    have hup := (h.2 none _ rfl).1.up (by decide) (by decide) _ rfl
    cases hup.1

end MPlayer
