import MPlayer.Sub.Lookup

/-!
# Indices of subtitles

`current_sub` is the index of all files.  `find_sub` never reads a subtitle outside of its file,
whatever the index is.  `step_sub` looks at `subs[current_sub]` before it brings the index back into
the file, so it must be called with one inside, unless it doesn't move (`indices_in_range_iff`).
-/

namespace MPlayer

open Lib

namespace FindSub

variable {subd : SubData} {s : FindSub} {key : Int}

/-! ## `find_sub` -/

/-- A call that reads inside of the file, and leaves an index that isn't negative. -/
def Inside (x : Except Fault FindSub) : Prop := ∃ s, x = .ok s ∧ 0 ≤ s.currentSub

theorem Inside.ok (h : 0 ≤ s.currentSub) : Inside (.ok s) := ⟨s, rfl, h⟩

theorem inGap_ok (key : Int) (h : 0 ≤ s.currentSub)
    (hlast : s.currentSub + 1 < subd.subtitles.length) :
    ∃ b, inGap subd key s = .ok b := by
  have hcur : s.currentSub = s.currentSub.toNat := by omega
  have hv := List.getElem?_eq_getElem (by omega : s.currentSub.toNat < subd.subtitles.length)
  have hw := List.getElem?_eq_getElem (by omega : s.currentSub.toNat + 1 < subd.subtitles.length)
  exact ⟨_, inGap_eq hcur hv hw⟩

theorem noSub_inside (h : 0 ≤ s.currentSub) (hlast : s.currentSub + 1 < subd.subtitles.length) :
    Inside (noSub subd s) := by
  obtain ⟨v, hv, -⟩ := sub_ok h (by omega : s.currentSub < subd.subtitles.length)
  obtain ⟨w, hw, -⟩ := sub_ok (by omega : 0 ≤ s.currentSub + 1) hlast
  rw [noSub, hv, ok_bind, hw, ok_bind]
  exact .ok h

/-- What is done in a gap, or else. -/
theorem gap_inside (h : 0 ≤ s.currentSub) (hlast : s.currentSub + 1 < subd.subtitles.length)
    {x : Except Fault FindSub} (hx : Inside x) :
    Inside (do if ← inGap subd key s then noSub subd s else x) := by
  obtain ⟨b, hb⟩ := inGap_ok key h hlast
  rw [hb, ok_bind]
  cases b with
  | true => exact noSub_inside h hlast
  | false => exact hx

/-- The loop looks at subtitles of the file only, and at one at least. -/
theorem searchLoop_inside (key : Int) (turns : Nat) {i j : Int} (hi : 0 ≤ i)
    (hj : j < subd.subtitles.length)
    (cur : Int) (v : Option Subtitle)
    (hlast : i ≤ j ∧ 0 < turns ∨ v.isSome ∧ 0 ≤ cur ∧ cur < subd.subtitles.length) :
    ∃ c w b, searchLoop subd key turns i j (cur, v) = .ok (c, some w, b) ∧
      0 ≤ c ∧ c < subd.subtitles.length := by
  induction turns generalizing i j cur v with
  | zero =>
    obtain ⟨hv, hc⟩ := hlast.resolve_left fun h => Nat.lt_irrefl 0 h.2
    obtain ⟨w, rfl⟩ := Option.isSome_iff_exists.mp hv
    exact ⟨cur, w, false, rfl, hc⟩
  | succ turns ih =>
    rw [searchLoop]
    split
    · next hend =>
      obtain ⟨hv, hc⟩ := hlast.resolve_left fun h => by omega
      obtain ⟨w, rfl⟩ := Option.isSome_iff_exists.mp hv
      exact ⟨cur, w, false, rfl, hc⟩
    · next hend =>
      have hc : 0 ≤ (i + j + 1) / 2 := by omega
      have hlt : (i + j + 1) / 2 < subd.subtitles.length := by omega
      obtain ⟨w, hw, -⟩ := sub_ok hc hlt
      simp only [hw, ok_bind]
      split
      · exact ih hi (by omega) _ _ (.inr ⟨rfl, hc, hlt⟩)
      · split
        · exact ih (by omega) hj _ _ (.inr ⟨rfl, hc, hlt⟩)
        · exact ⟨_, w, true, rfl, hc, hlt⟩

theorem notFound_inside (v : Subtitle) (h : 0 ≤ s.currentSub)
    (hlt : s.currentSub < subd.subtitles.length) : Inside (notFound subd key v s) := by
  rw [notFound]
  split
  · split
    · exact .ok h
    · next hpos =>
      have hcur : 0 ≤ s.currentSub - 1 := by omega
      exact gap_inside (s := { s with currentSub := s.currentSub - 1 }) hcur (by simp only; omega)
        (.ok hcur)
  · split
    · exact .ok h
    · split
      · exact .ok h
      · exact gap_inside h (by omega) (.ok h)

theorem search_inside (hsome : subd.subtitles ≠ []) : Inside (search subd key s) := by
  have hpos := List.length_pos_iff.mpr hsome
  obtain ⟨c, w, b, hloop, hc, hlt⟩ := searchLoop_inside key subd.subtitles.length
    (Int.le_refl 0) (by omega : (subd.subtitles.length : Int) - 1 < subd.subtitles.length)
    s.currentSub none (.inl ⟨by omega, hpos⟩)
  rw [search, hloop, ok_bind]
  cases b with
  | true => exact .ok hc
  | false => exact notFound_inside w hc hlt

theorem searchNext_inside (hsome : subd.subtitles ≠ []) : Inside (searchNext subd key s) := by
  rw [searchNext]
  split
  · next hnext =>
    have hcur : 0 ≤ s.currentSub + 1 := by omega
    obtain ⟨v, hv, -⟩ := sub_ok hcur hnext.2
    refine gap_inside hnext.1 hnext.2 ?_
    simp only [hv, ok_bind]
    split
    · exact .ok hcur
    · exact search_inside hsome
  · exact search_inside hsome

theorem findSub_inside (h : 0 ≤ s.currentSub) (subd : SubData) (key : Int32) :
    Inside (s.findSub subd key) := by
  have hchanged : 0 ≤ (s.changed subd).currentSub := by
    rw [changed]
    split
    · exact h
    · exact h
  rw [findSub]
  split
  · exact .ok h
  · next hsome =>
    simp only
    split
    · exact .ok hchanged
    · split
      · exact .ok hchanged
      · exact searchNext_inside hsome

/-! ## `step_sub` -/

/-- The index is one of the file. -/
def Valid (subd : SubData) (s : FindSub) : Prop :=
  0 ≤ s.currentSub ∧ s.currentSub < subd.subtitles.length

/-- `step_sub` moves to a subtitle of the file. -/
theorem clampMovement_valid (hsome : subd.subtitles ≠ []) (m : Int) :
    0 ≤ wrapInt (s.currentSub + clampMovement subd s m) ∧
      wrapInt (s.currentSub + clampMovement subd s m) < subd.subtitles.length := by
  have hpos := List.length_pos_iff.mpr hsome
  have hnum := subd.num_lt
  have hzero : wrapInt (s.currentSub + (0 - s.currentSub)) = 0 := by
    rw [wrapInt]
    omega
  have hlast : wrapInt (s.currentSub + (subd.subtitles.length - s.currentSub - 1)) =
      subd.subtitles.length - 1 := by
    rw [wrapInt]
    omega
  rw [clampMovement]
  split
  · rw [hzero]
    split
    · rw [hlast]
      omega
    · rw [hzero]
      omega
  · split
    · rw [hlast]
      omega
    · omega

theorem sub_error {k : Int} (h : 0 ≤ k) (hge : subd.subtitles.length ≤ k) :
    subd.sub k = .error .undefined := by
  have hnone : subd.subtitles[k.toNat]? = none := List.getElem?_eq_none (by omega)
  rw [SubData.sub, if_pos h, hnone]

theorem stepMovement_ok (key : Int32) {movement : Int32} (h : movement = 0 ∨ Valid subd s) :
    ∃ m, stepMovement subd key movement s = .ok m := by
  rcases h with rfl | ⟨hindex, hlt⟩
  · exact ⟨0, rfl⟩
  · obtain ⟨v, hv, -⟩ := sub_ok hindex hlt
    have hsecond : ∀ m : Int, ∃ m', (if m < 0 then do
        let v ← subd.sub s.currentSub
        return if v.stop ≤ toULong key.toInt then m + 1 else m
        else return m : Except Fault Int) = .ok m' := by
      intro m
      split
      · rw [hv, ok_bind]
        exact ⟨_, rfl⟩
      · exact ⟨_, rfl⟩
    rw [stepMovement]
    split
    · obtain ⟨m, hm⟩ := hsecond
        (if toULong key.toInt < v.start then movement.toInt - 1 else movement.toInt)
      refine ⟨m, Eq.trans ?_ hm⟩
      rw [hv]
      rfl
    · exact hsecond _

theorem stepMovement_error {key movement : Int32} (h : 0 ≤ s.currentSub)
    (hge : subd.subtitles.length ≤ s.currentSub) (hmove : movement ≠ 0) :
    stepMovement subd key movement s = .error .undefined := by
  have hread := sub_error h hge
  rw [stepMovement]
  split
  · rw [hread]
    rfl
  · next hpos =>
    have hne : movement.toInt ≠ 0 := fun hzero => hmove (Int32.toInt_inj.mp hzero)
    have hneg : movement.toInt < 0 := by omega
    change (if movement.toInt < 0 then _ else _) = _
    rw [if_pos hneg, hread]
    rfl

/-- `step_sub` moves to a subtitle of the file, if it looks at one to begin with. -/
theorem stepSub_valid (key : Int32) (hsome : subd.subtitles ≠ []) {movement : Int32}
    (h : movement = 0 ∨ Valid subd s) :
    ∃ s', s.stepSub subd key movement = .ok s' ∧ Valid subd s' := by
  obtain ⟨m, hm⟩ := stepMovement_ok key h
  have hvalid := clampMovement_valid (s := s) hsome m
  obtain ⟨v, hv, -⟩ := sub_ok hvalid.1 hvalid.2
  refine ⟨{ s with currentSub := wrapInt (s.currentSub + clampMovement subd s m) }, ?_, hvalid⟩
  rw [stepSub, hm, ok_bind]
  simp only [hv, ok_bind]
  rfl

/-! ## Runs -/

/-- The file of a call. -/
def Call.file : Call → SubData
  | .findSub subd _ => subd
  | .stepSub subd _ _ => subd

/-- The calls read inside of their files, and `step_sub` leaves the index of a subtitle. -/
def InRange : List Call → FindSub → Prop
  | [], _ => True
  | c :: calls, s =>
    ∃ s', c.run s = .ok s' ∧ (∀ subd key movement, c = .stepSub subd key movement → Valid subd s') ∧
      InRange calls s'

/-- `step_sub` moves only from a subtitle of its file. -/
def Call.Fits : Call → FindSub → Prop
  | .findSub _ _, _ => True
  | .stepSub subd _ movement, s => movement = 0 ∨ s.currentSub < subd.subtitles.length

/-- All calls of a run do. -/
def AllFit : List Call → FindSub → Prop
  | [], _ => True
  | c :: calls, s => c.Fits s ∧ ∀ s', c.run s = .ok s' → AllFit calls s'

/-- One call reads inside of its file exactly if it fits. -/
theorem call_inside_iff (c : Call) (hsome : c.file.subtitles ≠ []) (h : 0 ≤ s.currentSub) :
    (c.Fits s → ∃ s', c.run s = .ok s' ∧ 0 ≤ s'.currentSub ∧
      ∀ subd key movement, c = .stepSub subd key movement → Valid subd s') ∧
    (¬c.Fits s → c.run s = .error .undefined) := by
  cases c with
  | findSub subd key =>
    obtain ⟨s', hs', hindex⟩ := findSub_inside h subd key
    exact ⟨fun _ => ⟨s', hs', hindex, nofun⟩, fun hnot => absurd trivial hnot⟩
  | stepSub subd key movement =>
    constructor
    · intro hfits
      obtain ⟨s', hs', hvalid⟩ := stepSub_valid key hsome (hfits.imp_right fun hlt => ⟨h, hlt⟩)
      refine ⟨s', hs', hvalid.1, ?_⟩
      rintro _ _ _ ⟨⟩
      exact hvalid
    · intro hnot
      obtain ⟨hmove, hge⟩ := not_or.mp hnot
      rw [Call.run, stepSub, stepMovement_error h (Int.not_lt.mp hge) hmove]
      rfl

theorem inRange_iff {calls : List Call} (hsome : ∀ c ∈ calls, c.file.subtitles ≠ [])
    (h : 0 ≤ s.currentSub) : InRange calls s ↔ AllFit calls s := by
  induction calls generalizing s with
  | nil => exact Iff.rfl
  | cons c calls ih =>
    obtain ⟨hok, herror⟩ := call_inside_iff c (hsome c List.mem_cons_self) h
    have hrest := fun c' hc' => hsome c' (List.mem_cons_of_mem c hc')
    rw [InRange, AllFit]
    by_cases hfits : c.Fits s
    · obtain ⟨s', hs', hindex, hvalid⟩ := hok hfits
      constructor
      · rintro ⟨s'', hs'', -, hin⟩
        refine ⟨hfits, fun s₁ hs₁ => ?_⟩
        cases hs'.symm.trans hs''
        cases hs'.symm.trans hs₁
        exact (ih hrest hindex).mp hin
      · rintro ⟨-, hall⟩
        exact ⟨s', hs', hvalid, (ih hrest hindex).mpr (hall s' hs')⟩
    · constructor
      · rintro ⟨s'', hs'', -⟩
        cases (herror hfits).symm.trans hs''
      · exact fun hall => absurd hall.1 hfits

/-- Whatever files the calls are for, all of them read inside of these exactly if `step_sub` moves
only from an index of its file. -/
theorem indices_in_range_iff {calls : List Call} (hsome : ∀ c ∈ calls, c.file.subtitles ≠ []) :
    InRange calls init ↔ AllFit calls init :=
  inRange_iff hsome (Int.le_refl 0)

/-- A file with one subtitle. -/
def oneSub : SubData := ⟨2, [⟨30, 40⟩], by decide⟩

theorem indices_in_range_two : InRange
    [.findSub twoSubs 35, .findSub oneSub 45, .stepSub oneSub 45 1] init := by
  have hsome : ∀ c ∈ [Call.findSub twoSubs 35, .findSub oneSub 45, .stepSub oneSub 45 1],
      c.file.subtitles ≠ [] := by decide
  refine (indices_in_range_iff hsome).mpr ⟨trivial, fun s hs => ⟨trivial, fun s' hs' => ?_⟩⟩
  cases hs
  cases hs'
  exact ⟨.inr (by decide), fun _ _ => trivial⟩

/-- What the longer file shows is also kept for the shorter one, and with it the index. -/
theorem indices_not_in_range : ¬InRange
    [.findSub twoSubs 35, .findSub oneSub 35, .stepSub oneSub 35 1] init := by
  rintro ⟨s, hs, -, s', hs', -, s'', hs'', -⟩
  cases hs
  cases hs'
  cases hs''

end FindSub

end MPlayer
