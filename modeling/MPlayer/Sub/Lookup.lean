import MPlayer.Sub.FindSub

/-!
# The subtitle of a moment

In a file that is sorted by time at most one subtitle has a moment in its time.  What `find_sub`
keeps between its calls is right for the file (`Keeps`), so whatever it was called with before it
shows that subtitle (`find_sub_exact`).
-/

namespace MPlayer

open Lib

/-! ## Sorted files -/

/-- A file sorted by time, where each subtitle ends before the next one starts. -/
structure SubData.Sorted (subd : SubData) : Prop where
  ordered : ∀ v ∈ subd.subtitles, v.start ≤ v.stop
  apart : ∀ {i : Nat} {v w : Subtitle},
    subd.subtitles[i]? = some v → subd.subtitles[i + 1]? = some w → v.stop < w.start

/-- A plain search. -/
def SubData.lookup (subd : SubData) (key : Int) : Option Subtitle :=
  subd.subtitles.find? fun v => v.Shows key

variable {subd : SubData} {key : Int}

variable {v : Subtitle}

theorem SubData.Sorted.lt (h : subd.Sorted) {i j : Nat} (hij : i < j) {w : Subtitle}
    (hv : subd.subtitles[i]? = some v) (hw : subd.subtitles[j]? = some w) : v.stop < w.start := by
  obtain ⟨d, rfl⟩ := Nat.exists_eq_add_of_lt hij
  induction d generalizing w with
  | zero => exact h.apart hv hw
  | succ d ih =>
    have hlt : i + d + 1 < subd.subtitles.length :=
      Nat.lt_of_succ_lt (List.getElem?_eq_some_iff.mp hw).1
    have hmiddle := List.getElem?_eq_getElem hlt
    have hbefore := ih (by omega) hmiddle
    have hinside := h.ordered _ (List.getElem_mem hlt)
    have hlast := h.apart hmiddle hw
    omega

/-- The subtitles around a gap. -/
theorem SubData.Sorted.split (h : subd.Sorted) {i : Nat} {w u : Subtitle}
    (hv : subd.subtitles[i]? = some v) (hw : subd.subtitles[i + 1]? = some w)
    (hu : u ∈ subd.subtitles) : u.stop ≤ v.stop ∨ w.start ≤ u.start := by
  obtain ⟨k, hk⟩ := List.mem_iff_getElem?.mp hu
  have hvmem := h.ordered v (List.mem_of_getElem? hv)
  have humem := h.ordered u hu
  rcases Nat.lt_trichotomy k i with hlt | heq | hgt
  · have hbefore := h.lt hlt hk hv
    exact .inl (by omega)
  · subst heq
    cases hk.symm.trans hv
    exact .inl (Nat.le_refl _)
  · rcases Nat.lt_or_eq_of_le (Nat.succ_le_of_lt hgt) with hlt | heq
    · have hbehind := h.lt hlt hw hk
      have hwmem := h.ordered w (List.mem_of_getElem? hw)
      exact .inr (by omega)
    · subst heq
      cases hk.symm.trans hw
      exact .inr (Nat.le_refl _)

theorem SubData.lookup_none (h : ∀ v ∈ subd.subtitles, ¬v.Shows key) : subd.lookup key = none :=
  List.find?_eq_none.mpr fun v hv => by simpa using h v hv

/-- A plain search finds what has the moment in its time. -/
theorem SubData.Sorted.lookup_some (h : subd.Sorted) (hv : v ∈ subd.subtitles)
    (hshows : v.Shows key) : subd.lookup key = some v := by
  obtain ⟨hstart, hstop⟩ := hshows
  cases hlook : subd.lookup key with
  | none =>
    have hnot : ¬v.Shows key := by simpa using List.find?_eq_none.mp hlook v hv
    exact absurd ⟨hstart, hstop⟩ hnot
  | some w =>
    obtain ⟨hwstart, hwstop⟩ : w.Shows key := by simpa using List.find?_some hlook
    obtain ⟨i, hi⟩ := List.mem_iff_getElem?.mp hv
    obtain ⟨j, hj⟩ := List.mem_iff_getElem?.mp (List.mem_of_find?_eq_some hlook)
    rcases Nat.lt_trichotomy i j with hlt | heq | hgt
    · have hbefore := h.lt hlt hi hj
      omega
    · subst heq
      exact hj.symm.trans hi
    · have hbefore := h.lt hgt hj hi
      omega

/-! ## Numbers -/

theorem toULong_eq (h : 0 ≤ key) (hlt : key < 2 ^ 31) : (toULong key : Int) = key := by
  rw [toULong]
  omega

theorem wrapInt_le (n : Nat) : wrapInt n ≤ n := by
  rw [wrapInt]
  omega

theorem wrapInt_eq {n : Int} (h : -2 ^ 31 ≤ n) (hlt : n < 2 ^ 31) : wrapInt n = n := by
  rw [wrapInt]
  omega

/-! ## What is kept between calls -/

namespace FindSub

/-- The variables are right for the file. -/
structure Keeps (subd : SubData) (s : FindSub) : Prop where
  index : 0 ≤ s.currentSub
  inside : s.currentSub < subd.subtitles.length
  shown : ∀ v, s.voSub = some v → v ∈ subd.subtitles
  low : -1 ≤ s.nosubRangeStart
  range : ∀ v ∈ subd.subtitles, (v.stop : Int) ≤ s.nosubRangeStart ∨ s.nosubRangeEnd ≤ v.start

variable {s : FindSub}

theorem sub_ok {k : Int} (h : 0 ≤ k) (hlt : k < subd.subtitles.length) :
    ∃ v, subd.sub k = .ok v ∧ subd.subtitles[k.toNat]? = some v := by
  have hk : k.toNat < subd.subtitles.length := by omega
  have hv := List.getElem?_eq_getElem hk
  refine ⟨_, ?_, hv⟩
  rw [SubData.sub, if_pos h, hv]

variable {v w : Subtitle}

theorem sub_eq {k : Int} {i : Nat} (hk : k = i) (hv : subd.subtitles[i]? = some v) :
    subd.sub k = .ok v := by
  subst hk
  rw [SubData.sub, if_pos (Int.natCast_nonneg i), Int.toNat_natCast, hv]

theorem Keeps.init (h : subd.subtitles ≠ []) : Keeps subd init :=
  ⟨Int.le_refl 0, by have hpos := List.length_pos_iff.mpr h; simp only [FindSub.init]; omega,
    nofun, Int.le_refl _, fun v _ => .inr (by simp only [FindSub.init]; omega)⟩

theorem Keeps.changed (h : s.Keeps subd) : (s.changed subd).Keeps subd := by
  rw [FindSub.changed]
  split
  · exact h
  · exact ⟨h.index, h.inside, h.shown, Int.le_refl _, fun v _ => .inr (by simp only; omega)⟩

/-- What is shown is only kept if it is right. -/
theorem Keeps.unchanged (hsorted : subd.Sorted) (h : s.Keeps subd) (hlt : key < 2 ^ 31)
    (hright : s.unchanged key = true) : s.voSub = subd.lookup key := by
  rw [FindSub.unchanged] at hright
  split at hright
  · next v hv => rw [hv, hsorted.lookup_some (h.shown v hv) (of_decide_eq_true hright)]
  · next hv =>
    obtain ⟨hlow, hhigh⟩ := of_decide_eq_true hright
    rw [hv, subd.lookup_none]
    intro v hmem ⟨hstart, hstop⟩
    have hpos : 0 ≤ key := by have hrange := h.low; omega
    have hkey := toULong_eq hpos hlt
    have hrange := h.range v hmem
    omega

/-- The result of a call. -/
structure Right (subd : SubData) (key : Int) (s : FindSub) : Prop where
  keeps : s.Keeps subd
  exact : s.voSub = subd.lookup key

/-- Between two subtitles nothing is shown. -/
theorem noSub_right (hsorted : subd.Sorted) (h : s.Keeps subd) (hpos : 0 < key)
    (hlt : key < 2 ^ 31) {i : Nat} (hi : s.currentSub = i) (hv : subd.subtitles[i]? = some v)
    (hw : subd.subtitles[i + 1]? = some w) (hbehind : v.stop < toULong key)
    (hbefore : toULong key < w.start) : ∃ s', noSub subd s = .ok s' ∧ Right subd key s' := by
  have hkey := toULong_eq (Int.le_of_lt hpos) hlt
  have hstop : wrapInt v.stop = v.stop := wrapInt_eq (by omega) (by omega)
  have hstart := wrapInt_le w.start
  have hrun : noSub subd s = .ok { s with
      nosubRangeStart := wrapInt v.stop
      nosubRangeEnd := wrapInt w.start
      voSub := none } := by
    rw [noSub, sub_eq hi hv, sub_eq (by rw [hi, Int.natCast_succ]) hw]
    rfl
  refine ⟨_, hrun, ⟨h.index, h.inside, nofun, ?_, fun u hu => ?_⟩, ?_⟩
  · simp only [hstop]
    omega
  · have hsplit := hsorted.split hv hw hu
    simp only [hstop]
    omega
  · refine (subd.lookup_none fun u hu hshows => ?_).symm
    obtain ⟨hustart, hustop⟩ := hshows
    have hsplit := hsorted.split hv hw hu
    omega

theorem inGap_eq {i : Nat} (hi : s.currentSub = i) (hv : subd.subtitles[i]? = some v)
    (hw : subd.subtitles[i + 1]? = some w) :
    inGap subd key s = .ok (decide (v.stop < toULong key ∧ toULong key < w.start)) := by
  rw [inGap, sub_eq hi hv, ok_bind]
  split
  · next hlt =>
    rw [sub_eq (by rw [hi, Int.natCast_succ]) hw, ok_bind]
    simp only [hlt, true_and]
    rfl
  · next hge =>
    simp only [hge, false_and, decide_false]
    rfl

/-! ## The search -/

/-- A search can stop at a subtitle without the moment: all others are too early or
too late, too. -/
def Stops (subd : SubData) (key c : Int) (w : Subtitle) : Prop :=
  (w.stop < toULong key ∧
      ∀ (k : Nat) (u : Subtitle), subd.subtitles[k]? = some u → c < k → toULong key < u.start) ∨
    (toULong key < w.start ∧
      ∀ (k : Nat) (u : Subtitle), subd.subtitles[k]? = some u → (k : Int) < c →
        u.stop < toULong key)

/-- What the search has looked at last. -/
structure Looked (subd : SubData) (key : Int) (cur : Int) (v : Option Subtitle) (found : Bool)
    (w : Subtitle) : Prop where
  eq : v = some w
  index : 0 ≤ cur
  at_cur : subd.subtitles[cur.toNat]? = some w
  shows : found = true → w.Shows key
  stops : found = false → Stops subd key cur w

/-- The subtitles before `i` are too early and the ones behind `j` too late. -/
structure Between (subd : SubData) (key i j : Int) : Prop where
  first : 0 ≤ i
  last : j < subd.subtitles.length
  before : ∀ (k : Nat) (u : Subtitle), subd.subtitles[k]? = some u → (k : Int) < i →
    u.stop < toULong key
  behind : ∀ (k : Nat) (u : Subtitle), subd.subtitles[k]? = some u → j < k → toULong key < u.start

variable {i j : Int}

theorem Between.too_late (hsorted : subd.Sorted) (h : Between subd key i j) {c : Int}
    (hv : subd.subtitles[c.toNat]? = some v) (hj : c ≤ j) (hlt : toULong key < v.start) :
    Between subd key i (c - 1) where
  first := h.first
  last := by have hlast := h.last; omega
  before := h.before
  behind := by
    intro k u hu hk
    rcases Nat.lt_or_eq_of_le (Int.toNat_le.mpr (by omega : c ≤ k)) with hbehind | heq
    · have hapart := hsorted.lt hbehind hv hu
      have hinside := hsorted.ordered v (List.mem_of_getElem? hv)
      omega
    · rw [heq, hu] at hv
      cases hv
      exact hlt

theorem Between.too_early (hsorted : subd.Sorted) (h : Between subd key i j) {c : Int}
    (hc : i ≤ c) (hv : subd.subtitles[c.toNat]? = some v) (hlt : v.stop < toULong key) :
    Between subd key (c + 1) j where
  first := by have hfirst := h.first; omega
  last := h.last
  before := by
    intro k u hu hk
    have hfirst := h.first
    rcases Nat.lt_or_eq_of_le (by omega : k ≤ c.toNat) with hbefore | heq
    · have hapart := hsorted.lt hbefore hu hv
      have hinside := hsorted.ordered v (List.mem_of_getElem? hv)
      omega
    · rw [← heq, hu] at hv
      cases hv
      exact hlt
  behind := h.behind

/-- The loop ends at the subtitle with the moment, or where all others are too early or too late. -/
theorem searchLoop_spec (hsorted : subd.Sorted) (turns : Nat) (h : Between subd key i j)
    (hturns : j + 1 - i ≤ turns) (cur : Int) (v : Option Subtitle)
    (hlast : j < i → ∃ w, Looked subd key cur v false w) :
    ∃ cur' v' found w, searchLoop subd key turns i j (cur, v) = .ok (cur', v', found) ∧
      Looked subd key cur' v' found w := by
  induction turns generalizing i j cur v with
  | zero =>
    obtain ⟨w, hw⟩ := hlast (by omega)
    exact ⟨cur, v, false, w, rfl, hw⟩
  | succ turns ih =>
    rw [searchLoop]
    by_cases hend : j < i
    · obtain ⟨w, hw⟩ := hlast hend
      exact ⟨cur, v, false, w, if_pos hend, hw⟩
    · have hfirst := h.first
      have hinside := h.last
      have hc : 0 ≤ (i + j + 1) / 2 := by omega
      obtain ⟨w, hsub, hw⟩ := sub_ok hc (by omega : (i + j + 1) / 2 < subd.subtitles.length)
      simp only [if_neg hend, hsub, ok_bind]
      split
      · next hlate =>
        have hnext := h.too_late hsorted hw (by omega) hlate
        refine ih hnext (by omega) _ _ fun hempty => ?_
        refine ⟨w, rfl, hc, hw, nofun, fun _ => .inr ⟨hlate, fun k u hu hk => ?_⟩⟩
        exact h.before k u hu (by omega)
      · next hnotlate =>
        split
        · next hearly =>
          have hnext := h.too_early hsorted (by omega) hw hearly
          refine ih hnext (by omega) _ _ fun hempty => ?_
          refine ⟨w, rfl, hc, hw, nofun, fun _ => .inl ⟨hearly, fun k u hu hk => ?_⟩⟩
          exact h.behind k u hu (by omega)
        · next hnotearly =>
          exact ⟨_, _, true, w, rfl, rfl, hc, hw,
            fun _ => ⟨Nat.not_lt.mp hnotlate, Nat.not_lt.mp hnotearly⟩, nofun⟩

/-- Only the subtitle before the one that the search looked at last, or the one behind
it, is left. -/
theorem notFound_right (hsorted : subd.Sorted) (h : s.Keeps subd) (hpos : 0 < key)
    (hlt : key < 2 ^ 31) (hw : subd.subtitles[s.currentSub.toNat]? = some w)
    (hstops : Stops subd key s.currentSub w) :
    ∃ s', notFound subd key w s = .ok s' ∧ Right subd key s' := by
  have hkey := toULong_eq (Int.le_of_lt hpos) hlt
  have hindex := h.index
  have hinside := h.inside
  have hwhole := hsorted.ordered w (List.mem_of_getElem? hw)
  rw [notFound]
  rcases hstops with ⟨hearly, hbehind⟩ | ⟨hlate, hbefore⟩
  · rw [if_neg (by omega), if_neg (by omega)]
    by_cases hend : subd.subtitles.length ≤ s.currentSub + 1
    · rw [if_pos hend]
      have hstop : wrapInt w.stop = w.stop := wrapInt_eq (by omega) (by omega)
      have hall : ∀ u ∈ subd.subtitles, u.stop ≤ w.stop := by
        intro u hu
        obtain ⟨k, hk⟩ := List.mem_iff_getElem?.mp hu
        have hklt := (List.getElem?_eq_some_iff.mp hk).1
        rcases Nat.lt_or_eq_of_le (by omega : k ≤ s.currentSub.toNat) with hbefore | heq
        · have hapart := hsorted.lt hbefore hk hw
          omega
        · rw [heq, hw] at hk
          cases hk
          exact Nat.le_refl _
      refine ⟨_, rfl, ⟨h.index, h.inside, nofun, ?_, fun u hu => ?_⟩, ?_⟩
      · simp only [hstop]
        omega
      · have hle := hall u hu
        simp only [hstop]
        omega
      · refine (subd.lookup_none fun u hu hshows => ?_).symm
        have hle := hall u hu
        have hstop' := hshows.2
        omega
    · rw [if_neg hend]
      have hcur : s.currentSub = s.currentSub.toNat := by omega
      have hnext : s.currentSub.toNat + 1 < subd.subtitles.length := by omega
      have hu := List.getElem?_eq_getElem hnext
      have hlate := hbehind _ _ hu (by omega)
      rw [inGap_eq hcur hw hu, ok_bind, decide_eq_true ⟨hearly, hlate⟩, if_pos rfl]
      exact noSub_right hsorted h hpos hlt hcur hw hu hearly hlate
  · rw [if_pos hlate]
    by_cases hstart : s.currentSub ≤ 0
    · rw [if_pos hstart]
      have hwrap := wrapInt_le w.start
      have hall : ∀ u ∈ subd.subtitles, w.start ≤ u.start := by
        intro u hu
        obtain ⟨k, hk⟩ := List.mem_iff_getElem?.mp hu
        rcases Nat.lt_or_eq_of_le (by omega : s.currentSub.toNat ≤ k) with hbehind | heq
        · have hapart := hsorted.lt hbehind hw hk
          omega
        · rw [← heq, hw] at hk
          cases hk
          exact Nat.le_refl _
      refine ⟨_, rfl, ⟨h.index, h.inside, nofun, ?_, fun u hu => ?_⟩, ?_⟩
      · simp only
        omega
      · have hle := hall u hu
        simp only
        omega
      · refine (subd.lookup_none fun u hu hshows => ?_).symm
        have hle := hall u hu
        have hstart' := hshows.1
        omega
    · rw [if_neg hstart]
      have hprev : s.currentSub.toNat - 1 < subd.subtitles.length := by omega
      have hu := List.getElem?_eq_getElem hprev
      have hearly := hbefore _ _ hu (by omega)
      have hcur : s.currentSub - 1 = (s.currentSub.toNat - 1 : Nat) := by omega
      have hw' : subd.subtitles[s.currentSub.toNat - 1 + 1]? = some w := by
        rw [show s.currentSub.toNat - 1 + 1 = s.currentSub.toNat by omega]
        exact hw
      have hkeeps : ({ s with currentSub := s.currentSub - 1 } : FindSub).Keeps subd :=
        ⟨by simp only; omega, by simp only; omega, h.shown, h.low, h.range⟩
      simp only
      rw [inGap_eq hcur hu hw', ok_bind, decide_eq_true ⟨hearly, hlate⟩, if_pos rfl]
      exact noSub_right hsorted hkeeps hpos hlt hcur hu hw' hearly hlate

theorem Keeps.found (h : s.Keeps subd) {c : Int} (hc : 0 ≤ c) {w : Subtitle}
    (hw : subd.subtitles[c.toNat]? = some w) :
    ({ s with currentSub := c, voSub := some w } : FindSub).Keeps subd where
  index := hc
  inside := by
    have hlt := (List.getElem?_eq_some_iff.mp hw).1
    simp only
    omega
  shown := by
    intro v hv
    cases hv
    exact List.mem_of_getElem? hw
  low := h.low
  range := h.range

theorem search_right (hsorted : subd.Sorted) (h : s.Keeps subd) (hpos : 0 < key)
    (hlt : key < 2 ^ 31) : ∃ s', search subd key s = .ok s' ∧ Right subd key s' := by
  have hindex := h.index
  have hinside := h.inside
  have hall : Between subd key 0 (subd.subtitles.length - 1) := by
    refine ⟨Int.le_refl 0, by omega, fun k u hu hk => by omega, fun k u hu hk => ?_⟩
    have hklt := (List.getElem?_eq_some_iff.mp hu).1
    omega
  obtain ⟨c, v, found, w, hloop, rfl, hc, hw, hshows, hstops⟩ :=
    searchLoop_spec hsorted subd.subtitles.length hall (by omega) s.currentSub none fun hempty => by
      omega
  have hclt := (List.getElem?_eq_some_iff.mp hw).1
  rw [search, hloop, ok_bind]
  cases found with
  | true =>
    exact ⟨_, rfl, h.found hc hw, (hsorted.lookup_some (List.mem_of_getElem? hw) (hshows rfl)).symm⟩
  | false =>
    have hkeeps : ({ s with currentSub := c } : FindSub).Keeps subd :=
      ⟨hc, by simp only; omega, h.shown, h.low, h.range⟩
    exact notFound_right hsorted hkeeps hpos hlt hw (hstops rfl)

/-- The search that first looks at the next subtitle finds the same. -/
theorem searchNext_right (hsorted : subd.Sorted) (h : s.Keeps subd) (hpos : 0 < key)
    (hlt : key < 2 ^ 31) : ∃ s', searchNext subd key s = .ok s' ∧ Right subd key s' := by
  rw [searchNext]
  split
  · next hnext =>
    obtain ⟨hindex, hlast⟩ := hnext
    have hcur : s.currentSub = s.currentSub.toNat := by omega
    have hv := List.getElem?_eq_getElem (by omega : s.currentSub.toNat < subd.subtitles.length)
    have hw :=
      List.getElem?_eq_getElem (by omega : s.currentSub.toNat + 1 < subd.subtitles.length)
    have hkeeps : ({ s with currentSub := s.currentSub + 1 } : FindSub).Keeps subd :=
      ⟨by simp only; omega, by simp only; omega, h.shown, h.low, h.range⟩
    rw [inGap_eq hcur hv hw, ok_bind]
    by_cases hgap : subd.subtitles[s.currentSub.toNat].stop < toULong key ∧
        toULong key < subd.subtitles[s.currentSub.toNat + 1].start
    · rw [decide_eq_true hgap, if_pos rfl]
      exact noSub_right hsorted h hpos hlt hcur hv hw hgap.1 hgap.2
    · rw [decide_eq_false hgap, if_neg Bool.false_ne_true]
      simp only
      rw [sub_eq (by omega : s.currentSub + 1 = (s.currentSub.toNat + 1 : Nat)) hw, ok_bind]
      split
      · next hshows =>
        have hw' : subd.subtitles[(s.currentSub + 1).toNat]? =
            some subd.subtitles[s.currentSub.toNat + 1] := by
          rw [show (s.currentSub + 1).toNat = s.currentSub.toNat + 1 by omega]
          exact hw
        exact ⟨_, rfl, h.found (by omega) hw',
          (hsorted.lookup_some (List.mem_of_getElem? hw) hshows).symm⟩
      · exact search_right hsorted hkeeps hpos hlt
  · exact search_right hsorted h hpos hlt

/-! ## Calls -/

theorem findSub_keeps (hsorted : subd.Sorted) (h : s.Keeps subd) (key : Int32) :
    ∃ s', s.findSub subd key = .ok s' ∧ s'.Keeps subd ∧
      (0 < key.toInt → s'.voSub = subd.lookup key.toInt) := by
  have hlt : key.toInt < 2 ^ 31 := Int32.toInt_lt key
  have hindex := h.index
  have hinside := h.inside
  have hsome : subd.subtitles ≠ [] := by
    intro hnil
    rw [hnil] at hinside
    simp only [List.length_nil] at hinside
    omega
  rw [findSub, if_neg hsome]
  simp only
  by_cases hright : (s.changed subd).unchanged key.toInt = true
  · rw [if_pos hright]
    exact ⟨_, rfl, h.changed, fun _ => h.changed.unchanged hsorted hlt hright⟩
  · rw [if_neg hright]
    by_cases hpos : key.toInt ≤ 0
    · rw [if_pos hpos]
      exact ⟨_, rfl, ⟨h.changed.index, h.changed.inside, nofun, h.changed.low, h.changed.range⟩,
        fun h => absurd h (by omega)⟩
    · rw [if_neg hpos]
      obtain ⟨s', hs', hkeeps, hexact⟩ :=
        searchNext_right hsorted h.changed (Int.not_le.mp hpos) hlt
      exact ⟨s', hs', hkeeps, fun _ => hexact⟩

theorem findSubs_keeps (hsorted : subd.Sorted) (keys : List Int32) (h : s.Keeps subd) :
    ∃ s', keys.foldlM (fun s key => s.findSub subd key) s = .ok s' ∧ s'.Keeps subd := by
  induction keys generalizing s with
  | nil => exact ⟨s, rfl, h⟩
  | cons key keys ih =>
    obtain ⟨s', hs', hkeeps, -⟩ := findSub_keeps hsorted h key
    rw [List.foldlM_cons, hs', ok_bind]
    exact ih hkeeps

theorem findSubs_nil (hnil : subd.subtitles = []) (keys : List Int32) :
    keys.foldlM (fun s key => s.findSub subd key) s = .ok s := by
  induction keys with
  | nil => rfl
  | cons key keys ih => rwa [List.foldlM_cons, findSub, if_pos hnil, ok_bind]

/-- Whatever `find_sub` was called with before, it shows the subtitle of the moment. -/
theorem find_sub_exact (hsorted : subd.Sorted) (keys : List Int32) (key : Int32) :
    ∃ s s', keys.foldlM (fun s key => s.findSub subd key) init = .ok s ∧
      s.findSub subd key = .ok s' ∧ (0 < key.toInt → s'.voSub = subd.lookup key.toInt) := by
  by_cases hnil : subd.subtitles = []
  · refine ⟨_, _, findSubs_nil hnil keys, if_pos hnil, fun _ => (subd.lookup_none ?_).symm⟩
    rw [hnil]
    exact fun v hv => absurd hv List.not_mem_nil
  · obtain ⟨s, hs, hkeeps⟩ := findSubs_keeps hsorted keys (Keeps.init hnil)
    obtain ⟨s', hs', -, hexact⟩ := findSub_keeps hsorted hkeeps key
    exact ⟨s, s', hs, hs', hexact⟩

/-- Two subtitles with a gap between them. -/
def twoSubs : SubData := ⟨1, [⟨10, 20⟩, ⟨30, 40⟩], by decide⟩

theorem twoSubs_sorted : twoSubs.Sorted where
  ordered := by decide
  apart := by
    intro i v w hv hw
    match i with
    | 0 =>
      cases hv
      cases hw
      decide
    | i + 1 =>
      rw [twoSubs, List.getElem?_eq_none (by simp)] at hw
      cases hw

theorem find_sub_exact_two : ∃ s s',
    [25, 15, -3, 45].foldlM (fun s key => s.findSub twoSubs key) init = .ok s ∧
      s.findSub twoSubs 35 = .ok s' ∧ s'.voSub = some ⟨30, 40⟩ := by
  obtain ⟨s, s', hs, hs', hexact⟩ := find_sub_exact twoSubs_sorted [25, 15, -3, 45] 35
  exact ⟨s, s', hs, hs', hexact (by decide)⟩

end FindSub

end MPlayer
