import Mathlib.Data.List.Basic
import MPlayer.Muxer.AviIndex

/-!
# The sub-indices of an OpenDML index

The passes of `avifile_odml_write_index` come to an end, since each but the last lowers
`entries_per_subidx`.  The last one begins with the counter that the one before has left.  So it
looks at groups that are shifted against the ones that are written (`pass_shift_iff`), and what it
finds out about them has to hold for the written ones too (`Harmless`).
-/

namespace MPlayer.AviMuxer

/-! ## Passes -/

section

variable {len : UInt64 → Int} {start : UInt64} {E n : Nat} {e : OdmlEntry}

theorem step_cut (h : len (e.ofs - start) ≥ odmlChunkLen ∨ n ≥ E) :
    Pass.step len ⟨start, E, n⟩ e = ⟨e.ofs, min E n, 1⟩ := by
  unfold Pass.step
  rw [if_pos h]
  congr 1
  split
  · next hlt => exact (Nat.min_eq_right (Nat.le_of_lt hlt)).symm
  · next hge => exact (Nat.min_eq_left (Nat.le_of_not_lt hge)).symm

theorem step_count (hlen : len (e.ofs - start) < odmlChunkLen) (hn : n < E) :
    Pass.step len ⟨start, E, n⟩ e = ⟨start, E, n + 1⟩ := by
  unfold Pass.step
  rw [if_neg]
  rintro (h | h)
  · exact absurd hlen (Int.not_lt.mpr h)
  · exact absurd hn (Nat.not_lt.mpr h)

theorem step_cases (len : UInt64 → Int) (start : UInt64) (E n : Nat) (e : OdmlEntry) :
    Pass.step len ⟨start, E, n⟩ e = ⟨e.ofs, min E n, 1⟩ ∨
      n < E ∧ Pass.step len ⟨start, E, n⟩ e = ⟨start, E, n + 1⟩ := by
  by_cases h : len (e.ofs - start) ≥ odmlChunkLen ∨ n ≥ E
  · exact .inl (step_cut h)
  · rw [not_or, Int.not_le, Nat.not_le] at h
    exact .inr ⟨h.2, step_count h.1 h.2⟩

end

/-- The number of entries never grows. -/
theorem foldl_entries_le (len : UInt64 → Int) (idx : List OdmlEntry) (start : UInt64) (E n : Nat) :
    (idx.foldl (Pass.step len) ⟨start, E, n⟩).entriesPerSubidx ≤ E := by
  induction idx generalizing start E n with
  | nil => exact Nat.le_refl _
  | cons e idx ih =>
    rw [List.foldl_cons]
    obtain h | ⟨-, h⟩ := step_cases len start E n e
    · rw [h]
      exact Nat.le_trans (ih _ _ _) (Nat.min_le_left _ _)
    · rw [h]
      exact ih _ _ _

/-- What a pass lowers the number to was counted in it. -/
theorem foldl_entries (len : UInt64 → Int) (idx : List OdmlEntry) (start : UInt64) (E n : Nat) :
    (idx.foldl (Pass.step len) ⟨start, E, n⟩).entriesPerSubidx = E ∨
      (idx.foldl (Pass.step len) ⟨start, E, n⟩).entriesPerSubidx < n + idx.length := by
  induction idx generalizing start E n with
  | nil => exact .inl rfl
  | cons e idx ih =>
    rw [List.foldl_cons, List.length_cons]
    obtain h | ⟨-, h⟩ := step_cases len start E n e
    · rw [h]
      have hle := foldl_entries_le len idx e.ofs (min E n) 1
      omega
    · rw [h]
      have hrest := ih start E (n + 1)
      omega

theorem foldl_counts (len : UInt64 → Int) (idx : List OdmlEntry) (start : UInt64) (E n : Nat)
    (hn : 1 ≤ n)
    (hle : n ≤ E) :
    1 ≤ (idx.foldl (Pass.step len) ⟨start, E, n⟩).n ∧
      (idx.foldl (Pass.step len) ⟨start, E, n⟩).n ≤
        (idx.foldl (Pass.step len) ⟨start, E, n⟩).entriesPerSubidx := by
  induction idx generalizing start E n with
  | nil => exact ⟨hn, hle⟩
  | cons e idx ih =>
    rw [List.foldl_cons]
    obtain h | ⟨hlt, h⟩ := step_cases len start E n e
    · rw [h]
      exact ih _ _ _ (Nat.le_refl 1) (Nat.le_min.mpr ⟨Nat.le_trans hn hle, hn⟩)
    · rw [h]
      exact ih _ _ _ (Nat.le_add_left 1 _) hlt

theorem pass_cons (len : UInt64 → Int) (e : OdmlEntry) (idx : List OdmlEntry) (E n : Nat) :
    pass len (e :: idx) E n = idx.foldl (Pass.step len) (Pass.step len ⟨e.ofs, E, n⟩ e) := rfl

/-- An entry is near to itself, in 32 bits. -/
theorem intLen_self (x : UInt64) : intLen (x - x) < odmlChunkLen := by
  rw [UInt64.sub_self]
  decide

/-- An entry is near to itself, in 64 bits. -/
theorem wideLen_self (x : UInt64) : wideLen (x - x) < odmlChunkLen := by
  rw [UInt64.sub_self]
  decide

/-- The counter stays below `entries_per_subidx`, which stays positive. -/
theorem pass_counts (idx : List OdmlEntry) {E n : Nat} (hE : 1 ≤ E) (hn : n ≤ E) :
    (pass intLen idx E n).n ≤ (pass intLen idx E n).entriesPerSubidx ∧
      1 ≤ (pass intLen idx E n).entriesPerSubidx := by
  cases idx with
  | nil => exact ⟨hn, hE⟩
  | cons e idx =>
    have hfirst : ∃ m F, pass intLen (e :: idx) E n = idx.foldl (Pass.step intLen) ⟨e.ofs, F, m⟩ ∧
        1 ≤ m ∧ m ≤ F := by
      cases Nat.lt_or_ge n E with
      | inl hlt =>
        refine ⟨n + 1, E, ?_, Nat.le_add_left 1 n, hlt⟩
        rw [pass_cons, step_count (intLen_self e.ofs) hlt]
      | inr hge =>
        refine ⟨1, min E n, ?_, Nat.le_refl 1, Nat.le_min.mpr ⟨hE, Nat.le_trans hE hge⟩⟩
        rw [pass_cons, step_cut (.inr hge)]
    obtain ⟨m, F, hpass, hone, hle⟩ := hfirst
    rw [hpass]
    have hcounts := foldl_counts intLen idx e.ofs F m hone hle
    exact ⟨hcounts.2, Nat.le_trans hcounts.1 hcounts.2⟩

/-! ## The loop ends -/

theorem passes_some (idx : List OdmlEntry) (fuel E n : Nat) (h : E < fuel) :
    ∃ last, passes idx fuel E n = some last := by
  induction fuel generalizing E n with
  | zero => exact absurd h (Nat.not_lt_zero _)
  | succ fuel ih =>
    simp only [passes]
    split
    · exact ⟨_, rfl⟩
    · next hne =>
      have hle : (pass intLen idx E n).entriesPerSubidx ≤ E := foldl_entries_le _ idx _ _ _
      exact ih _ _ (by omega)

/-- The last pass begins with a positive number of entries and leaves it as it is. -/
theorem passes_last (idx : List OdmlEntry) (fuel E n : Nat) (hE : 1 ≤ E) (hn : n ≤ E)
    {last : Nat × Nat}
    (h : passes idx fuel E n = some last) :
    1 ≤ last.1 ∧ last.1 ≤ E ∧ last.2 ≤ last.1 ∧
      (pass intLen idx last.1 last.2).entriesPerSubidx = last.1 := by
  induction fuel generalizing E n with
  | zero => cases h
  | succ fuel ih =>
    simp only [passes] at h
    split at h
    · next heq =>
      cases h
      exact ⟨hE, Nat.le_refl _, hn, heq⟩
    · obtain ⟨hcount, hone⟩ := pass_counts idx hE hn
      have hle : (pass intLen idx E n).entriesPerSubidx ≤ E := foldl_entries_le _ idx _ _ _
      obtain ⟨hlast, hlastle, hstop⟩ := ih _ _ hone hcount h
      exact ⟨hlast, Nat.le_trans hlastle hle, hstop⟩

namespace OdmlStream

variable (s : OdmlStream)

theorem lastPass_some : ∃ last, s.lastPass = some last := by
  unfold lastPass
  simp only [passes]
  split
  · exact ⟨_, rfl⟩
  · next hne =>
    have hfirst := (foldl_entries intLen s.idx _ intMax 0).resolve_left hne
    rw [Nat.zero_add] at hfirst
    exact passes_some _ _ _ _ (Nat.lt_succ_of_lt hfirst)

theorem lastPass_pos {last : Nat × Nat} (h : s.lastPass = some last) :
    1 ≤ last.1 ∧ last.1 ≤ intMax := by
  obtain ⟨hone, hle, -⟩ := passes_last s.idx _ intMax 0 (by decide) (Nat.zero_le _) h
  exact ⟨hone, hle⟩

end OdmlStream

/-! ## The groups that are written -/

/-- What the sub-indices of an index should be. -/
structure Grouped (idx : List OdmlEntry) (entriesPerSubidx : Nat) (subs : List SubIndex) :
    Prop where
  /-- Their number is the number of entries divided by the size of a sub-index, rounded up. -/
  count : subs.length = (idx.length + entriesPerSubidx - 1) / entriesPerSubidx
  /-- Each entry is written once, in order. -/
  once : subs.flatMap SubIndex.entries = idx
  /-- All but the last one have the same size. -/
  equal : ∀ sub ∈ subs.dropLast, sub.entries.length = entriesPerSubidx
  /-- The distance of the last entry to the first one is small, unless there is one entry only. -/
  near : ∀ sub ∈ subs, sub.entries.length = 1 ∨ ∀ first last, sub.entries.head? = some first →
    sub.entries.getLast? = some last → (last.ofs.toNat : Int) - first.ofs.toNat < odmlChunkLen

theorem subIndices_length (E c : Nat) (idx : List OdmlEntry) : (subIndices E c idx).length = c := by
  induction c generalizing idx with
  | zero => rfl
  | succ c ih => exact congrArg Nat.succ (ih _)

variable {c : Nat} {idx es : List OdmlEntry} {sub : SubIndex}

theorem subIndices_flatMap {E : Nat} (h : idx.length ≤ c * E) :
    (subIndices E c idx).flatMap SubIndex.entries = idx := by
  induction c generalizing idx with
  | zero =>
    rw [Nat.zero_mul, Nat.le_zero, List.length_eq_zero_iff] at h
    exact h.symm
  | succ c ih =>
    have hrest : (idx.drop E).length ≤ c * E := by
      rw [List.length_drop, Nat.sub_le_iff_le_add, ← Nat.succ_mul]
      exact h
    rw [subIndices, List.flatMap_cons, ih hrest]
    exact List.take_append_drop E idx

theorem subIndices_dropLast {E : Nat} (h : c * E < idx.length + E)
    (hsub : sub ∈ (subIndices E c idx).dropLast) : sub.entries.length = E := by
  induction c generalizing idx with
  | zero => cases hsub
  | succ c ih =>
    cases c with
    | zero => cases hsub
    | succ c =>
      have hne : subIndices E (c + 1) (idx.drop E) ≠ [] := List.cons_ne_nil _ _
      have hlen : (c + 1) * E + E < idx.length + E := by rwa [← Nat.succ_mul]
      rw [subIndices, List.dropLast_cons_of_ne_nil hne, List.mem_cons] at hsub
      have hE : E ≤ (c + 1) * E := Nat.le_mul_of_pos_left E (Nat.succ_pos c)
      cases hsub with
      | inl heq =>
        rw [heq]
        exact List.length_take_of_le (by omega)
      | inr hmem => exact ih (by rw [List.length_drop]; omega) hmem

/-! ## A pass over the groups -/

/-- All entries of a sub-index are near its begin. -/
def SubIndex.Fits (len : UInt64 → Int) (sub : SubIndex) : Prop :=
  ∀ e ∈ sub.entries, len (e.ofs - sub.start) < odmlChunkLen

instance (len : UInt64 → Int) : DecidablePred (SubIndex.Fits len) := fun sub =>
  inferInstanceAs (Decidable (∀ e ∈ sub.entries, len (e.ofs - sub.start) < odmlChunkLen))

variable {len : UInt64 → Int}

theorem foldl_fits {start : UInt64} {E n : Nat} (hlen : n + es.length ≤ E)
    (h : ∀ e ∈ es, len (e.ofs - start) < odmlChunkLen) :
    es.foldl (Pass.step len) ⟨start, E, n⟩ = ⟨start, E, n + es.length⟩ := by
  induction es generalizing n with
  | nil => rfl
  | cons e es ih =>
    rw [List.length_cons] at hlen ⊢
    rw [List.foldl_cons, step_count (h e List.mem_cons_self) (by omega)]
    rw [ih (by omega) fun e he => h e (List.mem_cons_of_mem _ he)]
    congr 1
    omega

theorem foldl_unfit {start : UInt64} {E n : Nat} (hlen : n + es.length ≤ E)
    (h : ¬∀ e ∈ es, len (e.ofs - start) < odmlChunkLen) :
    (es.foldl (Pass.step len) ⟨start, E, n⟩).entriesPerSubidx < E := by
  induction es generalizing n with
  | nil => exact absurd (fun e he => absurd he List.not_mem_nil) h
  | cons e es ih =>
    rw [List.length_cons] at hlen
    rw [List.foldl_cons]
    by_cases hfit : len (e.ofs - start) < odmlChunkLen
    · rw [step_count hfit (by omega)]
      refine ih (by omega) fun hes => h fun x hx => ?_
      obtain rfl | hx := List.mem_cons.mp hx
      · exact hfit
      · exact hes x hx
    · rw [step_cut (.inl (Int.not_lt.mp hfit))]
      have hle := foldl_entries_le len es e.ofs (min E n) 1
      have hmin : min E n = n := Nat.min_eq_right (by omega)
      omega

/-- A full sub-index is followed by the begin of the next one. -/
theorem foldl_full (hself : ∀ x, len (x - x) < odmlChunkLen) {rest : List OdmlEntry}
    {start : UInt64} {E : Nat} (hE : 1 ≤ E) :
    (rest.foldl (Pass.step len) ⟨start, E, E⟩).entriesPerSubidx =
      (pass len rest E 0).entriesPerSubidx := by
  cases rest with
  | nil => rfl
  | cons e rest =>
    rw [pass_cons, List.foldl_cons, step_cut (.inr (Nat.le_refl E)), step_count (hself e.ofs) hE,
      Nat.min_self]

/-- A pass that begins with a counter of `n` looks at `E - n` entries, and then at the others from
zero on. -/
theorem pass_shift_iff (hself : ∀ x, len (x - x) < odmlChunkLen) {E n : Nat} (hE : 1 ≤ E)
    (hn : n ≤ E) (idx : List OdmlEntry) :
    (pass len idx E n).entriesPerSubidx = E ↔
      SubIndex.Fits len ⟨(idx.head?.map OdmlEntry.ofs).getD 0, idx.take (E - n)⟩ ∧
        (pass len (idx.drop (E - n)) E 0).entriesPerSubidx = E := by
  have htake : n + (idx.take (E - n)).length ≤ E := by
    have hlen := List.length_take_le (E - n) idx
    omega
  -- the pass over the first group, and then over the others
  have hsplit : pass len idx E n = (idx.drop (E - n)).foldl (Pass.step len)
      ((idx.take (E - n)).foldl (Pass.step len) ⟨(idx.head?.map OdmlEntry.ofs).getD 0, E, n⟩) := by
    rw [← List.foldl_append, List.take_append_drop]
    rfl
  rw [hsplit]
  by_cases hfits : SubIndex.Fits len ⟨(idx.head?.map OdmlEntry.ofs).getD 0, idx.take (E - n)⟩
  · rw [foldl_fits htake hfits, and_iff_right hfits]
    cases Nat.lt_or_ge idx.length (E - n) with
    | inl hlt =>
      rw [List.drop_eq_nil_of_le (Nat.le_of_lt hlt)]
      exact Iff.rfl
    | inr hge => rw [List.length_take_of_le hge, Nat.add_sub_cancel' hn, foldl_full hself hE]
  · have hle : ∀ p : Pass,
        ((idx.drop (E - n)).foldl (Pass.step len) p).entriesPerSubidx ≤ p.entriesPerSubidx :=
      fun p => foldl_entries_le _ _ _ _ _
    have hlt := Nat.lt_of_le_of_lt (hle _) (foldl_unfit htake hfits)
    exact ⟨fun heq => absurd heq (Nat.ne_of_lt hlt), fun hall => absurd hall.1 hfits⟩

/-- A pass from zero leaves the size of the sub-indices as it is if all entries are near the
begin of theirs. -/
theorem pass_zero_iff (hself : ∀ x, len (x - x) < odmlChunkLen) {E : Nat} (hE : 1 ≤ E) (c : Nat)
    (idx : List OdmlEntry) (h : idx.length ≤ c * E) :
    (pass len idx E 0).entriesPerSubidx = E ↔ ∀ sub ∈ subIndices E c idx, sub.Fits len := by
  induction c generalizing idx with
  | zero =>
    rw [Nat.zero_mul, Nat.le_zero, List.length_eq_zero_iff] at h
    subst h
    exact ⟨fun _ sub hsub => absurd hsub List.not_mem_nil, fun _ => rfl⟩
  | succ c ih =>
    have hrest : (idx.drop E).length ≤ c * E := by
      rw [List.length_drop, Nat.sub_le_iff_le_add, ← Nat.succ_mul]
      exact h
    rw [pass_shift_iff hself hE (Nat.zero_le E), Nat.sub_zero, ih _ hrest, subIndices,
      List.forall_mem_cons]

/-! ## What is written -/

theorem wideLen_sub {a b : UInt64} (h : a ≤ b) : wideLen (b - a) = (b.toNat : Int) - a.toNat := by
  unfold wideLen
  rw [UInt64.toNat_sub_of_le b a h]
  exact Int.ofNat_sub (UInt64.le_iff_toNat_le.mp h)

theorem ofs_le_last {e last : OdmlEntry} (hsorted : es.Pairwise fun e e' => e.ofs < e'.ofs)
    (he : e ∈ es) (hlast : es.getLast? = some last) : e.ofs.toNat ≤ last.ofs.toNat := by
  obtain ⟨init, rfl⟩ := List.getLast?_eq_some_iff.mp hlast
  cases List.mem_append.mp he with
  | inl hmem =>
    have hlt := (List.pairwise_append.mp hsorted).2.2 e hmem last (List.mem_singleton.mpr rfl)
    exact Nat.le_of_lt (UInt64.lt_iff_toNat_lt.mp hlt)
  | inr hmem => rw [List.mem_singleton.mp hmem]

/-- Increasing offsets: the last entry is the one that is the farthest from the begin. -/
theorem fits_iff (hsorted : sub.entries.Pairwise fun e e' => e.ofs < e'.ofs)
    (hstart : ∀ first, sub.entries.head? = some first → sub.start = first.ofs) :
    sub.Fits wideLen ↔ sub.entries.length = 1 ∨ ∀ first last, sub.entries.head? = some first →
      sub.entries.getLast? = some last →
        (last.ofs.toNat : Int) - first.ofs.toNat < odmlChunkLen := by
  unfold SubIndex.Fits
  cases hentries : sub.entries with
  | nil =>
    refine ⟨fun _ => .inr fun first _ hfirst => ?_, fun _ e he => absurd he List.not_mem_nil⟩
    cases hfirst
  | cons e es =>
    rw [hentries] at hsorted
    have hbegin : sub.start = e.ofs := hstart e (by rw [hentries]; rfl)
    have hle : ∀ x ∈ e :: es, e.ofs ≤ x.ofs := by
      intro x hx
      obtain rfl | hx := List.mem_cons.mp hx
      · exact UInt64.le_refl _
      · exact UInt64.le_of_lt ((List.pairwise_cons.mp hsorted).1 x hx)
    have hdist : ∀ x ∈ e :: es,
        wideLen (x.ofs - sub.start) = (x.ofs.toNat : Int) - e.ofs.toNat := by
      intro x hx
      rw [hbegin]
      exact wideLen_sub (hle x hx)
    constructor
    · intro h
      refine .inr fun first last hfirst hlast => ?_
      cases hfirst
      have hmem := List.mem_of_getLast? hlast
      rw [← hdist last hmem]
      exact h last hmem
    · intro h x hx
      rw [hdist x hx]
      cases h with
      | inl hsingle =>
        have hnil : es = [] := List.eq_nil_of_length_eq_zero (Nat.succ.inj hsingle)
        rw [hnil, List.mem_singleton] at hx
        rw [hx, Int.sub_self]
        decide
      | inr hlast =>
        have hsome := List.getLast?_eq_some_getLast (List.cons_ne_nil e es)
        have hfar := hlast e _ rfl hsome
        have hxlast := ofs_le_last hsorted hx hsome
        omega

theorem subIndices_sorted {E : Nat} (h : idx.Pairwise fun e e' => e.ofs < e'.ofs)
    (hsub : sub ∈ subIndices E c idx) :
    (sub.entries.Pairwise fun e e' => e.ofs < e'.ofs) ∧
      ∀ first, sub.entries.head? = some first → sub.start = first.ofs := by
  induction c generalizing idx with
  | zero => cases hsub
  | succ c ih =>
    rw [subIndices, List.mem_cons] at hsub
    cases hsub with
    | inr hmem => exact ih (h.sublist (List.drop_sublist E idx)) hmem
    | inl heq =>
      subst heq
      refine ⟨h.sublist (List.take_sublist E idx), fun first hfirst => ?_⟩
      cases idx with
      | nil => cases List.take_nil ▸ hfirst
      | cons e idx =>
        cases E with
        | zero => cases hfirst
        | succ E =>
          cases hfirst
          rfl

namespace OdmlStream

variable (s : OdmlStream)

/-- The number of sub-indices is computed right if the sum fits into an `int`; if not,
there are none. -/
theorem superidxpos_eq {E : Nat} (hone : 1 ≤ E) (hE : E ≤ intMax) :
    (s.superidxpos E).toNat =
      if s.idx.length + E - 1 ≤ intMax then (s.idx.length + E - 1) / E else 0 := by
  have hlen := s.idx_le
  have hmax : intMax = 2147483647 := rfl
  have hcast : (s.idx.length : Int) + E - 1 = ((s.idx.length + E - 1 : Nat) : Int) := by omega
  unfold superidxpos toInt
  rw [hcast]
  split
  · next hfit =>
    have hint : Int.bmod ((s.idx.length + E - 1 : Nat) : Int) (2 ^ 32) =
      ((s.idx.length + E - 1 : Nat) : Int) :=
      Int.bmod_eq_of_le (by omega) (by omega)
    rw [hint, ← Int.ofNat_tdiv, Int.toNat_natCast]
  · next hover =>
    have hneg : Int.bmod ((s.idx.length + E - 1 : Nat) : Int) (2 ^ 32) ≤ 0 := by
      rw [Int.bmod_def]
      omega
    have hdiv : (Int.bmod ((s.idx.length + E - 1 : Nat) : Int) (2 ^ 32)).tdiv E ≤ 0 := by
      have hquot := Int.tdiv_nonneg (Int.neg_nonneg_of_nonpos hneg) (Int.natCast_nonneg E)
      rw [Int.neg_tdiv] at hquot
      omega
    exact Int.toNat_of_nonpos hdiv

/-- The sub-indices are as they should be for a size that fits. -/
theorem grouped_iff {E : Nat} (hone : 1 ≤ E) (hE : E ≤ intMax) :
    Grouped s.idx E (s.written E) ↔
      s.idx.length + E - 1 ≤ intMax ∧ (pass wideLen s.idx E 0).entriesPerSubidx = E := by
  have hcount := s.superidxpos_eq hone hE
  unfold written
  rw [hcount]
  split
  · next hfit =>
    have hdiv := Nat.div_add_mod' (s.idx.length + E - 1) E
    have hmod := Nat.mod_lt (s.idx.length + E - 1) hone
    have hle : s.idx.length ≤ (s.idx.length + E - 1) / E * E := by omega
    have hlt : (s.idx.length + E - 1) / E * E < s.idx.length + E := by omega
    rw [and_iff_right hfit, pass_zero_iff wideLen_self hone _ _ hle]
    constructor
    · intro h sub hsub
      obtain ⟨hsorted, hstart⟩ := subIndices_sorted s.increasing hsub
      exact (fits_iff hsorted hstart).mpr (h.near sub hsub)
    · intro h
      refine ⟨subIndices_length _ _ _, subIndices_flatMap hle, fun sub => subIndices_dropLast hlt,
        ?_⟩
      intro sub hsub
      obtain ⟨hsorted, hstart⟩ := subIndices_sorted s.increasing hsub
      exact (fits_iff hsorted hstart).mp (h sub hsub)
  · next hover =>
    constructor
    · intro h
      -- no sub-index holds the entries
      have hnil : s.idx = [] := h.once.symm
      rw [hnil, List.length_nil] at hover
      omega
    · intro h
      exact absurd h.1 hover

/-! ### What the carried counter does -/

/-- The offset with which the passes begin. -/
def begin : UInt64 := (s.idx.head?.map OdmlEntry.ofs).getD 0

/-- The first `m` entries are near the first one, and there is one behind them that is not. -/
structure FirstFar (m : Nat) : Prop where
  near : ∀ e ∈ s.idx.take m, intLen (e.ofs - s.begin) < odmlChunkLen
  far : ∃ e, s.idx[m]? = some e ∧ odmlChunkLen ≤ intLen (e.ofs - s.begin)

/-- The groups of `E` entries that a pass looks at if it begins with a counter of `n`. -/
def shifted (E n : Nat) : List SubIndex :=
  ⟨s.begin, s.idx.take (E - n)⟩ :: subIndices E s.idx.length (s.idx.drop (E - n))

/-- For no size of the sub-indices a counter that is carried into a pass can hide anything: where
the groups that are shifted by it are near in 32 bits, the ones that are written are near in 64
bits, and their number is computed without an overflow. -/
def NothingHidden (m : Nat) : Prop :=
  ∀ E ≤ m, 1 ≤ E → ∀ n ≤ E, (∀ sub ∈ s.shifted E n, sub.Fits intLen) →
    (∀ sub ∈ subIndices E s.idx.length s.idx, sub.Fits wideLen) ∧ s.idx.length + E - 1 ≤ intMax

instance (m : Nat) : Decidable (s.NothingHidden m) :=
  inferInstanceAs (Decidable (∀ E ≤ m, 1 ≤ E → ∀ n ≤ E, (∀ sub ∈ s.shifted E n, sub.Fits intLen) →
    (∀ sub ∈ subIndices E s.idx.length s.idx, sub.Fits wideLen) ∧ s.idx.length + E - 1 ≤ intMax))

/-- The offsets of a stream for which the passes do no harm. -/
def Harmless : Prop :=
  s.idx.length ≤ 1 ∨ ∃ m, s.FirstFar m ∧ s.NothingHidden m

/-- A pass changes nothing if the groups that are shifted by its counter are near. -/
theorem pass_shifted_iff {E n : Nat} (hE : 1 ≤ E) (hn : n ≤ E) :
    (pass intLen s.idx E n).entriesPerSubidx = E ↔ ∀ sub ∈ s.shifted E n, sub.Fits intLen := by
  have hlen : (s.idx.drop (E - n)).length ≤ s.idx.length * E := by
    rw [List.length_drop]
    exact Nat.le_trans (Nat.sub_le _ _) (Nat.le_mul_of_pos_right _ hE)
  rw [pass_shift_iff intLen_self hE hn, pass_zero_iff intLen_self hE _ _ hlen, shifted,
    List.forall_mem_cons]
  rfl

/-- Without an entry that is far from the first one, the first pass is the last one. -/
theorem first_pass_near (h : ∀ e ∈ s.idx, intLen (e.ofs - s.begin) < odmlChunkLen) :
    s.lastPass = some (intMax, 0) := by
  have hpass : pass intLen s.idx intMax 0 = ⟨s.begin, intMax, 0 + s.idx.length⟩ :=
    foldl_fits (by have hle := s.idx_le; omega) h
  unfold lastPass
  rw [passes, hpass]
  exact if_pos rfl

theorem exists_firstFar (h : ¬∀ e ∈ s.idx, intLen (e.ofs - s.begin) < odmlChunkLen) :
    ∃ m, s.FirstFar m := by
  let isFar (e : OdmlEntry) : Bool := decide (odmlChunkLen ≤ intLen (e.ofs - s.begin))
  have hfind : ∃ e, s.idx.find? isFar = some e := by
    rw [← Option.isSome_iff_exists, List.find?_isSome]
    push Not at h
    obtain ⟨e, he, hfar⟩ := h
    exact ⟨e, he, decide_eq_true hfar⟩
  obtain ⟨e, he⟩ := hfind
  obtain ⟨hfar, before, behind, hidx, hbefore⟩ := List.find?_eq_some_iff_append.mp he
  refine ⟨before.length, ⟨fun x hx => ?_, e, ?_, of_decide_eq_true hfar⟩⟩
  · rw [hidx, List.take_left] at hx
    have hnear := hbefore x hx
    rw [Bool.not_eq_true', decide_eq_false_iff_not] at hnear
    exact Int.not_le.mp hnear
  · rw [hidx, List.getElem?_append_right (Nat.le_refl _), Nat.sub_self]
    rfl

/-- The first pass leaves no more than `m` entries in a sub-index. -/
theorem FirstFar.first_pass {m : Nat} (h : s.FirstFar m) :
    (pass intLen s.idx intMax 0).entriesPerSubidx ≤ m := by
  obtain ⟨e, he, hfar⟩ := h.far
  have hle := s.idx_le
  have hm := (List.getElem?_eq_some_iff.mp he).1
  have hsplit : s.idx = s.idx.take m ++ e :: s.idx.drop (m + 1) := by
    rw [← (List.getElem?_eq_some_iff.mp he).2, List.getElem_cons_drop]
    exact (List.take_append_drop m s.idx).symm
  have htake : (s.idx.take m).length = m := List.length_take_of_le (Nat.le_of_lt hm)
  have hpass : pass intLen s.idx intMax 0 =
      (s.idx.drop (m + 1)).foldl (Pass.step intLen) ⟨e.ofs, m, 1⟩ := by
    have hfirst : (s.idx.take m).foldl (Pass.step intLen) ⟨s.begin, intMax, 0⟩ =
        ⟨s.begin, intMax, m⟩ := by
      rw [foldl_fits (by omega) h.near, htake, Nat.zero_add]
    calc pass intLen s.idx intMax 0
        = (s.idx.take m ++ e :: s.idx.drop (m + 1)).foldl (Pass.step intLen)
            ⟨s.begin, intMax, 0⟩ := by rw [← hsplit]; rfl
      _ = (s.idx.drop (m + 1)).foldl (Pass.step intLen)
            (Pass.step intLen ⟨s.begin, intMax, m⟩ e) := by
          rw [List.foldl_append, hfirst, List.foldl_cons]
      _ = _ := by rw [step_cut (.inl hfar), Nat.min_eq_right (by omega)]
  rw [hpass]
  exact foldl_entries_le _ _ _ _ _

/-- The last pass comes behind the first one. -/
theorem FirstFar.lastPass {m E n : Nat} (h : s.FirstFar m) (hlast : s.lastPass = some (E, n)) :
    1 ≤ E ∧ E ≤ m ∧ n ≤ E ∧ ∀ sub ∈ s.shifted E n, sub.Fits intLen := by
  have hfirst := h.first_pass
  obtain ⟨e, he, -⟩ := h.far
  have hm := (List.getElem?_eq_some_iff.mp he).1
  have hle := s.idx_le
  rw [OdmlStream.lastPass, passes, if_neg (by omega)] at hlast
  obtain ⟨hcount, hpos⟩ := pass_counts s.idx (E := intMax) (by decide) (Nat.zero_le _)
  obtain ⟨hone, hE, hn, hstop⟩ := passes_last s.idx _ _ _ hpos hcount hlast
  exact ⟨hone, Nat.le_trans hE hfirst, hn, (s.pass_shifted_iff hone hn).mp hstop⟩

/-! ### What is written into the file -/

theorem SubIndex.bytes_length (ckid : UInt32) (sub : SubIndex) :
    (sub.bytes ckid).length = 32 + 8 * sub.entries.length := by
  have hentries : ∀ es : List OdmlEntry, (es.flatMap fun e =>
      le32 (e.ofs - sub.start).toUInt32 ++ le32 (e.len ||| e.flags)).length = 8 * es.length := by
    intro es
    induction es with
    | nil => rfl
    | cons e es ih =>
      rw [List.flatMap_cons, List.length_append, List.length_append, ih, le32_length, le32_length,
        List.length_cons]
      omega
  simp only [SubIndex.bytes, List.length_append, le32_length, hentries]

/-- The super index of a stream leads to its sub-indices, from the position `pos` of the file on:
there is one entry for each, with its position and its length. -/
def Leads (pos : UInt64) (superidx : List SuperEntry) (subs : List SubIndex) : Prop :=
  superidx.length = subs.length ∧ ∀ (i : Nat) entry sub, superidx[i]? = some entry →
    subs[i]? = some sub →
      entry.ofs = pos + UInt64.ofNat ((subs.take i).flatMap (SubIndex.bytes s.ckid)).length ∧
        entry.len = UInt32.ofNat (sub.bytes s.ckid).length

theorem writeSubs_cons (pos : UInt64) (sub : SubIndex) (subs : List SubIndex) :
    s.writeSubs pos (sub :: subs) =
      (sub.superEntry s.dwSampleSize pos ::
          (s.writeSubs (pos + UInt64.ofNat (sub.bytes s.ckid).length) subs).1,
        sub.bytes s.ckid ++
          (s.writeSubs (pos + UInt64.ofNat (sub.bytes s.ckid).length) subs).2) := rfl

theorem writeSubs_bytes (pos : UInt64) (subs : List SubIndex) :
    (s.writeSubs pos subs).2 = subs.flatMap (SubIndex.bytes s.ckid) := by
  induction subs generalizing pos with
  | nil => rfl
  | cons sub subs ih => rw [writeSubs_cons, ih, List.flatMap_cons]

theorem writeSubs_leads (pos : UInt64) (subs : List SubIndex) :
    s.Leads pos (s.writeSubs pos subs).1 subs := by
  induction subs generalizing pos with
  | nil => exact ⟨rfl, fun i entry sub hentry => by cases hentry⟩
  | cons sub subs ih =>
    obtain ⟨hlen, hrest⟩ := ih (pos + UInt64.ofNat (sub.bytes s.ckid).length)
    rw [writeSubs_cons]
    refine ⟨congrArg Nat.succ hlen, fun i entry sub' hentry hsub => ?_⟩
    cases i with
    | zero =>
      cases hentry
      cases hsub
      refine ⟨(UInt64.add_zero pos).symm, ?_⟩
      rw [SubIndex.bytes_length, UInt32.ofNat_add, UInt32.ofNat_mul]
      rfl
    | succ i =>
      obtain ⟨hofs, hbytes⟩ := hrest i entry sub' hentry hsub
      refine ⟨?_, hbytes⟩
      rw [hofs, List.take_succ_cons, List.flatMap_cons, List.length_append, UInt64.ofNat_add,
        UInt64.add_assoc]

/-- The loop comes to an end, the sub-indices are as they should be, and they are what is written
from the position `pos` of the file on. -/
def Right (pos : UInt64) : Prop :=
  ∃ E n superidx, s.lastPass = some (E, n) ∧ Grouped s.idx E (s.written E) ∧
    s.writeIndex pos = some (superidx, (s.written E).flatMap (SubIndex.bytes s.ckid)) ∧
    s.Leads pos superidx (s.written E)

theorem right_iff {E n : Nat} (pos : UInt64) (hlast : s.lastPass = some (E, n)) :
    s.Right pos ↔
      s.idx.length + E - 1 ≤ intMax ∧
        ∀ sub ∈ subIndices E s.idx.length s.idx, sub.Fits wideLen := by
  obtain ⟨hone, hE⟩ := s.lastPass_pos hlast
  rw [← pass_zero_iff wideLen_self hone _ _ (Nat.le_mul_of_pos_right _ hone),
    ← s.grouped_iff hone hE]
  constructor
  · rintro ⟨E', n', -, hlast', hgrouped, -⟩
    obtain ⟨rfl, rfl⟩ := Prod.mk.inj (Option.some.inj (hlast'.symm.trans hlast))
    exact hgrouped
  · intro h
    refine ⟨E, n, _, hlast, h, ?_, s.writeSubs_leads pos (s.written E)⟩
    rw [writeIndex, hlast, ← s.writeSubs_bytes pos]
    rfl

/-- A stream with no more than one entry. -/
theorem right_short (pos : UInt64) (h : s.idx.length ≤ 1) : s.Right pos := by
  have hnear : ∀ e ∈ s.idx, intLen (e.ofs - s.begin) < odmlChunkLen := by
    unfold begin
    intro e he
    match hidx : s.idx, h, he with
    | [e'], _, he =>
      rw [List.mem_singleton.mp he]
      exact intLen_self e'.ofs
  rw [s.right_iff pos (s.first_pass_near hnear)]
  refine ⟨by omega, fun sub hsub e he => ?_⟩
  match hidx : s.idx, h, hsub with
  | [e'], _, hsub =>
    rw [List.mem_singleton.mp hsub] at he ⊢
    rw [List.mem_singleton.mp (List.mem_of_mem_take he)]
    exact wideLen_self e'.ofs

/-- A stream with more than one entry, of which none is far from the first. -/
theorem not_right_near (pos : UInt64) (hlong : 1 < s.idx.length)
    (hnear : ∀ e ∈ s.idx, intLen (e.ofs - s.begin) < odmlChunkLen) : ¬s.Right pos := by
  rw [s.right_iff pos (s.first_pass_near hnear)]
  omega

theorem FirstFar.right {m : Nat} (h : s.FirstFar m) (hhidden : s.NothingHidden m)
    (pos : UInt64) : s.Right pos := by
  obtain ⟨⟨E, n⟩, hlast⟩ := s.lastPass_some
  obtain ⟨hone, hE, hn, hfits⟩ := h.lastPass s hlast
  rw [s.right_iff pos hlast, and_comm]
  exact hhidden E hE hone n hn hfits

end OdmlStream

open OdmlStream

theorem writeOdmlIndex_cons (pos : UInt64) (s : OdmlStream) (streams : List OdmlStream) :
    writeOdmlIndex pos (s :: streams) = (s.writeIndex pos).bind fun first =>
      (writeOdmlIndex (pos + UInt64.ofNat first.2.length) streams).bind fun rest =>
        some (first.1 :: rest.1, first.2 ++ rest.2) := rfl

/-- The super indices of the streams are what is written for each of them, somewhere in the file. -/
theorem writeOdmlIndex_some (pos : UInt64) (streams : List OdmlStream) :
    ∃ supers bytes, writeOdmlIndex pos streams = some (supers, bytes) ∧
      List.Forall₂ (fun s superidx => ∃ at' written, s.writeIndex at' = some (superidx, written))
        streams supers := by
  induction streams generalizing pos with
  | nil => exact ⟨[], [], rfl, .nil⟩
  | cons s streams ih =>
    obtain ⟨last, hlast⟩ := s.lastPass_some
    have hindex : s.writeIndex pos = some (s.writeSubs pos (s.written last.1)) := by
      rw [writeIndex, hlast]
      rfl
    obtain ⟨supers, bytes, hrest, hall⟩ :=
      ih (pos + UInt64.ofNat (s.writeSubs pos (s.written last.1)).2.length)
    refine ⟨(s.writeSubs pos (s.written last.1)).1 :: supers,
      (s.writeSubs pos (s.written last.1)).2 ++ bytes, ?_, .cons ⟨pos, _, hindex⟩ hall⟩
    rw [writeOdmlIndex_cons, hindex, Option.bind_some, hrest, Option.bind_some]

/-- The index of all streams comes to an end.  Where the passes do no harm to the stream, its
sub-indices are as they should be.  They are never so where there are more entries than one and none
is far from the first. -/
theorem odml_index_right (pos : UInt64) (streams : List OdmlStream) :
    (∃ supers bytes, writeOdmlIndex pos streams = some (supers, bytes) ∧
      List.Forall₂ (fun s superidx => ∃ at' written, s.writeIndex at' = some (superidx, written))
        streams supers) ∧
      ∀ s ∈ streams, ∀ at', (s.Harmless → s.Right at') ∧
        (s.Right at' → s.idx.length ≤ 1 ∨ ∃ m, s.FirstFar m) := by
  refine ⟨writeOdmlIndex_some pos streams, fun s _ at' => ⟨fun h => ?_, fun hright => ?_⟩⟩
  · obtain hshort | ⟨m, hfirst, hhidden⟩ := h
    · exact s.right_short at' hshort
    · exact hfirst.right s hhidden at'
  · by_cases hnear : ∀ e ∈ s.idx, intLen (e.ofs - s.begin) < odmlChunkLen
    · exact .inl (Nat.not_lt.mp fun hlong => s.not_right_near at' hlong hnear hright)
    · exact .inr (s.exists_firstFar hnear)

namespace OdmlStream

variable (s : OdmlStream)

/-! ### Streams that are written right -/

theorem intLen_eq {d : UInt64} (h : wideLen d < 2 ^ 31) : intLen d = wideLen d := by
  unfold wideLen at h ⊢
  unfold intLen toInt
  exact Int.bmod_eq_of_le (by omega) (by omega)

/-- The entries are nowhere farther apart than at the begin: `m` entries are always near, and the
first ones are followed by one that is not. -/
structure Dense (m : Nat) : Prop where
  near : ∀ (i k : Nat) a b, k < m → s.idx[i]? = some a → s.idx[i + k]? = some b →
    wideLen (b.ofs - a.ofs) < odmlChunkLen
  far : ∃ a b, s.idx[0]? = some a ∧ s.idx[m]? = some b ∧ odmlChunkLen ≤ wideLen (b.ofs - a.ofs) ∧
    wideLen (b.ofs - a.ofs) < 2 ^ 31

variable {m : Nat}

/-- Groups of no more than `m` entries fit where `m` entries are always near. -/
theorem subIndices_fit {m E c : Nat} {idx : List OdmlEntry} (hE : E ≤ m)
    (near : ∀ (i k : Nat) a b, k < m → idx[i]? = some a → idx[i + k]? = some b →
      wideLen (b.ofs - a.ofs) < odmlChunkLen) {sub : SubIndex} (hsub : sub ∈ subIndices E c idx) :
        sub.Fits wideLen := by
  induction c generalizing idx with
  | zero => cases hsub
  | succ c ih =>
    rw [subIndices, List.mem_cons] at hsub
    cases hsub with
    | inr hmem =>
      refine ih (fun i k a b hk ha hb => ?_) hmem
      rw [List.getElem?_drop] at ha hb
      exact near (E + i) k a b hk ha (by rw [Nat.add_assoc]; exact hb)
    | inl heq =>
      subst heq
      intro e he
      obtain ⟨k, hk⟩ := List.getElem?_of_mem he
      have hlt : k < E := by
        have hlen := (List.getElem?_eq_some_iff.mp hk).1
        rw [List.length_take] at hlen
        omega
      rw [List.getElem?_take_of_lt hlt] at hk
      cases idx with
      | nil => cases hk
      | cons a idx => exact near 0 k a e (by omega) rfl (by rw [Nat.zero_add]; exact hk)

theorem Dense.firstFar (h : s.Dense m) : s.FirstFar m := by
  obtain ⟨a, b, ha, hb, hfar, hint⟩ := h.far
  have hbegin : s.begin = a.ofs := by
    unfold begin
    rw [List.head?_eq_getElem?, ha]
    rfl
  refine ⟨fun e he => ?_, b, hb, by rw [hbegin, intLen_eq hint]; exact hfar⟩
  obtain ⟨k, hk⟩ := List.getElem?_of_mem he
  have hlt := (List.getElem?_eq_some_iff.mp hk).1
  rw [List.length_take] at hlt
  rw [List.getElem?_take_of_lt (by omega)] at hk
  have hdist := h.near 0 k a e (by omega) ha (by rw [Nat.zero_add]; exact hk)
  rw [hbegin, intLen_eq (Int.lt_trans hdist (by decide))]
  exact hdist

/-- Where the entries are nowhere farther apart than at the begin, and not too many, the sub-indices
are as they should be. -/
theorem dense_grouped (h : s.Dense m) (hlen : s.idx.length ≤ 2 ^ 30) :
    ∃ E n, s.lastPass = some (E, n) ∧ Grouped s.idx E (s.written E) := by
  obtain ⟨⟨E, n⟩, hlast⟩ := s.lastPass_some
  obtain ⟨hone, hmax⟩ := s.lastPass_pos hlast
  obtain ⟨-, hE, -, -⟩ := h.firstFar.lastPass s hlast
  obtain ⟨_, b, _, hb, _, _⟩ := h.far
  have hm := (List.getElem?_eq_some_iff.mp hb).1
  refine ⟨E, n, hlast, (s.grouped_iff hone hmax).mpr ⟨?_, ?_⟩⟩
  · unfold intMax
    omega
  · refine (pass_zero_iff wideLen_self hone _ _ (Nat.le_mul_of_pos_right _ hone)).mpr ?_
    exact fun sub hsub => subIndices_fit hE h.near hsub

/-! ### Streams that fail -/

/-- A stream of chunks at some offsets. -/
def atOffsets (ofs : List UInt64) (increasing : ofs.Pairwise (· < ·)) (hlen : ofs.length ≤ intMax) :
    OdmlStream where
  ckid := 0
  dwSampleSize := 0
  idx := ofs.map fun x => ⟨x, 2, 0⟩
  increasing := List.pairwise_map.mpr increasing
  idx_le := by rwa [List.length_map]

/-- Chunks at the offsets 0, 1 and 2, and two with gaps in front of them. -/
def fiveChunks : OdmlStream :=
  atOffsets [0, 1, 2, 0x40000002, 0x80000002] (by decide) (by decide)

theorem odml_index_right_fiveChunks : fiveChunks.Right 4096 := by
  refine ((odml_index_right 0 [fiveChunks]).2 fiveChunks List.mem_cons_self 4096).1
    (.inr ⟨3, ⟨by decide, ⟨0x40000002, 2, 0⟩, rfl, by decide⟩, by decide +kernel⟩)

/-- Chunks that are about half a `ODML_CHUNKLEN` apart. -/
def halfApart : OdmlStream :=
  atOffsets [0, 0x20000000, 0x40000000, 0x60000000, 0x80000000] (by decide) (by decide)

theorem dense_grouped_halfApart :
    ∃ E n, halfApart.lastPass = some (E, n) ∧ Grouped halfApart.idx E (halfApart.written E) := by
  have hnear : ∀ i < 5, ∀ k < 2, ∀ a ∈ halfApart.idx[i]?, ∀ b ∈ halfApart.idx[i + k]?,
      wideLen (b.ofs - a.ofs) < odmlChunkLen := by decide
  refine @dense_grouped halfApart 2
    ⟨fun i k a b hk ha hb => ?_, ⟨0, 2, 0⟩, ⟨0x40000000, 2, 0⟩, rfl, rfl, by decide, by decide⟩
    (by decide)
  exact hnear i (List.getElem?_eq_some_iff.mp ha).1 k hk a ha b hb

/-- Two chunks near to each other. -/
def twoNear : OdmlStream := atOffsets [0, 100] (by decide) (by decide)

/-- Eight chunks.  The fourth and the sixth are far behind the ones before. -/
def twoGaps : OdmlStream :=
  atOffsets [0, 1, 2, 0x40000002, 0x40000003, 0x80000003, 0x80000004, 0x80000005] (by decide)
    (by decide)

/-- No sub-index is written for the first stream.  For the second one the last pass looks at
the groups of one, two, two, two and one entries, and the third and the fourth entry come
into one sub-index. -/
theorem written_not_grouped :
    (¬∃ E n, twoNear.lastPass = some (E, n) ∧ Grouped twoNear.idx E (twoNear.written E)) ∧
      ¬∃ E n, twoGaps.lastPass = some (E, n) ∧ Grouped twoGaps.idx E (twoGaps.written E) := by
  have hnear : twoNear.lastPass = some (intMax, 0) := by decide
  have hgaps : twoGaps.lastPass = some (2, 1) := by decide +kernel
  constructor
  · rintro ⟨E, n, hlast, h⟩
    obtain ⟨rfl, rfl⟩ := Prod.mk.inj (Option.some.inj (hnear.symm.trans hlast))
    have hcount : (twoNear.written intMax).length = 0 := by decide
    have hright := h.count
    rw [hcount] at hright
    revert hright
    decide
  · rintro ⟨E, n, hlast, h⟩
    obtain ⟨rfl, rfl⟩ := Prod.mk.inj (Option.some.inj (hgaps.symm.trans hlast))
    have hsub : (twoGaps.written 2)[1]? = some ⟨2, [⟨2, 2, 0⟩, ⟨0x40000002, 2, 0⟩]⟩ := by
      decide
    obtain hone | hnear := h.near _ (List.mem_of_getElem? hsub)
    · exact absurd hone (by decide)
    · exact absurd (hnear _ _ rfl rfl) (by decide)

end OdmlStream

end MPlayer.AviMuxer
