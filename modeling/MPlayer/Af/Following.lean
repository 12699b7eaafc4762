import MPlayer.Af.Working

/-!
# What follows a call of `af_reinit`

`af_add` and `fixup_output_format` look at the result of each call of `af_reinit`, and go on with
another call, with the roll-back, or not at all.  Their branches are gone through once here: what is
done to the chain in between (`Edited`, `follows_after`), and what is returned in the end
(`after_done`).
-/

namespace MPlayer.Af

open Lib

theorem setFormat_id {id : Nat} {fmt : BitVec 32} {af : AfInstance}
    (h : setFormat id fmt = some af) : af.id = id := by
  unfold setFormat at h
  split at h
  · cases h
  · cases h
    rfl

theorem setChannels_id {id : Nat} {nch : Int} {af : AfInstance}
    (h : setChannels id nch = some af) : af.id = id := by
  unfold setChannels at h
  split at h
  · cases h
  · cases h
    rfl

namespace Addition

variable {a : Addition}

/-! ## Going on -/

/-- What `fixup_output_format` does to a chain: the last filter is set to another format, or a
filter is inserted. -/
inductive Edited (p q : Pass) : Prop where
  | same (hchain : q.chain = p.chain) (hfresh : q.fresh = p.fresh)
  | last {last af : AfInstance} (hlast : p.chain.getLast? = some last)
      (hchain : q.chain = p.chain.dropLast ++ [af]) (hid : af.id = last.id)
      (hfresh : q.fresh = p.fresh)
  | inserted {front behind : List AfInstance} {af : AfInstance} (hp : p.chain = front ++ behind)
      (hchain : q.chain = front ++ af :: behind) (hid : af.id = p.fresh)
      (hfresh : q.fresh = p.fresh + 1)

/-- What follows a call of `af_reinit`: another call, or the roll-back of the first attempt. -/
def Follows (retry : Bool) (p : Pass) (t : AddState) : Prop :=
  ∃ q output, Edited p q ∧ q.input = p.input ∧
    ((∃ call, t = .reinit retry call q output ∧ (call = .again → q.before = [])) ∨
      retry = false ∧ t = .rollBack q output)

variable {retry : Bool} {p : Pass} {output : AfData} {t : AddState} {call : Call}

theorem follows_fail {q : Pass} (hq : Edited p q) (hinput : q.input = p.input)
    (h : fail retry q output = .next t) : Follows retry p t := by
  unfold fail at h
  cases retry with
  | true => cases h
  | false =>
    cases h
    exact ⟨q, output, hq, hinput, .inr ⟨rfl, rfl⟩⟩

theorem follows_again (h : again retry p output = .next t) : Follows retry p t := by
  cases h
  exact ⟨p.startAt [] p.chain, output, .same (Pass.startAt_chain ..) rfl, rfl,
    .inl ⟨.again, rfl, fun _ => rfl⟩⟩

/-- The filter that is set or inserted is the only change. -/
theorem follows_initNew {q : Pass} {front behind : List AfInstance} {new : AfInstance}
    {set : Option AfInstance} (hcall : call ≠ .again) (hinput : q.input = p.input)
    (hq : ∀ af, af = new ∨ set = some af → Edited p (q.startAt front (af :: behind)))
    (h : initNew retry call q front behind new set output = .next t) : Follows retry p t := by
  unfold initNew at h
  cases set with
  | none => exact follows_fail (hq new (.inl rfl)) hinput h
  | some af =>
    cases h
    exact ⟨_, output, hq af (.inr rfl), hinput, .inl ⟨call, rfl, fun heq => absurd heq hcall⟩⟩

/-- A change of the format edits the chain once. -/
theorem follows_fixFormat (h : fixFormat retry p output = .next t) : Follows retry p t := by
  unfold fixFormat at h
  split at h
  · exact follows_again h
  · cases hlast : p.chain.getLast? with
    | none =>
      rw [hlast] at h
      cases h
    | some last =>
      rw [hlast] at h
      dsimp only at h
      split at h
      · exact follows_again h
      split at h
      · refine follows_initNew ?_ ?_ (fun af haf => ?_) h
        · exact nofun
        · rfl
        refine .last hlast (Pass.startAt_chain ..) ?_ rfl
        rcases haf with rfl | haf
        · rfl
        · exact setFormat_id haf
      · refine follows_initNew ?_ ?_ (fun af haf => ?_) h
        · exact nofun
        · rfl
        refine .inserted (List.append_nil _).symm (Pass.startAt_chain ..) ?_ rfl
        rcases haf with rfl | haf
        · rfl
        · exact setFormat_id haf

/-- A change of the channels edits the chain once. -/
theorem follows_fixChannels (h : fixChannels retry p output = .next t) : Follows retry p t := by
  unfold fixChannels at h
  split at h
  · exact follows_fixFormat h
  · cases hlast : p.chain.getLast? with
    | none =>
      rw [hlast] at h
      cases h
    | some last =>
      rw [hlast] at h
      dsimp only at h
      split at h
      · exact follows_fixFormat h
      · refine follows_initNew ?_ ?_ (fun af haf => ?_) h
        · exact nofun
        · rfl
        refine .inserted ?_ (Pass.startAt_chain ..) ?_ rfl
        · obtain ⟨init, hinit⟩ := List.getLast?_eq_some_iff.mp hlast
          split
          · rw [hinit, List.dropLast_concat]
          · exact (List.append_nil _).symm
        · rcases haf with rfl | haf
          · rfl
          · exact setChannels_id haf

/-- Behind a call of `af_reinit` the chain is edited once at most. -/
theorem follows_after {rv : Int} (h : a.after retry call rv p output = .next t) :
    Follows retry p t := by
  have hfail : fail retry p output = .next t → Follows retry p t :=
    follows_fail (.same rfl rfl) rfl
  cases call with
  | all =>
    simp only [after] at h
    split at h
    · exact follows_fixChannels h
    · exact hfail h
  | channels =>
    simp only [after] at h
    split at h
    · exact follows_fixFormat h
    · exact hfail h
  | format =>
    simp only [after] at h
    split at h
    · exact follows_again h
    · exact hfail h
  | again =>
    simp only [after] at h
    split at h
    · unfold check at h
      split at h
      · cases h
      · dsimp only at h
        split at h
        · exact follows_fail (.same rfl rfl) rfl h
        · cases h
    · exact hfail h

/-! ## The end -/

/-- What `af_add` ends with here, if it ends, is no pointer. -/
def NoPointer (retry : Bool) (t : Turn) : Prop :=
  ∀ r, t = .done r → r = .invalid ∨ retry = true ∧ ∃ chain output, r = .returned none chain output

/-- A failure returns no pointer. -/
theorem noPointer_fail (retry : Bool) (p : Pass) (output : AfData) :
    NoPointer retry (fail retry p output) := by
  intro r h
  cases retry with
  | false => cases h
  | true =>
    cases h
    exact .inr ⟨rfl, _, _, rfl⟩

theorem noPointer_initNew (retry : Bool) (call : Call) (p : Pass) (front behind : List AfInstance)
    (new : AfInstance) (set : Option AfInstance) (output : AfData) :
    NoPointer retry (initNew retry call p front behind new set output) := by
  cases set with
  | none => exact noPointer_fail _ _ _
  | some af => exact nofun

theorem noPointer_invalid (retry : Bool) : NoPointer retry (.done .invalid) := by
  intro r h
  cases h
  exact .inl rfl

theorem noPointer_fixFormat (retry : Bool) (p : Pass) (output : AfData) :
    NoPointer retry (fixFormat retry p output) := by
  unfold fixFormat
  split
  · exact nofun
  · split
    · exact noPointer_invalid _
    · dsimp only
      split
      · exact nofun
      · split
        · exact noPointer_initNew _ _ _ _ _ _ _ _
        · exact noPointer_initNew _ _ _ _ _ _ _ _

/-- Neither does a step that goes on. -/
theorem noPointer_fixChannels (retry : Bool) (p : Pass) (output : AfData) :
    NoPointer retry (fixChannels retry p output) := by
  unfold fixChannels
  split
  · exact noPointer_fixFormat _ _ _
  · split
    · exact noPointer_invalid _
    · dsimp only
      split
      · exact noPointer_fixFormat _ _ _
      · exact noPointer_initNew _ _ _ _ _ _ _ _

/-- A pointer is returned only if the chain delivers the output format. -/
theorem check_done {r : Added} (h : a.check retry p output = .done r) :
    (r = .invalid ∨ retry = true ∧ ∃ chain output, r = .returned none chain output) ∨
      retry = false ∧ ∃ output', r = .returned (some a.new) p.chain output' ∧
        Delivers p.chain output' := by
  cases hlast : p.chain.getLast? with
  | none =>
    rw [check, hlast] at h
    exact .inl (noPointer_invalid retry r h)
  | some last =>
    rw [check, hlast] at h
    dsimp only at h
    split at h
    · exact .inl (noPointer_fail _ _ _ r h)
    · next hsame =>
      rw [not_or, not_or, not_not, not_not, not_not] at hsame
      cases retry with
      | true =>
        cases h
        exact .inl (.inr ⟨rfl, _, _, rfl⟩)
      | false =>
        cases h
        exact .inr ⟨rfl, _, rfl, last, hlast, hsame⟩

/-- A pointer is returned when the last call of `af_reinit` returned `AF_OK`, and the chain delivers
the output format. -/
theorem after_done {rv : Int} {r : Added} (h : a.after retry call rv p output = .done r) :
    (r = .invalid ∨ retry = true ∧ ∃ chain output, r = .returned none chain output) ∨
      call = .again ∧ rv = 1 ∧ retry = false ∧ ∃ output',
        r = .returned (some a.new) p.chain output' ∧ Delivers p.chain output' := by
  cases call with
  | all =>
    simp only [after] at h
    split at h
    · exact .inl (noPointer_fixChannels _ _ _ r h)
    · exact .inl (noPointer_fail _ _ _ r h)
  | channels =>
    simp only [after] at h
    split at h
    · exact .inl (noPointer_fixFormat _ _ _ r h)
    · exact .inl (noPointer_fail _ _ _ r h)
  | format =>
    simp only [after] at h
    split at h
    · cases h
    · exact .inl (noPointer_fail _ _ _ r h)
  | again =>
    simp only [after] at h
    split at h
    · next hrv => exact (check_done h).imp id fun hr => ⟨rfl, hrv, hr⟩
    · exact .inl (noPointer_fail _ _ _ r h)

end Addition

end MPlayer.Af
