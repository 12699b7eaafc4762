import MPlayer.Af.Restoring

/-!
# Working chains

A chain works if it is settled and delivers the output format.  This is what `af_init` checks.  The
second initialization of `af_add`, behind the roll-back, leaves such a chain as it is, also if it
first has to remove redundant filters (`retry_haltsWith`).
-/

namespace MPlayer.Af

open Lib

/-- The chain delivers the output format. -/
def Delivers (chain : List AfInstance) (output : AfData) : Prop :=
  ∃ last, chain.getLast? = some last ∧ last.data.format = output.format ∧
    last.data.nch = output.nch ∧ last.data.rate = output.rate

/-- What `fixup_output_format` changes nothing for. -/
def Quiet (s : AfStream) : Prop :=
  ∃ last, s.chain.getLast? = some last ∧ last.data.format = s.output.format ∧
    last.data.nch = s.output.nch ∧ (s.output.rate = 0 → last.data.rate = 0)

/-- A chain for which `af_init` returned 0.  The output format is not checked if automatic
insertion is disabled. -/
structure Working (s : AfStream) : Prop where
  ne_nil : s.chain ≠ []
  settled : Settled s.input s.chain
  output : s.mode ≠ .force → Delivers s.chain s.output

theorem Working.quiet {s : AfStream} (hs : Working s) (hforce : s.mode = .force → Quiet s) :
    Quiet s := by
  by_cases hmode : s.mode = .force
  · exact hforce hmode
  · obtain ⟨last, hlast, hformat, hnch, hrate⟩ := hs.output hmode
    exact ⟨last, hlast, hformat, hnch, fun h0 => hrate.trans h0⟩

theorem Pass.startAt_chain (p : Pass) (front rest : List AfInstance) :
    (p.startAt front rest).chain = front ++ rest := by
  rw [Pass.chain, Pass.startAt, List.reverse_reverse]

namespace Addition

variable {a : Addition} {s : AfStream}

/-- A call of `af_reinit` that ends goes on behind it. -/
theorem haltsWith_of_ends {retry : Bool} {call : Call} {p q : Pass} {rv : Int} {output : AfData}
    {r : Added} (h : p.Ends rv q) (hafter : (a.after retry call rv q output).HaltsWith a.turn r) :
    HaltsWith a.turn (.reinit retry call p output) r := by
  obtain ⟨last, hreach, hdone⟩ := h
  induction hreach using Relation.ReflTransGen.head_induction_on with
  | refl =>
    rw [haltsWith_turn, turn, hdone]
    exact hafter
  | @head p p' hnext _ ih =>
    have hturn : a.turn (.reinit retry call p output) = .next (.reinit retry call p' output) := by
      rw [turn, hnext]
    exact (haltsWith_next hturn).mpr ih

/-! ## The second attempt -/

theorem fixChannels_quiet (hs : Quiet s) {p : Pass} (hp : p.chain = s.chain) (retry : Bool) :
    fixChannels retry p s.output = again retry p s.output := by
  obtain ⟨last, hlast, hformat, hnch, -⟩ := hs
  have hfix : fixFormat retry p s.output = again retry p s.output := by
    unfold fixFormat
    split
    · rfl
    · rw [hp, hlast]
      exact if_pos hformat
  unfold fixChannels
  split
  · exact hfix
  · rw [hp, hlast]
    simp only [if_pos hnch, hfix]

/-- The check leaves the output format as it is. -/
theorem check_quiet (hs : Quiet s) {p : Pass} (hp : p.chain = s.chain) :
    a.check true p s.output = .done (.returned none s.chain s.output) := by
  obtain ⟨last, hlast, hformat, hnch, hrate⟩ := hs
  have hsame : fill s.output last.data = s.output := by
    have hrate : (if s.output.rate = 0 then last.data.rate else s.output.rate) = s.output.rate := by
      split
      · next h0 => rw [hrate h0, h0]
      · rfl
    unfold fill
    rw [hformat, hnch, ite_self, ite_self, hrate]
  unfold check
  rw [hp, hlast]
  simp only [hsame]
  split
  · rw [fail, if_pos rfl, hp]
  · rfl

/-- Behind the roll-back, a chain that restores the old one becomes the old one. -/
theorem retry_haltsWith (hs : Working s) (hquiet : Quiet s) {p : Pass} (hinput : p.input = s.input)
    (hmode : p.mode = s.mode) {chain : List AfInstance}
    (h : Restores s.mode s.input s.chain chain) :
    HaltsWith a.turn (.reinit true .all (p.startAt [] chain) s.output)
      (.returned none s.chain s.output) := by
  have hends : ∀ {q : Pass} {gs : List AfInstance}, q.input = s.input → q.mode = s.mode →
      Restores s.mode s.input s.chain gs → ∃ q', (q.startAt [] gs).Ends 1 q' ∧
        q'.chain = s.chain ∧ q'.input = s.input ∧ q'.mode = s.mode := by
    intro q gs hin hm hgs
    refine ⟨_, Pass.restores_ends hgs hs.settled hm hin rfl (hgs.ne_nil hs.ne_nil), ?_, hin, hm⟩
    simp [Pass.chain, Pass.startAt]
  obtain ⟨q, hq, hchain, hin, hm⟩ := hends hinput hmode h
  refine haltsWith_of_ends hq ?_
  rw [after_ok]
  dsimp only
  rw [fixChannels_quiet hquiet hchain]
  obtain ⟨q', hq', hchain', -⟩ := hends hin hm (Restores.refl s.mode s.input s.chain)
  rw [← hchain] at hq'
  refine haltsWith_of_ends hq' ?_
  rw [after_ok]
  dsimp only
  rw [check_quiet hquiet hchain']
  rfl

end Addition

end MPlayer.Af
