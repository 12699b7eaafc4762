import MPlayer.Af.Reinit
import MPlayer.Af.Kept
import MPlayer.Af.Following

/-!
# Adding a filter or nothing

`af_add` keeps the pointer to the new filter and walks up to it if it has to roll back.  This is
right as long as the new filter stays in the chain.  The roll-back leaves the filters behind the new
one as `af_reinit` left them, and the second initialization makes them the old chain only if it
finds no more than redundant filters in between (`Fine`).
-/

namespace MPlayer.Af

open Lib

theorem Reaches.mem {mode : InitType} {d e : AfData} {g : AfInstance} {fs : List AfInstance}
    (h : Reaches mode d fs e g) : g ∈ fs := by
  induction h with
  | here => exact .head _
  | behind _ _ ih => exact .tail _ ih

/-- A pointer to a filter in the chain is returned, or the chain and the output format are as
before. -/
def AllOrNothing (s : AfStream) : Added → Prop
  | .returned (some af) chain _ => ∃ f ∈ chain, f.id = af
  | .returned none chain output =>
    chain.map AfInstance.id = s.chain.map AfInstance.id ∧ output = s.output
  | .invalid => False

/-- The filters behind the place of the new one, and the format that the first of them gets. -/
def AfStream.place (s : AfStream) (first : AfInstance) (fs : List AfInstance) :
    AfData × List AfInstance :=
  if first.name = "format" then (first.data, fs) else (s.input, first :: fs)

/-- The next step is no way to go wrong.  In the first attempt no filter is stuck and the new filter
does not want to be removed.  In front of the roll-back the filters behind the new one are the old
ones and redundant ones, and the output format is the old one.  If automatic insertion is disabled,
this is what the chain delivered. -/
def Fine (s : AfStream) (first : AfInstance) (fs : List AfInstance) : AddState → Prop
  | .reinit false _ p _ =>
    (∀ d f, Reaches p.mode p.current p.rest d f → ¬Stuck p.mode d f) ∧
      ∀ f fs, p.rest = f :: fs → f.id = s.fresh → f.reinit p.current ≠ .detach
  | .reinit true _ _ _ => True
  | .rollBack p output =>
    (∀ ahead new behind, p.chain = ahead ++ new :: behind → new.id = s.fresh →
      (∀ f ∈ ahead, f.id ≠ s.fresh) →
        Restores s.mode (s.place first fs).1 (s.place first fs).2 behind) ∧
      output = s.output ∧ (s.mode = .force → Quiet s)

namespace Addition

variable {s : AfStream} {first : AfInstance} {fs : List AfInstance}

/-- Every state that a run comes to from here is fine. -/
def Careful (s : AfStream) (first : AfInstance) (fs : List AfInstance) (st : AddState) : Prop :=
  ∀ t, Lib.Reaches (s.addition first).turn st t → Fine s first fs t

theorem Careful.next {st t : AddState} (h : Careful s first fs st)
    (hturn : (s.addition first).turn st = .next t) : Careful s first fs t :=
  fun _ ht => h _ (.head hturn ht)

/-- What this leads to has a result, which is as it should be. -/
def Ends (s : AfStream) (first : AfInstance) (t : Turn) : Prop :=
  ∃ result, t.HaltsWith (s.addition first).turn result ∧ AllOrNothing s result

theorem ends_next {st : AddState} (h : Ends s first ((s.addition first).turn st)) :
    Ends s first (.next st) := by
  obtain ⟨result, hhalts, hresult⟩ := h
  exact ⟨result, haltsWith_turn.mpr hhalts, hresult⟩

variable {p : Pass} {output : AfData}

/-- A call of `af_reinit` in the first attempt, if all goes well behind it. -/
theorem ends_reinit {call : Call} {p : Pass} {output : AfData}
    (hok : first.reinit s.input = .ok first.data)
    (hafter : ∀ rv q, Kept s first q →
      (∀ t, (s.addition first).after false call rv q output = .next t → Careful s first fs t) →
        Ends s first ((s.addition first).after false call rv q output))
    (hp : Kept s first p) (hrest : p.rest ≠ [])
    (hfine : Careful s first fs (.reinit false call p output)) :
    Ends s first (.next (.reinit false call p output)) := by
  have hhalts : Halts Pass.turn p := (Pass.halts_iff p).mpr (hfine _ .refl).1
  revert hp hrest hfine
  refine hhalts.induction (P := fun p => Kept s first p → p.rest ≠ [] →
    Careful s first fs (.reinit false call p output) →
      Ends s first (.next (.reinit false call p output))) fun p ih hp hrest hfine => ?_
  apply ends_next
  obtain ⟨f, gs, hcons⟩ := List.exists_cons_of_ne_nil hrest
  have hkept := hp.turned hok hcons ((hfine _ .refl).2 f gs hcons) (Pass.turn_turned hcons)
  cases hturn : p.turn with
  | next q =>
    have hnext : (s.addition first).turn (.reinit false call p output) =
        .next (.reinit false call q output) := by rw [turn, hturn]
    rw [hturn] at hkept
    rw [hnext]
    exact ih q hturn hkept (Pass.rest_of_next hturn) (hfine.next hnext)
  | done r =>
    obtain ⟨rv, q⟩ := r
    have hnext : (s.addition first).turn (.reinit false call p output) =
        (s.addition first).after false call rv q output := by rw [turn, hturn]
    rw [hturn] at hkept
    rw [hnext]
    exact hafter rv q hkept fun t ht => hfine.next (hnext.trans ht)

/-! ## The roll-back -/

theorem ends_rollBack (hs : Working s) (hchain : s.chain = first :: fs) (hp : Kept s first p)
    (hfine : Careful s first fs (.rollBack p output)) :
    Ends s first (.next (.rollBack p output)) := by
  obtain ⟨hrestores, rfl, hforce⟩ := hfine _ .refl
  obtain ⟨tail, htail, hmem⟩ := hp.chain
  obtain ⟨front, new, rest, rfl, hnew, hfront, hbehind⟩ := behind_of_mem (s.addition first) hmem
  have hfirst : first.id ≠ s.fresh := by
    have hlt := s.fresh_lt first (by rw [hchain]; exact .head fs)
    omega
  have hremove : ∃ chain, (s.addition first).removeNew p.chain = some chain ∧
      Restores s.mode s.input s.chain chain := by
    by_cases hname : first.name = "format"
    · have hah : ahead first = [first] := if_pos hname
      rw [hah, List.singleton_append] at htail
      have hrest := hrestores (first :: front) new rest htail hnew fun f hf => by
        cases hf with
        | head => exact hfirst
        | tail _ hf => exact hfront f hf
      rw [AfStream.place, if_pos hname] at hrest
      refine ⟨first :: rest, ?_, ?_⟩
      · have hformat : (s.addition first).firstIsFormat = true := decide_eq_true hname
        unfold removeNew
        rw [if_pos hformat, htail]
        change ((s.addition first).behind _).map _ = _
        rw [hbehind]
        rfl
      · rw [hchain]
        exact .keep first.data hrest
    · have hah : ahead first = [] := if_neg hname
      rw [hah, List.nil_append] at htail
      have hrest := hrestores front new rest htail hnew hfront
      rw [AfStream.place, if_neg hname] at hrest
      refine ⟨rest, ?_, ?_⟩
      · have hformat : ¬(s.addition first).firstIsFormat = true := by
          simpa [AfStream.addition] using hname
        unfold removeNew
        rw [if_neg hformat, htail]
        exact hbehind
      · rw [hchain]
        exact hrest
  obtain ⟨chain, hremove, hres⟩ := hremove
  apply ends_next
  refine ⟨.returned none s.chain s.output, ?_, rfl, rfl⟩
  rw [turn, hremove]
  exact retry_haltsWith hs (hs.quiet hforce) hp.input hp.mode hres

/-- `af_add` behind a failure of the first attempt. -/
theorem ends_fail (hs : Working s) (hchain : s.chain = first :: fs) (hp : Kept s first p)
    (hfine : ∀ t, fail false p output = .next t → Careful s first fs t) :
    Ends s first (fail false p output) :=
  ends_rollBack hs hchain hp (hfine _ rfl)

/-! ## `fixup_output_format` -/

section

variable (hs : Working s) (hchain : s.chain = first :: fs)
include hs hchain

theorem first_ok : first.reinit s.input = .ok first.data := by
  have hsettled := hs.settled
  rw [hchain] at hsettled
  exact hsettled.1

variable {p : Pass} {output : AfData}

theorem ends_check (hp : Kept s first p)
    (hfine : ∀ t, (s.addition first).check false p output = .next t → Careful s first fs t) :
    Ends s first ((s.addition first).check false p output) := by
  unfold check at hfine ⊢
  obtain ⟨last, hlast⟩ := hp.exists_last
  rw [hlast] at hfine ⊢
  dsimp only at hfine ⊢
  split at hfine
  · next hdiffer =>
    rw [if_pos hdiffer]
    exact ends_fail hs hchain hp hfine
  · next hsame =>
    rw [if_neg hsame]
    obtain ⟨tail, htail, f, hf, hid⟩ := hp.chain
    refine ⟨_, rfl, f, ?_, hid⟩
    rw [htail]
    exact List.mem_append_right _ hf

theorem ends_again (hp : Kept s first p)
    (hfine : ∀ t, again false p output = .next t → Careful s first fs t) :
    Ends s first (again false p output) := by
  have hq : Kept s first (p.startAt [] p.chain) :=
    ⟨hp.input, hp.mode, by rw [Pass.startAt_chain]; exact hp.chain⟩
  refine ends_reinit (first_ok hs hchain) (fun rv q hq hfine => ?_) hq hp.chain_ne_nil (hfine _ rfl)
  by_cases hrv : rv = 1
  · subst hrv
    rw [after_ok] at hfine ⊢
    exact ends_check hs hchain hq hfine
  · rw [after_failed _ hrv] at hfine ⊢
    exact ends_fail hs hchain hq hfine

/-- A filter that is set up for the output and initialized, if all goes well behind it. -/
theorem ends_initNew {call : Call} {p : Pass} {front behind : List AfInstance} {new : AfInstance}
    {set : Option AfInstance} {output : AfData}
    (hgo : ∀ q, Kept s first q →
      (∀ t, (s.addition first).after false call 1 q output = .next t → Careful s first fs t) →
        Ends s first ((s.addition first).after false call 1 q output))
    (hnew : Kept s first (p.startAt front (new :: behind)))
    (hset : ∀ af, set = some af → Kept s first (p.startAt front (af :: behind)))
    (hfine : ∀ t, initNew false call p front behind new set output = .next t →
      Careful s first fs t) :
    Ends s first (initNew false call p front behind new set output) := by
  unfold initNew at hfine ⊢
  cases set with
  | none => exact ends_fail hs hchain hnew hfine
  | some af =>
    refine ends_reinit (first_ok hs hchain) (fun rv q hq hfine => ?_) (hset af rfl)
      (List.cons_ne_nil _ _) (hfine _ rfl)
    by_cases hrv : rv = 1
    · subst hrv
      exact hgo q hq hfine
    · rw [after_failed _ hrv] at hfine ⊢
      exact ends_fail hs hchain hq hfine

theorem ends_fixFormat (hp : Kept s first p)
    (hfine : ∀ t, fixFormat false p output = .next t → Careful s first fs t) :
    Ends s first (fixFormat false p output) := by
  have hgo : ∀ (output : AfData) (q : Pass), Kept s first q →
      (∀ t, (s.addition first).after false .format 1 q output = .next t → Careful s first fs t) →
        Ends s first ((s.addition first).after false .format 1 q output) := by
    intro output q hq hfine
    rw [after_ok] at hfine ⊢
    exact ends_again hs hchain hq hfine
  unfold fixFormat at hfine ⊢
  obtain ⟨last, hlast⟩ := hp.exists_last
  rw [hlast] at hfine ⊢
  dsimp only at hfine ⊢
  by_cases hsame : output.format = formatUnknown ∨ last.data.format = output.format
  · have hagain : ∀ t : Turn, (if output.format = formatUnknown then again false p output
        else if last.data.format = output.format then again false p output else t) =
          again false p output := by
      intro t
      rcases hsame with h | h
      · rw [if_pos h]
      · rw [if_pos h, ite_self]
    rw [hagain] at hfine ⊢
    exact ends_again hs hchain hp hfine
  · rw [not_or] at hsame
    rw [if_neg hsame.1, if_neg hsame.2] at hfine ⊢
    by_cases hname : last.name = "format"
    · rw [if_pos hname] at hfine ⊢
      have hset : ∀ af : AfInstance, af.id = last.id →
          Kept s first (p.startAt p.chain.dropLast [af]) := fun af haf =>
        hp.dropLast hlast rfl rfl (Pass.startAt_chain ..) fun hid =>
          ⟨af, List.mem_singleton_self af, haf.trans hid⟩
      exact ends_initNew hs hchain (hgo _) (hset last rfl)
        (fun af haf => hset af (setFormat_id haf)) hfine
    · rw [if_neg hname] at hfine ⊢
      have hset : ∀ af : AfInstance,
          Kept s first (({ p with fresh := p.fresh + 1 } : Pass).startAt p.chain [af]) :=
        fun af => hp.append rfl rfl (Pass.startAt_chain ..)
      exact ends_initNew hs hchain (hgo _) (hset _) (fun af _ => hset af) hfine

theorem ends_fixChannels (hp : Kept s first p)
    (hfine : ∀ t, fixChannels false p output = .next t → Careful s first fs t) :
    Ends s first (fixChannels false p output) := by
  unfold fixChannels at hfine ⊢
  obtain ⟨last, hlast⟩ := hp.exists_last
  rw [hlast] at hfine ⊢
  dsimp only at hfine ⊢
  by_cases hsame : output.nch = 0 ∨ last.data.nch = output.nch
  · have hfix : ∀ t : Turn, (if output.nch = 0 then fixFormat false p output
        else if last.data.nch = output.nch then fixFormat false p output else t) =
          fixFormat false p output := by
      intro t
      rcases hsame with h | h
      · rw [if_pos h]
      · rw [if_pos h, ite_self]
    rw [hfix] at hfine ⊢
    exact ends_fixFormat hs hchain hp hfine
  · rw [not_or] at hsame
    rw [if_neg hsame.1, if_neg hsame.2] at hfine ⊢
    refine ends_initNew hs hchain (fun q hq hfine => ?_) ?_ (fun af _ => ?_) hfine
    · rw [after_ok] at hfine ⊢
      exact ends_fixFormat hs hchain hq hfine
    all_goals
      by_cases hname : last.name = "format"
      · simp only [if_pos hname]
        exact hp.dropLast hlast rfl rfl (Pass.startAt_chain ..) fun hid =>
          ⟨last, .tail _ (.head _), hid⟩
      · simp only [if_neg hname]
        exact hp.append rfl rfl (Pass.startAt_chain ..)

end

end Addition

/-! ## `af_add` -/

namespace AfStream

variable {s : AfStream} {created : Option AfInstance}

/-- Every state that `af_add` comes to, where `af_create` returned `created`, is fine. -/
def Careful (s : AfStream) (created : Option AfInstance) : Prop :=
  ∀ first fs new, s.chain = first :: fs → created = some new →
    Addition.Careful s first fs (s.addFirst first fs new)

theorem adds_none (hnone : s.chain = [] ∨ created = none) (result : Added) :
    s.Adds created result ↔ result = .returned none s.chain s.output := by
  unfold Adds
  split
  · next new hchain =>
    rcases hnone with h | h
    · rw [h] at hchain
      cases hchain
    · cases h
  · rfl

theorem adds_some {first new : AfInstance} {fs : List AfInstance} (hchain : s.chain = first :: fs)
    (result : Added) : s.Adds (some new) result ↔
      HaltsWith (s.addition first).turn (s.addFirst first fs new) result := by
  unfold Adds
  rw [hchain]

/-- If all states it comes to are fine, `af_add` adds the filter or changes nothing. -/
theorem adds_of_careful (hs : Working s) (hfine : s.Careful created) :
    ∃ result, s.Adds created result ∧ AllOrNothing s result := by
  obtain ⟨first, fs, hchain⟩ := List.exists_cons_of_ne_nil hs.ne_nil
  cases created with
  | none =>
    exact ⟨_, (adds_none (.inr rfl) _).mpr rfl, rfl, rfl⟩
  | some new =>
    have hcareful := hfine first fs new hchain rfl
    let new' : AfInstance := { new with id := s.fresh }
    let chain := if first.name = "format" then first :: new' :: fs else new' :: first :: fs
    have hsplit : chain = Addition.ahead first ++
        new' :: if first.name = "format" then fs else first :: fs := by
      unfold chain Addition.ahead
      split <;> rfl
    have hkept : Addition.Kept s first ⟨s.input, s.mode, [], chain, s.fresh + 1⟩ :=
      ⟨rfl, rfl, _, hsplit, new', .head _, rfl⟩
    have hne : chain ≠ [] := by
      rw [hsplit]
      simp
    have hends : Addition.Ends s first (.next (s.addFirst first fs new)) := by
      refine Addition.ends_reinit (Addition.first_ok hs hchain) (fun rv q hq hfine => ?_) hkept
        hne hcareful
      by_cases hrv : rv = 1
      · subst hrv
        rw [Addition.after_ok] at hfine ⊢
        exact Addition.ends_fixChannels hs hchain hq hfine
      · rw [Addition.after_failed _ hrv] at hfine ⊢
        exact Addition.ends_fail hs hchain hq hfine
    obtain ⟨result, hhalts, hresult⟩ := hends
    exact ⟨result, (adds_some hchain result).mpr hhalts, hresult⟩

end AfStream

end MPlayer.Af
