import MPlayer.Af.Restoring

/-!
# The new filter stays

Nothing in front of the new filter can be removed: there is at most the leading `format` filter,
which answers as before.  So the new filter stays where it is as long as it does not want to be
removed itself (`Kept.turned`), and the roll-back finds it (`behind_of_mem`).
-/

namespace MPlayer.Af

open Lib

namespace Addition

variable {s : AfStream}

/-- What stays in front of the new filter. -/
def ahead (first : AfInstance) : List AfInstance := if first.name = "format" then [first] else []

/-- The new filter is in the chain, behind what stays in front of it. -/
structure Kept (s : AfStream) (first : AfInstance) (p : Pass) : Prop where
  input : p.input = s.input
  mode : p.mode = s.mode
  chain : ∃ fs, p.chain = ahead first ++ fs ∧ ∃ f ∈ fs, f.id = s.fresh

variable {first : AfInstance}

theorem ahead_cases (first : AfInstance) : ahead first = [] ∨ ahead first = [first] := by
  unfold ahead
  split
  · exact .inr rfl
  · exact .inl rfl

variable {p q : Pass} {f : AfInstance} {fs gs : List AfInstance}

/-- A change at the cursor, unless the cursor is at the filter that stays in front. -/
theorem Kept.edit (hp : Kept s first p) (hrest : p.rest = f :: fs) (hinput : q.input = p.input)
    (hmode : q.mode = p.mode) (hchain : q.chain = p.before.reverse ++ gs)
    (hnew : ∀ x ∈ f :: fs, x.id = s.fresh → ∃ y ∈ gs, y.id = s.fresh)
    (hcursor : p.before ≠ [] ∨ ahead first = []) : Kept s first q := by
  obtain ⟨hin, hm, tail, htail, x, hx, hid⟩ := hp
  refine ⟨hinput.trans hin, hmode.trans hm, ?_⟩
  rw [Pass.chain, hrest] at htail
  have hmem : ∀ b : List AfInstance, x ∈ b ++ f :: fs → ∃ y ∈ b ++ gs, y.id = s.fresh := by
    intro b hxb
    rcases List.mem_append.mp hxb with hb | hb
    · exact ⟨x, List.mem_append_left gs hb, hid⟩
    · obtain ⟨y, hy, hyid⟩ := hnew x hb hid
      exact ⟨y, List.mem_append_right b hy, hyid⟩
  rcases ahead_cases first with hnil | hfirst
  · rw [hnil, List.nil_append] at htail
    rw [hnil]
    exact ⟨_, hchain, hmem _ (htail ▸ hx)⟩
  · have hne : p.before.reverse ≠ [] := by
      rcases hcursor with h | h
      · exact fun hrev => h (List.reverse_eq_nil_iff.mp hrev)
      · rw [hfirst] at h
        cases h
    obtain ⟨g, b, hb⟩ := List.exists_cons_of_ne_nil hne
    rw [hfirst, hb] at htail
    rw [hfirst, hchain, hb]
    injection htail with hg htail
    subst hg
    have htail : b ++ f :: fs = tail := htail
    exact ⟨b ++ gs, rfl, hmem b (htail ▸ hx)⟩

/-- Where the filter that stays in front is asked, it answers as before. -/
theorem Kept.first_ok (hp : Kept s first p) (hok : first.reinit s.input = .ok first.data)
    (hrest : p.rest = f :: fs) (hcursor : ¬(p.before ≠ [] ∨ ahead first = [])) :
    f = first ∧ p.before = [] ∧ ahead first = [first] ∧ f.reinit p.current = .ok first.data := by
  rw [not_or, not_not] at hcursor
  obtain ⟨hb, hne⟩ := hcursor
  have hfirst := (ahead_cases first).resolve_left hne
  obtain ⟨tail, htail, -⟩ := hp.chain
  rw [Pass.chain, hb, hrest, hfirst] at htail
  injection htail with hf _
  subst hf
  refine ⟨rfl, hb, hfirst, ?_⟩
  have hcurrent : p.current = s.input := by
    rw [Pass.current, hb]
    exact hp.input
  rw [hcurrent]
  exact hok

/-- The new filter stays if it does not want to be removed. -/
theorem Kept.turned {t : Pass.Turn} (hp : Kept s first p)
    (hok : first.reinit s.input = .ok first.data) (hrest : p.rest = f :: fs)
    (hdetach : f.id = s.fresh → f.reinit p.current ≠ .detach) (ht : Pass.Turned p f fs t) :
    Kept s first (Pass.reached t) := by
  have hinsert : (∀ data, f.reinit p.current ≠ .ok data) → ∀ g, Kept s first (p.prepend g) := by
    intro hnot g
    have hcursor : p.before ≠ [] ∨ ahead first = [] := by
      refine Classical.byContradiction fun hcursor => ?_
      exact hnot _ (hp.first_ok hok hrest hcursor).2.2.2
    have hchain : (p.prepend g).chain = p.before.reverse ++ g :: f :: fs := by
      rw [Pass.chain, Pass.prepend, hrest]
      simp
    exact hp.edit hrest rfl rfl hchain (fun x hx hid => ⟨x, .tail g hx, hid⟩) hcursor
  cases ht with
  | ok data hanswer =>
    rw [Pass.again_reached]
    by_cases hcursor : p.before ≠ [] ∨ ahead first = []
    · have hchain : ({ p with before := { f with data := data } :: p.before, rest := fs } :
          Pass).chain = p.before.reverse ++ { f with data := data } :: fs := by simp [Pass.chain]
      refine hp.edit hrest rfl rfl hchain (fun x hx hid => ?_) hcursor
      cases hx with
      | head => exact ⟨_, .head _, hid⟩
      | tail _ hx => exact ⟨x, .tail _ hx, hid⟩
    · obtain ⟨rfl, -, -, hfirst⟩ := hp.first_ok hok hrest hcursor
      rw [hanswer] at hfirst
      cases hfirst
      refine ⟨hp.input, hp.mode, ?_⟩
      have hchain := hp.chain
      rw [Pass.chain, hrest] at hchain
      simpa [Pass.chain] using hchain
  | removed hanswer =>
    rw [Pass.again_reached]
    have hcursor : p.before ≠ [] ∨ ahead first = [] := by
      refine Classical.byContradiction fun hcursor => ?_
      have hfirst := (hp.first_ok hok hrest hcursor).2.2.2
      rw [hanswer] at hfirst
      cases hfirst
    refine hp.edit hrest rfl rfl rfl (fun x hx hid => ?_) hcursor
    cases hx with
    | head => exact absurd hanswer (hdetach hid)
    | tail _ hx => exact ⟨x, hx, hid⟩
  | failed hnot _ hq =>
    rcases hq with rfl | ⟨g, -, rfl⟩
    · exact hp
    · exact hinsert hnot g
  | stays => exact hp
  | inserted g hnot => exact hinsert hnot g

theorem Kept.chain_ne_nil (hp : Kept s first p) : p.chain ≠ [] := by
  obtain ⟨tail, htail, f, hf, -⟩ := hp.chain
  rw [htail]
  exact List.ne_nil_of_mem (List.mem_append_right _ hf)

theorem Kept.exists_last (hp : Kept s first p) : ∃ last, p.chain.getLast? = some last :=
  Option.ne_none_iff_exists'.mp (mt List.getLast?_eq_none_iff.mp hp.chain_ne_nil)

theorem Kept.append (hp : Kept s first p) (hinput : q.input = p.input) (hmode : q.mode = p.mode)
    (hchain : q.chain = p.chain ++ gs) : Kept s first q := by
  obtain ⟨hin, hm, tail, htail, f, hf, hid⟩ := hp
  refine ⟨hinput.trans hin, hmode.trans hm, tail ++ gs, ?_, f, List.mem_append_left gs hf, hid⟩
  rw [hchain, htail, List.append_assoc]

/-- A change of the last filter. -/
theorem Kept.dropLast {last : AfInstance} (hp : Kept s first p)
    (hlast : p.chain.getLast? = some last) (hinput : q.input = p.input) (hmode : q.mode = p.mode)
    (hchain : q.chain = p.chain.dropLast ++ gs)
    (hnew : last.id = s.fresh → ∃ f ∈ gs, f.id = s.fresh) : Kept s first q := by
  obtain ⟨hin, hm, tail, htail, f, hf, hid⟩ := hp
  obtain ⟨init, l, rfl⟩ := (List.eq_nil_or_concat' tail).resolve_left (List.ne_nil_of_mem hf)
  rw [htail, ← List.append_assoc, List.getLast?_concat] at hlast
  cases hlast
  refine ⟨hinput.trans hin, hmode.trans hm, init ++ gs, ?_, ?_⟩
  · rw [hchain, htail, ← List.append_assoc, List.dropLast_concat, List.append_assoc]
  · rcases List.mem_append.mp hf with hf | hf
    · exact ⟨f, List.mem_append_left gs hf, hid⟩
    · rw [List.mem_singleton.mp hf] at hid
      obtain ⟨g, hg, hgid⟩ := hnew hid
      exact ⟨g, List.mem_append_right init hg, hgid⟩

theorem behind_of_mem (a : Addition) (h : ∃ f ∈ fs, f.id = a.new) :
    ∃ front new rest, fs = front ++ new :: rest ∧ new.id = a.new ∧
      (∀ f ∈ front, f.id ≠ a.new) ∧ a.behind fs = some rest := by
  induction fs with
  | nil =>
    obtain ⟨f, hf, -⟩ := h
    cases hf
  | cons g fs ih =>
    by_cases hg : g.id = a.new
    · refine ⟨[], g, fs, rfl, hg, nofun, ?_⟩
      simp [behind, hg]
    · obtain ⟨f, hf, hid⟩ := h
      have hmem : ∃ f ∈ fs, f.id = a.new := by
        cases hf with
        | head => exact absurd hid hg
        | tail _ hf => exact ⟨f, hf, hid⟩
      obtain ⟨front, new, rest, rfl, hnew, hfront, hbehind⟩ := ih hmem
      refine ⟨g :: front, new, rest, rfl, hnew, ?_, ?_⟩
      · intro f hf
        cases hf with
        | head => exact hg
        | tail _ hf => exact hfront f hf
      · rw [← hbehind]
        simp [behind, hg]

end Addition

end MPlayer.Af
