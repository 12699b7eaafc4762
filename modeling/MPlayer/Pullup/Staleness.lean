import Mathlib.Data.List.Forall2
import MPlayer.Pullup.Queue

/-!
# Stale fields

A free field of the ring keeps its metrics.  `compute_metric` leaves the ones of the new field as
they are if the field in front has no picture any more.  In the queue this concerns the differences
of the first two fields, which nothing looks at, and the comb of the first one.  Together with the
variation and the breaks of the free field in front of the queue these are all stale values that can
decide about a frame (`frames_current`).
-/

namespace MPlayer.Pullup

variable (c : Params)

/-! ## Fields that agree -/

/-- Fields with pictures that are equal but for the metrics against other fields. -/
def Same (f g : Field) : Prop :=
  f.buffer ≠ none ∧ ∃ diffs comb, g = { f with diffs := diffs, comb := comb }

/-- Queues that agree in what the decisions look at, but for the comb of the first field. -/
structure Near (fs gs : List Field) : Prop where
  same : List.Forall₂ Same fs gs
  comb : fs.tail.map Field.comb = gs.tail.map Field.comb
  diffs : (fs.drop 2).map Field.diffs = (gs.drop 2).map Field.diffs

/-- Contexts whose queues agree. -/
structure Agree (s t : Context) : Prop where
  near : Near s.queue t.queue
  free : ∀ f ∈ s.rest, f.buffer = none
  free' : ∀ f ∈ t.rest, f.buffer = none
  room : s.queue = [] → s.free ≠ []
  room' : t.queue = [] → t.free ≠ []
  lock : s.lock = t.lock

/-- The affinity that the first of three fields gets. -/
def firstAffinity (prevVar : List Int) (f next next' : Field) : Int :=
  (computeAffinity c prevVar f next next').1.affinity

/-- In front of a decision: the first field gets the same affinity in both contexts, and with
`strict_pairs` there is the same break in front of it. -/
def Current (s t : Context) : Prop :=
  match s.queue, t.queue with
  | f0 :: f1 :: f2 :: _ :: _, g0 :: g1 :: g2 :: _ :: _ =>
    firstAffinity c s.prev.var f0 f1 f2 = firstAffinity c t.prev.var g0 g1 g2 ∧
      (c.strictPairs = true → s.prev.breakRight = t.prev.breakRight)
  | _, _ => True

instance (s t : Context) : Decidable (Current c s t) := by
  unfold Current
  split <;> infer_instance

section Lists

variable {fs gs : List Field}

theorem map_same {α : Type} (p : Field → α)
    (hp : ∀ f diffs comb, p { f with diffs := diffs, comb := comb } = p f)
    (h : List.Forall₂ Same fs gs) : gs.map p = fs.map p := by
  induction h with
  | nil => rfl
  | cons hfg _ ih =>
    obtain ⟨-, diffs, comb, rfl⟩ := hfg
    rw [List.map_cons, List.map_cons, ih, hp]

theorem Near.drop (h : Near fs gs) (n : Nat) : Near (fs.drop n) (gs.drop n) where
  same := List.forall₂_drop n h.same
  comb := by
    have hdrop := congrArg (List.drop n) h.comb
    rwa [← List.map_drop, ← List.map_drop, ← List.drop_one, ← List.drop_one, List.drop_drop,
      List.drop_drop, Nat.add_comm, ← List.drop_drop, ← List.drop_drop, List.drop_one,
      List.drop_one] at hdrop
  diffs := by
    have hdrop := congrArg (List.drop n) h.diffs
    rwa [← List.map_drop, ← List.map_drop, List.drop_drop, List.drop_drop, Nat.add_comm,
      ← List.drop_drop, ← List.drop_drop] at hdrop

end Lists

/-! ## Breaks and affinity -/

/-- What `compute_breaks` and `compute_affinity` don't change. -/
def Field.picture (f : Field) : Fin 2 × Option Int × List Int × List Int × List Int :=
  (f.parity, f.buffer, f.diffs, f.comb, f.var)

section Decisions

variable {c} {f0 f1 f2 f3 g0 g1 g2 g3 : Field} {prevVar prevVar' : List Int}

theorem computeBreaks_picture (f0 f1 f2 f3 : Field) :
    (computeBreaks c f0 f1 f2 f3).1.picture = f0.picture ∧
      (computeBreaks c f0 f1 f2 f3).2.1.picture = f1.picture ∧
        (computeBreaks c f0 f1 f2 f3).2.2.picture = f2.picture := by
  unfold computeBreaks
  dsimp only
  split_ifs <;> exact ⟨rfl, rfl, rfl⟩

theorem computeAffinity_picture (prevVar : List Int) (f0 f1 f2 : Field) :
    (computeAffinity c prevVar f0 f1 f2).1.picture = f0.picture ∧
      (computeAffinity c prevVar f0 f1 f2).2.1.picture = f1.picture ∧
        (computeAffinity c prevVar f0 f1 f2).2.2.picture = f2.picture := by
  unfold computeAffinity
  split_ifs <;> exact ⟨rfl, rfl, rfl⟩

/-- The breaks depend on the buffers and on the differences of the last two fields. -/
theorem Same.breaks (h0 : Same f0 g0) (h1 : Same f1 g1) (h2 : Same f2 g2) (h3 : Same f3 g3)
    (hdiffs2 : f2.diffs = g2.diffs) (hdiffs3 : f3.diffs = g3.diffs) :
    Same (computeBreaks c f0 f1 f2 f3).1 (computeBreaks c g0 g1 g2 g3).1 ∧
      Same (computeBreaks c f0 f1 f2 f3).2.1 (computeBreaks c g0 g1 g2 g3).2.1 ∧
        Same (computeBreaks c f0 f1 f2 f3).2.2 (computeBreaks c g0 g1 g2 g3).2.2 := by
  obtain ⟨hb0, d0, c0, rfl⟩ := h0
  obtain ⟨hb1, d1, c1, rfl⟩ := h1
  obtain ⟨hb2, d2, c2, rfl⟩ := h2
  obtain ⟨-, d3, c3, rfl⟩ := h3
  dsimp only at hdiffs2 hdiffs3
  subst hdiffs2 hdiffs3
  unfold computeBreaks
  dsimp only
  split_ifs <;> exact ⟨⟨hb0, _, _, rfl⟩, ⟨hb1, _, _, rfl⟩, ⟨hb2, _, _, rfl⟩⟩

theorem firstAffinity_eq (prevVar : List Int) (f next next' : Field) :
    firstAffinity c prevVar f next next' =
      if f.haveAffinity then f.affinity
      else if f.buffer = next'.buffer then 1
      else metricAffinity c prevVar f next := by
  unfold firstAffinity computeAffinity
  split_ifs <;> rfl

/-- The breaks don't matter for the affinity. -/
theorem firstAffinity_breaks (prevVar : List Int) (f0 f1 f2 f3 : Field) :
    firstAffinity c prevVar (computeBreaks c f0 f1 f2 f3).1 (computeBreaks c f0 f1 f2 f3).2.1
      (computeBreaks c f0 f1 f2 f3).2.2 = firstAffinity c prevVar f0 f1 f2 := by
  rw [firstAffinity_eq, firstAffinity_eq]
  unfold computeBreaks
  dsimp only
  split_ifs <;> rfl

/-- The affinities depend on the buffers, if the first one is the same. -/
theorem Same.affinity (h0 : Same f0 g0) (h1 : Same f1 g1) (h2 : Same f2 g2)
    (hfirst : firstAffinity c prevVar f0 f1 f2 = firstAffinity c prevVar' g0 g1 g2) :
    Same (computeAffinity c prevVar f0 f1 f2).1 (computeAffinity c prevVar' g0 g1 g2).1 ∧
      Same (computeAffinity c prevVar f0 f1 f2).2.1 (computeAffinity c prevVar' g0 g1 g2).2.1 ∧
        Same (computeAffinity c prevVar f0 f1 f2).2.2
          (computeAffinity c prevVar' g0 g1 g2).2.2 := by
  obtain ⟨hb0, d0, c0, rfl⟩ := h0
  obtain ⟨hb1, d1, c1, rfl⟩ := h1
  obtain ⟨hb2, d2, c2, rfl⟩ := h2
  unfold firstAffinity computeAffinity at hfirst
  unfold computeAffinity
  dsimp only at hfirst ⊢
  split_ifs at hfirst ⊢
  · exact ⟨⟨hb0, _, _, rfl⟩, ⟨hb1, _, _, rfl⟩, ⟨hb2, _, _, rfl⟩⟩
  · exact ⟨⟨hb0, _, _, rfl⟩, ⟨hb1, _, _, rfl⟩, ⟨hb2, _, _, rfl⟩⟩
  · change metricAffinity _ _ _ _ = metricAffinity _ _ _ _ at hfirst
    rw [hfirst]
    exact ⟨⟨hb0, _, _, rfl⟩, ⟨hb1, _, _, rfl⟩, ⟨hb2, _, _, rfl⟩⟩

/-- The same where there is no third field in the queue. -/
theorem Same.affinity_last {h h' : Field} (h0 : Same f0 g0) (hfree : h.buffer = none)
    (hfree' : h'.buffer = none)
    (hfirst : firstAffinity c prevVar f0 f1 h = firstAffinity c prevVar' g0 g1 h') :
    Same (computeAffinity c prevVar f0 f1 h).1 (computeAffinity c prevVar' g0 g1 h').1 ∧
      (computeAffinity c prevVar f0 f1 h).2 = (f1, h) ∧
        (computeAffinity c prevVar' g0 g1 h').2 = (g1, h') := by
  obtain ⟨hb0, d0, c0, rfl⟩ := h0
  unfold firstAffinity computeAffinity at hfirst
  unfold computeAffinity
  dsimp only at hfirst ⊢
  rw [hfree, hfree'] at *
  simp only [if_neg hb0] at hfirst ⊢
  split_ifs at hfirst ⊢
  · exact ⟨⟨hb0, _, _, rfl⟩, rfl, rfl⟩
  · change metricAffinity _ _ _ _ = metricAffinity _ _ _ _ at hfirst
    rw [hfirst]
    exact ⟨⟨hb0, _, _, rfl⟩, rfl, rfl⟩

/-- With the combs and the variations the affinity is the same. -/
theorem firstAffinity_same (h0 : Same f0 g0) (h1 : Same f1 g1) (hbuffer : f2.buffer = g2.buffer)
    (hcomb0 : f0.comb = g0.comb) (hcomb1 : f1.comb = g1.comb) (hvar : prevVar = prevVar') :
    firstAffinity c prevVar f0 f1 f2 = firstAffinity c prevVar' g0 g1 g2 := by
  obtain ⟨-, d0, c0, rfl⟩ := h0
  obtain ⟨-, d1, c1, rfl⟩ := h1
  dsimp only at hcomb0 hcomb1
  subst hcomb0 hcomb1 hvar
  unfold firstAffinity computeAffinity
  dsimp only
  rw [hbuffer]
  split_ifs <;> rfl

end Decisions

/-! ## The decision -/

/-- What a turn of `foo` makes of three fields in front of another one. -/
def fooTurn (turns : Nat) (prevVar : List Int) (f0 f1 f2 f3 : Field) : Field × Field × Field :=
  if 2 ≤ turns then
    computeAffinity c prevVar (computeBreaks c f0 f1 f2 f3).1 (computeBreaks c f0 f1 f2 f3).2.1
      (computeBreaks c f0 f1 f2 f3).2.2
  else computeAffinity c prevVar f0 f1 f2

section Foo

variable {c} {prevVar prevVar' : List Int} {h h' : Field}

theorem foo_turn (turns : Nat) (prevVar : List Int) (f0 f1 f2 f3 : Field) (fs : List Field) :
    foo c (turns + 1) prevVar (f0 :: f1 :: f2 :: f3 :: fs) =
      (fooTurn c turns prevVar f0 f1 f2 f3).1 ::
        foo c turns (fooTurn c turns prevVar f0 f1 f2 f3).1.var
          ((fooTurn c turns prevVar f0 f1 f2 f3).2.1 ::
            (fooTurn c turns prevVar f0 f1 f2 f3).2.2 :: f3 :: fs) := by
  unfold fooTurn
  simp only [foo]
  split_ifs <;> rfl

theorem fooTurn_picture (turns : Nat) (prevVar : List Int) (f0 f1 f2 f3 : Field) :
    (fooTurn c turns prevVar f0 f1 f2 f3).1.picture = f0.picture ∧
      (fooTurn c turns prevVar f0 f1 f2 f3).2.1.picture = f1.picture ∧
        (fooTurn c turns prevVar f0 f1 f2 f3).2.2.picture = f2.picture := by
  unfold fooTurn
  split
  · obtain ⟨h0, h1, h2⟩ := computeBreaks_picture (c := c) f0 f1 f2 f3
    obtain ⟨h0', h1', h2'⟩ := computeAffinity_picture (c := c) prevVar
      (computeBreaks c f0 f1 f2 f3).1 (computeBreaks c f0 f1 f2 f3).2.1
      (computeBreaks c f0 f1 f2 f3).2.2
    exact ⟨h0'.trans h0, h1'.trans h1, h2'.trans h2⟩
  · exact computeAffinity_picture prevVar f0 f1 f2

theorem foo_picture (turns : Nat) (prevVar : List Int) (fs : List Field) :
    (foo c turns prevVar fs).map Field.picture = fs.map Field.picture := by
  induction turns generalizing prevVar fs with
  | zero => rfl
  | succ turns ih =>
    match fs with
    | [] => rfl
    | [_] => rfl
    | [_, _] => rfl
    | [f0, f1, f2] =>
      obtain ⟨h0, h1, h2⟩ := computeAffinity_picture (c := c) prevVar f0 f1 f2
      simp only [foo, List.map_cons, h0, h1, h2]
    | f0 :: f1 :: f2 :: f3 :: fs =>
      obtain ⟨h0, h1, h2⟩ := fooTurn_picture (c := c) turns prevVar f0 f1 f2 f3
      simp only [foo_turn, List.map_cons, ih, h0, h1, h2]

theorem Same.fooTurn {turns : Nat} {f0 f1 f2 f3 g0 g1 g2 g3 : Field} (h0 : Same f0 g0)
    (h1 : Same f1 g1) (h2 : Same f2 g2)
    (h3 : 2 ≤ turns → Same f3 g3 ∧ f2.diffs = g2.diffs ∧ f3.diffs = g3.diffs)
    (hfirst : firstAffinity c prevVar f0 f1 f2 = firstAffinity c prevVar' g0 g1 g2) :
    Same (fooTurn c turns prevVar f0 f1 f2 f3).1 (fooTurn c turns prevVar' g0 g1 g2 g3).1 ∧
      Same (fooTurn c turns prevVar f0 f1 f2 f3).2.1 (fooTurn c turns prevVar' g0 g1 g2 g3).2.1 ∧
        Same (fooTurn c turns prevVar f0 f1 f2 f3).2.2
          (fooTurn c turns prevVar' g0 g1 g2 g3).2.2 := by
  unfold Pullup.fooTurn
  split
  · next hturns =>
    obtain ⟨hs3, hdiffs2, hdiffs3⟩ := h3 hturns
    obtain ⟨hs0, hs1, hs2⟩ := h0.breaks (c := c) h1 h2 hs3 hdiffs2 hdiffs3
    refine hs0.affinity hs1 hs2 ?_
    rw [firstAffinity_breaks, firstAffinity_breaks]
    exact hfirst
  · exact h0.affinity h1 h2 hfirst

/-- The decision about two queues that agree, if the first field gets the same affinity. -/
theorem foo_same {turns : Nat} {fs gs : List Field} (hnear : Near fs gs)
    (hlen : fs.length = turns + 1) (hfree : h.buffer = none) (hfree' : h'.buffer = none)
    (hfirst : ∀ f0 f1 f2 ls g0 g1 g2 ms, fs ++ [h] = f0 :: f1 :: f2 :: ls →
      gs ++ [h'] = g0 :: g1 :: g2 :: ms →
        firstAffinity c prevVar f0 f1 f2 = firstAffinity c prevVar' g0 g1 g2) :
    ∃ fs' gs', foo c turns prevVar (fs ++ [h]) = fs' ++ [h] ∧
      foo c turns prevVar' (gs ++ [h']) = gs' ++ [h'] ∧ List.Forall₂ Same fs' gs' := by
  induction turns generalizing prevVar prevVar' fs gs with
  | zero => exact ⟨fs, gs, rfl, rfl, hnear.same⟩
  | succ turns ih =>
    obtain ⟨hsame, hcomb, hdiffs⟩ := hnear
    match fs, gs, hsame with
    | [f0], _, _ => exact absurd hlen (by simp)
    | [f0, f1], _, .cons (b := g0) h0 (.cons (b := g1) h1 .nil) =>
      have hturns : turns = 0 := by simpa using hlen.symm
      subst hturns
      obtain ⟨hs, hrest, hrest'⟩ :=
        h0.affinity_last (c := c) hfree hfree' (hfirst _ _ _ _ _ _ _ _ rfl rfl)
      refine ⟨[(computeAffinity c prevVar f0 f1 h).1, f1],
        [(computeAffinity c prevVar' g0 g1 h').1, g1], ?_, ?_, .cons hs (.cons h1 .nil)⟩
      · simp only [List.cons_append, List.nil_append, foo, hrest]
      · simp only [List.cons_append, List.nil_append, foo, hrest']
    | f0 :: f1 :: f2 :: fs, g0 :: g1 :: g2 :: gs, .cons h0 (.cons h1 (.cons h2 hs)) =>
      obtain ⟨hcomb1, hcombs⟩ := List.cons.inj hcomb
      obtain ⟨hcomb2, -⟩ := List.cons.inj hcombs
      have hdiffs2 : f2.diffs = g2.diffs := (List.cons.inj hdiffs).1
      have hdiffs' : fs.map Field.diffs = gs.map Field.diffs := (List.cons.inj hdiffs).2
      have hlen' : fs.length = turns - 1 := by
        simp only [List.length_cons] at hlen
        omega
      -- the field behind the first three, which is in the queue unless the loop ends here
      obtain ⟨f3, ls, g3, ms, hls, hms, hbuffer, h3⟩ : ∃ f3 ls g3 ms, fs ++ [h] = f3 :: ls ∧
          gs ++ [h'] = g3 :: ms ∧ f3.buffer = g3.buffer ∧
          (2 ≤ turns → Same f3 g3 ∧ f2.diffs = g2.diffs ∧ f3.diffs = g3.diffs) := by
        cases hs with
        | nil =>
          refine ⟨h, [], h', [], rfl, rfl, hfree.trans hfree'.symm, fun hturns => ?_⟩
          simp only [List.length_nil] at hlen'
          omega
        | @cons f3 g3 fs gs hs3 hs =>
          obtain ⟨-, d3, c3, rfl⟩ := id hs3
          exact ⟨f3, _, _, _, rfl, rfl, rfl, fun _ =>
            ⟨hs3, hdiffs2, (List.cons.inj hdiffs').1⟩⟩
      have hfirst' := hfirst f0 f1 f2 _ g0 g1 g2 _ rfl rfl
      obtain ⟨hs0, hs1, hs2⟩ := h0.fooTurn h1 h2 h3 hfirst'
      obtain ⟨hp0, hp1, hp2⟩ := fooTurn_picture (c := c) turns prevVar f0 f1 f2 f3
      obtain ⟨hq0, hq1, hq2⟩ := fooTurn_picture (c := c) turns prevVar' g0 g1 g2 g3
      have hcombOf : ∀ {f g : Field}, f.picture = g.picture → f.comb = g.comb := fun heq =>
        congrArg (fun p => p.2.2.2.1) heq
      have hvarOf : ∀ {f g : Field}, f.picture = g.picture → f.var = g.var := fun heq =>
        congrArg (fun p => p.2.2.2.2) heq
      have hvar : (fooTurn c turns prevVar f0 f1 f2 f3).1.var =
          (fooTurn c turns prevVar' g0 g1 g2 g3).1.var := by
        rw [hvarOf hp0, hvarOf hq0]
        obtain ⟨-, d0, c0, rfl⟩ := h0
        rfl
      have hnext : Near ((fooTurn c turns prevVar f0 f1 f2 f3).2.1 ::
          (fooTurn c turns prevVar f0 f1 f2 f3).2.2 :: fs)
          ((fooTurn c turns prevVar' g0 g1 g2 g3).2.1 ::
            (fooTurn c turns prevVar' g0 g1 g2 g3).2.2 :: gs) := by
        refine ⟨.cons hs1 (.cons hs2 hs), ?_, hdiffs'⟩
        simp only [List.tail_cons, List.map_cons, hcombOf hp2, hcombOf hq2]
        exact hcombs
      obtain ⟨fs', gs', hfs, hgs, hsame'⟩ : ∃ fs' gs',
          foo c turns (fooTurn c turns prevVar f0 f1 f2 f3).1.var
            ((fooTurn c turns prevVar f0 f1 f2 f3).2.1 ::
              (fooTurn c turns prevVar f0 f1 f2 f3).2.2 :: fs ++ [h]) = fs' ++ [h] ∧
          foo c turns (fooTurn c turns prevVar f0 f1 f2 f3).1.var
            ((fooTurn c turns prevVar' g0 g1 g2 g3).2.1 ::
              (fooTurn c turns prevVar' g0 g1 g2 g3).2.2 :: gs ++ [h']) = gs' ++ [h'] ∧
          List.Forall₂ Same fs' gs' := by
        refine ih hnext (by simpa using hlen) fun e0 e1 e2 es e0' e1' e2' es' he he' => ?_
        simp only [List.cons_append] at he he'
        rw [hls] at he
        rw [hms] at he'
        cases he
        cases he'
        refine firstAffinity_same hs1 hs2 hbuffer ?_ ?_ rfl
        · rw [hcombOf hp1, hcombOf hq1, hcomb1]
        · rw [hcombOf hp2, hcombOf hq2, hcomb2]
      refine ⟨(fooTurn c turns prevVar f0 f1 f2 f3).1 :: fs',
        (fooTurn c turns prevVar' g0 g1 g2 g3).1 :: gs', ?_, ?_, .cons hs0 hsame'⟩
      · simp only [List.cons_append] at hfs ⊢
        rw [hls] at hfs ⊢
        rw [foo_turn, hfs]
      · simp only [List.cons_append] at hgs ⊢
        rw [hms] at hgs ⊢
        rw [foo_turn, ← hvar, hgs]

end Foo

/-! ## Frames -/

section Frames

variable {c} {fs gs : List Field} {s t : Context}

theorem findFirstBreak_same {n : Nat} (h : List.Forall₂ Same fs gs) :
    findFirstBreak n fs = findFirstBreak n gs := by
  induction n generalizing fs gs with
  | zero => rfl
  | succ n ih =>
    match fs, gs, h with
    | [], _, .nil => rfl
    | [_], _, .cons _ .nil => rfl
    | f :: f' :: fs, g :: g' :: gs, .cons h0 (.cons h1 hs) =>
      have hrest := ih (.cons h1 hs)
      obtain ⟨-, d0, c0, rfl⟩ := h0
      obtain ⟨-, d1, c1, rfl⟩ := h1
      simp only [findFirstBreak, hrest]

theorem frameLength_same {p q f0 f1 f2 g0 g1 g2 : Field} (h0 : Same f0 g0) (h1 : Same f1 g1)
    (h2 : Same f2 g2) (hs : List.Forall₂ Same fs gs)
    (hbreak : c.strictPairs = true → p.breakRight = q.breakRight) :
    frameLength c p f0 f1 f2 fs = frameLength c q g0 g1 g2 gs := by
  have hfirst := findFirstBreak_same (n := 3) (.cons h0 (.cons h1 (.cons h2 hs)))
  obtain ⟨-, d0, c0, rfl⟩ := h0
  obtain ⟨-, d1, c1, rfl⟩ := h1
  obtain ⟨-, d2, c2, rfl⟩ := h2
  unfold frameLength
  dsimp only
  rw [hfirst]
  cases hstrict : c.strictPairs with
  | false => simp only [Bool.false_eq_true, false_and]
  | true => rw [hbreak hstrict]

theorem four_fields (h : List.Forall₂ Same fs gs) (hlen : 4 ≤ fs.length) :
    ∃ f0 f1 f2 f3 es g0 g1 g2 g3 ls, fs = f0 :: f1 :: f2 :: f3 :: es ∧
      gs = g0 :: g1 :: g2 :: g3 :: ls ∧ Same f0 g0 ∧ Same f1 g1 ∧ Same f2 g2 ∧
        List.Forall₂ Same (f3 :: es) (g3 :: ls) := by
  match fs, gs, h with
  | _ :: _ :: _ :: _ :: _, _, .cons h0 (.cons h1 (.cons h2 (.cons h3 hs))) =>
    exact ⟨_, _, _, _, _, _, _, _, _, _, rfl, rfl, h0, h1, h2, .cons h3 hs⟩
  | [], _, _ => exact absurd hlen (by decide)
  | [_], _, _ => exact absurd hlen (by simp)
  | [_, _], _, _ => exact absurd hlen (by simp)
  | [_, _, _], _, _ => exact absurd hlen (by simp)

/-- Queues with the same pictures agree as before. -/
theorem Near.of_picture {fs' gs' : List Field} (h : Near fs gs)
    (hfs : fs'.map Field.picture = fs.map Field.picture)
    (hgs : gs'.map Field.picture = gs.map Field.picture) (hsame : List.Forall₂ Same fs' gs') :
    Near fs' gs' := by
  have hcomb : ∀ {es ls : List Field}, es.map Field.picture = ls.map Field.picture →
      es.map Field.comb = ls.map Field.comb := by
    intro es ls heq
    have hmap := congrArg (List.map fun p => p.2.2.2.1) heq
    rwa [List.map_map, List.map_map] at hmap
  have hdiffs : ∀ {es ls : List Field}, es.map Field.picture = ls.map Field.picture →
      es.map Field.diffs = ls.map Field.diffs := by
    intro es ls heq
    have hmap := congrArg (List.map fun p => p.2.2.1) heq
    rwa [List.map_map, List.map_map] at hmap
  refine ⟨hsame, ?_, ?_⟩
  · rw [List.map_tail, List.map_tail, hcomb hfs, hcomb hgs, ← List.map_tail, ← List.map_tail]
    exact h.comb
  · rw [List.map_drop, List.map_drop, hdiffs hfs, hdiffs hgs, ← List.map_drop, ← List.map_drop]
    exact h.diffs

/-- The same decision in contexts that agree. -/
theorem Agree.decide (h : Agree s t) (hcurrent : Current c s t) :
    (decideFrameLength c s).1 = (decideFrameLength c t).1 ∧
      Agree (decideFrameLength c s).2 (decideFrameLength c t).2 := by
  have hlen := h.near.same.length_eq
  unfold decideFrameLength
  rw [← hlen]
  split
  · exact ⟨rfl, h⟩
  next hfour =>
    obtain ⟨f0, f1, f2, f3, es, g0, g1, g2, g3, ls, hqueue, hqueue', -⟩ :=
      four_fields h.near.same (by omega)
    obtain ⟨hfirst, hbreak⟩ : firstAffinity c s.prev.var f0 f1 f2 =
        firstAffinity c t.prev.var g0 g1 g2 ∧
          (c.strictPairs = true → s.prev.breakRight = t.prev.breakRight) := by
      unfold Current at hcurrent
      rwa [hqueue, hqueue'] at hcurrent
    obtain ⟨fs, gs, hfs, hgs, hsame⟩ : ∃ fs gs,
        foo c (s.queue.length - 1) s.prev.var (s.queue ++ [s.head]) = fs ++ [s.head] ∧
        foo c (s.queue.length - 1) t.prev.var (t.queue ++ [t.head]) = gs ++ [t.head] ∧
        List.Forall₂ Same fs gs := by
      refine foo_same h.near (by omega) (h.free s.head List.mem_cons_self)
        (h.free' t.head List.mem_cons_self) ?_
      intro e0 e1 e2 es e0' e1' e2' es' he he'
      rw [hqueue] at he
      rw [hqueue'] at he'
      cases he
      cases he'
      exact hfirst
    have hpictures := foo_picture (c := c) (s.queue.length - 1) s.prev.var (s.queue ++ [s.head])
    have hpictures' := foo_picture (c := c) (s.queue.length - 1) t.prev.var (t.queue ++ [t.head])
    rw [hfs, List.map_append, List.map_append] at hpictures
    rw [hgs, List.map_append, List.map_append] at hpictures'
    have hkeep := List.append_cancel_right hpictures
    have hkeep' := List.append_cancel_right hpictures'
    have hlen' : 4 ≤ fs.length := by
      have hlength := congrArg List.length hkeep
      rw [List.length_map, List.length_map] at hlength
      omega
    rw [hfs, hgs]
    simp only [List.dropLast_concat, List.getLast?_concat, Option.getD_some]
    obtain ⟨f0, f1, f2, f3, es, g0, g1, g2, g3, ls, rfl, rfl, h0, h1, h2, hs⟩ :=
      four_fields hsame hlen'
    exact ⟨frameLength_same h0 h1 h2 hs hbreak, h.near.of_picture hkeep hkeep' hsame, h.free,
      h.free', fun hnil => absurd hnil (List.cons_ne_nil _ _),
      fun hnil => absurd hnil (List.cons_ne_nil _ _), h.lock⟩

theorem makeFrame_same (n : Nat) (h : List.Forall₂ Same fs gs) :
    makeFrame n fs = makeFrame n gs := by
  have hbuffers : gs.map Field.buffer = fs.map Field.buffer :=
    map_same Field.buffer (fun _ _ _ => rfl) h
  have hparities : gs.map Field.parity = fs.map Field.parity :=
    map_same Field.parity (fun _ _ _ => rfl) h
  have haffinities : gs.map Field.affinity = fs.map Field.affinity :=
    map_same Field.affinity (fun _ _ _ => rfl) h
  unfold makeFrame
  simp only [← List.head?_map, ← List.getElem?_map, List.map_take, hbuffers, hparities, haffinities]

/-- The same frame from contexts that agree. -/
theorem Agree.getFrame (h : Agree s t) (hcurrent : Current c s t) :
    (getFrame c s = none ∧ getFrame c t = none) ∨
      ∃ frame s' t', getFrame c s = some (frame, s') ∧ getFrame c t = some (frame, t') ∧
        Agree s' t' := by
  have hempty : s.queue = [] ↔ t.queue = [] := by
    rw [← List.length_eq_zero_iff, ← List.length_eq_zero_iff, h.near.same.length_eq]
  obtain ⟨hn, hagree⟩ := h.decide hcurrent
  unfold Pullup.getFrame
  by_cases hqueue : s.queue = []
  · rw [if_pos hqueue, if_pos (hempty.mp hqueue)]
    exact .inl ⟨rfl, rfl⟩
  · rw [if_neg hqueue, if_neg fun ht => hqueue (hempty.mpr ht)]
    dsimp only
    rw [← hn, ← hagree.lock]
    right
    split
    · exact ⟨_, _, _, rfl, rfl, hagree⟩
    · next hnot =>
      have hcleared : ∀ {u : Context} (n : Nat), (∀ f ∈ u.rest, f.buffer = none) →
          ∀ f ∈ u.head :: (u.free ++ (u.queue.take n).map fun f => { f with buffer := none }),
            f.buffer = none := by
        intro u n hu f hf
        rw [← List.cons_append] at hf
        cases List.mem_append.mp hf with
        | inl hmem => exact hu f hmem
        | inr hmem =>
          obtain ⟨g, -, rfl⟩ := List.mem_map.mp hmem
          rfl
      have hroom : ∀ {u : Context} {n : Nat}, n ≠ 0 → (u.queue = [] → u.free ≠ []) →
          u.queue.drop n = [] →
            u.free ++ (u.queue.take n).map (fun f => { f with buffer := none }) ≠ [] := by
        intro u n hn hu _ hnil
        obtain ⟨hfree, htake⟩ := List.append_eq_nil_iff.mp hnil
        rw [List.map_eq_nil_iff, List.take_eq_nil_iff] at htake
        exact hu (htake.resolve_left hn) hfree
      have hn0 : (decideFrameLength c s).1 ≠ 0 := fun hzero => hnot (.inl hzero)
      rw [makeFrame_same _ hagree.near.same]
      exact ⟨_, _, _, rfl, rfl, hagree.near.drop _, hcleared _ hagree.free,
        hcleared _ hagree.free', hroom hn0 hagree.room, hroom hn0 hagree.room', rfl⟩

end Frames

/-! ## New fields -/

section Submit

variable {c} {fs gs : List Field} {s t : Context} {mem : Memory} {b : Int} {parity : Fin 2}

theorem computeMetric_some (func : Memory → Int → Int → Int → Int) (a : Int) (pa : Int)
    {fb : Option Int}
    (pb : Int) (hfb : fb ≠ none) (dest dest' : List Int) :
    computeMetric c func mem (some a) pa fb pb dest =
      computeMetric c func mem (some a) pa fb pb dest' ∧
      computeMetric c func mem fb pa (some a) pb dest =
        computeMetric c func mem fb pa (some a) pb dest' := by
  cases fb with
  | none => exact absurd rfl hfb
  | some _ => exact ⟨rfl, rfl⟩

/-- The new field is the same whatever was in its place, but for the metrics against fields without
a picture. -/
theorem fillField_same (f g p p' q q' : Field) :
    Same (fillField c mem b parity f p p') (fillField c mem b parity g q q') :=
  ⟨Option.some_ne_none b, _, _, rfl⟩

theorem fillField_comb {f g p p' q q' : Field} (h : Same p q) :
    (fillField c mem b parity f p p').comb = (fillField c mem b parity g q q').comb := by
  obtain ⟨hb, d, cb, rfl⟩ := h
  unfold fillField
  dsimp only
  split
  · exact (computeMetric_some c.comb b 0 1 hb _ _).1
  · exact (computeMetric_some c.comb b 0 1 hb _ _).2

theorem fillField_diffs {f g p p' q q' : Field} (h : Same p' q') :
    (fillField c mem b parity f p p').diffs = (fillField c mem b parity g q q').diffs := by
  obtain ⟨hb, d, cb, rfl⟩ := h
  exact (computeMetric_some c.diff b _ _ hb _ _).1

theorem first_same (x y : Field) (back back' : List Field) (h : List.Forall₂ Same fs gs)
    (hlen : 1 ≤ fs.length) : Same ((fs ++ back).getD 0 x) ((gs ++ back').getD 0 y) := by
  match fs, gs, h with
  | _ :: _, _, .cons h0 _ => exact h0
  | [], _, _ => exact absurd hlen (by decide)

theorem second_same (x y : Field) (back back' : List Field) (h : List.Forall₂ Same fs gs)
    (hlen : 2 ≤ fs.length) : Same ((fs ++ back).getD 1 x) ((gs ++ back').getD 1 y) := by
  match fs, gs, h with
  | _ :: _ :: _, _, .cons _ (.cons h1 _) => exact h1
  | [_], _, _ => exact absurd hlen (by simp)
  | [], _, _ => exact absurd hlen (by decide)

/-- A field behind two queues that agree. -/
theorem Near.snoc (h : Near fs gs) {f g x y : Field} {back back' : List Field} :
    Near (fs ++ [fillField c mem b parity f ((fs.reverse ++ back).getD 0 x)
        ((fs.reverse ++ back).getD 1 x)])
      (gs ++ [fillField c mem b parity g ((gs.reverse ++ back').getD 0 y)
        ((gs.reverse ++ back').getD 1 y)]) := by
  have hlen := h.same.length_eq
  have hreverse : List.Forall₂ Same fs.reverse gs.reverse := List.rel_reverse h.same
  refine ⟨List.rel_append h.same (.cons (fillField_same f g _ _ _ _) .nil), ?_, ?_⟩
  · by_cases hempty : fs.length = 0
    · have hnil : fs = [] := List.eq_nil_of_length_eq_zero hempty
      have hnil' : gs = [] := List.eq_nil_of_length_eq_zero (hlen.symm.trans hempty)
      subst hnil hnil'
      rfl
    · have hne : fs ≠ [] := fun hnil => hempty (congrArg List.length hnil)
      have hne' : gs ≠ [] := fun hnil => hempty (hlen.trans (congrArg List.length hnil))
      rw [List.tail_append_of_ne_nil hne, List.tail_append_of_ne_nil hne', List.map_append,
        List.map_append, h.comb]
      have hlast := first_same x y back back' hreverse (by
        rw [List.length_reverse]
        omega)
      rw [List.map_singleton, List.map_singleton, fillField_comb hlast]
  · by_cases htwo : 2 ≤ fs.length
    · rw [List.drop_append_of_le_length htwo, List.drop_append_of_le_length (hlen ▸ htwo),
        List.map_append, List.map_append, h.diffs]
      have hlast := second_same x y back back' hreverse (by
        rwa [List.length_reverse])
      rw [List.map_singleton, List.map_singleton, fillField_diffs hlast]
    · rw [List.drop_eq_nil_of_le (by simp; omega), List.drop_eq_nil_of_le (by simp; omega)]

/-- `check_field_queue` adds a free field if there is no other one. -/
theorem checkFieldQueue_spec (h : ∀ f ∈ s.rest, f.buffer = none)
    (hroom : s.queue = [] → s.free ≠ []) :
    ∃ e es, checkFieldQueue c s = { s with free := e :: es } ∧
      ∀ f ∈ s.head :: e :: es, f.buffer = none := by
  unfold checkFieldQueue
  split
  · refine ⟨emptyField c, [], rfl, fun f hf => ?_⟩
    cases List.mem_cons.mp hf with
    | inl heq =>
      rw [heq]
      exact h s.head List.mem_cons_self
    | inr hmem =>
      rw [List.mem_singleton.mp hmem]
      rfl
  · next hnot =>
    have hne : s.free ≠ [] := fun hnil => hnot ⟨fun hqueue => hroom hqueue hnil, hnil⟩
    obtain ⟨e, es, hfree⟩ := List.exists_cons_of_ne_nil hne
    refine ⟨e, es, ?_, ?_⟩
    · rw [← hfree]
    · rw [← hfree]
      exact h

/-- The same field submitted to contexts that agree. -/
theorem Agree.submit (h : Agree s t) :
    Agree (submitField c mem b parity s) (submitField c mem b parity t) := by
  obtain ⟨e, es, hs, hfree⟩ := checkFieldQueue_spec (c := c) h.free h.room
  obtain ⟨e', es', ht, hfree'⟩ := checkFieldQueue_spec (c := c) h.free' h.room'
  have hparity : t.queue.getLast?.map Field.parity = s.queue.getLast?.map Field.parity := by
    rw [← List.getLast?_map, ← List.getLast?_map,
      map_same Field.parity (fun _ _ _ => rfl) h.near.same]
  unfold submitField
  rw [hs, ht]
  dsimp only
  rw [hparity]
  split
  · exact ⟨h.near, hfree, hfree', fun _ => List.cons_ne_nil _ _, fun _ => List.cons_ne_nil _ _,
      h.lock⟩
  · exact ⟨h.near.snoc, fun f hf => hfree f (List.mem_cons_of_mem _ hf),
      fun f hf => hfree' f (List.mem_cons_of_mem _ hf), fun hnil => absurd hnil (by simp),
      fun hnil => absurd hnil (by simp), h.lock⟩

theorem Agree.flush (h : Agree s t) : Agree (flushFields s) (flushFields t) := by
  have hcleared : ∀ {u : Context}, (∀ f ∈ u.rest, f.buffer = none) →
      ∀ f ∈ (flushFields u).rest, f.buffer = none := by
    intro u hu f hf
    unfold flushFields Context.rest at hf
    rw [← List.cons_append] at hf
    cases List.mem_append.mp hf with
    | inl hmem => exact hu f hmem
    | inr hmem =>
      obtain ⟨g, -, rfl⟩ := List.mem_map.mp hmem
      rfl
  have hroom : ∀ {u : Context}, (u.queue = [] → u.free ≠ []) → (flushFields u).free ≠ [] := by
    intro u hu hnil
    obtain ⟨hfree, hqueue⟩ := List.append_eq_nil_iff.mp hnil
    exact hu (List.map_eq_nil_iff.mp hqueue) hfree
  exact ⟨⟨.nil, rfl, rfl⟩, hcleared h.free, hcleared h.free', fun _ => hroom h.room,
    fun _ => hroom h.room', h.lock⟩

end Submit

/-! ## Runs -/

/-- Two contexts whose runs are compared: whenever there is a decision about a frame, stale values
don't make a difference. -/
def Meets : List Call → Context → Context → Prop
  | [], _, _ => True
  | call :: calls, s, t =>
    (match call with
      | .getFrame => Current c s t
      | _ => True) ∧
    match step c s call, step c t call with
    | some (_, s'), some (_, t') => Meets calls s' t'
    | _, _ => True

instance Meets.instDecidable : (calls : List Call) → (s t : Context) → Decidable (Meets c calls s t)
  | [], _, _ => inferInstanceAs (Decidable True)
  | call :: calls, s, t =>
    have _ : Decidable (match call with
        | .getFrame => Current c s t
        | _ => True) := by split <;> infer_instance
    have _ : Decidable (match step c s call, step c t call with
        | some (_, s'), some (_, t') => Meets c calls s' t'
        | _, _ => True) := by
      split
      · exact Meets.instDecidable calls _ _
      · infer_instance
    inferInstanceAs (Decidable (_ ∧ _))

section Runs

variable {c} {s t : Context}

theorem Agree.step (h : Agree s t) {call : Call}
    (hcurrent : match call with
      | .getFrame => Current c s t
      | _ => True) :
    (step c s call = none ∧ step c t call = none) ∨
      ∃ frame s' t', step c s call = some (frame, s') ∧ step c t call = some (frame, t') ∧
        Agree s' t' := by
  cases call with
  | submit mem b parity => exact .inr ⟨_, _, _, rfl, rfl, h.submit⟩
  | getFrame => exact h.getFrame hcurrent
  | release =>
    exact .inr ⟨_, _, _, rfl, rfl, h.near, h.free, h.free', h.room, h.room',
      congrArg (· - 1) h.lock⟩
  | flush => exact .inr ⟨_, _, _, rfl, rfl, h.flush⟩

/-- Contexts that agree give the same frames and agree again. -/
theorem Agree.run (h : Agree s t) {calls : List Call} (hmeets : Meets c calls s t) :
    (run c calls s = none ∧ run c calls t = none) ∨
      ∃ frames s' t', run c calls s = some (frames, s') ∧ run c calls t = some (frames, t') ∧
        Agree s' t' := by
  induction calls generalizing s t with
  | nil => exact .inr ⟨[], s, t, rfl, rfl, h⟩
  | cons call calls ih =>
    simp only [Pullup.run]
    obtain ⟨hs, ht⟩ | ⟨frame, s', t', hs, ht, hagree⟩ := h.step hmeets.1
    · rw [hs, ht]
      exact .inl ⟨rfl, rfl⟩
    · rw [hs, ht]
      have hrest : Meets c calls s' t' := by
        have hnext := hmeets.2
        rwa [hs, ht] at hnext
      obtain ⟨hrun, hrun'⟩ | ⟨frames, s'', t'', hrun, hrun', hlast⟩ := ih hagree hrest
      · refine .inl ⟨?_, ?_⟩
        · simp only [Option.bind_eq_bind, Option.bind_some, hrun, Option.bind_none]
        · simp only [Option.bind_eq_bind, Option.bind_some, hrun', Option.bind_none]
      · refine .inr ⟨frame :: frames, s'', t'', ?_, ?_, hlast⟩
        · simp only [Option.bind_eq_bind, Option.bind_some, hrun]
          rfl
        · simp only [Option.bind_eq_bind, Option.bind_some, hrun']
          rfl

/-- A context is current with itself. -/
theorem meets_self (calls : List Call) (s : Context) : Meets c calls s s := by
  have hcurrent : ∀ s : Context, Current c s s := by
    intro s
    unfold Current
    split
    · next hs ht =>
      cases hs.symm.trans ht
      exact ⟨rfl, fun _ => rfl⟩
    · trivial
  induction calls generalizing s with
  | nil => trivial
  | cons call calls ih =>
    refine ⟨?_, ?_⟩
    · cases call with
      | getFrame => exact hcurrent s
      | submit => trivial
      | release => trivial
      | flush => trivial
    · split
      · next hs ht =>
        cases hs.symm.trans ht
        exact ih _
      · trivial

theorem agree_init : Agree (initContext c) (initContext c) := by
  have hfree : ∀ f ∈ (initContext c).rest, f.buffer = none := by
    intro f hf
    cases List.mem_cons.mp hf with
    | inl heq =>
      rw [heq]
      rfl
    | inr hmem =>
      rw [List.eq_of_mem_replicate hmem]
      rfl
  exact ⟨⟨.nil, rfl, rfl⟩, hfree, hfree, fun _ => List.cons_ne_nil _ _,
    fun _ => List.cons_ne_nil _ _, rfl⟩

end Runs

/-- A context that has processed any calls, whose frame was released and whose fields were flushed,
gives the same frames as a new one, if no stale value makes a difference to a decision. -/
theorem frames_current (history : List Call) {frames : List (Option Frame)} {s : Context}
    (hrun : run c history (initContext c) = some (frames, s)) (hlock : s.lock = 0)
    (calls : List Call) (hmeets : Meets c calls (initContext c) (flushFields s)) :
    (run c calls (initContext c)).map Prod.fst = (run c calls (flushFields s)).map Prod.fst := by
  have hself : Agree s s := by
    obtain ⟨hnone, -⟩ | ⟨_, s', t', hs, ht, hagree⟩ :=
      (agree_init (c := c)).run (meets_self history (initContext c))
    · cases hnone.symm.trans hrun
    · cases hs.symm.trans hrun
      cases ht.symm.trans hrun
      exact hagree
  have hflush := hself.flush
  have hinit := agree_init (c := c)
  have hagree : Agree (initContext c) (flushFields s) :=
    ⟨⟨.nil, rfl, rfl⟩, hinit.free, hflush.free, hinit.room, hflush.room, hlock.symm⟩
  obtain ⟨hnone, hnone'⟩ | ⟨_, _, _, hs, ht, -⟩ := hagree.run hmeets
  · rw [hnone, hnone']
  · rw [hs, ht]
    rfl

/-! ## Stale values that make a difference -/

/-- One block of eight pixels in eight lines. -/
def oneBlock : Params where
  bpp := 1
  stride := 8
  metricW := 1
  metricH := 1
  metricOffset := 0
  strictBreaks := 0
  strictPairs := false
  diff := diffY
  comb := licombY
  var := varY

/-- Dark buffers in front of the address 1000, and bright ones behind. -/
def twoShades : Memory := fun p => if p < 1000 then 0 else 100

/-- A dark field and a bright one. -/
def submitPair (dark bright : Int) : List Call :=
  [.submit twoShades dark 0, .submit twoShades bright 1]

/-- The calls that leave a comb in the free field that comes next. -/
def combedHistory : List Call :=
  (List.replicate 5 (submitPair 100 2000 ++ [.flush])).flatten

/-- Four fields and a frame. -/
def combedCalls : List Call := submitPair 100 2000 ++ submitPair 300 2200 ++ [.getFrame]

/-- The lengths of the frames that a run gives. -/
def frameLengths (calls : List Call) (s : Context) : Option (List Nat) :=
  (run oneBlock calls s).map fun r => r.1.filterMap fun frame => frame.map Frame.length

/-- The context that the calls leave behind. -/
def combed : Context := ((run oneBlock combedHistory (initContext oneBlock)).map Prod.snd).getD
  (initContext oneBlock)

theorem combedHistory_run : ∃ frames,
    run oneBlock combedHistory (initContext oneBlock) = some (frames, combed) := by
  have hsome : (run oneBlock combedHistory (initContext oneBlock)).isSome = true := by
    decide
  obtain ⟨⟨frames, s⟩, hrun⟩ := Option.isSome_iff_exists.mp hsome
  refine ⟨frames, ?_⟩
  unfold combed
  rw [hrun]
  rfl

/-- A new context gives a frame of one field, and the flushed one a frame of two. -/
theorem frames_not_current :
    (∃ frames, run oneBlock combedHistory (initContext oneBlock) = some (frames, combed)) ∧
      combed.lock = 0 ∧ frameLengths combedCalls (initContext oneBlock) = some [1] ∧
        frameLengths combedCalls (flushFields combed) = some [2] :=
  ⟨combedHistory_run, by decide, by decide, by decide⟩

/-- After one pair of fields the same calls give the same frames. -/
theorem frames_current_pair : (run oneBlock combedCalls (initContext oneBlock)).map Prod.fst =
    (run oneBlock combedCalls (flushFields (submitField oneBlock twoShades 2000 1
      (submitField oneBlock twoShades 100 0 (initContext oneBlock))))).map Prod.fst :=
  frames_current oneBlock (submitPair 100 2000) rfl (by decide) combedCalls (by decide)

end MPlayer.Pullup
