import Mathlib.Data.List.Induction
import Mathlib.Data.List.Sort

/-!
# Subtitles in order

With `CONFIG_SORTSUB`, `sub_read_file` moves the subtitles that start later than the one it has
just read up by one, and puts it in front of them.  A line reader that knows the end of a subtitle
only from the start of the next one leaves it in `previous_sub_end`.  Each turn of the loop uses it
up, so that a turn begins with what the reader left.

The list `first` has a free slot at its end, which is written before it is read.  An access in
front of the list ends in `none`.
-/

namespace MPlayer.SubReader

/-- `subtitle`, with the lines that it has. -/
structure Subtitle where
  start : Nat
  stop : Nat
  alignment : Int
  text : List String
deriving DecidableEq

/-- The loop from `j` on, which moves the subtitles up. -/
def moveUp (sub : Subtitle) (previousSubEnd : Nat) : Nat → List Subtitle → Option (List Subtitle)
  | 0, first => do
    let x ← first[0]?
    if previousSubEnd ≠ 0 then none else some ((first.set 1 x).set 0 sub)
  | j + 1, first => do
    let x ← first[j + 1]?
    let first := first.set (j + 2) x
    let y ← first[j]?
    if y.start ≤ sub.start then
      if previousSubEnd ≠ 0 then
        some ((first.set (j + 1) { sub with stop := y.stop }).set j
          { y with stop := previousSubEnd })
      else some (first.set (j + 1) sub)
    else moveUp sub previousSubEnd j first

/-- A turn of `sub_read_file`, with the subtitle that was read and `previous_sub_end`. -/
def putSub (first : List Subtitle) (read : Subtitle × Nat) : Option (List Subtitle) :=
  match first.length with
  | 0 => if read.2 ≠ 0 then none else some [read.1]
  | n + 1 => do
    let last ← first[n]?
    if last.start ≤ read.1.start then
      if read.2 ≠ 0 then some ((first ++ [read.1]).set n { last with stop := read.2 })
      else some (first ++ [read.1])
    else moveUp read.1 read.2 n (first ++ [read.1])

/-- The loop of `sub_read_file`. -/
def subReadFile (reads : List (Subtitle × Nat)) : Option (List Subtitle) := reads.foldlM putSub []

/-! ## Insertion -/

/-- A subtitle but for its end. -/
def Subtitle.content (s : Subtitle) : Nat × Int × List String := (s.start, s.alignment, s.text)

/-- Behind the subtitles that do not start later. -/
abbrev Subtitle.Before (s t : Subtitle) : Prop := s.start < t.start

variable {sub : Subtitle} {l : List Subtitle}

theorem orderedInsert_of_le (h : ∀ y ∈ l, y.start ≤ sub.start) (m : List Subtitle) :
    (l ++ m).orderedInsert Subtitle.Before sub = l ++ m.orderedInsert Subtitle.Before sub := by
  induction l with
  | nil => rfl
  | cons y l ih =>
    obtain ⟨hy, hl⟩ := List.forall_mem_cons.1 h
    rw [List.cons_append, List.orderedInsert_cons, if_neg (Nat.not_lt.2 hy), ih hl,
      List.cons_append]

theorem orderedInsert_of_lt {y : Subtitle} (hy : y ∈ l) (h : sub.start < y.start)
    (m : List Subtitle) :
    (l ++ m).orderedInsert Subtitle.Before sub = l.orderedInsert Subtitle.Before sub ++ m := by
  induction l with
  | nil => cases hy
  | cons z l ih =>
    rw [List.cons_append, List.orderedInsert_cons, List.orderedInsert_cons]
    split
    · rfl
    · next hz =>
      rcases List.mem_cons.1 hy with rfl | hy
      · exact absurd h hz
      · rw [ih hy, List.cons_append]

theorem start_le_of_last {x : Subtitle} (h : ∀ y ∈ l, y.start ≤ x.start)
    (hx : x.start ≤ sub.start) : ∀ y ∈ l ++ [x], y.start ≤ sub.start := by
  intro y hy
  rcases List.mem_append.1 hy with hy | hy
  · exact Nat.le_trans (h y hy) hx
  · cases List.mem_singleton.1 hy
    exact hx

/-- What an insertion with `e` in `previous_sub_end` gives: nothing if the subtitle comes first
and an end is to be patched, and else the subtitle in its place. -/
def Puts (sub : Subtitle) (e : Nat) (l tail : List Subtitle) (r : Option (List Subtitle)) : Prop :=
  if e ≠ 0 ∧ ∀ y ∈ l, sub.start < y.start then r = none
  else ∃ l', r = some l' ∧
    l'.map Subtitle.content = (l.orderedInsert Subtitle.Before sub ++ tail).map Subtitle.content ∧
    (e = 0 → l' = l.orderedInsert Subtitle.Before sub ++ tail)

/-- By induction on the subtitles that may have to be moved up, the last one first. -/
theorem moveUp_puts (e : Nat) (h : l.Pairwise fun s t => s.start ≤ t.start) {x : Subtitle}
    (hx : sub.start < x.start) (hole : Subtitle) (tail : List Subtitle) :
    Puts sub e (l ++ [x]) tail (moveUp sub e l.length (l ++ x :: hole :: tail)) := by
  induction l using List.reverseRecOn generalizing x hole tail with
  | nil =>
    unfold Puts
    by_cases he : e ≠ 0 <;> simp [moveUp, he, hx, Subtitle.Before]
  | append_singleton l y ih =>
    obtain ⟨hl, -, hy⟩ := List.pairwise_append.1 h
    have hget : (l ++ y :: x :: hole :: tail)[l.length + 1]? = some x := by simp
    have hset : (l ++ y :: x :: hole :: tail).set (l.length + 2) x = l ++ y :: x :: x :: tail := by
      simp
    have hat : (l ++ y :: x :: x :: tail)[l.length]? = some y := by simp
    simp only [List.append_assoc, List.singleton_append, List.length_append, List.length_singleton,
      moveUp, hget, hset, hat, Option.bind_eq_bind, Option.bind_some]
    by_cases hle : y.start ≤ sub.start
    · have hall := start_le_of_last (fun z hz => hy z hz y List.mem_cons_self) hle
      have hins : (l ++ [y, x]).orderedInsert Subtitle.Before sub = l ++ [y, sub, x] := by
        simpa [hx, Subtitle.Before] using orderedInsert_of_le hall [x]
      unfold Puts
      rw [if_neg fun hno => Nat.not_lt.2 hle (hno.2 y (by simp)), if_pos hle, hins]
      by_cases he : e ≠ 0
      · exact ⟨_, if_pos he, by simp [Subtitle.content], fun hz => absurd hz he⟩
      · exact ⟨_, if_neg he, by simp, fun _ => by simp⟩
    · have hlt := Nat.not_le.1 hle
      have hput := ih hl hlt x (x :: tail)
      have hins := orderedInsert_of_lt (List.mem_append_right l (List.mem_singleton_self y)) hlt [x]
      rw [List.append_assoc, List.singleton_append] at hins
      unfold Puts at hput ⊢
      rw [if_neg hle, hins]
      simpa [hx, or_imp, forall_and] using hput

theorem putSub_puts (e : Nat) (h : l.Pairwise fun s t => s.start ≤ t.start) :
    Puts sub e l [] (putSub l (sub, e)) := by
  rcases List.eq_nil_or_concat l with rfl | ⟨l, x, rfl⟩
  · unfold Puts
    by_cases he : e ≠ 0 <;> simp [putSub, he]
  · rw [List.concat_eq_append] at h ⊢
    obtain ⟨hl, -, hx⟩ := List.pairwise_append.1 h
    simp only [putSub, List.length_append, List.length_singleton, List.getElem?_concat_length,
      Option.bind_eq_bind, Option.bind_some]
    by_cases hle : x.start ≤ sub.start
    · have hall := start_le_of_last (fun z hz => hx z hz x List.mem_cons_self) hle
      have hins : (l ++ [x]).orderedInsert Subtitle.Before sub = l ++ [x, sub] := by
        simpa using orderedInsert_of_le hall []
      unfold Puts
      rw [if_neg fun hno => Nat.not_lt.2 hle (hno.2 x (by simp)), if_pos hle, hins]
      by_cases he : e ≠ 0
      · exact ⟨_, if_pos he, by simp [Subtitle.content], fun hz => absurd hz he⟩
      · exact ⟨_, if_neg he, by simp, fun _ => by simp⟩
    · rw [if_neg hle, List.append_assoc]
      exact moveUp_puts e hl (Nat.not_le.1 hle) sub []

/-! ## Order -/

theorem pairwise_orderedInsert (h : l.Pairwise fun s t => s.start ≤ t.start) :
    (l.orderedInsert Subtitle.Before sub).Pairwise fun s t => s.start ≤ t.start := by
  induction l with
  | nil => exact List.pairwise_singleton _ _
  | cons y l ih =>
    obtain ⟨hy, hl⟩ := List.pairwise_cons.1 h
    rw [List.orderedInsert_cons]
    split
    · next hlt =>
      refine List.pairwise_cons.2 ⟨fun z hz => ?_, h⟩
      rcases List.mem_cons.1 hz with rfl | hz
      · exact Nat.le_of_lt hlt
      · exact Nat.le_trans (Nat.le_of_lt hlt) (hy z hz)
    · next hlt =>
      refine List.pairwise_cons.2 ⟨fun z hz => ?_, ih hl⟩
      rcases (List.mem_orderedInsert _).1 hz with rfl | hz
      · exact Nat.not_lt.1 hlt
      · exact hy z hz

/-- Among those that start at the same time it is the last one. -/
theorem filter_orderedInsert (h : l.Pairwise fun s t => s.start ≤ t.start) (t : Nat) :
    (l.orderedInsert Subtitle.Before sub).filter (·.start = t) =
      l.filter (·.start = t) ++ [sub].filter (·.start = t) := by
  induction l with
  | nil => rfl
  | cons y l ih =>
    obtain ⟨hy, hl⟩ := List.pairwise_cons.1 h
    rw [List.orderedInsert_cons]
    by_cases hlt : sub.start < y.start
    · have hnone : sub.start = t → (y :: l).filter (·.start = t) = [] := by
        rintro rfl
        refine List.filter_eq_nil_iff.2 fun z hz => ?_
        rcases List.mem_cons.1 hz with rfl | hz
        · simpa using Nat.ne_of_gt hlt
        · simpa using Nat.ne_of_gt (Nat.lt_of_lt_of_le hlt (hy z hz))
      rw [if_pos hlt]
      by_cases ht : sub.start = t
      · rw [hnone ht, List.filter_cons, hnone ht, List.filter_cons]
        rfl
      · simp [List.filter_cons, ht]
    · rw [if_neg hlt, List.filter_cons, List.filter_cons, ih hl]
      split <;> rfl

/-- The subtitles that were read, in the order of their starts and those of one start in the order
of the file, with their own ends unless the reader left one for another subtitle. -/
structure SortedReads (reads : List (Subtitle × Nat)) (first : List Subtitle) : Prop where
  sorted : first.Pairwise fun s t => s.start ≤ t.start
  stable : ∀ t, (first.filter (·.start = t)).map Subtitle.content =
    ((reads.map Prod.fst).filter (·.start = t)).map Subtitle.content
  ends : (∀ r ∈ reads, r.2 = 0) →
    ∀ t, first.filter (·.start = t) = (reads.map Prod.fst).filter (·.start = t)

/-- Where an end is left, a subtitle that does not start later was read before. -/
def NoneInFront (earlier : List (Subtitle × Nat)) : List (Subtitle × Nat) → Prop
  | [] => True
  | r :: reads => (r.2 ≠ 0 → ∃ r' ∈ earlier, r'.1.start ≤ r.1.start) ∧
      NoneInFront (earlier ++ [r]) reads

theorem SortedReads.exists_le {reads : List (Subtitle × Nat)} {first : List Subtitle}
    (h : SortedReads reads first) (s : Nat) :
    (∃ y ∈ first, y.start ≤ s) ↔ ∃ r ∈ reads, r.1.start ≤ s := by
  have hstart : ∀ t, (∃ y ∈ first, y.start = t) ↔ ∃ r ∈ reads, r.1.start = t := fun t => by
    have hnil := congrArg (· ≠ []) (h.stable t)
    simpa [List.filter_eq_nil_iff] using hnil
  constructor
  · rintro ⟨y, hy, hle⟩
    obtain ⟨r, hr, heq⟩ := (hstart y.start).1 ⟨y, hy, rfl⟩
    exact ⟨r, hr, heq ▸ hle⟩
  · rintro ⟨r, hr, hle⟩
    obtain ⟨y, hy, heq⟩ := (hstart r.1.start).2 ⟨r, hr, rfl⟩
    exact ⟨y, hy, heq ▸ hle⟩

theorem SortedReads.put {reads : List (Subtitle × Nat)} {first first' : List Subtitle}
    (h : SortedReads reads first) {r : Subtitle × Nat}
    (hcontent : first'.map Subtitle.content =
      (first.orderedInsert Subtitle.Before r.1).map Subtitle.content)
    (hends : r.2 = 0 → first' = first.orderedInsert Subtitle.Before r.1) :
    SortedReads (reads ++ [r]) first' := by
  have hstart : ∀ l : List Subtitle, l.map Subtitle.start =
      (l.map Subtitle.content).map Prod.fst := fun l => by simp [Subtitle.content]
  have hfilter : ∀ (t : Nat) (l : List Subtitle), (l.filter (·.start = t)).map Subtitle.content =
      (l.map Subtitle.content).filter (·.1 = t) := fun t l => by
    rw [List.filter_map]
    rfl
  refine ⟨?_, fun t => ?_, fun hzero t => ?_⟩
  · have hsorted := List.pairwise_map.2 (@pairwise_orderedInsert r.1 _ h.sorted)
    rw [hstart, ← hcontent, ← hstart] at hsorted
    exact List.pairwise_map.1 hsorted
  · rw [hfilter, hcontent, ← hfilter, filter_orderedInsert h.sorted, List.map_append, h.stable,
      List.map_append, List.filter_append, List.map_append]
    rfl
  · have hreads := h.ends (fun x hx => hzero x (List.mem_append_left _ hx)) t
    rw [hends (hzero r (by simp)), filter_orderedInsert h.sorted, hreads, List.map_append,
      List.filter_append]
    rfl

theorem foldlM_putSub_iff {earlier : List (Subtitle × Nat)} {first : List Subtitle}
    (h : SortedReads earlier first) (reads : List (Subtitle × Nat)) :
    (∃ first', reads.foldlM putSub first = some first' ∧ SortedReads (earlier ++ reads) first') ↔
      NoneInFront earlier reads := by
  induction reads generalizing earlier first with
  | nil => exact ⟨fun _ => trivial, fun _ => ⟨first, rfl, by rwa [List.append_nil]⟩⟩
  | cons r reads ih =>
    have hput : Puts r.1 r.2 first [] (putSub first r) := putSub_puts r.2 h.sorted
    have hexists := h.exists_le r.1.start
    unfold Puts at hput
    rw [List.foldlM_cons, NoneInFront]
    split at hput
    · next hno =>
      rw [hput]
      constructor
      · rintro ⟨_, hrun, -⟩
        cases hrun
      · rintro ⟨hleft, -⟩
        obtain ⟨y, hy, hle⟩ := hexists.2 (hleft hno.1)
        exact absurd (hno.2 y hy) (Nat.not_lt.2 hle)
    · next hno =>
      obtain ⟨first', heq, hcontent, hends⟩ := hput
      rw [List.append_nil] at hcontent hends
      have hrest := ih (h.put hcontent hends)
      rw [List.append_assoc, List.singleton_append] at hrest
      rw [heq, Option.bind_eq_bind, Option.bind_some, hrest]
      refine ⟨fun hreads => ⟨fun he => hexists.1 ?_, hreads⟩, And.right⟩
      simpa [he] using hno

/-- The subtitles are sorted in exactly the runs in which an end is left only where it has a
subtitle to go to. -/
theorem sub_read_file_sorts_iff (reads : List (Subtitle × Nat)) :
    (∃ first, subReadFile reads = some first ∧ SortedReads reads first) ↔ NoneInFront [] reads :=
  @foldlM_putSub_iff [] [] ⟨List.Pairwise.nil, fun _ => rfl, fun _ _ => rfl⟩ reads

end MPlayer.SubReader
