import Mathlib.Data.List.Forall2

/-!
# Lines of a stream

A stream is cut into lines by the elements that `ends` marks.  A line in progress is
carried along: `endedLines line bs` are the lines that end in `bs`, the first of them
begun with `line`, and `openLine line bs` is the line in progress after `bs`.  So the
lines of a stream are the lines of its parts (`endedLines_append`), wherever it is
cut.
-/

namespace Lib

universe u

variable {α : Type u} {ends : α → Bool}

/-- The lines that end in a stream, the first one begun with `line`. -/
@[grind =] def endedLines (ends : α → Bool) : List α → List α → List (List α)
  | _, [] => []
  | line, b :: bs =>
    if ends b then line :: endedLines ends [] bs else endedLines ends (line ++ [b]) bs

/-- The line in progress at the end of a stream that began in the line `line`. -/
@[grind =] def openLine (ends : α → Bool) : List α → List α → List α
  | line, [] => line
  | line, b :: bs => if ends b then openLine ends [] bs else openLine ends (line ++ [b]) bs

theorem endedLines_append : ∀ (as bs line : List α),
    endedLines ends line (as ++ bs) =
      endedLines ends line as ++ endedLines ends (openLine ends line as) bs
  | [], _, _ => rfl
  | a :: as, bs, line => by
    rw [List.cons_append, endedLines, endedLines, openLine]
    split
    · rw [endedLines_append, List.cons_append]
    · exact endedLines_append as bs (line ++ [a])

theorem openLine_append : ∀ (as bs line : List α),
    openLine ends line (as ++ bs) = openLine ends (openLine ends line as) bs
  | [], _, _ => rfl
  | a :: as, bs, line => by
    rw [List.cons_append, openLine, openLine]
    split
    · exact openLine_append as bs []
    · exact openLine_append as bs (line ++ [a])

/-- A stream without an end adds to the line in progress. -/
theorem openLine_of_none : ∀ {bs line : List α}, (∀ b ∈ bs, ends b = false) →
    openLine ends line bs = line ++ bs
  | [], line, _ => (List.append_nil line).symm
  | b :: bs, line, h => by
    rw [openLine, h b List.mem_cons_self, if_neg Bool.false_ne_true,
      openLine_of_none fun c hc => h c (List.mem_cons_of_mem b hc), List.append_assoc]
    rfl

/-- No line ends in a stream without an end. -/
theorem endedLines_eq_nil : ∀ {bs line : List α},
    endedLines ends line bs = [] ↔ ∀ b ∈ bs, ends b = false
  | [], _ => by simp [endedLines]
  | b :: bs, line => by
    rw [endedLines]
    cases hb : ends b with
    | true => simp [hb]
    | false =>
      rw [if_neg Bool.false_ne_true, endedLines_eq_nil, List.forall_mem_cons]
      exact ⟨fun h => ⟨hb, h⟩, fun h => h.2⟩

/-- The first end ends the line in progress, and the rest starts anew. -/
theorem endedLines_split {as bs line : List α} {e : α} (h : ∀ a ∈ as, ends a = false)
    (he : ends e = true) :
    endedLines ends line (as ++ e :: bs) = (line ++ as) :: endedLines ends [] bs := by
  rw [endedLines_append, endedLines_eq_nil.mpr h, openLine_of_none h, endedLines, if_pos he]
  rfl

theorem openLine_split {as bs line : List α} {e : α} (he : ends e = true) :
    openLine ends line (as ++ e :: bs) = openLine ends [] bs := by
  rw [openLine_append, openLine, if_pos he]

/-- A stream with an end, cut at the first one. -/
theorem exists_first_end : ∀ {bs : List α}, ¬ (∀ b ∈ bs, ends b = false) →
    ∃ as e rest, bs = as ++ e :: rest ∧ ends e = true ∧ ∀ a ∈ as, ends a = false
  | [], h => absurd (fun b hb => absurd hb List.not_mem_nil) h
  | b :: bs, h => by
    cases hb : ends b with
    | true => exact ⟨[], b, bs, rfl, hb, fun a ha => absurd ha List.not_mem_nil⟩
    | false =>
      have hbs : ¬ ∀ c ∈ bs, ends c = false :=
        fun hbs => h (List.forall_mem_cons.mpr ⟨hb, hbs⟩)
      obtain ⟨as, e, rest, rfl, he, has⟩ := exists_first_end hbs
      exact ⟨b :: as, e, rest, rfl, he, List.forall_mem_cons.mpr ⟨hb, has⟩⟩

/-! ## Streams that differ in their ends -/

/-- The same element, or two ends. -/
def SameEnd (ends : α → Bool) (a b : α) : Prop := a = b ∨ ends a = true ∧ ends b = true

theorem SameEnd.ends_eq {a b : α} (h : SameEnd ends a b) : ends a = ends b := by
  rcases h with rfl | ⟨ha, hb⟩
  · rfl
  · rw [ha, hb]

/-- Which elements are the ends does not matter. -/
theorem endedLines_congr : ∀ {as bs : List α}, List.Forall₂ (SameEnd ends) as bs →
    ∀ line, endedLines ends line as = endedLines ends line bs
  | _, _, .nil, _ => rfl
  | _, _, .cons h hs, line => by
    rw [endedLines, endedLines, h.ends_eq, endedLines_congr hs]
    split
    · rfl
    · rename_i hb
      rcases h with rfl | ⟨-, hb'⟩
      · exact endedLines_congr hs _
      · exact absurd hb' hb

theorem openLine_congr : ∀ {as bs : List α}, List.Forall₂ (SameEnd ends) as bs →
    ∀ line, openLine ends line as = openLine ends line bs
  | _, _, .nil, _ => rfl
  | _, _, .cons h hs, line => by
    rw [openLine, openLine, h.ends_eq, openLine_congr hs]
    split
    · rfl
    · rename_i hb
      rcases h with rfl | ⟨-, hb'⟩
      · exact openLine_congr hs _
      · exact absurd hb' hb

theorem SameEnd.refl_list : ∀ as : List α, List.Forall₂ (SameEnd ends) as as
  | [] => .nil
  | _ :: as => .cons (Or.inl rfl) (SameEnd.refl_list as)

end Lib
