import Mathlib.Data.List.TakeWhile

/-!
# A text behind a window

A reader that scans a window sees the front of its text.  What it finds with its end is what stands
there in the text (`window_item`); what it passes over it may forget, where the text may be
forgotten element by element (`window_drop`).
-/

namespace Lib

universe u

variable {α : Type u} {p : α → Bool}

/-- What holds of a text also when elements in front are passed over holds behind a scan. -/
theorem window_drop {P : List α → Prop} (hstep : ∀ c text, p c = true → P (c :: text) → P text)
    (text : List α) : ∀ window : List α, P (window ++ text) → P (window.dropWhile p ++ text)
  | [], h => h
  | c :: window, h => by
    cases hc : p c with
    | false => rwa [List.dropWhile_cons_of_neg (by simp [hc])]
    | true =>
      rw [List.dropWhile_cons_of_pos hc]
      exact window_drop hstep text window (hstep c _ hc h)

variable {window front text s : List α} {c : α}

theorem dropWhile_window (h : window.dropWhile p ≠ []) (text : List α) :
    (window ++ text).dropWhile p = window.dropWhile p ++ text := by
  rw [List.dropWhile_append, if_neg]
  simpa using h

theorem takeWhile_window (h : window.dropWhile p ≠ []) (text : List α) :
    (window ++ text).takeWhile p = window.takeWhile p := by
  induction window with
  | nil => exact absurd rfl h
  | cons c window ih =>
    cases hc : p c with
    | false => simp [hc]
    | true =>
      rw [List.dropWhile_cons_of_pos hc] at h
      rw [List.cons_append, List.takeWhile_cons_of_pos hc, List.takeWhile_cons_of_pos hc, ih h]

/-- A scan of a text with an end in it. -/
theorem takeWhile_end (hfront : ∀ a ∈ front, p a = true) (hc : p c = false) (text : List α) :
    (front ++ c :: text).takeWhile p = front := by
  rw [List.takeWhile_append_of_pos hfront, List.takeWhile_cons_of_neg (by simp [hc]),
    List.append_nil]

theorem dropWhile_end (hfront : ∀ a ∈ front, p a = true) (hc : p c = false) (text : List α) :
    (front ++ c :: text).dropWhile p = c :: text := by
  rw [List.dropWhile_append_of_pos hfront, List.dropWhile_cons_of_neg (by simp [hc])]

/-- An item that ends in the window is the item of the text. -/
theorem window_item {text' rest : List α} {d : α} (hwindow : window.dropWhile p = d :: text')
    (heq : window ++ rest = front ++ c :: text) (hfront : ∀ a ∈ front, p a = true)
    (hc : p c = false) : window.takeWhile p = front ∧ text' ++ rest = text := by
  have hne : window.dropWhile p ≠ [] := by
    rw [hwindow]
    exact List.cons_ne_nil d text'
  constructor
  · rw [← takeWhile_window hne rest, heq, takeWhile_end hfront hc]
  · have hdrop := dropWhile_window hne rest
    rw [heq, dropWhile_end hfront hc, hwindow] at hdrop
    exact (List.cons.inj hdrop).2.symm

/-- An end that stands in a wide enough window. -/
theorem mem_window {rest : List α} (heq : window ++ rest = front ++ c :: text)
    (hwide : front.length < window.length) : c ∈ window := by
  obtain ⟨tail, rfl, -⟩ | ⟨tail, rfl, htail⟩ := List.append_eq_append_iff.mp heq
  · rw [List.length_append] at hwide
    omega
  · cases tail with
    | nil => simp at hwide
    | cons d tail =>
      rw [(List.cons.inj htail).1]
      exact List.mem_append_right front List.mem_cons_self

theorem dropWhile_cons_head (h : s.dropWhile p = c :: text) : p c = false := by
  have hhead := List.head?_dropWhile_not p s
  rwa [h] at hhead

theorem dropWhile_cons_suffix (h : s.dropWhile p = c :: text) :
    text <:+ s := (List.suffix_cons c text).trans (h ▸ List.dropWhile_suffix p)

theorem dropWhile_cons_length (h : s.dropWhile p = c :: text) : text.length < s.length := by
  have hle := (List.dropWhile_suffix p (l := s)).length_le
  rw [h, List.length_cons] at hle
  omega

end Lib
