/-!
# Tables with one entry for each key

An entry is looked for from the front.  It is changed where it is, or put behind the others
(`upsert`).
-/

namespace Lib

universe u

variable {α : Type u}

/-- The first entry that satisfies `p` is changed by `new`; without one, `new none` is appended. -/
@[grind =] def upsert (p : α → Bool) (new : Option α → α) : List α → List α
  | [] => [new none]
  | a :: as => if p a then new (some a) :: as else a :: upsert p new as

variable {p q : α → Bool} {new : Option α → α}

theorem find?_upsert_self (hnew : ∀ old, p (new old) = true) (as : List α) :
    (upsert p new as).find? p = some (new (as.find? p)) := by
  induction as with
  | nil => exact List.find?_cons_of_pos (hnew none)
  | cons a as ih =>
    unfold upsert
    split
    · next ha =>
      rw [List.find?_cons_of_pos (hnew _), List.find?_cons_of_pos ha]
    · next ha =>
      rw [List.find?_cons_of_neg ha, List.find?_cons_of_neg ha]
      exact ih

theorem find?_upsert_of_disjoint (hnew : ∀ old, ¬q (new old) = true)
    (hdisjoint : ∀ a, p a = true → ¬q a = true) (as : List α) :
    (upsert p new as).find? q = as.find? q := by
  induction as with
  | nil => exact List.find?_cons_of_neg (hnew none)
  | cons a as ih =>
    unfold upsert
    split
    · next ha =>
      rw [List.find?_cons_of_neg (hnew _), List.find?_cons_of_neg (hdisjoint a ha)]
    · by_cases hq : q a = true
      · rw [List.find?_cons_of_pos hq, List.find?_cons_of_pos hq]
      · rw [List.find?_cons_of_neg hq, List.find?_cons_of_neg hq]
        exact ih

/-! ## A number of entries -/

section Keys

variable {κ : Type u} [BEq κ] (key : α → κ)

/-- Entries are put into a table by their keys. -/
def enterByKey (news table : List α) : List α :=
  news.foldl (fun as a => upsert (key · == key a) (fun _ => a) as) table

/-- The last entry with a key. -/
def lastWithKey (k : κ) (news : List α) : Option α := news.reverse.find? (key · == k)

theorem lastWithKey_cons (k : κ) (a : α) (news : List α) :
    lastWithKey key k (a :: news) =
      (lastWithKey key k news).or (if key a == k then some a else none) := by
  unfold lastWithKey
  rw [List.reverse_cons, List.find?_append]
  congr 1
  split
  · next hk => exact List.find?_cons_of_pos (p := (key · == k)) hk
  · next hk => exact List.find?_cons_of_neg (p := (key · == k)) hk

variable [LawfulBEq κ] {key}

variable {k : κ} {news : List α}

theorem ne_of_key {a : α} (hk : ¬(key a == k) = true) (x : α) (hx : (key x == key a) = true) :
    ¬(key x == k) = true := by
  rw [eq_of_beq hx]
  exact hk

/-- The keys stay where they are, and a new one is put behind them. -/
theorem map_key_upsert (a : α) (table : List α) :
    (upsert (key · == key a) (fun _ => a) table).map key =
      if key a ∈ table.map key then table.map key else table.map key ++ [key a] := by
  induction table with
  | nil => rfl
  | cons x table ih =>
    unfold upsert
    split
    · next hx => rw [List.map_cons, List.map_cons, eq_of_beq hx, if_pos List.mem_cons_self]
    · next hx =>
      have hne : key a ≠ key x := fun heq => hx (beq_iff_eq.2 heq.symm)
      rw [List.map_cons, List.map_cons, ih]
      split
      · next hmem => rw [if_pos (List.mem_cons_of_mem _ hmem)]
      · next hmem =>
        rw [if_neg fun h => (List.mem_cons.1 h).elim hne hmem, List.cons_append]

/-- The last entry with a key counts. -/
theorem find?_enterByKey (k : κ) (news table : List α) :
    (enterByKey key news table).find? (key · == k) =
      (lastWithKey key k news).or (table.find? (key · == k)) := by
  induction news generalizing table with
  | nil => rfl
  | cons a news ih =>
    rw [enterByKey, List.foldl_cons, ← enterByKey, ih, lastWithKey_cons, Option.or_assoc]
    congr 1
    split
    · next hk =>
      have hself : (fun x => key x == key a) = fun x => key x == k := by
        rw [eq_of_beq hk]
      rw [hself, find?_upsert_self (p := (key · == k)) fun _ => hk]
      rfl
    · next hk =>
      exact find?_upsert_of_disjoint (q := (key · == k)) (fun _ => hk) (ne_of_key hk) table

end Keys

end Lib
