import MPlayer.Asm.Basic

/-!
# Which rule books are read to their end

Reading a symbol takes something off the text, but for an identifier without characters, which is
what a character that begins no symbol is taken for.

*Conditions.*  The recursion over a condition only goes on behind a symbol that was there, so it
comes back (`asmrpCondition_returns`).

*Rules.*  A rule that begins with a symbol that begins no rule, or with a name and a character that
begins no symbol, takes nothing off the text.  The loop over the rules comes to the end exactly if
no such rule is reached (`asmrpMatch_returns_iff`).
-/

namespace MPlayer

/-! ## Characters that begin a symbol -/

/-- The symbols of one character, and the quote. -/
def punctuation : List UInt8 :=
  [ascii '#', ascii ';', ascii ',', ascii '=', ascii '&', ascii '|', ascii '<', ascii '>',
    ascii '$', ascii '(', ascii ')', ascii '"']

def BeginsSym (c : UInt8) : Prop := c ∈ punctuation ∨ isIdent c = true

instance (c : UInt8) : Decidable (BeginsSym c) := inferInstanceAs (Decidable (_ ∨ _))

/-- A character that is no blank and begins no symbol stands in front of the text. -/
def Stuck (s : List UInt8) : Prop :=
  ∃ c t, s.dropWhile isBlank = c :: t ∧ ¬ BeginsSym c

theorem skipChar_length (c : UInt8) (s : List UInt8) : (skipChar c s).length ≤ s.length := by
  cases s with
  | nil => exact Nat.le_refl _
  | cons d s =>
    rw [skipChar]
    split
    · exact Nat.le_succ _
    · exact Nat.le_refl _

theorem dropWhile_length {p : UInt8 → Bool} (s : List UInt8) :
    (s.dropWhile p).length ≤ s.length :=
  (List.dropWhile_suffix p).length_le

variable {p : Asmrp} {c : UInt8} {s : List UInt8} {n : Nat}

theorem length_ite {P : Prop} [Decidable P] {q : Asmrp} {k : Nat} (hp : P → p.inp.length ≤ k)
    (hq : ¬ P → q.inp.length ≤ k) : (if P then p else q).inp.length ≤ k := by
  by_cases h : P
  · rw [if_pos h]
    exact hp h
  · rw [if_neg h]
    exact hq h

/-- A symbol takes its first character off the text. -/
theorem symAt_begins (h : p.inp = c :: s) (hc : BeginsSym c) : (symAt p).inp.length ≤ s.length := by
  have hident : isIdent c = true → (asmrpIdentifier p).inp.length ≤ s.length := fun hi => by
    rw [asmrpIdentifier, h, List.dropWhile_cons_of_pos hi]
    exact dropWhile_length s
  rw [symAt, h]
  dsimp only
  refine length_ite (fun _ => Nat.le_refl _) fun hHash => ?_
  refine length_ite (fun _ => Nat.le_refl _) fun hSemi => ?_
  refine length_ite (fun _ => Nat.le_refl _) fun hComma => ?_
  refine length_ite (fun _ => skipChar_length _ s) fun hEq => ?_
  refine length_ite (fun _ => skipChar_length _ s) fun hAnd => ?_
  refine length_ite (fun _ => skipChar_length _ s) fun hOr => ?_
  refine length_ite (fun _ => skipChar_length _ s) fun hLess => ?_
  refine length_ite (fun _ => skipChar_length _ s) fun hGreater => ?_
  refine length_ite (fun _ => Nat.le_refl _) fun hDollar => ?_
  refine length_ite (fun _ => Nat.le_refl _) fun hOpen => ?_
  refine length_ite (fun _ => Nat.le_refl _) fun hClose => ?_
  refine length_ite (fun _ => Nat.le_trans (skipChar_length _ _) (dropWhile_length s))
    fun hQuote => ?_
  refine length_ite (fun hd => ?_) fun _ => ?_
  · rw [asmrpNumber, h, List.dropWhile_cons_of_pos hd]
    exact dropWhile_length s
  · rcases hc with hc | hc
    · simp only [punctuation, List.mem_cons, List.not_mem_nil, or_false, hHash, hSemi, hComma,
        hEq, hAnd, hOr, hLess, hGreater, hDollar, hOpen, hClose, hQuote] at hc
    · exact hident hc

theorem symAt_other (h : p.inp = c :: s) (hc : c ∉ punctuation) :
    symAt p = if isDigit c then asmrpNumber p else asmrpIdentifier p := by
  simp only [punctuation, List.mem_cons, List.not_mem_nil, or_false, not_or] at hc
  rw [symAt, h]
  simp only [hc, if_false]

/-- What begins no symbol is taken for an identifier without characters. -/
theorem symAt_stuck (h : p.inp = c :: s) (hc : ¬ BeginsSym c) :
    symAt p = { p with sym := .id, str := [] } := by
  rw [BeginsSym, not_or, Bool.not_eq_true] at hc
  obtain ⟨hp, hi⟩ := hc
  have hd : isDigit c = false := by
    rw [isIdent, Bool.or_eq_false_iff] at hi
    exact hi.2
  rw [symAt_other h hp, hd, if_neg Bool.false_ne_true, asmrpIdentifier, h,
    List.takeWhile_cons_of_neg (by rw [hi]; exact Bool.false_ne_true),
    List.dropWhile_cons_of_neg (by rw [hi]; exact Bool.false_ne_true), ← h]
  rfl

/-! ## What is left to read -/

/-- How much of the text a symbol stands for. -/
def symRank : AsmSym → Nat
  | .eof => 0
  | .id => 1
  | _ => 2

/-- What is left to read, the current symbol included. -/
def Asmrp.left (p : Asmrp) : Nat := 3 * p.inp.length + symRank p.sym

theorem symRank_le (y : AsmSym) : symRank y ≤ 2 := by
  cases y with
  | eof => exact Nat.zero_le _
  | id => exact Nat.le_succ _
  | _ => exact Nat.le_refl _

theorem left_le {k : Nat} (h : p.inp.length ≤ k) : p.left ≤ 3 * k + 2 := by
  have hr := symRank_le p.sym
  rw [Asmrp.left]
  omega

theorem symAt_left (p : Asmrp) : (symAt p).left ≤ 3 * p.inp.length + 1 := by
  cases h : p.inp with
  | nil =>
    rw [symAt, h]
    show 3 * (p.inp.dropWhile isIdent).length + 1 ≤ _
    rw [h]
    exact Nat.le_refl _
  | cons c s =>
    by_cases hc : BeginsSym c
    · have hleft := left_le (symAt_begins h hc)
      rw [List.length_cons]
      omega
    · rw [symAt_stuck h hc, Asmrp.left, h]
      exact Nat.le_refl _

theorem asmrpGetSym_left_le (p : Asmrp) : (asmrpGetSym p).left ≤ 3 * p.inp.length + 1 := by
  have hlen := dropWhile_length (p := isBlank) p.inp
  rw [asmrpGetSym]
  split
  · exact Nat.zero_le _
  · rename_i c s h
    rw [h] at hlen
    have hskip := skipChar_length (ascii '\\') (c :: s)
    have hleft := symAt_left { p with inp := skipChar (ascii '\\') (c :: s) }
    dsimp only at hleft
    omega

/-- Behind a symbol that stands for a character, less is left. -/
theorem asmrpGetSym_lt (heof : p.sym ≠ .eof) (hid : p.sym ≠ .id) :
    (asmrpGetSym p).left < p.left := by
  have hrank : symRank p.sym = 2 := by
    cases h : p.sym with
    | eof => exact absurd h heof
    | id => exact absurd h hid
    | _ => rfl
  have hle := asmrpGetSym_left_le p
  have hleft : p.left = 3 * p.inp.length + symRank p.sym := rfl
  omega

theorem asmrpGetSym_le (heof : p.sym ≠ .eof) : (asmrpGetSym p).left ≤ p.left := by
  by_cases hid : p.sym = .id
  · have hle := asmrpGetSym_left_le p
    have hleft : p.left = 3 * p.inp.length + 1 := by rw [Asmrp.left, hid]; rfl
    rw [hleft]
    exact hle
  · exact Nat.le_of_lt (asmrpGetSym_lt heof hid)

/-- Less is left behind a name too, if a symbol begins there. -/
theorem asmrpGetSym_not_stuck (hid : p.sym = .id) (h : ¬ Stuck p.inp) :
    (asmrpGetSym p).left < p.left := by
  have hleft : p.left = 3 * p.inp.length + 1 := by rw [Asmrp.left, hid]; rfl
  have hlen := dropWhile_length (p := isBlank) p.inp
  rw [asmrpGetSym]
  split
  · rw [hleft]
    exact Nat.succ_pos _
  · rename_i c s hd
    rw [hd, List.length_cons] at hlen
    have hc : BeginsSym c := Decidable.not_not.mp fun hc => h ⟨c, s, hd, hc⟩
    by_cases hb : c = ascii '\\'
    · have hskip : skipChar (ascii '\\') (c :: s) = s := by rw [skipChar, if_pos hb]
      have hsym := symAt_left { p with inp := s }
      rw [hskip]
      dsimp only at hsym
      omega
    · have hskip : skipChar (ascii '\\') (c :: s) = c :: s := by rw [skipChar, if_neg hb]
      have hsym := left_le (symAt_begins (p := { p with inp := c :: s }) rfl hc)
      rw [hskip]
      omega

theorem asmrpGetSym_stuck (h : Stuck p.inp) :
    asmrpGetSym p = { p with sym := .id, str := [], inp := p.inp.dropWhile isBlank } := by
  obtain ⟨c, s, hd, hc⟩ := h
  have hb : c ≠ ascii '\\' := fun hb => hc (.inr (by rw [hb]; rfl))
  have hskip : skipChar (ascii '\\') (c :: s) = c :: s := by rw [skipChar, if_neg hb]
  rw [asmrpGetSym, hd]
  dsimp only
  rw [hskip, symAt_stuck (p := { p with inp := c :: s }) rfl hc]

theorem Stuck.dropWhile (h : Stuck s) : Stuck (s.dropWhile isBlank) := by
  obtain ⟨c, t, hd, hc⟩ := h
  have hnb : isBlank c = false := by
    have hhead := List.head?_dropWhile_not isBlank s
    rw [hd] at hhead
    simpa using hhead
  refine ⟨c, t, ?_, hc⟩
  rw [hd, List.dropWhile_cons_of_neg (by rw [hnb]; exact Bool.false_ne_true)]

/-! ## Conditions come back -/

theorem isComparison_ne {y : AsmSym} (h : isComparison y = true) : y ≠ .eof ∧ y ≠ .id := by
  cases y with
  | less | leq | equals | geq | greater => exact ⟨AsmSym.noConfusion, AsmSym.noConfusion⟩
  | _ => cases h

mutual

/-- With enough fuel an operand is read, and no more is left than before. -/
theorem asmrpOperand_returns : ∀ {n : Nat} {p : Asmrp}, 3 * p.left + 1 ≤ n →
    ∃ v q, asmrpOperand n p = some (v, q) ∧ q.left ≤ p.left
  | 0, p, h => absurd h (Nat.not_succ_le_zero _)
  | n + 1, p, h => by
    rw [asmrpOperand]
    split
    · rename_i hsym
      have hlt := asmrpGetSym_lt (p := p) (by rw [hsym]; decide) (by rw [hsym]; decide)
      dsimp only
      split
      · exact ⟨0, _, rfl, Nat.le_of_lt hlt⟩
      · rename_i hid
        have hle := asmrpGetSym_le (p := asmrpGetSym p) (by rw [Decidable.not_not.mp hid]; decide)
        exact ⟨_, _, rfl, by omega⟩
    · rename_i hsym
      exact ⟨_, _, rfl, asmrpGetSym_le (by rw [hsym]; decide)⟩
    · rename_i hsym
      have hlt := asmrpGetSym_lt (p := p) (by rw [hsym]; decide) (by rw [hsym]; decide)
      obtain ⟨v, q, hq, hle⟩ := asmrpCondition_returns (n := n) (p := asmrpGetSym p) (by omega)
      rw [hq]
      dsimp only
      split
      · exact ⟨_, _, rfl, by omega⟩
      · rename_i hclose
        have hle' := asmrpGetSym_le (p := q) (by rw [Decidable.not_not.mp hclose]; decide)
        exact ⟨_, _, rfl, by omega⟩
    · exact ⟨0, p, rfl, Nat.le_refl _⟩

theorem asmrpCompExpression_returns : ∀ {n : Nat} {p : Asmrp}, 3 * p.left + 2 ≤ n →
    ∃ v q, asmrpCompExpression n p = some (v, q) ∧ q.left ≤ p.left
  | 0, p, h => absurd h (Nat.not_succ_le_zero _)
  | n + 1, p, h => by
    obtain ⟨a, q, hq, hle⟩ := asmrpOperand_returns (n := n) (p := p) (by omega)
    obtain ⟨v, r, hr, hle'⟩ := comparisons_returns (n := n) (p := q) (a := a) (by omega)
    rw [asmrpCompExpression, hq]
    exact ⟨v, r, hr, Nat.le_trans hle' hle⟩

theorem comparisons_returns : ∀ {n : Nat} {p : Asmrp} {a : Int32}, 3 * p.left + 1 ≤ n →
    ∃ v q, comparisons n a p = some (v, q) ∧ q.left ≤ p.left
  | 0, p, _, h => absurd h (Nat.not_succ_le_zero _)
  | n + 1, p, a, h => by
    rw [comparisons]
    split
    · rename_i hsym
      have hlt := asmrpGetSym_lt (isComparison_ne hsym).1 (isComparison_ne hsym).2
      obtain ⟨b, q, hq, hle⟩ := asmrpOperand_returns (n := n) (p := asmrpGetSym p) (by omega)
      obtain ⟨v, r, hr, hle'⟩ :=
        comparisons_returns (n := n) (p := q) (a := compareBy p.sym a b) (by omega)
      rw [hq]
      exact ⟨v, r, hr, by omega⟩
    · exact ⟨a, p, rfl, Nat.le_refl _⟩

theorem asmrpCondition_returns : ∀ {n : Nat} {p : Asmrp}, 3 * p.left + 3 ≤ n →
    ∃ v q, asmrpCondition n p = some (v, q) ∧ q.left ≤ p.left
  | 0, p, h => absurd h (Nat.not_succ_le_zero _)
  | n + 1, p, h => by
    obtain ⟨a, q, hq, hle⟩ := asmrpCompExpression_returns (n := n) (p := p) (by omega)
    obtain ⟨v, r, hr, hle'⟩ := connections_returns (n := n) (p := q) (a := a) (by omega)
    rw [asmrpCondition, hq]
    exact ⟨v, r, hr, Nat.le_trans hle' hle⟩

theorem connections_returns : ∀ {n : Nat} {p : Asmrp} {a : Int32}, 3 * p.left + 1 ≤ n →
    ∃ v q, connections n a p = some (v, q) ∧ q.left ≤ p.left
  | 0, p, _, h => absurd h (Nat.not_succ_le_zero _)
  | n + 1, p, a, h => by
    rw [connections]
    split
    · rename_i hsym
      have hlt := asmrpGetSym_lt (p := p) (by rcases hsym with h | h <;> rw [h] <;> decide)
        (by rcases hsym with h | h <;> rw [h] <;> decide)
      obtain ⟨b, q, hq, hle⟩ :=
        asmrpCompExpression_returns (n := n) (p := asmrpGetSym p) (by omega)
      obtain ⟨v, r, hr, hle'⟩ :=
        connections_returns (n := n) (p := q) (a := joinBy p.sym a b) (by omega)
      rw [hq]
      exact ⟨v, r, hr, by omega⟩
    · exact ⟨a, p, rfl, Nat.le_refl _⟩

end

/-! ## More fuel -/

mutual

/-- More fuel doesn't change what is read. -/
theorem asmrpOperand_succ : ∀ {n : Nat} {p : Asmrp} {r : Int32 × Asmrp},
    asmrpOperand n p = some r → asmrpOperand (n + 1) p = some r
  | 0, p, r, h => by
    rw [asmrpOperand] at h
    cases h
  | n + 1, p, r, h => by
    rw [asmrpOperand] at h ⊢
    split at h
    · exact h
    · exact h
    · split at h
      · cases h
      · rename_i hc
        rw [asmrpCondition_succ hc]
        exact h
    · exact h

theorem asmrpCompExpression_succ : ∀ {n : Nat} {p : Asmrp} {r : Int32 × Asmrp},
    asmrpCompExpression n p = some r → asmrpCompExpression (n + 1) p = some r
  | 0, p, r, h => by
    rw [asmrpCompExpression] at h
    cases h
  | n + 1, p, r, h => by
    rw [asmrpCompExpression] at h ⊢
    split at h
    · cases h
    · rename_i ho
      rw [asmrpOperand_succ ho]
      exact comparisons_succ h

theorem comparisons_succ : ∀ {n : Nat} {a : Int32} {p : Asmrp} {r : Int32 × Asmrp},
    comparisons n a p = some r → comparisons (n + 1) a p = some r
  | 0, a, p, r, h => by
    rw [comparisons] at h
    cases h
  | n + 1, a, p, r, h => by
    rw [comparisons] at h ⊢
    split at h
    · rename_i hsym
      rw [if_pos hsym]
      split at h
      · cases h
      · rename_i ho
        rw [asmrpOperand_succ ho]
        exact comparisons_succ h
    · rename_i hsym
      rw [if_neg hsym]
      exact h

theorem asmrpCondition_succ : ∀ {n : Nat} {p : Asmrp} {r : Int32 × Asmrp},
    asmrpCondition n p = some r → asmrpCondition (n + 1) p = some r
  | 0, p, r, h => by
    rw [asmrpCondition] at h
    cases h
  | n + 1, p, r, h => by
    rw [asmrpCondition] at h ⊢
    split at h
    · cases h
    · rename_i hc
      rw [asmrpCompExpression_succ hc]
      exact connections_succ h

theorem connections_succ : ∀ {n : Nat} {a : Int32} {p : Asmrp} {r : Int32 × Asmrp},
    connections n a p = some r → connections (n + 1) a p = some r
  | 0, a, p, r, h => by
    rw [connections] at h
    cases h
  | n + 1, a, p, r, h => by
    rw [connections] at h ⊢
    split at h
    · rename_i hsym
      rw [if_pos hsym]
      split at h
      · cases h
      · rename_i hc
        rw [asmrpCompExpression_succ hc]
        exact connections_succ h
    · rename_i hsym
      rw [if_neg hsym]
      exact h

end

theorem assignments_succ : ∀ {n : Nat} {p q : Asmrp},
    assignments n p = some q → assignments (n + 1) p = some q
  | 0, p, q, h => by cases h
  | n + 1, p, q, h => by
    rw [assignments] at h ⊢
    split at h
    · rename_i hsym
      rw [if_pos hsym]
      exact assignments_succ h
    · rename_i hsym
      rw [if_neg hsym]
      exact h

theorem asmrpRule_succ {r : Int32 × Asmrp} (h : asmrpRule n p = some r) :
    asmrpRule (n + 1) p = some r := by
  have hmap : ∀ {q : Asmrp} {v : Int32}, (assignments n q).map (ruleEnd v) = some r →
      (assignments (n + 1) q).map (ruleEnd v) = some r := fun h => by
    obtain ⟨q', hq', rfl⟩ := Option.map_eq_some_iff.mp h
    rw [assignments_succ hq']
    rfl
  rw [asmrpRule] at h ⊢
  split at h
  · rename_i hsym
    rw [if_pos hsym]
    split at h
    · cases h
    · rename_i hc
      rw [asmrpCondition_succ hc]
      exact hmap h
  · rename_i hsym
    rw [if_neg hsym]
    split at h
    · rename_i hsemi
      rw [if_pos hsemi]
      exact hmap h
    · rename_i hsemi
      rw [if_neg hsemi]
      exact h

theorem asmrpRule_mono {m : Nat} {r : Int32 × Asmrp} (hle : n ≤ m) (h : asmrpRule n p = some r) :
    asmrpRule m p = some r := by
  induction hle with
  | refl => exact h
  | step _ ih => exact asmrpRule_succ ih

/-! ## Rules come back -/

theorem asmrpAssignment_left (p : Asmrp) : (asmrpAssignment p).left ≤ p.left := by
  rw [asmrpAssignment]
  split
  · exact Nat.le_refl _
  split
  · exact Nat.le_refl _
  rename_i hid
  have hle := asmrpGetSym_le (p := p) (by rw [Decidable.not_not.mp hid]; decide)
  dsimp only
  split
  · exact hle
  rename_i heq
  have hle' := asmrpGetSym_le (p := asmrpGetSym p) (by rw [Decidable.not_not.mp heq]; decide)
  split
  · exact Nat.le_trans hle' hle
  rename_i hconst
  have hle'' := asmrpGetSym_le (p := asmrpGetSym (asmrpGetSym p)) fun heof =>
    hconst (by rw [heof]; decide)
  exact Nat.le_trans hle'' (Nat.le_trans hle' hle)

theorem assignments_returns : ∀ {n : Nat} {p : Asmrp}, p.left + 1 ≤ n →
    ∃ q, assignments n p = some q ∧ q.left ≤ p.left
  | 0, p, h => absurd h (Nat.not_succ_le_zero _)
  | n + 1, p, h => by
    rw [assignments]
    split
    · rename_i hsym
      have hlt := asmrpGetSym_lt (p := p) (by rw [hsym]; decide) (by rw [hsym]; decide)
      have hle := asmrpAssignment_left (asmrpGetSym p)
      obtain ⟨q, hq, hleft⟩ := assignments_returns (n := n)
        (p := asmrpAssignment (asmrpGetSym p)) (by omega)
      exact ⟨q, hq, by omega⟩
    · exact ⟨p, rfl, Nat.le_refl _⟩

theorem ruleEnd_left (v : Int32) (p : Asmrp) : (ruleEnd v p).2.left ≤ p.left := by
  rw [ruleEnd]
  split
  · exact Nat.le_refl _
  · rename_i hsemi
    exact asmrpGetSym_le (by rw [Decidable.not_not.mp hsemi]; decide)

/-- The symbol begins a rule, and a name has a symbol behind it. -/
def Moves (p : Asmrp) : Prop :=
  p.sym = .hash ∨ p.sym = .semicolon ∨ p.sym = .comma ∨ p.sym = .id ∧ ¬ Stuck p.inp

/-- An assignment takes something off the text where a rule begins with it, or leaves a comma. -/
theorem asmrpAssignment_moves (hmove : Moves p) (hhash : p.sym ≠ .hash)
    (hsemi : p.sym ≠ .semicolon) :
    p.sym = .comma ∧ asmrpAssignment p = p ∨ (asmrpAssignment p).left < p.left := by
  rcases hmove with h | h | h | ⟨hid, hstuck⟩
  · exact absurd h hhash
  · exact absurd h hsemi
  · exact .inl ⟨h, by rw [asmrpAssignment, if_pos (.inl h)]⟩
  · right
    have hlt := asmrpGetSym_not_stuck hid hstuck
    rw [asmrpAssignment, if_neg (by rw [hid]; decide), if_neg (by rw [hid]; decide)]
    dsimp only
    split
    · exact hlt
    rename_i heq
    have hle' := asmrpGetSym_le (p := asmrpGetSym p) (by rw [Decidable.not_not.mp heq]; decide)
    split
    · exact Nat.lt_of_le_of_lt hle' hlt
    rename_i hconst
    have hle'' := asmrpGetSym_le (p := asmrpGetSym (asmrpGetSym p)) fun heof =>
      hconst (by rw [heof]; decide)
    exact Nat.lt_of_le_of_lt (Nat.le_trans hle'' hle') hlt

/-- The loop over assignments takes the comma off the text. -/
theorem assignments_comma (hcomma : p.sym = .comma) (h : p.left + 1 ≤ n) :
    ∃ q, assignments n p = some q ∧ q.left < p.left := by
  cases n with
  | zero => exact absurd h (Nat.not_succ_le_zero _)
  | succ n =>
    have hlt := asmrpGetSym_lt (p := p) (by rw [hcomma]; decide) (by rw [hcomma]; decide)
    have hle := asmrpAssignment_left (asmrpGetSym p)
    obtain ⟨q, hq, hleft⟩ := assignments_returns (n := n)
      (p := asmrpAssignment (asmrpGetSym p)) (by omega)
    rw [assignments, if_pos hcomma]
    exact ⟨q, hq, by omega⟩

/-- A rule is read, and takes something off the text if it begins as it should. -/
theorem asmrpRule_returns (h : 3 * p.left + 4 ≤ n) :
    ∃ v q, asmrpRule n p = some (v, q) ∧ (Moves p → q.left < p.left) := by
  rw [asmrpRule]
  split
  · rename_i hhash
    have hlt := asmrpGetSym_lt (p := p) (by rw [hhash]; decide) (by rw [hhash]; decide)
    obtain ⟨v, q, hq, hle⟩ := asmrpCondition_returns (n := n) (p := asmrpGetSym p) (by omega)
    obtain ⟨r, hr, hle'⟩ := assignments_returns (n := n) (p := q) (by omega)
    have hend := ruleEnd_left v r
    rw [hq]
    dsimp only
    rw [hr]
    exact ⟨(ruleEnd v r).1, (ruleEnd v r).2, rfl, fun _ => by omega⟩
  rename_i hhash
  split
  · rename_i hsemi
    have hleft := asmrpAssignment_left p
    by_cases hcomma : p.sym = .comma ∧ asmrpAssignment p = p
    · obtain ⟨r, hr, hlt⟩ := assignments_comma (n := n) hcomma.1 (by omega)
      have hend := ruleEnd_left 1 r
      rw [hcomma.2, hr]
      exact ⟨(ruleEnd 1 r).1, (ruleEnd 1 r).2, rfl, fun _ => by omega⟩
    · obtain ⟨r, hr, hle⟩ := assignments_returns (n := n) (p := asmrpAssignment p) (by omega)
      have hend := ruleEnd_left 1 r
      rw [hr]
      refine ⟨(ruleEnd 1 r).1, (ruleEnd 1 r).2, rfl, fun hmove => ?_⟩
      rcases asmrpAssignment_moves hmove hhash hsemi with h | hlt
      · exact absurd h hcomma
      · omega
  · rename_i hsemi
    have hsemi := Decidable.not_not.mp hsemi
    have hlt := asmrpGetSym_lt (p := p) (by rw [hsemi]; decide) (by rw [hsemi]; decide)
    refine ⟨(ruleEnd 1 p).1, (ruleEnd 1 p).2, rfl, fun _ => ?_⟩
    rw [ruleEnd, if_neg (not_not_intro hsemi)]
    exact hlt

/-! ## Rules that take nothing -/

/-- A rule stands still: it begins with a symbol that begins none, or with a name and a character
that begins no symbol. -/
def StandsStill (p : Asmrp) : Prop := p.sym ≠ .eof ∧ ¬ Moves p

theorem asmrpRule_still (h : StandsStill p) (n : Nat) {v : Int32} {q : Asmrp}
    (hq : asmrpRule n p = some (v, q)) : StandsStill q := by
  obtain ⟨heof, hmove⟩ := h
  simp only [Moves, not_or] at hmove
  obtain ⟨hhash, hsemi, hcomma, hid⟩ := hmove
  rw [asmrpRule, if_neg hhash, if_pos hsemi] at hq
  obtain ⟨r, hr, hend⟩ := Option.map_eq_some_iff.mp hq
  have hstill : ∀ {s : Asmrp}, s.sym ≠ .comma → s.sym ≠ .semicolon →
      assignments n s = some r → q = s := fun hc hs hr => by
    cases n with
    | zero => cases hr
    | succ n =>
      rw [assignments, if_neg hc] at hr
      cases hr
      rw [ruleEnd, if_pos hs] at hend
      cases hend
      rfl
  by_cases hsym : p.sym = .id
  · have hstuck : Stuck p.inp := Classical.not_not.mp fun hs => hid ⟨hsym, hs⟩
    have hass : asmrpAssignment p =
        { p with sym := .id, str := [], inp := p.inp.dropWhile isBlank } := by
      rw [asmrpAssignment, if_neg (by rw [hsym]; decide), if_neg (by rw [hsym]; decide)]
      rw [asmrpGetSym_stuck hstuck]
      exact if_pos (show AsmSym.id ≠ .equals by decide)
    rw [hass] at hr
    rw [hstill (show AsmSym.id ≠ .comma by decide) (show AsmSym.id ≠ .semicolon by decide) hr]
    refine ⟨show AsmSym.id ≠ .eof by decide, ?_⟩
    rintro (h | h | h | ⟨-, h⟩)
    · cases h
    · cases h
    · cases h
    · exact h hstuck.dropWhile
  · have hass : asmrpAssignment p = p := by
      rw [asmrpAssignment, if_neg (not_or.mpr ⟨hcomma, hsemi⟩), if_pos hsym]
    rw [hass] at hr
    rw [hstill hcomma hsemi hr]
    refine ⟨heof, ?_⟩
    rintro (h | h | h | h)
    · exact hhash h
    · exact hsemi h
    · exact hcomma h
    · exact hid h

/-- From a rule that stands still the loop doesn't come to the end. -/
theorem rulesFrom_still : ∀ {n k : Nat} {found : List Nat} {p : Asmrp}, StandsStill p →
    rulesFrom n k found p = none
  | 0, _, _, _, _ => rfl
  | n + 1, k, found, p, h => by
    rw [rulesFrom, if_neg h.1]
    split
    · rfl
    · rename_i v q hq
      exact rulesFrom_still (asmrpRule_still h n hq)

/-! ## Runs -/

/-- The places where a rule is begun. -/
inductive RuleStart (rules : List UInt8) (bandwidth : Int32) : Asmrp → Prop where
  | first : RuleStart rules bandwidth (asmrpGetSym (asmrpStart rules bandwidth))
  | next {n : Nat} {p q : Asmrp} {v : Int32} : RuleStart rules bandwidth p → p.sym ≠ .eof →
      asmrpRule n p = some (v, q) → RuleStart rules bandwidth q

/-- The matcher comes back. -/
def AsmrpReturns (rules : List UInt8) (bandwidth : Int32) : Prop :=
  ∃ n r, asmrpMatch n rules bandwidth = some r

/-- If the loop comes to the end, it does from each place where a rule is begun. -/
theorem RuleStart.comes {rules : List UInt8} {bandwidth : Int32} (h : RuleStart rules bandwidth p)
    (hret : AsmrpReturns rules bandwidth) : ∃ n k found r, rulesFrom n k found p = some r := by
  induction h with
  | first =>
    obtain ⟨n, r, hr⟩ := hret
    obtain ⟨found, hfound, -⟩ := Option.map_eq_some_iff.mp hr
    exact ⟨n, 0, [], found, hfound⟩
  | @next m p q v _ heof hq ih =>
    obtain ⟨n, k, found, r, hr⟩ := ih
    cases n with
    | zero => cases hr
    | succ n =>
      rw [rulesFrom, if_neg heof] at hr
      split at hr
      · cases hr
      · rename_i hq'
        have hmax := asmrpRule_mono (Nat.le_max_left n m) hq'
        rw [asmrpRule_mono (Nat.le_max_right n m) hq] at hmax
        cases hmax
        exact ⟨n, _, _, r, hr⟩

/-- The loop comes to the end if no rule stands still. -/
theorem rulesFrom_returns {rules : List UInt8} {bandwidth : Int32}
    (hall : ∀ p, RuleStart rules bandwidth p → ¬ StandsStill p) :
    ∀ {n k : Nat} {found : List Nat} {p : Asmrp}, RuleStart rules bandwidth p →
      4 * p.left + 5 ≤ n → ∃ r, rulesFrom n k found p = some r
  | 0, _, _, _, _, h => absurd h (Nat.not_succ_le_zero _)
  | n + 1, k, found, p, hp, h => by
    rw [rulesFrom]
    split
    · exact ⟨found, rfl⟩
    · rename_i heof
      obtain ⟨v, q, hq, hlt⟩ := asmrpRule_returns (n := n) (p := p) (by omega)
      have hmove : Moves p := Classical.not_not.mp fun hm => hall p hp ⟨heof, hm⟩
      have hlt := hlt hmove
      rw [hq]
      exact rulesFrom_returns hall (hp.next heof hq) (by omega)

/-- The matcher comes back exactly if no rule stands still. -/
theorem asmrpMatch_returns_iff (rules : List UInt8) (bandwidth : Int32) :
    AsmrpReturns rules bandwidth ↔ ∀ p, RuleStart rules bandwidth p → p.sym = .eof ∨ Moves p := by
  constructor
  · intro hret p hp
    by_cases hstill : StandsStill p
    · obtain ⟨n, k, found, r, hr⟩ := hp.comes hret
      rw [rulesFrom_still hstill] at hr
      cases hr
    · rcases Decidable.em (p.sym = .eof) with heof | heof
      · exact .inl heof
      · exact .inr (Classical.not_not.mp fun hm => hstill ⟨heof, hm⟩)
  · intro hall
    have hrun : ∃ r, rulesFrom _ 0 [] (asmrpGetSym (asmrpStart rules bandwidth)) = some r :=
      rulesFrom_returns (fun p hp hstill => (hall p hp).elim hstill.1 hstill.2) .first
        (Nat.le_refl _)
    obtain ⟨found, hfound⟩ := hrun
    exact ⟨_, _, Option.map_eq_some_iff.mpr ⟨found, hfound, rfl⟩⟩

/-- A digit where a rule should begin is read again and again. -/
theorem asmrpMatch_not_returns : ¬ AsmrpReturns (asciis "5") 0 := by
  rintro ⟨n, r, hr⟩
  have hsym : (asmrpGetSym (asmrpStart (asciis "5") 0)).sym = .num := by decide
  have hstill : StandsStill (asmrpGetSym (asmrpStart (asciis "5") 0)) := by
    refine ⟨by rw [hsym]; decide, ?_⟩
    rintro (h | h | h | ⟨h, -⟩) <;> rw [hsym] at h <;> cases h
  obtain ⟨found, hfound, -⟩ := Option.map_eq_some_iff.mp hr
  rw [rulesFrom_still hstill] at hfound
  cases hfound

end MPlayer
