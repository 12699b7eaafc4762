import MPlayer.Asm.Reading

/-!
# What the matcher makes of a rule book

The matcher returns the rules that hold on bits, up to the room for them (`asmrpMatch_book`).  So
it is right exactly if the two readings agree on the rules that there is room for
(`asmrpMatch_meaning_iff`), as they do if only truth values are joined and no backslash stands
directly behind a name (`readingsAgree_tidy`).
-/

namespace MPlayer

/-! ## A rule book has no NUL -/

theorem AsmGap.zero_not_mem (g : AsmGap) : 0 ∉ g.text := fun h => by
  rcases List.mem_append.mp h with h | h
  · exact (g.blanks_blank 0 h).2 rfl
  · cases hesc : g.esc with
    | true =>
      rw [hesc] at h
      cases List.mem_singleton.mp h
    | false =>
      rw [hesc] at h
      cases h

theorem AsmDigits.zero_not_mem (k : AsmDigits) : 0 ∉ k.digits := fun h =>
  absurd (k.digits_digit 0 h) (by decide)

theorem AsmName.zero_not_mem (x : AsmName) : 0 ∉ x.chars := fun h =>
  absurd (x.chars_ident 0 h) (by decide)

theorem CompareOp.zero_not_mem (op : CompareOp) : 0 ∉ op.text := by
  cases op with
  | _ => decide

theorem JoinOp.zero_not_mem (op : JoinOp) : 0 ∉ op.text := by
  cases op with
  | _ => decide

theorem zero_not_mem_append {a b : List UInt8} (ha : 0 ∉ a) (hb : 0 ∉ b) : 0 ∉ a ++ b :=
  fun h => (List.mem_append.mp h).elim ha hb

theorem zero_not_mem_cons {c : UInt8} {a : List UInt8} (hc : c ≠ 0) (ha : 0 ∉ a) :
    0 ∉ c :: a := fun h => (List.mem_cons.mp h).elim (fun h => hc h.symm) ha

mutual

theorem AsmOperand.zero_not_mem : ∀ o : AsmOperand, 0 ∉ o.text
  | .var g x g' => zero_not_mem_cons (by decide) (zero_not_mem_append g.zero_not_mem
      (zero_not_mem_append x.asName.zero_not_mem g'.zero_not_mem))
  | .num k g => zero_not_mem_append k.zero_not_mem g.zero_not_mem
  | .paren g c g' => zero_not_mem_cons (by decide) (zero_not_mem_append g.zero_not_mem
      (zero_not_mem_append c.zero_not_mem (zero_not_mem_cons (by decide) g'.zero_not_mem)))

theorem AsmComp.zero_not_mem : ∀ e : AsmComp, 0 ∉ e.text
  | .mk o t => zero_not_mem_append o.zero_not_mem t.zero_not_mem

theorem AsmCompTail.zero_not_mem : ∀ t : AsmCompTail, 0 ∉ t.text
  | .nil => List.not_mem_nil
  | .cons op g o t => zero_not_mem_append op.zero_not_mem (zero_not_mem_append g.zero_not_mem
      (zero_not_mem_append o.zero_not_mem t.zero_not_mem))

theorem AsmCondition.zero_not_mem : ∀ c : AsmCondition, 0 ∉ c.text
  | .mk e t => zero_not_mem_append e.zero_not_mem t.zero_not_mem

theorem AsmJoinTail.zero_not_mem : ∀ t : AsmJoinTail, 0 ∉ t.text
  | .nil => List.not_mem_nil
  | .cons op g e t => zero_not_mem_append op.zero_not_mem (zero_not_mem_append g.zero_not_mem
      (zero_not_mem_append e.zero_not_mem t.zero_not_mem))

end

theorem AsmConst.zero_not_mem (c : AsmConst) : 0 ∉ c.text := by
  cases c with
  | num k => exact k.zero_not_mem
  | string t ht =>
    exact zero_not_mem_cons (by decide) (zero_not_mem_append
      (fun h => absurd (ht 0 h) (by decide)) (by decide))
  | name x => exact x.zero_not_mem

theorem AsmAssign.zero_not_mem (a : AsmAssign) : 0 ∉ a.text :=
  zero_not_mem_append a.name.zero_not_mem (zero_not_mem_append a.gap.zero_not_mem
    (zero_not_mem_cons (by decide) (zero_not_mem_append a.gap'.zero_not_mem
      (zero_not_mem_append a.const.zero_not_mem a.gap''.zero_not_mem))))

theorem assignsText_zero (as : List (AsmGap × AsmAssign)) : 0 ∉ assignsText as := fun h => by
  obtain ⟨a, -, ha⟩ := List.mem_flatMap.mp h
  exact zero_not_mem_cons (by decide)
    (zero_not_mem_append a.1.zero_not_mem a.2.zero_not_mem) ha

theorem AsmRule.zero_not_mem (r : AsmRule) : 0 ∉ r.text := by
  cases r with
  | cond g c as =>
    exact zero_not_mem_cons (by decide) (zero_not_mem_append g.zero_not_mem
      (zero_not_mem_append c.zero_not_mem (zero_not_mem_append (assignsText_zero as) (by decide))))
  | assigns a as =>
    exact zero_not_mem_append a.zero_not_mem (zero_not_mem_append (assignsText_zero as) (by decide))
  | blank => decide

/-- There is no NUL in a rule book. -/
theorem AsmBook.zero_not_mem (b : AsmBook) : 0 ∉ b.text :=
  zero_not_mem_append (fun h => by
    obtain ⟨r, -, hr⟩ := List.mem_flatMap.mp h
    exact zero_not_mem_append r.1.zero_not_mem r.2.zero_not_mem hr) b.gap.zero_not_mem

/-! ## What is returned -/

/-- The number of matches, and the array of them with its end. -/
def asmAnswer (rules : List Nat) : Nat × List Int :=
  (rules.length, rules.map Int.ofNat ++ [-1])

theorem asmAnswer_inj {as bs : List Nat} (h : asmAnswer as = asmAnswer bs) : as = bs := by
  have hmap := List.append_cancel_right (Prod.mk.inj h).2
  exact (List.map_inj_right fun a b hab => Int.ofNat.inj hab).mp hmap

/-- More fuel changes no answer. -/
theorem rulesFrom_succ : ∀ {n k : Nat} {found r : List Nat} {p : Asmrp},
    rulesFrom n k found p = some r → rulesFrom (n + 1) k found p = some r
  | 0, _, _, _, _, h => by cases h
  | n + 1, k, found, r, p, h => by
    rw [rulesFrom] at h ⊢
    split at h
    · rename_i heof
      rw [if_pos heof]
      exact h
    · rename_i heof
      rw [if_neg heof]
      split at h
      · cases h
      · rename_i hq
        rw [asmrpRule_succ hq]
        exact rulesFrom_succ h

theorem asmrpMatch_mono {n m : Nat} {rules : List UInt8} {bandwidth : Int32} {r : Nat × List Int}
    (hle : n ≤ m) (h : asmrpMatch n rules bandwidth = some r) :
    asmrpMatch m rules bandwidth = some r := by
  induction hle with
  | refl => exact h
  | step _ ih =>
    obtain ⟨found, hfound, hr⟩ := Option.map_eq_some_iff.mp ih
    exact Option.map_eq_some_iff.mpr ⟨found, rulesFrom_succ hfound, hr⟩

theorem asmrpStart_eq (rules : List UInt8) (bandwidth : Int32) :
    asmrpStart rules bandwidth = { inp := cstr rules, symTab := asmTab bandwidth } := rfl

/-- What is returned for a rule book. -/
theorem asmrpMatch_book (b : AsmBook) (bandwidth : Int32) :
    asmrpMatch (rulesSize b.rules) b.text bandwidth =
      some (asmAnswer ((b.trueRules (bitReading bandwidth)).take (maxRulematches - 1))) := by
  have hrun : rulesFrom (rulesSize b.rules) 0 []
      (asmrpGetSym { inp := b.text, symTab := asmTab bandwidth }) = _ :=
    rulesFrom_reads b.gap_end b.rules (Nat.le_refl _) (Nat.zero_le _) rfl rfl
  rw [asmrpMatch, asmrpEval, asmrpStart_eq, cstr_eq_self b.zero_not_mem, hrun]
  rfl

/-- The matcher returns the rules that hold as they are meant. -/
def MatchesMeaning (b : AsmBook) (bandwidth : Int32) : Prop :=
  ∃ n, asmrpMatch n b.text bandwidth = some (asmAnswer (b.trueRules (logicReading bandwidth)))

/-- The readings agree on each rule that there is room for: less than `MAX_RULEMATCHES - 1` rules
in front of it hold. -/
def ReadingsAgree (b : AsmBook) (bandwidth : Int32) : Prop :=
  ∀ before rule behind, b.rules.map Prod.snd = before ++ rule :: behind →
    (trueFrom (bitReading bandwidth) 0 before).length < maxRulematches - 1 →
    rule.holds (bitReading bandwidth) = rule.holds (logicReading bandwidth)

section Agree

variable {α β : Type}

theorem trueFrom_ge (r : AsmReading α) : ∀ {k : Nat} {rules : List AsmRule},
    ∀ i ∈ trueFrom r k rules, k ≤ i
  | k, [], i, h => by cases h
  | k, rule :: rules, i, h => by
    rw [trueFrom] at h
    split at h
    · rcases List.mem_cons.mp h with rfl | h
      · exact Nat.le_refl _
      · exact Nat.le_of_succ_le (trueFrom_ge r i h)
    · exact Nat.le_of_succ_le (trueFrom_ge r i h)

theorem trueFrom_length (r : AsmReading α) : ∀ (k j : Nat) (rules : List AsmRule),
    (trueFrom r k rules).length = (trueFrom r j rules).length
  | _, _, [] => rfl
  | k, j, rule :: rules => by
    rw [trueFrom, trueFrom]
    split
    · rw [List.length_cons, List.length_cons, trueFrom_length r (k + 1) (j + 1)]
    · exact trueFrom_length r (k + 1) (j + 1) rules

/-- What is found in one reading is what holds in the other exactly if they agree while there is
room. -/
theorem take_trueFrom_iff (r : AsmReading α) (s : AsmReading β) : ∀ (rules : List AsmRule)
    (k room : Nat), (trueFrom s k rules).length ≤ room →
    ((trueFrom r k rules).take room = trueFrom s k rules ↔
      ∀ before rule behind, rules = before ++ rule :: behind →
        (trueFrom r 0 before).length < room → rule.holds r = rule.holds s)
  | [], k, room, h => by
    refine ⟨fun _ before rule behind heq => ?_, fun _ => List.take_nil⟩
    cases before with
    | nil => cases heq
    | cons _ _ => cases heq
  | rule :: rules, k, 0, h => by
    have hnil : trueFrom s k (rule :: rules) = [] := List.eq_nil_of_length_eq_zero (by omega)
    rw [hnil, List.take_zero]
    exact ⟨fun _ _ _ _ _ hlt => absurd hlt (Nat.not_lt_zero _), fun _ => rfl⟩
  | rule :: rules, k, room + 1, h => by
    have hcons : ∀ {Q : List AsmRule → AsmRule → Prop},
        (∀ before r behind, rule :: rules = before ++ r :: behind → Q before r) ↔
          Q [] rule ∧ ∀ before r behind, rules = before ++ r :: behind →
            Q (rule :: before) r := fun {Q} => by
      constructor
      · intro h
        exact ⟨h [] rule rules rfl, fun before r behind heq =>
          h (rule :: before) r behind (by rw [heq]; rfl)⟩
      · rintro ⟨hfirst, hrest⟩ before r behind heq
        cases before with
        | nil =>
          cases heq
          exact hfirst
        | cons a before =>
          cases heq
          exact hrest before r behind rfl
    rw [hcons (Q := fun before rule => (trueFrom r 0 before).length < room + 1 →
      rule.holds r = rule.holds s)]
    have hempty : ((trueFrom r 0 []).length < room + 1 → rule.holds r = rule.holds s) ↔
        rule.holds r = rule.holds s := ⟨fun h => h (Nat.succ_pos _), fun h _ => h⟩
    rw [hempty]
    rw [trueFrom] at h
    simp only [trueFrom]
    cases hr : rule.holds r with
    | true =>
      cases hs : rule.holds s with
      | true =>
        rw [hs, if_pos rfl, List.length_cons] at h
        have ih := take_trueFrom_iff r s rules (k + 1) room (Nat.le_of_succ_le_succ h)
        simp only [if_true, List.take_succ_cons, List.cons.injEq, true_and,
          List.length_cons, Nat.add_lt_add_iff_right, trueFrom_length r (0 + 1) 0]
        exact ih
      | false =>
        simp only [if_true, Bool.false_eq_true, if_false, List.take_succ_cons,
          Bool.true_eq_false, false_and, iff_false]
        intro heq
        have hmem : k ∈ trueFrom s (k + 1) rules := by
          rw [← heq]
          exact List.mem_cons_self
        exact absurd (trueFrom_ge s k hmem) (Nat.not_succ_le_self k)
    | false =>
      cases hs : rule.holds s with
      | true =>
        simp only [if_true, Bool.false_eq_true, if_false, false_and, iff_false]
        intro heq
        have hmem : k ∈ (trueFrom r (k + 1) rules).take (room + 1) := by
          rw [heq]
          exact List.mem_cons_self
        exact absurd (trueFrom_ge r k (List.mem_of_mem_take hmem)) (Nat.not_succ_le_self k)
      | false =>
        rw [hs, if_neg Bool.false_ne_true] at h
        have ih := take_trueFrom_iff r s rules (k + 1) (room + 1) h
        simp only [Bool.false_eq_true, if_false, true_and, trueFrom_length r (0 + 1) 0]
        exact ih

end Agree

/-- What is found on bits, up to the room, has to be what holds. -/
theorem matchesMeaning_iff_take (b : AsmBook) (bandwidth : Int32) :
    MatchesMeaning b bandwidth ↔
      (b.trueRules (bitReading bandwidth)).take (maxRulematches - 1) =
        b.trueRules (logicReading bandwidth) := by
  constructor
  · rintro ⟨n, hn⟩
    have hmax := asmrpMatch_mono (Nat.le_max_left n (rulesSize b.rules)) hn
    rw [asmrpMatch_mono (Nat.le_max_right n _) (asmrpMatch_book b bandwidth)] at hmax
    exact asmAnswer_inj (Option.some.inj hmax)
  · intro h
    refine ⟨rulesSize b.rules, ?_⟩
    rw [asmrpMatch_book]
    exact congrArg (fun l => some (asmAnswer l)) h

/-- A rule book of which fewer than `MAX_RULEMATCHES` rules hold is matched as it is meant exactly
if the readings agree on the rules there is room for. -/
theorem asmrpMatch_meaning_iff (b : AsmBook) (bandwidth : Int32)
    (hlen : (b.trueRules (logicReading bandwidth)).length < maxRulematches) :
    MatchesMeaning b bandwidth ↔ ReadingsAgree b bandwidth := by
  rw [matchesMeaning_iff_take, ReadingsAgree]
  exact take_trueFrom_iff (bitReading bandwidth) (logicReading bandwidth)
    (b.rules.map Prod.snd) 0 (maxRulematches - 1) (Nat.le_of_lt_succ hlen)

/-! ## Rule books on which the readings agree -/

/-- A number that is a truth value. -/
def IsTruth (a : Int) : Prop := a = 0 ∨ a = 1

mutual

/-- Only truth values are joined, and no backslash stands directly behind a name. -/
def AsmOperand.Tidy (bandwidth : Int32) : AsmOperand → Prop
  | .var _ _ g' => g'.glued = false
  | .num _ _ => True
  | .paren _ c _ => c.Tidy bandwidth

def AsmComp.Tidy (bandwidth : Int32) : AsmComp → Prop
  | .mk o t => o.Tidy bandwidth ∧ t.Tidy bandwidth

def AsmCompTail.Tidy (bandwidth : Int32) : AsmCompTail → Prop
  | .nil => True
  | .cons _ _ o t => o.Tidy bandwidth ∧ t.Tidy bandwidth

def AsmCondition.Tidy (bandwidth : Int32) : AsmCondition → Prop
  | .mk e t => e.Tidy bandwidth ∧ t.Tidy bandwidth ∧
      (t = .nil ∨ IsTruth (e.value (logicReading bandwidth)))

def AsmJoinTail.Tidy (bandwidth : Int32) : AsmJoinTail → Prop
  | .nil => True
  | .cons _ _ e t => e.Tidy bandwidth ∧ IsTruth (e.value (logicReading bandwidth)) ∧
      t.Tidy bandwidth

end

theorem toInt_truth (b : Bool) : (truth b).toInt = if b then 1 else 0 := by
  cases b with
  | true => rfl
  | false => rfl

/-- Both readings compare alike. -/
theorem compare_toInt (bandwidth : Int32) (op : CompareOp) (a b : Int32) :
    ((bitReading bandwidth).compare op a b).toInt =
      (logicReading bandwidth).compare op a.toInt b.toInt := by
  cases op with
  | less =>
    rw [bitReading, logicReading, toInt_truth]
    simp only [decide_eq_true_eq, Int32.lt_iff_toInt_lt]
  | leq =>
    rw [bitReading, logicReading, toInt_truth]
    simp only [decide_eq_true_eq, Int32.le_iff_toInt_le]
  | equals =>
    rw [bitReading, logicReading, toInt_truth]
    simp only [decide_eq_true_eq, Int32.toInt_inj]
  | geq =>
    rw [bitReading, logicReading, toInt_truth]
    simp only [decide_eq_true_eq, Int32.le_iff_toInt_le]
  | greater =>
    rw [bitReading, logicReading, toInt_truth]
    simp only [decide_eq_true_eq, Int32.lt_iff_toInt_lt]

theorem IsTruth.int32 {a : Int32} (h : IsTruth a.toInt) : a = 0 ∨ a = 1 := by
  rcases h with h | h
  · exact .inl (Int32.toInt_inj.mp h)
  · exact .inr (Int32.toInt_inj.mp h)

/-- Both readings join truth values alike. -/
theorem join_toInt (bandwidth : Int32) (op : JoinOp) {a b : Int32} (ha : IsTruth a.toInt)
    (hb : IsTruth b.toInt) :
    ((bitReading bandwidth).join op a b).toInt =
      (logicReading bandwidth).join op a.toInt b.toInt := by
  rcases ha.int32 with rfl | rfl
  · rcases hb.int32 with rfl | rfl
    · cases op with
      | _ => rfl
    · cases op with
      | _ => rfl
  · rcases hb.int32 with rfl | rfl
    · cases op with
      | _ => rfl
    · cases op with
      | _ => rfl

theorem join_isTruth (bandwidth : Int32) (op : JoinOp) (a b : Int) :
    IsTruth ((logicReading bandwidth).join op a b) := by
  cases op with
  | and =>
    show IsTruth (if a ≠ 0 ∧ b ≠ 0 then 1 else 0)
    split
    · exact .inr rfl
    · exact .inl rfl
  | or =>
    show IsTruth (if a ≠ 0 ∨ b ≠ 0 then 1 else 0)
    split
    · exact .inr rfl
    · exact .inl rfl

mutual

/-- The value on bits is the value that is meant. -/
theorem AsmOperand.Tidy.toInt {bandwidth : Int32} : ∀ {o : AsmOperand}, o.Tidy bandwidth →
    (o.value (bitReading bandwidth)).toInt = o.value (logicReading bandwidth)
  | .var _ x g', h => by
    rw [AsmOperand.Tidy] at h
    rw [AsmOperand.value, AsmOperand.value, h]
    cases x with
    | bandwidth => rfl
    | oldPnmPlayer => rfl
  | .num k _, _ => Int32.toInt_ofNat_of_lt k.bound
  | .paren _ c _, h => AsmCondition.Tidy.toInt (c := c) h

theorem AsmComp.Tidy.toInt {bandwidth : Int32} : ∀ {e : AsmComp}, e.Tidy bandwidth →
    (e.value (bitReading bandwidth)).toInt = e.value (logicReading bandwidth)
  | .mk o t, h => by
    rw [AsmComp.Tidy] at h
    rw [AsmComp.value, AsmComp.value, AsmCompTail.Tidy.toInt h.2, AsmOperand.Tidy.toInt h.1]

theorem AsmCompTail.Tidy.toInt {bandwidth : Int32} : ∀ {t : AsmCompTail} {a : Int32},
    t.Tidy bandwidth →
    (t.value (bitReading bandwidth) a).toInt = t.value (logicReading bandwidth) a.toInt
  | .nil, _, _ => rfl
  | .cons op _ o t, a, h => by
    rw [AsmCompTail.Tidy] at h
    rw [AsmCompTail.value, AsmCompTail.value, AsmCompTail.Tidy.toInt h.2, compare_toInt,
      AsmOperand.Tidy.toInt h.1]

theorem AsmCondition.Tidy.toInt {bandwidth : Int32} : ∀ {c : AsmCondition}, c.Tidy bandwidth →
    (c.value (bitReading bandwidth)).toInt = c.value (logicReading bandwidth)
  | .mk e t, h => by
    rw [AsmCondition.Tidy] at h
    obtain ⟨he, ht, hjoin⟩ := h
    have hval := AsmComp.Tidy.toInt he
    rw [AsmCondition.value, AsmCondition.value]
    rcases hjoin with rfl | hjoin
    · exact hval
    · rw [AsmJoinTail.Tidy.toInt ht (by rw [hval]; exact hjoin), hval]

theorem AsmJoinTail.Tidy.toInt {bandwidth : Int32} : ∀ {t : AsmJoinTail} {a : Int32},
    t.Tidy bandwidth → IsTruth a.toInt →
    (t.value (bitReading bandwidth) a).toInt = t.value (logicReading bandwidth) a.toInt
  | .nil, _, _, _ => rfl
  | .cons op _ e t, a, h, ha => by
    rw [AsmJoinTail.Tidy] at h
    obtain ⟨he, hb, ht⟩ := h
    have hval := AsmComp.Tidy.toInt he
    rw [← hval] at hb
    have hjoin := join_toInt bandwidth op ha hb
    have htruth : IsTruth
        ((bitReading bandwidth).join op a (e.value (bitReading bandwidth))).toInt := by
      rw [hjoin]
      exact join_isTruth bandwidth op _ _
    rw [AsmJoinTail.value, AsmJoinTail.value, AsmJoinTail.Tidy.toInt ht htruth, hjoin, hval]

end

/-- A rule whose condition is tidy. -/
def AsmRule.Tidy (bandwidth : Int32) : AsmRule → Prop
  | .cond _ c _ => c.Tidy bandwidth
  | .assigns _ _ => True
  | .blank => True

/-- A tidy rule holds in both readings or in neither. -/
theorem AsmRule.Tidy.holds {bandwidth : Int32} {r : AsmRule} (h : r.Tidy bandwidth) :
    r.holds (bitReading bandwidth) = r.holds (logicReading bandwidth) := by
  cases r with
  | cond g c as =>
    have hval := AsmCondition.Tidy.toInt (c := c) h
    refine decide_eq_decide.mpr (not_congr ?_)
    rw [← hval]
    exact (Int32.toInt_inj (y := 0)).symm
  | assigns a as => rfl
  | blank => rfl

/-- The readings agree on a rule book in which only truth values are joined, and no backslash
stands directly behind a name. -/
theorem readingsAgree_tidy {b : AsmBook} {bandwidth : Int32}
    (h : ∀ r ∈ b.rules, r.2.Tidy bandwidth) : ReadingsAgree b bandwidth := by
  intro before rule behind heq _
  have hmem : rule ∈ b.rules.map Prod.snd := by
    rw [heq]
    exact List.mem_append_right _ List.mem_cons_self
  obtain ⟨r, hr, rfl⟩ := List.mem_map.mp hmem
  exact (h r hr).holds

/-! ## Rule books that are not matched as they are meant -/

def noGap : AsmGap := ⟨[], false, fun _ h => absurd h List.not_mem_nil⟩

def backslashGap : AsmGap := ⟨[], true, fun _ h => absurd h List.not_mem_nil⟩

/-- A number of one digit. -/
def oneDigit (k : Fin 10) : AsmNumber where
  digits := [48 + UInt8.ofNat k]
  nonempty := List.cons_ne_nil _ _
  digits_digit := fun c hc => by
    rw [List.mem_singleton.mp hc]
    clear hc
    revert k
    decide
  bound := by
    revert k
    decide

def numOperand (k : Fin 10) : AsmOperand := .num (oneDigit k) noGap

/-- A rule book of one rule, without blanks. -/
def oneRule (c : AsmCondition) : AsmBook := ⟨[(noGap, .cond noGap c [])], noGap, rfl⟩

/-- `#2&&1;` -/
def andBook : AsmBook :=
  oneRule (.mk (.mk (numOperand 2) .nil) (.cons .and noGap (.mk (numOperand 1) .nil) .nil))

/-- `#(2||1)==1;` -/
def orBook : AsmBook :=
  oneRule (.mk (.mk
    (.paren noGap (.mk (.mk (numOperand 2) .nil)
      (.cons .or noGap (.mk (numOperand 1) .nil) .nil)) noGap)
    (.cons .equals noGap (numOperand 1) .nil)) .nil)

/-- `#$Bandwidth\>=1;` -/
def backslashBook : AsmBook :=
  oneRule (.mk (.mk (.var noGap .bandwidth backslashGap)
    (.cons .geq noGap (numOperand 1) .nil)) .nil)

theorem not_matchesMeaning {b : AsmBook} (hbit : b.trueRules (bitReading 5) = [])
    (hlogic : b.trueRules (logicReading 5) = [0]) :
    (b.trueRules (logicReading 5)).length < maxRulematches ∧ ¬ MatchesMeaning b 5 := by
  refine ⟨by rw [hlogic]; decide, fun h => ?_⟩
  rw [matchesMeaning_iff_take, hbit, hlogic] at h
  cases h

/-- These rules hold, and none is found. -/
theorem asmrpMatch_not_meaning :
    ((andBook.trueRules (logicReading 5)).length < maxRulematches ∧ ¬ MatchesMeaning andBook 5) ∧
    ((orBook.trueRules (logicReading 5)).length < maxRulematches ∧ ¬ MatchesMeaning orBook 5) ∧
    ((backslashBook.trueRules (logicReading 5)).length < maxRulematches ∧
      ¬ MatchesMeaning backslashBook 5) :=
  ⟨not_matchesMeaning (by decide) (by decide),
    not_matchesMeaning (by decide) (by decide),
    not_matchesMeaning (by decide) (by decide)⟩

/-- A rule book on which the readings agree. -/
theorem asmrpMatch_meaning_sample :
    MatchesMeaning (oneRule (.mk (.mk (.var noGap .bandwidth noGap)
      (.cons .geq noGap (numOperand 1) .nil)) .nil)) 5 :=
  (asmrpMatch_meaning_iff _ 5 (by decide)).mpr (readingsAgree_tidy fun r hr => by
    rw [List.mem_singleton.mp hr]
    exact ⟨⟨rfl, trivial, trivial⟩, trivial, .inl rfl⟩)

end MPlayer
