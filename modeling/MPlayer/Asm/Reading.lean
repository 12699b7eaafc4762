import MPlayer.Asm.Grammar
import MPlayer.Asm.Progress

/-!
# Reading a rule book

A matcher *reads* a text when it has read the first symbol of it (`ReadsSym`).  Each kind of symbol
has a lemma that says what is read and where the matcher then stands.

*Conditions.*  Reading a condition gives its value in the reading on bits
(`AsmCondition.reads`).

*Rules.*  The loop over the rules finds those that hold on bits, up to the room for them
(`rulesFrom_reads`).
-/

namespace MPlayer

/-! ## Symbols -/

/-- The text begins with one of some characters. -/
def BeginsWith (cs s : List UInt8) : Prop := ∃ c t, s = c :: t ∧ c ∈ cs

/-- What stands behind a condition. -/
abbrev AfterCondition : List UInt8 → Prop := BeginsWith [ascii ')', ascii ',', ascii ';']

/-- What stands behind a comparison. -/
abbrev AfterComp : List UInt8 → Prop :=
  BeginsWith [ascii '&', ascii '|', ascii ')', ascii ',', ascii ';']

/-- What stands behind a number or a name in a condition. -/
abbrev AfterValue : List UInt8 → Prop :=
  BeginsWith [ascii '<', ascii '=', ascii '>', ascii '&', ascii '|', ascii ')', ascii ',',
    ascii ';']

/-- The characters that a symbol begins with, but for the backslash. -/
def FrontChar (c : UInt8) : Prop := isBlank c = false ∧ c ≠ ascii '\\'

instance (c : UInt8) : Decidable (FrontChar c) := inferInstanceAs (Decidable (_ ∧ _))

/-- The matcher has read the first symbol of a text, and what was in front of it. -/
def ReadsSym (tab : List (List UInt8 × Int32)) (s : List UInt8) (p : Asmrp) : Prop :=
  ∃ q g, q.symTab = tab ∧ q.inp = AsmGap.text g ++ s ∧ p = asmrpGetSym q

variable {tab : List (List UInt8 × Int32)}

theorem ReadsSym.next {p : Asmrp} {g : AsmGap} {s : List UInt8} (htab : p.symTab = tab)
    (hinp : p.inp = g.text ++ s) : ReadsSym tab s (asmrpGetSym p) := ⟨p, g, htab, hinp, rfl⟩

variable {c : UInt8} {p : Asmrp} {s : List UInt8} {g : AsmGap}

/-- What stands in front of a symbol is skipped. -/
theorem dropWhile_gap (g : AsmGap) (s : List UInt8) (hc : FrontChar c) :
    ∃ d t, (g.text ++ c :: s).dropWhile isBlank = d :: t ∧
      skipChar (ascii '\\') (d :: t) = c :: s := by
  have hblank : ∀ d ∈ g.blanks, isBlank d = true := fun d hd => (g.blanks_blank d hd).1
  rw [AsmGap.text, List.append_assoc, List.dropWhile_append_of_pos hblank]
  cases g.esc with
  | true => exact ⟨ascii '\\', c :: s, rfl, rfl⟩
  | false =>
    refine ⟨c, s, List.dropWhile_cons_of_neg (by rw [hc.1]; exact Bool.false_ne_true), ?_⟩
    rw [skipChar, if_neg hc.2]

theorem ReadsSym.front (h : ReadsSym tab (c :: s) p) (hc : FrontChar c) :
    ∃ q, q.symTab = tab ∧ q.inp = c :: s ∧ p = symAt q := by
  obtain ⟨q, g, htab, hinp, rfl⟩ := h
  obtain ⟨d, t, hdrop, hskip⟩ := dropWhile_gap g s hc
  refine ⟨{ q with inp := c :: s }, htab, rfl, ?_⟩
  rw [asmrpGetSym, hinp, hdrop]
  dsimp only
  rw [hskip]

/-- Behind the blanks at the end there is no symbol. -/
theorem asmrpGetSym_end (hg : g.esc = false) (hinp : p.inp = g.text) :
    (asmrpGetSym p).sym = .eof := by
  have hblank : ∀ d ∈ g.blanks, isBlank d = true := fun d hd => (g.blanks_blank d hd).1
  have hdrop : p.inp.dropWhile isBlank = [] := by
    rw [hinp, AsmGap.text, hg, List.dropWhile_append_of_pos hblank]
    rfl
  rw [asmrpGetSym, hdrop]

/-- The symbols that are one character, whatever is behind it. -/
def charSym (c : UInt8) : Option AsmSym :=
  if c = ascii '#' then some .hash
  else if c = ascii ';' then some .semicolon
  else if c = ascii ',' then some .comma
  else if c = ascii '$' then some .dollar
  else if c = ascii '(' then some .lparen
  else if c = ascii ')' then some .rparen
  else none

theorem charSym_cases : (charSym c).isSome = true →
    c ∈ [ascii '#', ascii ';', ascii ',', ascii '$', ascii '(', ascii ')'] :=
  forall_byte (P := fun c => (charSym c).isSome = true →
    c ∈ [ascii '#', ascii ';', ascii ',', ascii '$', ascii '(', ascii ')'])
    (by decide +kernel) c

theorem charSym_front (h : (charSym c).isSome = true) : FrontChar c := by
  have hc := charSym_cases h
  simp only [List.mem_cons, List.not_mem_nil, or_false] at hc
  rcases hc with rfl | rfl | rfl | rfl | rfl | rfl
  all_goals exact ⟨rfl, by decide⟩

/-- A symbol of one character. -/
theorem ReadsSym.char {p : Asmrp} {c : UInt8} {s : List UInt8} {y : AsmSym}
    (h : ReadsSym tab (c :: s) p) (hy : charSym c = some y) :
    p.sym = y ∧ p.symTab = tab ∧ p.inp = s := by
  have hsome : (charSym c).isSome = true := by rw [hy]; rfl
  obtain ⟨q, htab, hinp, rfl⟩ := h.front (charSym_front hsome)
  rw [symAt, hinp]
  have hc := charSym_cases hsome
  simp only [List.mem_cons, List.not_mem_nil, or_false] at hc
  rcases hc with rfl | rfl | rfl | rfl | rfl | rfl
  all_goals
    cases hy
    exact ⟨rfl, htab, rfl⟩

/-- A text that doesn't begin with an equals sign. -/
def NoEquals (s : List UInt8) : Prop := s.head? ≠ some (ascii '=')

theorem skipChar_of_head (h : s.head? ≠ some c) : skipChar c s = s := by
  cases s with
  | nil => rfl
  | cons d s => exact if_neg fun hd => h (by rw [hd]; rfl)

/-- The symbol of a comparison. -/
def CompareOp.sym : CompareOp → AsmSym
  | .less => .less
  | .leq => .leq
  | .equals => .equals
  | .geq => .geq
  | .greater => .greater

/-- The symbol of a connective. -/
def JoinOp.sym : JoinOp → AsmSym
  | .and => .and
  | .or => .or

theorem ReadsSym.compare {op : CompareOp} (h : ReadsSym tab (op.text ++ s) p) (hs : NoEquals s) :
    p.sym = op.sym ∧ p.symTab = tab ∧ p.inp = s := by
  cases op with
  | less =>
    obtain ⟨q, htab, hinp, rfl⟩ := h.front (by decide)
    rw [symAt, hinp]
    exact ⟨if_neg hs, htab, skipChar_of_head hs⟩
  | leq =>
    obtain ⟨q, htab, hinp, rfl⟩ := h.front (by decide)
    rw [symAt, hinp]
    exact ⟨rfl, htab, rfl⟩
  | equals =>
    obtain ⟨q, htab, hinp, rfl⟩ := h.front (by decide)
    rw [symAt, hinp]
    exact ⟨rfl, htab, rfl⟩
  | geq =>
    obtain ⟨q, htab, hinp, rfl⟩ := h.front (by decide)
    rw [symAt, hinp]
    exact ⟨rfl, htab, rfl⟩
  | greater =>
    obtain ⟨q, htab, hinp, rfl⟩ := h.front (by decide)
    rw [symAt, hinp]
    exact ⟨if_neg hs, htab, skipChar_of_head hs⟩

/-- The equals sign of an assignment. -/
theorem ReadsSym.equals (h : ReadsSym tab (ascii '=' :: s) p) (hs : NoEquals s) :
    p.sym = .equals ∧ p.symTab = tab ∧ p.inp = s := by
  obtain ⟨q, htab, hinp, rfl⟩ := h.front (by decide)
  rw [symAt, hinp]
  exact ⟨rfl, htab, skipChar_of_head hs⟩

theorem ReadsSym.join {op : JoinOp} (h : ReadsSym tab (op.text ++ s) p) :
    p.sym = op.sym ∧ p.symTab = tab ∧ p.inp = s := by
  cases op with
  | and =>
    obtain ⟨q, htab, hinp, rfl⟩ := h.front (by decide)
    rw [symAt, hinp]
    exact ⟨rfl, htab, rfl⟩
  | or =>
    obtain ⟨q, htab, hinp, rfl⟩ := h.front (by decide)
    rw [symAt, hinp]
    exact ⟨rfl, htab, rfl⟩

/-! ## Numbers, names and strings -/

theorem isDigit_class : isDigit c = true → FrontChar c ∧ c ∉ punctuation ∧ 48 ≤ c.toNat :=
  forall_byte (P := fun c => isDigit c = true →
    (isBlank c = false ∧ c ≠ ascii '\\') ∧ c ∉ punctuation ∧ 48 ≤ c.toNat) (by decide +kernel) c

/-- The characters of names and the blanks. -/
theorem asm_class (c : UInt8) : (isIdent c = true → isBlank c = false ∧ c ∉ punctuation) ∧
    (isBlank c = true → isIdent c = false ∧ isDigit c = false) :=
  forall_byte (P := fun c => (isIdent c = true → isBlank c = false ∧ c ∉ punctuation) ∧
    (isBlank c = true → isIdent c = false ∧ isDigit c = false)) (by decide +kernel) c

theorem isIdent_class (h : isIdent c = true) : isBlank c = false ∧ c ∉ punctuation :=
  (asm_class c).1 h

theorem isBlank_class (h : isBlank c = true) :
    isIdent c = false ∧ isDigit c = false := (asm_class c).2 h

/-- The text ends a number and a name. -/
theorem AfterValue.class (h : AfterValue s) :
    ∀ c, s.head? = some c → isIdent c = false ∧ isDigit c = false := by
  obtain ⟨d, t, rfl, hd⟩ := h
  intro c hc
  cases hc
  simp only [List.mem_cons, List.not_mem_nil, or_false] at hd
  rcases hd with rfl | rfl | rfl | rfl | rfl | rfl | rfl | rfl
  all_goals exact ⟨rfl, rfl⟩

theorem head_gap {P : UInt8 → Prop} (hblank : ∀ c, isBlank c = true → P c) (hesc : P (ascii '\\'))
    (hs : ∀ c, s.head? = some c → P c) : ∀ c, (g.text ++ s).head? = some c → P c := by
  intro c hc
  rw [AsmGap.text, List.append_assoc] at hc
  cases hb : g.blanks with
  | nil =>
    rw [hb] at hc
    cases he : g.esc with
    | true =>
      rw [he] at hc
      cases hc
      exact hesc
    | false =>
      rw [he] at hc
      exact hs c hc
  | cons d t =>
    rw [hb] at hc
    cases hc
    exact hblank c (g.blanks_blank c (by rw [hb]; exact List.mem_cons_self)).1

theorem foldl_addDigit : ∀ {ds : List UInt8}, (∀ c ∈ ds, isDigit c = true) → ∀ n : Nat,
    ds.foldl addDigit (Int32.ofNat n) =
      Int32.ofNat (ds.foldl (fun n d => n * 10 + (d.toNat - 48)) n)
  | [], _, n => rfl
  | c :: ds, h, n => by
    have hle := (isDigit_class (h c List.mem_cons_self)).2.2
    have hstep : addDigit (Int32.ofNat n) c = Int32.ofNat (n * 10 + (c.toNat - 48)) := by
      rw [addDigit, Int32.ofNat_add, Int32.ofNat_mul, Int32.ofNat_sub _ _ hle]
      rfl
    rw [List.foldl_cons, hstep, foldl_addDigit fun d hd => h d (List.mem_cons_of_mem c hd)]
    rfl

/-- A number that ends. -/
theorem ReadsSym.number {p : Asmrp} {k : AsmDigits} {g : AsmGap} {s : List UInt8}
    (h : ReadsSym tab (k.digits ++ (g.text ++ s)) p) (hs : AfterValue s) :
    p.sym = .num ∧ p.num = Int32.ofNat (decimalValue k.digits) ∧ p.symTab = tab ∧
      p.inp = g.text ++ s := by
  have hend : ∀ c, (g.text ++ s).head? = some c → isDigit c = false :=
    head_gap (fun c hc => (isBlank_class hc).2) rfl fun c hc => (hs.class c hc).2
  obtain ⟨c, ds, hcs⟩ := List.exists_cons_of_ne_nil k.nonempty
  have hc : isDigit c = true := k.digits_digit c (by rw [hcs]; exact List.mem_cons_self)
  have hclass := isDigit_class hc
  rw [hcs, List.cons_append] at h
  obtain ⟨q, htab, hinp, rfl⟩ := h.front hclass.1
  rw [symAt_other hinp hclass.2.1, if_pos hc, asmrpNumber]
  rw [← List.cons_append, ← hcs] at hinp
  refine ⟨rfl, ?_, htab, ?_⟩
  · show (q.inp.takeWhile isDigit).foldl addDigit 0 = _
    rw [hinp, takeWhile_run k.digits_digit hend]
    exact foldl_addDigit k.digits_digit 0
  · show q.inp.dropWhile isDigit = _
    rw [hinp, dropWhile_run k.digits_digit hend]

/-- A name, which a backslash directly behind it is taken into. -/
theorem ReadsSym.name {x : AsmName} (h : ReadsSym tab (x.chars ++ (g.text ++ s)) p)
    (hs : AfterValue s) :
    p.sym = .id ∧ p.symTab = tab ∧
      p.str = (x.chars ++ if g.glued then [ascii '\\'] else []).take (asmrpMaxId - 1) ∧
      ∃ g' : AsmGap, p.inp = g'.text ++ s := by
  have hend : ∀ c, s.head? = some c → isIdent c = false := fun c hc => (hs.class c hc).1
  obtain ⟨c, cs, hcs⟩ := List.exists_cons_of_ne_nil x.nonempty
  have hc : isIdent c = true := x.chars_ident c (by rw [hcs]; exact List.mem_cons_self)
  have hfront := x.front c (by rw [hcs]; rfl)
  have hclass := isIdent_class hc
  rw [hcs, List.cons_append] at h
  obtain ⟨q, htab, hinp, rfl⟩ := h.front ⟨hclass.1, hfront.2⟩
  rw [symAt_other hinp hclass.2, hfront.1, if_neg Bool.false_ne_true, asmrpIdentifier]
  rw [← List.cons_append, ← hcs] at hinp
  refine ⟨rfl, htab, ?_⟩
  show (q.inp.takeWhile isIdent).take (asmrpMaxId - 1) = _ ∧ ∃ g' : AsmGap,
    q.inp.dropWhile isIdent = g'.text ++ s
  cases hb : g.glued with
  | true =>
    rw [AsmGap.glued, Bool.and_eq_true, List.isEmpty_iff] at hb
    have htext : g.text = [ascii '\\'] := by rw [AsmGap.text, hb.1, hb.2]; rfl
    have hrun : ∀ c ∈ x.chars ++ [ascii '\\'], isIdent c = true := fun c hc => by
      rcases List.mem_append.mp hc with hc | hc
      · exact x.chars_ident c hc
      · rw [List.mem_singleton.mp hc]
        rfl
    rw [hinp, htext, ← List.append_assoc, takeWhile_run hrun hend, dropWhile_run hrun hend]
    exact ⟨rfl, ⟨[], false, fun c hc => absurd hc List.not_mem_nil⟩, rfl⟩
  | false =>
    have hgap : ∀ c, (g.text ++ s).head? = some c → isIdent c = false := by
      intro c hc
      rw [AsmGap.text, List.append_assoc] at hc
      cases hbs : g.blanks with
      | cons d t =>
        rw [hbs] at hc
        cases hc
        exact (isBlank_class (g.blanks_blank c (by rw [hbs]; exact List.mem_cons_self)).1).1
      | nil =>
        have hesc : g.esc = false := by
          rw [AsmGap.glued, hbs] at hb
          exact hb
        rw [hbs, hesc] at hc
        exact hend c hc
    rw [hinp, takeWhile_run x.chars_ident hgap, dropWhile_run x.chars_ident hgap]
    refine ⟨?_, g, rfl⟩
    rw [if_neg Bool.false_ne_true, List.append_nil]

/-- A string in quotes. -/
theorem ReadsSym.string {cs : List UInt8} (hcs : ∀ c ∈ cs, isStringChar c = true)
    (h : ReadsSym tab (ascii '"' :: (cs ++ ascii '"' :: s)) p) :
    p.sym = .string ∧ p.symTab = tab ∧ p.inp = s := by
  obtain ⟨q, htab, hinp, rfl⟩ := h.front (by decide)
  rw [symAt, hinp]
  refine ⟨rfl, htab, ?_⟩
  show skipChar (ascii '"') ((cs ++ ascii '"' :: s).dropWhile isStringChar) = s
  rw [dropWhile_run hcs fun c hc => by cases hc; rfl]
  rfl

/-! ## Conditions -/

theorem BeginsWith.mono {cs ds : List UInt8} (h : BeginsWith cs s) (hsub : cs ⊆ ds) :
    BeginsWith ds s := by
  obtain ⟨c, t, rfl, hc⟩ := h
  exact ⟨c, t, rfl, hsub hc⟩

theorem AfterComp.value (h : AfterComp s) : AfterValue s :=
  h.mono (by simp)

theorem AfterCondition.comp (h : AfterCondition s) : AfterComp s :=
  h.mono (by simp)

theorem AsmCompTail.after (t : AsmCompTail) (h : AfterComp s) : AfterValue (t.text ++ s) := by
  cases t with
  | nil => exact h.value
  | cons op g o t =>
    rw [AsmCompTail.text]
    cases op with
    | less => exact ⟨ascii '<', _, rfl, by simp⟩
    | leq => exact ⟨ascii '<', _, rfl, by simp⟩
    | equals => exact ⟨ascii '=', _, rfl, by simp⟩
    | geq => exact ⟨ascii '>', _, rfl, by simp⟩
    | greater => exact ⟨ascii '>', _, rfl, by simp⟩

theorem AsmJoinTail.after (t : AsmJoinTail) (h : AfterCondition s) : AfterComp (t.text ++ s) := by
  cases t with
  | nil => exact h.comp
  | cons op g e t =>
    rw [AsmJoinTail.text]
    cases op with
    | and => exact ⟨ascii '&', _, rfl, by simp⟩
    | or => exact ⟨ascii '|', _, rfl, by simp⟩

/-- No comparison goes on behind one. -/
theorem AfterComp.sym (hs : AfterComp s) (h : ReadsSym tab s p) : isComparison p.sym = false := by
  obtain ⟨c, t, rfl, hc⟩ := hs
  simp only [List.mem_cons, List.not_mem_nil, or_false] at hc
  rcases hc with rfl | rfl | rfl | rfl | rfl
  all_goals
    obtain ⟨q, -, hinp, rfl⟩ := h.front (by decide)
    rw [symAt, hinp]
    rfl

/-- No condition goes on behind one. -/
theorem AfterCondition.sym (hs : AfterCondition s) (h : ReadsSym tab s p) :
    ¬ (p.sym = .and ∨ p.sym = .or) := by
  obtain ⟨c, t, rfl, hc⟩ := hs
  simp only [List.mem_cons, List.not_mem_nil, or_false] at hc
  rcases hc with rfl | rfl | rfl
  all_goals
    obtain ⟨q, -, hinp, rfl⟩ := h.front (by decide)
    rw [symAt, hinp]
    rintro (h | h) <;> cases h

theorem CompareOp.isComparison_sym (op : CompareOp) : isComparison op.sym = true := by
  cases op with
  | _ => rfl

theorem JoinOp.sym_or (op : JoinOp) : op.sym = .and ∨ op.sym = .or := by
  cases op with
  | and => exact .inl rfl
  | or => exact .inr rfl

/-- The table of the values of names. -/
def asmTab (bandwidth : Int32) : List (List UInt8 × Int32) :=
  [(asciis "Bandwidth", bandwidth), (asciis "OldPNMPlayer", 0)]

/-- The name in the table of a variable. -/
def AsmVar.asName (x : AsmVar) : AsmName where
  chars := x.name
  nonempty := by cases x <;> decide
  chars_ident := by cases x <;> decide +kernel
  front := by cases x <;> (intro c hc; cases hc; decide)

theorem idValue_var {bandwidth : Int32} (h : p.symTab = asmTab bandwidth) (x : AsmVar)
    (glued : Bool) :
    idValue p ((x.name ++ if glued then [ascii '\\'] else []).take (asmrpMaxId - 1)) =
      (bitReading bandwidth).var x glued := by
  rw [idValue, asmrpFindId, h]
  cases x with
  | bandwidth =>
    cases glued with
    | true => rfl
    | false => rfl
  | oldPnmPlayer =>
    cases glued with
    | true => rfl
    | false => rfl

theorem compareBy_sym (bandwidth : Int32) (op : CompareOp) (a b : Int32) :
    compareBy op.sym a b = (bitReading bandwidth).compare op a b := by
  cases op with
  | _ => rfl

theorem joinBy_sym (bandwidth : Int32) (op : JoinOp) (a b : Int32) :
    joinBy op.sym a b = (bitReading bandwidth).join op a b := by
  cases op with
  | _ => rfl

/-- An operand doesn't begin with an equals sign. -/
theorem AsmOperand.noEquals (o : AsmOperand) (g : AsmGap) (s : List UInt8) :
    NoEquals (g.text ++ (o.text ++ s)) := by
  have hhead : ∀ c, (o.text ++ s).head? = some c → c ≠ ascii '=' := by
    intro c hc
    cases o with
    | var g x g' => cases hc; decide
    | num k g =>
      obtain ⟨d, ds, hds⟩ := List.exists_cons_of_ne_nil k.nonempty
      rw [AsmOperand.text, hds] at hc
      cases hc
      have hd := k.digits_digit c (by rw [hds]; exact List.mem_cons_self)
      intro he
      rw [he] at hd
      cases hd
    | paren g e g' => cases hc; decide
  intro h
  refine head_gap (P := fun c => c ≠ ascii '=') (fun c hc he => ?_) (by decide) hhead _ h rfl
  rw [he] at hc
  cases hc

mutual

/-- Fuel that is enough to read an operand. -/
@[grind =] def AsmOperand.size : AsmOperand → Nat
  | .var _ _ _ => 1
  | .num _ _ => 1
  | .paren _ c _ => c.size + 1

/-- The same for a comparison. -/
@[grind =] def AsmComp.size : AsmComp → Nat
  | .mk o t => o.size + t.size + 1

/-- The same for the operands behind the first. -/
@[grind =] def AsmCompTail.size : AsmCompTail → Nat
  | .nil => 1
  | .cons _ _ o t => o.size + t.size + 1

/-- The same for a condition. -/
@[grind =] def AsmCondition.size : AsmCondition → Nat
  | .mk e t => e.size + t.size + 1

/-- The same for the comparisons behind the first. -/
@[grind =] def AsmJoinTail.size : AsmJoinTail → Nat
  | .nil => 1
  | .cons _ _ e t => e.size + t.size + 1

end

section Reading

variable {bandwidth : Int32}

mutual

/-- Reading an operand gives its value on bits, and what is behind it is read next. -/
theorem AsmOperand.reads : ∀ (o : AsmOperand) {n : Nat} {p : Asmrp} {s : List UInt8},
    o.size ≤ n → ReadsSym (asmTab bandwidth) (o.text ++ s) p → AfterValue s →
    ∃ q, asmrpOperand n p = some (o.value (bitReading bandwidth), q) ∧
      ReadsSym (asmTab bandwidth) s q
  | o, 0, _, _, hn, _, _ => absurd hn (by cases o <;> simp [AsmOperand.size])
  | .var g x g', n + 1, p, s, hn, h, hs => by
    rw [AsmOperand.text, List.cons_append, List.append_assoc, List.append_assoc] at h
    obtain ⟨hsym, htab, hinp⟩ := h.char rfl
    have hx : ReadsSym (asmTab bandwidth) (x.asName.chars ++ (g'.text ++ s)) (asmrpGetSym p) :=
      .next htab hinp
    obtain ⟨hid, htab', hstr, g'', hinp'⟩ := hx.name hs
    refine ⟨asmrpGetSym (asmrpGetSym p), ?_, .next htab' hinp'⟩
    rw [asmrpOperand, hsym]
    dsimp only
    rw [if_neg (not_not_intro hid), hstr, AsmOperand.value]
    exact congrArg (fun v => some (v, _)) (idValue_var htab' x g'.glued)
  | .num k g, n + 1, p, s, hn, h, hs => by
    rw [AsmOperand.text, List.append_assoc] at h
    obtain ⟨hsym, hnum, htab, hinp⟩ := h.number hs
    refine ⟨asmrpGetSym p, ?_, .next htab hinp⟩
    rw [asmrpOperand, hsym]
    dsimp only
    rw [hnum]
    rfl
  | .paren g c g', n + 1, p, s, hn, h, hs => by
    rw [AsmOperand.size] at hn
    rw [AsmOperand.text, List.cons_append, List.append_assoc, List.append_assoc] at h
    obtain ⟨hsym, htab, hinp⟩ := h.char rfl
    obtain ⟨q, hq, hreads⟩ := c.reads (n := n) (by omega) (.next htab hinp)
      ⟨ascii ')', _, rfl, by simp⟩
    obtain ⟨hsym', htab', hinp'⟩ := hreads.char rfl
    refine ⟨asmrpGetSym q, ?_, .next htab' hinp'⟩
    rw [asmrpOperand, hsym]
    dsimp only
    rw [hq]
    dsimp only
    rw [if_neg (not_not_intro hsym'), AsmOperand.value]

theorem AsmComp.reads : ∀ (e : AsmComp) {n : Nat} {p : Asmrp} {s : List UInt8},
    e.size ≤ n → ReadsSym (asmTab bandwidth) (e.text ++ s) p → AfterComp s →
    ∃ q, asmrpCompExpression n p = some (e.value (bitReading bandwidth), q) ∧
      ReadsSym (asmTab bandwidth) s q
  | .mk o t, 0, _, _, hn, _, _ => absurd hn (by simp [AsmComp.size])
  | .mk o t, n + 1, p, s, hn, h, hs => by
    rw [AsmComp.size] at hn
    rw [AsmComp.text, List.append_assoc] at h
    obtain ⟨q, hq, hreads⟩ := o.reads (n := n) (by omega) h (t.after hs)
    obtain ⟨r, hr, hreads'⟩ := t.reads (n := n) (o.value (bitReading bandwidth)) (by omega)
      hreads hs
    refine ⟨r, ?_, hreads'⟩
    rw [asmrpCompExpression, hq]
    exact hr

theorem AsmCompTail.reads : ∀ (t : AsmCompTail) {n : Nat} {p : Asmrp} {s : List UInt8}
    (a : Int32), t.size ≤ n → ReadsSym (asmTab bandwidth) (t.text ++ s) p → AfterComp s →
    ∃ q, comparisons n a p = some (t.value (bitReading bandwidth) a, q) ∧
      ReadsSym (asmTab bandwidth) s q
  | t, 0, _, _, _, hn, _, _ => absurd hn (by cases t <;> simp [AsmCompTail.size])
  | .nil, n + 1, p, s, a, hn, h, hs => by
    refine ⟨p, ?_, h⟩
    rw [comparisons, hs.sym h, if_neg Bool.false_ne_true]
    rfl
  | .cons op g o t, n + 1, p, s, a, hn, h, hs => by
    rw [AsmCompTail.size] at hn
    rw [AsmCompTail.text, List.append_assoc, List.append_assoc, List.append_assoc] at h
    obtain ⟨hsym, htab, hinp⟩ := h.compare (o.noEquals g _)
    obtain ⟨q, hq, hreads⟩ := o.reads (n := n) (by omega) (.next htab hinp) (t.after hs)
    obtain ⟨r, hr, hreads'⟩ := t.reads (n := n)
      ((bitReading bandwidth).compare op a (o.value (bitReading bandwidth))) (by omega) hreads hs
    refine ⟨r, ?_, hreads'⟩
    rw [comparisons, hsym, op.isComparison_sym, if_pos rfl, hq]
    dsimp only
    rw [compareBy_sym bandwidth, hr]
    rfl

theorem AsmCondition.reads : ∀ (c : AsmCondition) {n : Nat} {p : Asmrp} {s : List UInt8},
    c.size ≤ n → ReadsSym (asmTab bandwidth) (c.text ++ s) p → AfterCondition s →
    ∃ q, asmrpCondition n p = some (c.value (bitReading bandwidth), q) ∧
      ReadsSym (asmTab bandwidth) s q
  | .mk e t, 0, _, _, hn, _, _ => absurd hn (by simp [AsmCondition.size])
  | .mk e t, n + 1, p, s, hn, h, hs => by
    rw [AsmCondition.size] at hn
    rw [AsmCondition.text, List.append_assoc] at h
    obtain ⟨q, hq, hreads⟩ := e.reads (n := n) (by omega) h (t.after hs)
    obtain ⟨r, hr, hreads'⟩ := t.reads (n := n) (e.value (bitReading bandwidth)) (by omega)
      hreads hs
    refine ⟨r, ?_, hreads'⟩
    rw [asmrpCondition, hq]
    exact hr

theorem AsmJoinTail.reads : ∀ (t : AsmJoinTail) {n : Nat} {p : Asmrp} {s : List UInt8}
    (a : Int32), t.size ≤ n → ReadsSym (asmTab bandwidth) (t.text ++ s) p → AfterCondition s →
    ∃ q, connections n a p = some (t.value (bitReading bandwidth) a, q) ∧
      ReadsSym (asmTab bandwidth) s q
  | t, 0, _, _, _, hn, _, _ => absurd hn (by cases t <;> simp [AsmJoinTail.size])
  | .nil, n + 1, p, s, a, hn, h, hs => by
    refine ⟨p, ?_, h⟩
    rw [connections, if_neg (hs.sym h)]
    rfl
  | .cons op g e t, n + 1, p, s, a, hn, h, hs => by
    rw [AsmJoinTail.size] at hn
    rw [AsmJoinTail.text, List.append_assoc, List.append_assoc, List.append_assoc] at h
    obtain ⟨hsym, htab, hinp⟩ := h.join
    obtain ⟨q, hq, hreads⟩ := e.reads (n := n) (by omega) (.next htab hinp) (t.after hs)
    obtain ⟨r, hr, hreads'⟩ := t.reads (n := n)
      ((bitReading bandwidth).join op a (e.value (bitReading bandwidth))) (by omega) hreads hs
    refine ⟨r, ?_, hreads'⟩
    rw [connections, hsym, if_pos op.sym_or, hq]
    dsimp only
    rw [joinBy_sym bandwidth, hr]
    rfl

end

end Reading

/-! ## Rules -/

theorem AsmConst.noEquals (c : AsmConst) (g : AsmGap) (s : List UInt8) :
    NoEquals (g.text ++ (c.text ++ s)) := by
  have hhead : ∀ d, (c.text ++ s).head? = some d → d ≠ ascii '=' := by
    intro d hd
    cases c with
    | num k =>
      obtain ⟨e, es, hes⟩ := List.exists_cons_of_ne_nil k.nonempty
      rw [AsmConst.text, hes] at hd
      cases hd
      have he := k.digits_digit d (by rw [hes]; exact List.mem_cons_self)
      intro heq
      rw [heq] at he
      cases he
    | string t ht => cases hd; decide
    | name x =>
      obtain ⟨e, es, hes⟩ := List.exists_cons_of_ne_nil x.nonempty
      rw [AsmConst.text, hes] at hd
      cases hd
      have he := x.chars_ident d (by rw [hes]; exact List.mem_cons_self)
      intro heq
      rw [heq] at he
      cases he
  intro h
  refine head_gap (P := fun c => c ≠ ascii '=') (fun c hc he => ?_) (by decide) hhead _ h rfl
  rw [he] at hc
  cases hc

theorem AsmConst.reads (c : AsmConst) (h : ReadsSym tab (c.text ++ (g.text ++ s)) p)
    (hs : AfterValue s) :
    (p.sym = .num ∨ p.sym = .string ∨ p.sym = .id) ∧ ReadsSym tab s (asmrpGetSym p) := by
  cases c with
  | num k =>
    obtain ⟨hsym, -, htab, hinp⟩ := h.number hs
    exact ⟨.inl hsym, .next htab hinp⟩
  | string t ht =>
    rw [AsmConst.text, List.cons_append, List.append_assoc] at h
    obtain ⟨hsym, htab, hinp⟩ := ReadsSym.string ht h
    exact ⟨.inr (.inl hsym), .next htab hinp⟩
  | name x =>
    obtain ⟨hsym, htab, -, g', hinp⟩ := ReadsSym.name h hs
    exact ⟨.inr (.inr hsym), .next htab hinp⟩

/-- What stands behind an assignment. -/
abbrev AfterAssign : List UInt8 → Prop := BeginsWith [ascii ',', ascii ';']

theorem AsmAssign.reads (a : AsmAssign) (h : ReadsSym tab (a.text ++ s) p) (hs : AfterAssign s) :
    ReadsSym tab s (asmrpAssignment p) := by
  have hs : AfterValue s := hs.mono (by simp)
  have htext : a.text ++ s = a.name.chars ++ (a.gap.text ++ ascii '=' :: (a.gap'.text ++
      (a.const.text ++ (a.gap''.text ++ s)))) := by
    rw [AsmAssign.text]
    simp only [List.append_assoc, List.cons_append]
  rw [htext] at h
  obtain ⟨hid, htab, -, g, hinp⟩ := ReadsSym.name h ⟨ascii '=', _, rfl, by simp⟩
  have heq : ReadsSym tab _ (asmrpGetSym p) := .next htab hinp
  obtain ⟨hsym, htab', hinp'⟩ := heq.equals (a.const.noEquals a.gap' _)
  have hc : ReadsSym tab _ (asmrpGetSym (asmrpGetSym p)) := .next htab' hinp'
  obtain ⟨hconst, hreads⟩ := a.const.reads hc hs
  rw [asmrpAssignment, if_neg (by rw [hid]; decide), if_neg (not_not_intro hid)]
  dsimp only
  rw [if_neg (not_not_intro hsym), if_neg fun hno => ?_]
  · exact hreads
  · rcases hconst with h | h | h
    · exact hno.1 h
    · exact hno.2.1 h
    · exact hno.2.2 h

theorem assignsText_after (as : List (AsmGap × AsmAssign)) (s : List UInt8) :
    AfterAssign (assignsText as ++ ascii ';' :: s) := by
  cases as with
  | nil => exact ⟨ascii ';', s, rfl, by simp⟩
  | cons a as => exact ⟨ascii ',', _, rfl, by simp⟩

theorem assignments_reads : ∀ (as : List (AsmGap × AsmAssign)) {n : Nat} {p : Asmrp}
    {s : List UInt8}, as.length < n → ReadsSym tab (assignsText as ++ ascii ';' :: s) p →
    ∃ q, assignments n p = some q ∧ ReadsSym tab (ascii ';' :: s) q
  | _, 0, _, _, hn, _ => absurd hn (Nat.not_lt_zero _)
  | [], n + 1, p, s, hn, h => by
    have hsym := (h.char (y := .semicolon) rfl).1
    refine ⟨p, ?_, h⟩
    rw [assignments, if_neg (by rw [hsym]; decide)]
  | a :: as, n + 1, p, s, hn, h => by
    have htext : assignsText (a :: as) ++ ascii ';' :: s =
        ascii ',' :: (a.1.text ++ (a.2.text ++ (assignsText as ++ ascii ';' :: s))) := by
      rw [assignsText, List.flatMap_cons]
      simp only [List.append_assoc, List.cons_append]
      rfl
    rw [htext] at h
    obtain ⟨hsym, htab, hinp⟩ := h.char (y := .comma) rfl
    have hreads := a.2.reads (.next htab hinp) (assignsText_after as s)
    obtain ⟨q, hq, hend⟩ := assignments_reads as (Nat.lt_of_succ_lt_succ hn) hreads
    refine ⟨q, ?_, hend⟩
    rw [assignments, if_pos hsym]
    exact hq

/-- The same for a rule. -/
@[grind =] def AsmRule.size : AsmRule → Nat
  | .cond _ c as => c.size + as.length + 1
  | .assigns _ as => as.length + 1
  | .blank => 0

/-- Reading a rule tells whether it holds on bits, and takes its text. -/
theorem AsmRule.reads (r : AsmRule) {bandwidth : Int32} {n : Nat} (hn : r.size ≤ n)
    (h : ReadsSym (asmTab bandwidth) (r.text ++ s) p) :
    p.sym ≠ .eof ∧ ∃ v q, asmrpRule n p = some (v, asmrpGetSym q) ∧
      (v ≠ 0 ↔ r.holds (bitReading bandwidth) = true) ∧ q.symTab = asmTab bandwidth ∧
      q.inp = s := by
  have hend : ∀ {q : Asmrp} {v : Int32}, ReadsSym (asmTab bandwidth) (ascii ';' :: s) q →
      ruleEnd v q = (v, asmrpGetSym q) ∧ q.symTab = asmTab bandwidth ∧ q.inp = s := fun hq => by
    obtain ⟨hsym, htab, hinp⟩ := hq.char (y := .semicolon) rfl
    exact ⟨by rw [ruleEnd, if_neg (not_not_intro hsym)], htab, hinp⟩
  have hone : ((1 : Int32) ≠ 0 ↔ true = true) := ⟨fun _ => rfl, fun _ => by decide⟩
  cases r with
  | cond g c as =>
    rw [AsmRule.size] at hn
    have htext : (AsmRule.cond g c as).text ++ s =
        ascii '#' :: (g.text ++ (c.text ++ (assignsText as ++ ascii ';' :: s))) := by
      rw [AsmRule.text]
      simp only [List.append_assoc, List.cons_append, List.nil_append]
    rw [htext] at h
    obtain ⟨hsym, htab, hinp⟩ := h.char (y := .hash) rfl
    obtain ⟨q, hq, hreads⟩ := c.reads (n := n) (by omega) (.next htab hinp)
      ((assignsText_after as s).mono (by simp))
    obtain ⟨r, hr, hsemi⟩ := assignments_reads as (n := n) (by omega) hreads
    obtain ⟨hv, htab', hinp'⟩ := hend (v := c.value (bitReading bandwidth)) hsemi
    refine ⟨by rw [hsym]; decide, _, r, ?_, decide_eq_true_iff.symm, htab', hinp'⟩
    rw [asmrpRule, if_pos hsym, hq]
    dsimp only
    rw [hr, Option.map_some, hv]
  | assigns a as =>
    rw [AsmRule.size] at hn
    have htext : (AsmRule.assigns a as).text ++ s =
        a.text ++ (assignsText as ++ ascii ';' :: s) := by
      rw [AsmRule.text]
      simp only [List.append_assoc, List.cons_append, List.nil_append]
    rw [htext] at h
    have hname : p.sym = .id := by
      rw [AsmAssign.text, List.append_assoc, List.append_assoc] at h
      exact (ReadsSym.name h ⟨ascii '=', _, rfl, by simp⟩).1
    obtain ⟨r, hr, hsemi⟩ := assignments_reads as (n := n) (by omega)
      (a.reads h (assignsText_after as s))
    obtain ⟨hv, htab, hinp⟩ := hend (v := 1) hsemi
    refine ⟨by rw [hname]; decide, 1, r, ?_, hone, htab, hinp⟩
    rw [asmrpRule, if_neg (by rw [hname]; decide), if_pos (by rw [hname]; decide), hr,
      Option.map_some, hv]
  | blank =>
    obtain ⟨hsym, -, -⟩ := ReadsSym.char (y := .semicolon) h rfl
    obtain ⟨hv, htab, hinp⟩ := hend (v := 1) h
    refine ⟨by rw [hsym]; decide, 1, p, ?_, hone, htab, hinp⟩
    rw [asmrpRule, if_neg (by rw [hsym]; decide), if_neg (not_not_intro hsym), hv]

/-! ## Rule books -/

/-- The numbers of the rules that hold in a reading, counted from a number on. -/
def trueFrom {α : Type} (r : AsmReading α) : Nat → List AsmRule → List Nat
  | _, [] => []
  | k, rule :: rules =>
    if rule.holds r then k :: trueFrom r (k + 1) rules else trueFrom r (k + 1) rules

/-- The rules of a rule book that hold in a reading. -/
def AsmBook.trueRules {α : Type} (b : AsmBook) (r : AsmReading α) : List Nat :=
  trueFrom r 0 (b.rules.map Prod.snd)

/-- The same for rules, with a turn for each. -/
def rulesSize : List (AsmGap × AsmRule) → Nat
  | [] => 1
  | r :: rules => r.2.size + rulesSize rules + 1

/-- The loop finds the rules that hold, up to the room for them. -/
theorem rulesFrom_reads {bandwidth : Int32} (hg : g.esc = false) :
    ∀ (rules : List (AsmGap × AsmRule)) {n k : Nat} {found : List Nat} {p : Asmrp},
    rulesSize rules ≤ n → found.length ≤ maxRulematches - 1 → p.symTab = asmTab bandwidth →
    p.inp = rulesText rules ++ g.text →
    rulesFrom n k found (asmrpGetSym p) = some (found ++ (trueFrom (bitReading bandwidth) k
      (rules.map Prod.snd)).take (maxRulematches - 1 - found.length))
  | rules, 0, _, _, _, hn, _, _, _ => by
    cases rules with
    | nil => cases hn
    | cons r rules => cases hn
  | [], n + 1, k, found, p, hn, hroom, htab, hinp => by
    rw [rulesFrom, if_pos (asmrpGetSym_end hg hinp), List.map_nil, trueFrom, List.take_nil,
      List.append_nil]
  | r :: rules, n + 1, k, found, p, hn, hroom, htab, hinp => by
    rw [rulesSize] at hn
    rw [rulesText, List.flatMap_cons, List.append_assoc, List.append_assoc] at hinp
    obtain ⟨heof, v, q, hq, hv, htab', hinp'⟩ :=
      r.2.reads (n := n) (by omega) (ReadsSym.next htab hinp)
    have hsize : rulesSize rules ≤ n := by omega
    rw [rulesFrom, if_neg heof, hq]
    dsimp only
    rw [addMatch, List.map_cons, trueFrom]
    by_cases hholds : r.2.holds (bitReading bandwidth) = true
    · rw [if_pos hholds]
      by_cases hlt : found.length < maxRulematches - 1
      · have hlen : (found ++ [k]).length = found.length + 1 := List.length_append
        have hsub : maxRulematches - 1 - found.length =
            maxRulematches - 1 - (found ++ [k]).length + 1 := by omega
        rw [if_pos ⟨hv.mpr hholds, hlt⟩,
          rulesFrom_reads hg rules hsize (by omega) htab' hinp', hsub, List.take_succ_cons,
          List.append_assoc]
        rfl
      · have hsub : maxRulematches - 1 - found.length = 0 := by omega
        rw [if_neg fun h => hlt h.2, rulesFrom_reads hg rules hsize hroom htab' hinp', hsub,
          List.take_zero, List.take_zero]
    · rw [if_neg hholds, if_neg fun h => hholds (hv.mp h.1)]
      exact rulesFrom_reads hg rules hsize hroom htab' hinp'

end MPlayer
