import MPlayer.Asm.Basic

/-!
# Rule books

The rule books of the grammar, with what may stand between their symbols: blanks, and a backslash
in front of a symbol.  A rule book knows its text, and a condition its value under a *reading*,
which says what the numbers, the names and the operators stand for.

Two readings matter.  In the one that is meant, `&&` and `||` are the connectives of logic.  In the
other they are the operators on the bits of a machine integer.
-/

namespace MPlayer

/-! ## Conditions -/

/-- What stands between two symbols. -/
structure AsmGap where
  blanks : List UInt8
  esc : Bool
  blanks_blank : ∀ c ∈ blanks, isBlank c = true ∧ c ≠ 0

/-- The blanks, then the backslash. -/
def AsmGap.text (g : AsmGap) : List UInt8 :=
  g.blanks ++ if g.esc then [ascii '\\'] else []

/-- A backslash stands directly behind the symbol in front. -/
def AsmGap.glued (g : AsmGap) : Bool := g.blanks.isEmpty && g.esc

/-- The names that have a value. -/
inductive AsmVar where
  | bandwidth
  | oldPnmPlayer
deriving DecidableEq

/-- The name behind the `$`. -/
def AsmVar.name : AsmVar → List UInt8
  | .bandwidth => asciis "Bandwidth"
  | .oldPnmPlayer => asciis "OldPNMPlayer"

/-- The digits of a number. -/
structure AsmDigits where
  digits : List UInt8
  nonempty : digits ≠ []
  digits_digit : ∀ c ∈ digits, isDigit c = true

/-- A number that fits an `int`. -/
structure AsmNumber extends AsmDigits where
  bound : decimalValue digits < 0x80000000

/-- The comparisons. -/
inductive CompareOp where
  | less
  | leq
  | equals
  | geq
  | greater
deriving DecidableEq

/-- How a comparison is written. -/
def CompareOp.text : CompareOp → List UInt8
  | .less => [ascii '<']
  | .leq => [ascii '<', ascii '=']
  | .equals => [ascii '=', ascii '=']
  | .geq => [ascii '>', ascii '=']
  | .greater => [ascii '>']

/-- The two connectives. -/
inductive JoinOp where
  | and
  | or
deriving DecidableEq

/-- How a connective is written. -/
def JoinOp.text : JoinOp → List UInt8
  | .and => [ascii '&', ascii '&']
  | .or => [ascii '|', ascii '|']

mutual

/-- A name, a number or a condition in parentheses. -/
inductive AsmOperand where
  | var (g : AsmGap) (x : AsmVar) (g' : AsmGap)
  | num (k : AsmNumber) (g : AsmGap)
  | paren (g : AsmGap) (c : AsmCondition) (g' : AsmGap)

/-- An operand that is compared with others. -/
inductive AsmComp where
  | mk (o : AsmOperand) (t : AsmCompTail)

/-- The operands that one is compared with. -/
inductive AsmCompTail where
  | nil
  | cons (op : CompareOp) (g : AsmGap) (o : AsmOperand) (t : AsmCompTail)

/-- Comparisons that are joined. -/
inductive AsmCondition where
  | mk (e : AsmComp) (t : AsmJoinTail)

/-- The comparisons that one is joined with. -/
inductive AsmJoinTail where
  | nil
  | cons (op : JoinOp) (g : AsmGap) (e : AsmComp) (t : AsmJoinTail)

end

mutual

/-- The text of an operand, with the gap behind it. -/
@[grind =] def AsmOperand.text : AsmOperand → List UInt8
  | .var g x g' => ascii '$' :: (g.text ++ (x.name ++ g'.text))
  | .num k g => k.digits ++ g.text
  | .paren g c g' => ascii '(' :: (g.text ++ (c.text ++ ascii ')' :: g'.text))

/-- The text of a comparison. -/
@[grind =] def AsmComp.text : AsmComp → List UInt8
  | .mk o t => o.text ++ t.text

/-- The text behind the first operand. -/
@[grind =] def AsmCompTail.text : AsmCompTail → List UInt8
  | .nil => []
  | .cons op g o t => op.text ++ (g.text ++ (o.text ++ t.text))

/-- The text of a condition. -/
@[grind =] def AsmCondition.text : AsmCondition → List UInt8
  | .mk e t => e.text ++ t.text

/-- The text behind the first comparison. -/
@[grind =] def AsmJoinTail.text : AsmJoinTail → List UInt8
  | .nil => []
  | .cons op g e t => op.text ++ (g.text ++ (e.text ++ t.text))

end

/-! ## Readings -/

/-- What the parts of a condition stand for, and whether a condition with a value holds.  A name is
told whether a backslash stands directly behind it. -/
structure AsmReading (α : Type) where
  var : AsmVar → Bool → α
  num : Nat → α
  compare : CompareOp → α → α → α
  join : JoinOp → α → α → α
  holds : α → Bool

section Value

variable {α : Type} (r : AsmReading α)

mutual

/-- The value of an operand. -/
def AsmOperand.value : AsmOperand → α
  | .var _ x g' => r.var x g'.glued
  | .num k _ => r.num (decimalValue k.digits)
  | .paren _ c _ => c.value

/-- The value of a comparison, from left to right. -/
def AsmComp.value : AsmComp → α
  | .mk o t => t.value o.value

/-- The value of a comparison whose front has a value. -/
def AsmCompTail.value : AsmCompTail → α → α
  | .nil, a => a
  | .cons op _ o t, a => t.value (r.compare op a o.value)

/-- The value of a condition, from left to right. -/
def AsmCondition.value : AsmCondition → α
  | .mk e t => t.value e.value

/-- The value of a condition whose front has a value. -/
def AsmJoinTail.value : AsmJoinTail → α → α
  | .nil, a => a
  | .cons op _ e t, a => t.value (r.join op a e.value)

end

end Value

/-- The reading that is meant. -/
def logicReading (bandwidth : Int32) : AsmReading Int where
  var
    | .bandwidth, _ => bandwidth.toInt
    | .oldPnmPlayer, _ => 0
  num k := k
  compare
    | .less, a, b => if a < b then 1 else 0
    | .leq, a, b => if a ≤ b then 1 else 0
    | .equals, a, b => if a = b then 1 else 0
    | .geq, a, b => if b ≤ a then 1 else 0
    | .greater, a, b => if b < a then 1 else 0
  join
    | .and, a, b => if a ≠ 0 ∧ b ≠ 0 then 1 else 0
    | .or, a, b => if a ≠ 0 ∨ b ≠ 0 then 1 else 0
  holds a := a ≠ 0

/-- The reading on the bits of integers, in which a name with a backslash directly behind it is not
known. -/
def bitReading (bandwidth : Int32) : AsmReading Int32 where
  var
    | .bandwidth, glued => if glued then 0 else bandwidth
    | .oldPnmPlayer, _ => 0
  num k := Int32.ofNat k
  compare
    | .less, a, b => truth (a < b)
    | .leq, a, b => truth (a ≤ b)
    | .equals, a, b => truth (a = b)
    | .geq, a, b => truth (b ≤ a)
    | .greater, a, b => truth (b < a)
  join
    | .and, a, b => a &&& b
    | .or, a, b => a ||| b
  holds a := a ≠ 0

/-! ## Rules -/

/-- A name that is assigned to. -/
structure AsmName where
  chars : List UInt8
  nonempty : chars ≠ []
  chars_ident : ∀ c ∈ chars, isIdent c = true
  front : ∀ c, chars.head? = some c → isDigit c = false ∧ c ≠ ascii '\\'

/-- What is assigned. -/
inductive AsmConst where
  | num (k : AsmDigits)
  | string (s : List UInt8) (h : ∀ c ∈ s, isStringChar c = true)
  | name (x : AsmName)

/-- How a constant is written. -/
def AsmConst.text : AsmConst → List UInt8
  | .num k => k.digits
  | .string s _ => ascii '"' :: (s ++ [ascii '"'])
  | .name x => x.chars

/-- An assignment, with the gaps in it. -/
structure AsmAssign where
  name : AsmName
  gap : AsmGap
  gap' : AsmGap
  const : AsmConst
  gap'' : AsmGap

/-- The text of an assignment. -/
def AsmAssign.text (a : AsmAssign) : List UInt8 :=
  a.name.chars ++ (a.gap.text ++ ascii '=' :: (a.gap'.text ++ (a.const.text ++ a.gap''.text)))

/-- Assignments behind commas. -/
def assignsText (as : List (AsmGap × AsmAssign)) : List UInt8 :=
  as.flatMap fun a => ascii ',' :: (a.1.text ++ a.2.text)

/-- A rule: assignments behind a condition, assignments alone, or nothing. -/
inductive AsmRule where
  | cond (g : AsmGap) (c : AsmCondition) (as : List (AsmGap × AsmAssign))
  | assigns (a : AsmAssign) (as : List (AsmGap × AsmAssign))
  | blank

/-- The text of a rule, with its semicolon. -/
def AsmRule.text : AsmRule → List UInt8
  | .cond g c as => ascii '#' :: (g.text ++ (c.text ++ (assignsText as ++ [ascii ';'])))
  | .assigns a as => a.text ++ (assignsText as ++ [ascii ';'])
  | .blank => [ascii ';']

/-- Whether a rule holds.  A rule without a condition does. -/
def AsmRule.holds {α : Type} (r : AsmReading α) : AsmRule → Bool
  | .cond _ c _ => r.holds (c.value r)
  | .assigns _ _ => true
  | .blank => true

/-- A rule book: rules with what stands in front of them, and the blanks at the end. -/
structure AsmBook where
  rules : List (AsmGap × AsmRule)
  gap : AsmGap
  gap_end : gap.esc = false

/-- The text of rules, with what stands in front of each. -/
def rulesText (rules : List (AsmGap × AsmRule)) : List UInt8 :=
  rules.flatMap fun r => r.1.text ++ r.2.text

/-- The text of a rule book. -/
def AsmBook.text (b : AsmBook) : List UInt8 := rulesText b.rules ++ b.gap.text

end MPlayer
