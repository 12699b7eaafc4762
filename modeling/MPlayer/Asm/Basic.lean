import MPlayer.Stream.Text

/-!
# The matcher of stream selection rules

`asmrp_match` reads a rule book that a server sends, symbol by symbol, and says which of its rules
hold.  A rule begins with a condition on the bandwidth or has none, and ends with a semicolon.

The text is what is in front of the NUL, from the current character on.  A `char` is signed, so
what is above 127 is below zero.  Loops and recursion take fuel, which is no part of the code.
-/

namespace MPlayer

/-! ## Symbols -/

/-- The symbols, `ASMRP_SYM_*`. -/
inductive AsmSym where
  | none
  | eof
  | num
  | id
  | string
  | hash
  | semicolon
  | comma
  | equals
  | and
  | or
  | less
  | leq
  | geq
  | greater
  | dollar
  | lparen
  | rparen
deriving DecidableEq

/-- `ASMRP_MAX_ID`. -/
def asmrpMaxId : Nat := 1024

/-- `ASMRP_MAX_SYMTAB`. -/
def asmrpMaxSymtab : Nat := 10

/-- `MAX_RULEMATCHES`. -/
def maxRulematches : Nat := 16

/-- `asmrp_t`.  The input begins with `ch`. -/
structure Asmrp where
  sym : AsmSym := .none
  num : Int32 := 0
  str : List UInt8 := []
  inp : List UInt8
  symTab : List (List UInt8 × Int32) := []

/-- The characters up to the blank, which are skipped. -/
def isBlank (c : UInt8) : Bool := c ≤ 32 || 128 ≤ c

/-- The characters of an identifier. -/
def isIdent (c : UInt8) : Bool := (ascii 'A' ≤ c && c ≤ ascii 'z') || isDigit c

/-- The characters of a string. -/
def isStringChar (c : UInt8) : Bool := c ≠ ascii '"' && 32 ≤ c && c < 128

/-- One more digit of a number. -/
def addDigit (num : Int32) (c : UInt8) : Int32 := num * 10 + (Int32.ofNat c.toNat - 48)

/-- Reads a number. -/
def asmrpNumber (p : Asmrp) : Asmrp :=
  { p with sym := .num, num := (p.inp.takeWhile isDigit).foldl addDigit 0,
           inp := p.inp.dropWhile isDigit }

/-- The text without a character at its front. -/
def skipChar (c : UInt8) : List UInt8 → List UInt8
  | [] => []
  | d :: s => if d = c then s else d :: s

/-- Reads a string and the quote behind it. -/
def asmrpString (p : Asmrp) : Asmrp :=
  { p with sym := .string, str := (p.inp.takeWhile isStringChar).take (asmrpMaxId - 1),
           inp := skipChar (ascii '"') (p.inp.dropWhile isStringChar) }

/-- Reads a name, cut to the size of the buffer. -/
def asmrpIdentifier (p : Asmrp) : Asmrp :=
  { p with sym := .id, str := (p.inp.takeWhile isIdent).take (asmrpMaxId - 1),
           inp := p.inp.dropWhile isIdent }

/-- A comparison that may have an equals sign behind it. -/
def compareSym (without withEq : AsmSym) (s : List UInt8) (p : Asmrp) : Asmrp :=
  { p with sym := if s.head? = some (ascii '=') then withEq else without,
           inp := skipChar (ascii '=') s }

/-- The choice of a symbol by its first character. -/
def symAt (p : Asmrp) : Asmrp :=
  match p.inp with
  | [] => asmrpIdentifier p
  | c :: s =>
    if c = ascii '#' then { p with sym := .hash, inp := s }
    else if c = ascii ';' then { p with sym := .semicolon, inp := s }
    else if c = ascii ',' then { p with sym := .comma, inp := s }
    else if c = ascii '=' then { p with sym := .equals, inp := skipChar (ascii '=') s }
    else if c = ascii '&' then { p with sym := .and, inp := skipChar (ascii '&') s }
    else if c = ascii '|' then { p with sym := .or, inp := skipChar (ascii '|') s }
    else if c = ascii '<' then compareSym .less .leq s p
    else if c = ascii '>' then compareSym .greater .geq s p
    else if c = ascii '$' then { p with sym := .dollar, inp := s }
    else if c = ascii '(' then { p with sym := .lparen, inp := s }
    else if c = ascii ')' then { p with sym := .rparen, inp := s }
    else if c = ascii '"' then asmrpString { p with inp := s }
    else if isDigit c then asmrpNumber p
    else asmrpIdentifier p

/-- Reads the next symbol, over blanks and one backslash. -/
def asmrpGetSym (p : Asmrp) : Asmrp :=
  match p.inp.dropWhile isBlank with
  | [] => { p with sym := .eof, inp := [] }
  | c :: s => symAt { p with inp := skipChar (ascii '\\') (c :: s) }

/-! ## Values -/

/-- The place of a name in the table. -/
def asmrpFindId (p : Asmrp) (s : List UInt8) : Option Nat := p.symTab.findIdx? (·.1 = s)

/-- Sets the value of a name, while there is room for a new one. -/
def asmrpSetId (p : Asmrp) (s : List UInt8) (v : Int32) : Asmrp :=
  match asmrpFindId p s with
  | some i => { p with symTab := p.symTab.set i (s, v) }
  | none =>
    if p.symTab.length = asmrpMaxSymtab - 1 then p
    else { p with symTab := p.symTab ++ [(s, v)] }

/-- The value of an identifier, which is 0 if it is not known. -/
def idValue (p : Asmrp) (s : List UInt8) : Int32 :=
  match asmrpFindId p s with
  | some i => ((p.symTab[i]?).map Prod.snd).getD 0
  | none => 0

/-- The symbols that `asmrp_comp_expression` takes as comparisons. -/
def isComparison : AsmSym → Bool
  | .less | .leq | .equals | .geq | .greater => true
  | _ => false

/-- A truth value of C. -/
def truth (b : Bool) : Int32 := if b then 1 else 0

/-- What a comparison gives, in C. -/
def compareBy : AsmSym → Int32 → Int32 → Int32
  | .less, a, b => truth (a < b)
  | .leq, a, b => truth (a ≤ b)
  | .equals, a, b => truth (a = b)
  | .geq, a, b => truth (b ≤ a)
  | .greater, a, b => truth (b < a)
  | _, a, _ => a

/-- What a connective gives, which is `&` or `|` on bits. -/
def joinBy : AsmSym → Int32 → Int32 → Int32
  | .and, a, b => a &&& b
  | .or, a, b => a ||| b
  | _, a, _ => a

/-! ## Conditions -/

mutual

/-- Reads an operand. -/
def asmrpOperand : Nat → Asmrp → Option (Int32 × Asmrp)
  | 0, _ => none
  | n + 1, p =>
    match p.sym with
    | .dollar =>
      let p := asmrpGetSym p
      if p.sym ≠ .id then some (0, p) else some (idValue p p.str, asmrpGetSym p)
    | .num => some (p.num, asmrpGetSym p)
    | .lparen =>
      match asmrpCondition n (asmrpGetSym p) with
      | none => none
      | some (ret, p) =>
        if p.sym ≠ .rparen then some (ret, p) else some (ret, asmrpGetSym p)
    | _ => some (0, p)

/-- Reads an operand and those it is compared with. -/
def asmrpCompExpression : Nat → Asmrp → Option (Int32 × Asmrp)
  | 0, _ => none
  | n + 1, p =>
    match asmrpOperand n p with
    | none => none
    | some (a, p) => comparisons n a p

/-- The loop over the comparisons behind a value. -/
def comparisons : Nat → Int32 → Asmrp → Option (Int32 × Asmrp)
  | 0, _, _ => none
  | n + 1, a, p =>
    if isComparison p.sym then
      match asmrpOperand n (asmrpGetSym p) with
      | none => none
      | some (b, p') => comparisons n (compareBy p.sym a b) p'
    else some (a, p)

/-- Reads comparisons that are joined. -/
def asmrpCondition : Nat → Asmrp → Option (Int32 × Asmrp)
  | 0, _ => none
  | n + 1, p =>
    match asmrpCompExpression n p with
    | none => none
    | some (a, p) => connections n a p

/-- The loop over what is connected to a value. -/
def connections : Nat → Int32 → Asmrp → Option (Int32 × Asmrp)
  | 0, _, _ => none
  | n + 1, a, p =>
    if p.sym = .and ∨ p.sym = .or then
      match asmrpCompExpression n (asmrpGetSym p) with
      | none => none
      | some (b, p') => connections n (joinBy p.sym a b) p'
    else some (a, p)

end

/-! ## Rules -/

/-- Reads an assignment, or nothing. -/
def asmrpAssignment (p : Asmrp) : Asmrp :=
  if p.sym = .comma ∨ p.sym = .semicolon then p
  else if p.sym ≠ .id then p
  else
    let p := asmrpGetSym p
    if p.sym ≠ .equals then p
    else
      let p := asmrpGetSym p
      if p.sym ≠ .num ∧ p.sym ≠ .string ∧ p.sym ≠ .id then p else asmrpGetSym p

/-- The loop over the assignments behind commas. -/
def assignments : Nat → Asmrp → Option Asmrp
  | 0, _ => none
  | n + 1, p =>
    if p.sym = .comma then assignments n (asmrpAssignment (asmrpGetSym p)) else some p

/-- The end of a rule. -/
def ruleEnd (ret : Int32) (p : Asmrp) : Int32 × Asmrp :=
  if p.sym ≠ .semicolon then (ret, p) else (ret, asmrpGetSym p)

/-- Reads a rule and tells whether it holds. -/
def asmrpRule (n : Nat) (p : Asmrp) : Option (Int32 × Asmrp) :=
  if p.sym = .hash then
    match asmrpCondition n (asmrpGetSym p) with
    | none => none
    | some (ret, p) => (assignments n p).map (ruleEnd ret)
  else if p.sym ≠ .semicolon then (assignments n (asmrpAssignment p)).map (ruleEnd 1)
  else some (ruleEnd 1 p)

/-- The rules that hold, with one more if there is room. -/
def addMatch (found : List Nat) (ruleNum : Nat) (ret : Int32) : List Nat :=
  if ret ≠ 0 ∧ found.length < maxRulematches - 1 then found ++ [ruleNum] else found

/-- The loop over the rules, with the number of the rule and the rules that hold. -/
def rulesFrom : Nat → Nat → List Nat → Asmrp → Option (List Nat)
  | 0, _, _, _ => none
  | n + 1, ruleNum, found, p =>
    if p.sym = .eof then some found
    else
      match asmrpRule n p with
      | none => none
      | some (ret, p) => rulesFrom n (ruleNum + 1) (addMatch found ruleNum ret) p

/-- The number of matches, and the array with its end. -/
def asmrpEval (n : Nat) (p : Asmrp) : Option (Nat × List Int) :=
  (rulesFrom n 0 [] (asmrpGetSym p)).map fun found =>
    (found.length, found.map Int.ofNat ++ [-1])

/-- A parser in front of a string. -/
def asmrpInit (str : List UInt8) : Asmrp := { inp := cstr str }

/-- The matcher before the first symbol. -/
def asmrpStart (rules : List UInt8) (bandwidth : Int32) : Asmrp :=
  asmrpSetId (asmrpSetId (asmrpInit rules) (asciis "Bandwidth") bandwidth) (asciis "OldPNMPlayer") 0

/-- The number of rules that hold, and the list of them. -/
def asmrpMatch (n : Nat) (rules : List UInt8) (bandwidth : Int32) : Option (Nat × List Int) :=
  asmrpEval n (asmrpStart rules bandwidth)

end MPlayer
