import MPlayer.Property.Expand
import Mathlib.Data.List.Perm.Basic
import Mathlib.Data.List.Range

/-!
# What property strings mean

A template is a list of tokens.  Characters and values stand for themselves where all the
conditions around them hold.  `mPropertiesExpandString` gives this text, and frees what it
printed, exactly if

* the template does not end in a lone backslash,
* no `\x` stands in text that is kept,
* every substitution that is answered with a string is kept, and the string is not empty,
* the sizes fit into an `int`.
-/

namespace MPlayer.Property

variable {V : Type}

/-! ## The language -/

/-- The parts of a template.  `hex` is `\x`, which stands for the character of its two digits, or
for an `x` without them.  A condition may be negated. -/
inductive Token where
  | char (c : Char)
  | hex (c : Char)
  | trailing
  | subst (name : CStr)
  | cond (isNot : Bool) (name : CStr)
  | close
deriving DecidableEq

/-- The character of two hexadecimal digits. -/
def hexChar (a b : Char) : Option Char :=
  match digits 16 [a, b] with
  | ([x, y], _) => some (Char.ofNat (16 * x + y))
  | _ => none

/-- What follows a backslash, as a token. -/
def escapeToken (str : CStr) : Token × CStr :=
  match str with
  | [] => (.trailing, [])
  | 'e' :: str => (.char '\x1b', str)
  | 'n' :: str => (.char '\n', str)
  | 'r' :: str => (.char '\x0d', str)
  | 't' :: str => (.char '\t', str)
  | 'x' :: a :: b :: str =>
    match hexChar a b with
    | some c => (.hex c, str)
    | none => (.hex 'x', a :: b :: str)
  | 'x' :: str => (.hex 'x', str)
  | c :: str => (.char c, str)

/-- The first token of a template that begins with `c`.  A parenthesis closes the innermost
condition, if there is one. -/
def token (inside : Bool) (c : Char) (str : CStr) : Token × CStr :=
  if c = '\\' then escapeToken str
  else if inside ∧ c = ')' then (.close, str)
  else
    match (if c = '$' then between '{' '}' str else none) with
    | some (name, rest) => (.subst name, rest)
    | none =>
      match (if c = '?' then between '(' ':' str else none) with
      | some ('!' :: name, rest) => (.cond true name, rest)
      | some (name, rest) => (.cond false name, rest)
      | none => (.char c, str)

/-- The number of conditions that are open behind a token. -/
def Token.depth : Token → Nat → Nat
  | cond _ _, n => n + 1
  | close, n => n - 1
  | _, n => n

theorem between_length {start stop : Char} {str name rest : CStr}
    (h : between start stop str = some (name, rest)) : rest.length ≤ str.length := by
  cases str with
  | nil => cases h
  | cons c str =>
    simp only [between] at h
    split at h
    · cases h
      rw [List.length_drop, List.length_cons]
      omega
    · cases h

theorem token_length (inside : Bool) (c : Char) (str : CStr) :
    (token inside c str).2.length ≤ str.length := by
  unfold token
  split
  · unfold escapeToken
    repeat' split
    all_goals simp only [List.length_cons, List.length_nil]
    all_goals omega
  · split
    · exact Nat.le_refl _
    · split
      · rename_i h
        split at h
        · exact between_length h
        · cases h
      · split
        · rename_i h
          split at h
          · exact between_length h
          · cases h
        · rename_i h
          split at h
          · exact between_length h
          · cases h
        · exact Nat.le_refl _

/-- The tokens of a template inside of `n` conditions. -/
def tokens (n : Nat) : CStr → List Token
  | [] => []
  | c :: str =>
    have := token_length (0 < n) c str
    (token (0 < n) c str).1 ::
      tokens ((token (0 < n) c str).1.depth n) (token (0 < n) c str).2
termination_by str => str.length

/-- The string that a property is printed as. -/
def printed (propList : List (MProperty V)) (name : CStr) : Option CStr :=
  match mPropertyPrint propList name with
  | (r, .str s) => if 0 ≤ r then some s else none
  | _ => none

/-- Whether a property is available. -/
def available (propList : List (MProperty V)) (name : CStr) : Bool :=
  0 ≤ mPropertyProbe propList name

/-- Whether the text of a condition is kept. -/
def condHolds (propList : List (MProperty V)) (isNot : Bool) (name : CStr) : Bool :=
  available propList name != isNot

/-- The strings that the tokens stand for where `conds` are the conditions around them, the
innermost first. -/
def pieces (propList : List (MProperty V)) : List Bool → List Token → List CStr
  | _, [] => []
  | conds, .char c :: ts | conds, .hex c :: ts =>
    if false ∈ conds then pieces propList conds ts else [c] :: pieces propList conds ts
  | conds, .trailing :: ts =>
    if false ∈ conds then pieces propList conds ts else ['\\'] :: pieces propList conds ts
  | conds, .subst name :: ts =>
    match printed propList name with
    | some v => if false ∈ conds then pieces propList conds ts else v :: pieces propList conds ts
    | none => pieces propList conds ts
  | conds, .cond isNot name :: ts => pieces propList (condHolds propList isNot name :: conds) ts
  | conds, .close :: ts => pieces propList conds.tail ts

/-- The text that a template stands for. -/
def meaning (propList : List (MProperty V)) (str : CStr) : CStr :=
  (pieces propList [] (tokens 0 str)).flatten

/-! ## When a template is expanded to its text -/

/-- A run that ends has freed each string that was printed once and no other pointer. -/
def Expand.AllFreed (s : Expand) : Prop := s.freed.Perm ((List.range s.printed).map some)

/-- The run reads, writes and frees as it may, and the text is what the template stands for. -/
def Expands (propList : List (MProperty V)) (str : CStr) : Prop :=
  ∃ s, mPropertiesExpandString propList str = some s ∧ s.ret = meaning propList str ∧ s.AllFreed

/-- No backslash ends the template, no `\x` is kept, and whatever is printed is kept and not
empty. -/
def Clean (propList : List (MProperty V)) : List Bool → List Token → Prop
  | _, [] => True
  | conds, .char _ :: ts => Clean propList conds ts
  | conds, .hex _ :: ts => false ∈ conds ∧ Clean propList conds ts
  | _, .trailing :: _ => False
  | conds, .subst name :: ts =>
    (∀ v, printed propList name = some v → false ∉ conds ∧ v ≠ []) ∧ Clean propList conds ts
  | conds, .cond isNot name :: ts =>
    Clean propList (condHolds propList isNot name :: conds) ts
  | conds, .close :: ts => Clean propList conds.tail ts

/-- A text that is written in pieces, from `pos` on and into a memory of `size` bytes that grows,
needs sizes that are an `int`. -/
def SizesFit : Nat → Nat → List CStr → Prop
  | size, _, [] => size ≤ intMax
  | size, pos, v :: vs =>
    SizesFit (grow size pos v.length) (pos + v.length) vs

/-! ## Hexadecimal digits -/

/-- A hexadecimal digit. -/
def IsHex (c : Char) : Prop := (digits 16 [c]).1 ≠ []

/-- Whether a character is a digit, and which, does not depend on what follows it. -/
theorem digits_step (base : Nat) (c : Char) : ∃ v, ∀ s, digits base (c :: s) =
    if v < base then (v :: (digits base s).1, (digits base s).2) else ([], c :: s) :=
  ⟨_, fun _ => rfl⟩

theorem digits_lt (base : Nat) (s : CStr) : ∀ d ∈ (digits base s).1, d < base := by
  induction s with
  | nil => simp [digits]
  | cons c s ih =>
    obtain ⟨v, hv⟩ := digits_step base c
    rw [hv]
    split
    · rename_i h
      simpa using ⟨h, ih⟩
    · simp

theorem digits_length (base : Nat) (s : CStr) :
    (digits base s).1.length + (digits base s).2.length = s.length := by
  induction s with
  | nil => rfl
  | cons c s ih =>
    obtain ⟨v, hv⟩ := digits_step base c
    rw [hv]
    split
    · simp only [List.length_cons]
      omega
    · simp

/-- A space is one of six characters. -/
theorem isSpace_cases {c : Char} (h : isSpace c = true) :
    c ∈ [' ', '\t', '\n', '\x0b', '\x0c', '\x0d'] := by
  rcases Bool.or_eq_true_iff.1 h with h | h
  · simp [eq_of_beq h]
  · have hb : 9 ≤ c.toNat ∧ c.toNat ≤ 13 := by simpa using h
    have hc := Char.ofNat_toNat c
    obtain h | h | h | h | h : c.toNat = 9 ∨ c.toNat = 10 ∨ c.toNat = 11 ∨ c.toNat = 12 ∨
        c.toNat = 13 := by omega
    all_goals
      rw [h] at hc
      rw [← hc]
      decide

/-- A character without a meaning of its own. -/
def IsPlain (c : Char) : Prop := c ≠ '\\' ∧ c ≠ ')' ∧ c ≠ '$' ∧ c ≠ '?'

theorem IsHex.isPlain {c : Char} (h : IsHex c) : IsPlain c := by
  refine ⟨?_, ?_, ?_, ?_⟩
  all_goals
    rintro rfl
    exact h (by decide)

theorem isPlain_of_isSpace {c : Char} (h : isSpace c = true) : IsPlain c := by
  have hmem := isSpace_cases h
  refine ⟨?_, ?_, ?_, ?_⟩
  all_goals
    rintro rfl
    exact absurd hmem (by decide)

theorem IsHex.not_isSpace {c : Char} (h : IsHex c) : isSpace c = false := by
  refine Bool.eq_false_iff.2 fun hspace => h ?_
  have hmem := isSpace_cases hspace
  simp only [List.mem_cons, List.not_mem_nil, or_false] at hmem
  rcases hmem with rfl | rfl | rfl | rfl | rfl | rfl <;> decide

/-- Two digits make a character. -/
theorem hexChar_eq {a b c : Char} (h : hexChar a b = some c) :
    IsHex a ∧ IsHex b ∧ ∃ x y, digits 16 [a, b] = ([x, y], []) ∧ x < 16 ∧ y < 16 ∧
      c = Char.ofNat (16 * x + y) := by
  unfold hexChar at h
  split at h
  · rename_i x y rest hd
    have hlt := digits_lt 16 [a, b]
    have hlen := digits_length 16 [a, b]
    obtain ⟨v, hv⟩ := digits_step 16 a
    obtain ⟨w, hw⟩ := digits_step 16 b
    rw [hd] at hlt hlen
    have hrest : rest = [] := by simpa using hlen
    subst hrest
    have hva : v < 16 := Classical.byContradiction fun hn => by simp [hv, hn] at hd
    have hwb : w < 16 := Classical.byContradiction fun hn => by simp [hv, hw, hn, hva] at hd
    refine ⟨?_, ?_, x, y, hd, hlt x (by simp), hlt y (by simp), (Option.some_inj.1 h).symm⟩
    · simp [IsHex, hv, hva]
    · simp [IsHex, hw, hwb]
  · cases h

theorem hexPrefix_short {s : CStr} (h : s.length ≤ 2) : hexPrefix s = none := by
  unfold hexPrefix
  split
  · simp only [List.length_cons] at h
    omega
  · rfl

/-- The sign of a number, and the digits behind it. -/
theorem strtoll_body (s : CStr) (hs : ∀ t : CStr, t.length ≤ s.length → hexPrefix t = none) :
    ∃ (neg : Bool) (body : CStr),
      ((∃ t, body = t ∧ s.dropWhile isSpace = '-' :: t) ∨
        (∃ t, body = t ∧ s.dropWhile isSpace = '+' :: t) ∨
        body = s.dropWhile isSpace ∧ neg = false ∧ ∀ t, body ≠ '-' :: t ∧ body ≠ '+' :: t) ∧
      strtoll 16 s = (if (digits 16 body).1 = [] then (0, s)
        else
          (if neg then max (-(ofDigits 16 (digits 16 body).1 : Int)) (-llongMax - 1)
            else min (ofDigits 16 (digits 16 body).1 : Int) llongMax, (digits 16 body).2)) := by
  have hdrop : (s.dropWhile isSpace).length ≤ s.length := (List.dropWhile_sublist _).length_le
  have hbase : ∀ t : CStr, t.length ≤ s.length → detectBase 16 t = (16, t) := fun t ht => by
    simp [detectBase, hs t ht]
  dsimp only [strtoll]
  generalize s.dropWhile isSpace = r at hdrop ⊢
  split
  · rename_i t
    rw [List.length_cons] at hdrop
    exact ⟨true, t, .inl ⟨t, rfl, rfl⟩, by rw [hbase t (by omega)]⟩
  · rename_i t
    rw [List.length_cons] at hdrop
    exact ⟨false, t, .inr (.inl ⟨t, rfl, rfl⟩), by rw [hbase t (by omega)]⟩
  · rename_i h1 h2
    exact ⟨false, r, .inr (.inr ⟨rfl, rfl, fun t => ⟨h1 t, h2 t⟩⟩), by rw [hbase r hdrop]⟩

/-- `strtol` of two characters: the sign, if any, and the digits. -/
theorem strtoll_short {s : CStr} (h : s.length ≤ 2) :
    ∃ (neg : Bool) (body : CStr),
      strtoll 16 s = (if (digits 16 body).1 = [] then (0, s)
        else
          (if neg then max (-(ofDigits 16 (digits 16 body).1 : Int)) (-llongMax - 1)
            else min (ofDigits 16 (digits 16 body).1 : Int) llongMax, (digits 16 body).2)) ∧
      ((body = s ∧ neg = false) ∨ body.length < s.length ∧ ∀ c ∈ s.head?, IsPlain c) := by
  have hshort : ∀ t : CStr, t.length ≤ s.length → hexPrefix t = none := fun t ht =>
    hexPrefix_short (Nat.le_trans ht h)
  have hdrop : (s.dropWhile isSpace).length ≤ s.length := (List.dropWhile_sublist _).length_le
  -- without a space in front, the sign is the first character
  have hhead : s.dropWhile isSpace ≠ s → ∀ c ∈ s.head?, IsPlain c := by
    intro hne c hc
    cases s with
    | nil => cases hc
    | cons d s =>
      obtain rfl : d = c := by simpa using hc
      refine isPlain_of_isSpace (Classical.byContradiction fun hd => hne ?_)
      exact List.dropWhile_cons_of_neg hd
  have hlt : s.dropWhile isSpace ≠ s → (s.dropWhile isSpace).length < s.length := fun hne =>
    Nat.lt_of_le_of_ne hdrop fun he => hne ((List.dropWhile_suffix _).eq_of_length he)
  have hsign : ∀ {c : Char} {t : CStr}, s.dropWhile isSpace = c :: t → IsPlain c →
      t.length < s.length ∧ ∀ c ∈ s.head?, IsPlain c := by
    intro c t hbody hc
    refine ⟨?_, ?_⟩
    · rw [hbody, List.length_cons] at hdrop
      omega
    · by_cases hne : s.dropWhile isSpace = s
      · rw [← hne, hbody]
        simpa using hc
      · exact hhead hne
  obtain ⟨neg, body, hbody, he⟩ := strtoll_body s hshort
  refine ⟨neg, body, he, ?_⟩
  rcases hbody with ⟨t, rfl, ht⟩ | ⟨t, rfl, ht⟩ | ⟨rfl, rfl, -⟩
  · exact .inr (hsign ht (by simp [IsPlain]))
  · exact .inr (hsign ht (by simp [IsPlain]))
  · by_cases hne : s.dropWhile isSpace = s
    · exact .inl ⟨hne, rfl⟩
    · exact .inr ⟨hlt hne, hhead hne⟩

/-- The number of two digits. -/
theorem strtoll_hexChar {a b c : Char} (h : hexChar a b = some c) :
    ∃ n, strtoll 16 [a, b] = (n, []) ∧ Char.ofNat (n % 256).toNat = c := by
  obtain ⟨ha, hb, x, y, hd, hx, hy, rfl⟩ := hexChar_eq h
  have hsign : a ≠ '-' ∧ a ≠ '+' := by
    constructor
    all_goals
      rintro rfl
      exact ha (by decide)
  refine ⟨(16 * x + y : Nat), ?_, ?_⟩
  · have hspace : [a, b].dropWhile isSpace = [a, b] :=
      List.dropWhile_cons_of_neg (by simp [ha.not_isSpace])
    obtain ⟨neg, body, hbody, he⟩ :=
      strtoll_body [a, b] fun t ht => hexPrefix_short ht
    rcases hbody with ⟨t, rfl, ht⟩ | ⟨t, rfl, ht⟩ | ⟨rfl, rfl, -⟩
    · exact absurd (List.cons.inj (hspace.symm.trans ht)).1 hsign.1
    · exact absurd (List.cons.inj (hspace.symm.trans ht)).1 hsign.2
    · rw [he, hspace, hd]
      simp [ofDigits, llongMax]
      omega
  · congr 1
    omega

/-- Anything else is a small number, and what it takes is at most one digit behind a space or a
sign. -/
theorem strtoll_not_hexChar {s : CStr} (h : s.length ≤ 2)
    (hnone : ∀ a b, s = [a, b] → hexChar a b = none) :
    ∃ n stop, strtoll 16 s = (n, stop) ∧ -16 < n ∧ n < 16 ∧ stop.length ≤ s.length ∧
      (2 ≤ s.length - stop.length → ∀ c ∈ s.head?, IsPlain c) := by
  obtain ⟨neg, body, he, hbody⟩ := strtoll_short h
  have hlen := digits_length 16 body
  have hlt := digits_lt 16 body
  -- at most one digit
  have hone : (digits 16 body).1.length ≤ 1 := by
    rcases hbody with ⟨rfl, -⟩ | ⟨hlt, -⟩
    · rcases hd : digits 16 body with ⟨_ | ⟨x, _ | ⟨y, ds⟩⟩, rest⟩
      · simp
      · simp
      · rw [hd] at hlen
        simp only [List.length_cons] at hlen
        have hds : ds = [] := List.length_eq_zero_iff.1 (by omega)
        obtain ⟨a, b, rfl⟩ := List.length_eq_two.1 (by omega : body.length = 2)
        have := hnone a b rfl
        simp [hexChar, hd, hds] at this
    · omega
  rcases hd : digits 16 body with ⟨_ | ⟨x, _ | ⟨y, ds⟩⟩, rest⟩
  · rw [hd] at he
    refine ⟨0, s, by simpa using he, by omega, by omega, Nat.le_refl _, fun h2 => ?_⟩
    omega
  · rw [hd] at he hlt hlen
    have hx : x < 16 := hlt x (by simp)
    simp only [List.length_cons, List.length_nil] at hlen
    refine ⟨_, rest, by simpa [ofDigits] using he, ?_, ?_, ?_, ?_⟩
    · split <;> simp only [llongMax] <;> omega
    · split <;> simp only [llongMax] <;> omega
    · rcases hbody with ⟨rfl, -⟩ | ⟨hb, -⟩ <;> omega
    · intro h2
      rcases hbody with ⟨rfl, -⟩ | ⟨-, hc⟩
      · omega
      · exact hc
  · rw [hd] at hone
    simp at hone

/-- A small number is not the code of an `x`. -/
theorem numVal_ne_x {n : Int} (h1 : -16 < n) (h2 : n < 16) :
    Char.ofNat (n % 256).toNat ≠ 'x' := by
  have hlow : ∀ k < 16, Char.ofNat k ≠ 'x' ∧ Char.ofNat (255 - k) ≠ 'x' := by decide
  rcases Int.lt_or_le n 0 with hn | hn
  · have := (hlow (-n - 1).toNat (by omega)).2
    have he : (n % 256).toNat = 255 - (-n - 1).toNat := by omega
    rwa [he]
  · have := (hlow n.toNat (by omega)).1
    have he : (n % 256).toNat = n.toNat := by omega
    rwa [he]

end MPlayer.Property
