import MPlayer.Input.ParseCmd

/-!
# String arguments of commands

A string is written in quotes, with a backslash in front of each quote and each backslash, or
without, with a backslash in front of each blank and each backslash.

*Escaping.*  Taking the backslashes out gives the string back (`unescapeArg_escapeWith`), and its
end is found unless a backslash stands there (`stringEnd_escapeWith`).

*Following arguments.*  The arguments behind a string are read as they are written if the search
for them begins at the blank in front of them (`readArgs_following`).
-/

namespace MPlayer

universe u

/-! ## Escaping -/

/-- A backslash in front of each `sep` and each backslash. -/
@[grind =] def escapeWith (sep : UInt8) (s : List UInt8) : List UInt8 :=
  s.flatMap fun c => if c = sep ∨ c = ascii '\\' then [ascii '\\', c] else [c]

/-- With quotes or without. -/
inductive StringForm where
  | quoted
  | unquoted
deriving DecidableEq

/-- A string as it is written in this form. -/
def StringForm.write : StringForm → List UInt8 → List UInt8
  | .quoted, s => ascii '"' :: (escapeWith (ascii '"') s ++ [ascii '"'])
  | .unquoted, s => escapeWith (ascii ' ') s

variable {sep c term : UInt8} {s t : List UInt8}

theorem escapeWith_cons_esc (h : c = sep ∨ c = ascii '\\') (s : List UInt8) :
    escapeWith sep (c :: s) = ascii '\\' :: c :: escapeWith sep s := by
  rw [escapeWith, List.flatMap_cons, if_pos h]
  rfl

theorem escapeWith_cons_lit (h : ¬ (c = sep ∨ c = ascii '\\')) (s : List UInt8) :
    escapeWith sep (c :: s) = c :: escapeWith sep s := by
  rw [escapeWith, List.flatMap_cons, if_neg h]
  rfl

theorem unescapeArg_esc (c : UInt8) (s : List UInt8) :
    unescapeArg (ascii '\\' :: c :: s) = c :: unescapeArg s := by
  rw [unescapeArg, if_pos rfl]

theorem unescapeArg_lit (h : c ≠ ascii '\\') (s : List UInt8) :
    unescapeArg (c :: s) = c :: unescapeArg s := by
  cases s with
  | nil => simp only [unescapeArg, if_neg h]
  | cons d s => rw [unescapeArg, if_neg h]

/-- Taking the backslashes out gives the string back. -/
theorem unescapeArg_escapeWith (sep : UInt8) (t : List UInt8) : ∀ s : List UInt8,
    unescapeArg (escapeWith sep s ++ t) = s ++ unescapeArg t
  | [] => rfl
  | c :: s => by
    by_cases h : c = sep ∨ c = ascii '\\'
    · rw [escapeWith_cons_esc h, List.cons_append, List.cons_append, unescapeArg_esc,
        unescapeArg_escapeWith sep t s]
      rfl
    · rw [escapeWith_cons_lit h, List.cons_append,
        unescapeArg_lit fun hb => h (.inr hb), unescapeArg_escapeWith sep t s]
      rfl

theorem unescapeArg_eq_self : ∀ {s : List UInt8}, ascii '\\' ∉ s → unescapeArg s = s
  | [], _ => rfl
  | c :: s, h => by
    rw [unescapeArg_lit fun hb => h (hb ▸ List.mem_cons_self),
      unescapeArg_eq_self fun hm => h (List.mem_cons_of_mem c hm)]

theorem unescapeArg_length : ∀ s : List UInt8, (unescapeArg s).length ≤ s.length
  | [] => Nat.le_refl _
  | [c] => by
    by_cases h : c = ascii '\\'
    · rw [unescapeArg, if_pos h]
      exact Nat.zero_le _
    · rw [unescapeArg_lit h]
      exact Nat.le_refl _
  | c :: d :: s => by
    by_cases h : c = ascii '\\'
    · rw [h, unescapeArg_esc]
      exact Nat.le_succ_of_le (Nat.succ_le_succ (unescapeArg_length s))
    · rw [unescapeArg_lit h]
      exact Nat.succ_le_succ (unescapeArg_length (d :: s))

/-- A character that is no backslash is kept. -/
theorem mem_unescapeArg (hc : c ≠ ascii '\\') : ∀ {s : List UInt8}, c ∈ s → c ∈ unescapeArg s
  | [], h => h
  | [d], h => by
    rw [List.mem_singleton] at h
    rw [← h, unescapeArg_lit hc]
    exact List.mem_cons_self
  | d :: e :: s, h => by
    by_cases hd : d = ascii '\\'
    · rw [hd, unescapeArg_esc]
      rcases List.mem_cons.mp h with h | h
      · exact absurd (h.trans hd) hc
      rcases List.mem_cons.mp h with h | h
      · exact h ▸ List.mem_cons_self
      · exact List.mem_cons_of_mem e (mem_unescapeArg hc h)
    · rw [unescapeArg_lit hd]
      rcases List.mem_cons.mp h with h | h
      · exact h ▸ List.mem_cons_self
      · exact List.mem_cons_of_mem d (mem_unescapeArg hc h)

/-! ## The end of a string -/

/-- The character that counts as the one in front behind an escaped string. -/
def lastBefore (sep : UInt8) : Option UInt8 → List UInt8 → Option UInt8
  | before, [] => before
  | _, c :: s => lastBefore sep (if c = sep then none else some c) s

theorem stringEnd_escapeWith (hsep : sep ≠ ascii '\\') (t : List UInt8) :
    ∀ (s : List UInt8) (before : Option UInt8),
    stringEnd sep before (escapeWith sep s ++ t) =
      (stringEnd sep (lastBefore sep before s) t).map (· + (escapeWith sep s).length)
  | [], before => by
    show _ = (stringEnd sep before t).map fun n => n + 0
    exact Option.map_id'.symm
  | c :: s, before => by
    by_cases hc : c = sep
    · rw [escapeWith_cons_esc (.inl hc), List.cons_append, List.cons_append, stringEnd,
        if_neg hsep.symm, stringEnd, if_pos hc, if_pos rfl,
        stringEnd_escapeWith hsep t s none, lastBefore, if_pos hc, Option.map_map, Option.map_map]
      rfl
    · by_cases hb : c = ascii '\\'
      · rw [escapeWith_cons_esc (.inr hb), List.cons_append, List.cons_append, stringEnd,
          if_neg hsep.symm, stringEnd, if_neg hc, stringEnd_escapeWith hsep t s (some c),
          lastBefore, if_neg hc, Option.map_map, Option.map_map]
        rfl
      · rw [escapeWith_cons_lit (not_or.mpr ⟨hc, hb⟩), List.cons_append, stringEnd, if_neg hc,
          stringEnd_escapeWith hsep t s (some c), lastBefore, if_neg hc, Option.map_map]
        rfl

/-- A backslash counts behind an escaped string exactly if the string ends in one. -/
theorem lastBefore_eq (hsep : sep ≠ ascii '\\') : ∀ (s : List UInt8)
    (before : Option UInt8), lastBefore sep before s = some (ascii '\\') ↔
      (before.toList ++ s).getLast? = some (ascii '\\')
  | [], before => by
    cases before with
    | none => exact ⟨fun h => (by cases h), fun h => (by cases h)⟩
    | some b => exact Iff.rfl
  | c :: s, before => by
    have hcons : (before.toList ++ c :: s).getLast? = (c :: s).getLast? := by
      cases before with
      | none => rfl
      | some b => exact List.getLast?_cons_cons
    rw [lastBefore, lastBefore_eq hsep s, hcons]
    split
    · rename_i hc
      cases s with
      | nil =>
        rw [hc]
        exact ⟨fun h => (by cases h), fun h => absurd (Option.some.inj h) hsep⟩
      | cons d s =>
        rw [List.getLast?_cons_cons]
        exact Iff.rfl
    · exact Iff.rfl

theorem stringEnd_none : ∀ {s : List UInt8} (before : Option UInt8), term ∉ s →
    stringEnd term before s = none
  | [], _, _ => rfl
  | c :: s, _, h => by
    rw [stringEnd, if_neg fun (hc : c = term) => h (hc ▸ List.mem_cons_self),
      stringEnd_none _ fun hm => h (List.mem_cons_of_mem c hm)]
    rfl

/-- The end of a string is a place where it is. -/
theorem stringEnd_get : ∀ {s : List UInt8} {before : Option UInt8} {l : Nat},
    stringEnd term before s = some l → s[l]? = some term
  | [], _, _, h => by cases h
  | c :: s, before, l, h => by
    rw [stringEnd] at h
    split at h
    · rename_i hc
      split at h
      · obtain ⟨k, hk, rfl⟩ := Option.map_eq_some_iff.mp h
        rw [List.getElem?_cons_succ]
        exact stringEnd_get hk
      · cases h
        rw [hc]
        rfl
    · obtain ⟨k, hk, rfl⟩ := Option.map_eq_some_iff.mp h
      rw [List.getElem?_cons_succ]
      exact stringEnd_get hk

/-! ## Reading strings -/

/-- What is read is what is in front of the end, without its backslashes. -/
theorem readString_plain {ptr : List UInt8} (h : ∀ c, ptr.head? = some c → isQuoteChar c = false)
    (hs : ptr = s ++ t) (hl : (stringEnd (ascii ' ') none ptr).getD ptr.length = s.length) :
    readString ptr = some (unescapeArg s, unescapeArg s ++ t) := by
  have hhead : ptr.head?.filter isQuoteChar = none := by
    cases hp : ptr.head? with
    | none => rfl
    | some c => exact Option.filter_some_neg (by rw [h c hp])
  rw [readString, hhead]
  dsimp only
  rw [hl, hs, List.take_left, List.drop_left]

theorem readString_quoted (h : isQuoteChar term = true) (start : List UInt8) :
    readString (term :: start) = (stringEnd term none start).map fun l =>
      (unescapeArg (start.take l),
        (unescapeArg (start.take l) ++ start.drop l).drop
          ((unescapeArg (start.take l)).length + 1)) := by
  have hhead : (term :: start).head?.filter isQuoteChar = some term := Option.filter_some_pos h
  rw [readString, hhead]
  rfl

/-- A string in quotes is read, if it doesn't end in a backslash. -/
theorem readString_write_quoted (h : s.getLast? ≠ some (ascii '\\')) (t : List UInt8) :
    readString (StringForm.quoted.write s ++ t) = some (s, t) := by
  have hlast : lastBefore (ascii '"') none s ≠ some (ascii '\\') := fun hb =>
    h ((lastBefore_eq (by decide) s none).mp hb)
  have hend : stringEnd (ascii '"') none (escapeWith (ascii '"') s ++ ascii '"' :: t) =
      some (escapeWith (ascii '"') s).length := by
    rw [stringEnd_escapeWith (by decide), stringEnd, if_pos rfl, if_neg hlast]
    exact congrArg some (Nat.zero_add _)
  have htext : StringForm.quoted.write s ++ t =
      ascii '"' :: (escapeWith (ascii '"') s ++ ascii '"' :: t) := by
    rw [StringForm.write, List.cons_append, List.append_assoc]
    rfl
  have hself : unescapeArg (escapeWith (ascii '"') s) = s := by
    have happ := unescapeArg_escapeWith (ascii '"') [] s
    rwa [List.append_nil, show unescapeArg [] = [] from rfl, List.append_nil] at happ
  rw [htext, readString_quoted rfl, hend]
  dsimp only [Option.map_some]
  rw [List.take_left, List.drop_left, hself, ← List.drop_drop, List.drop_left]
  rfl

/-- In quotes a string that ends in a backslash has no end, if no quote follows. -/
theorem readString_write_quoted_none (h : s.getLast? = some (ascii '\\')) (ht : ascii '"' ∉ t) :
    readString (StringForm.quoted.write s ++ t) = none := by
  have hlast : lastBefore (ascii '"') none s = some (ascii '\\') :=
    (lastBefore_eq (by decide) s none).mpr h
  have htext : StringForm.quoted.write s ++ t =
      ascii '"' :: (escapeWith (ascii '"') s ++ ascii '"' :: t) := by
    rw [StringForm.write, List.cons_append, List.append_assoc]
    rfl
  rw [htext, readString_quoted rfl, stringEnd_escapeWith (by decide), stringEnd, if_pos rfl,
    if_pos hlast, stringEnd_none none ht]
  rfl

theorem escapeWith_head {d : UInt8} (h : (escapeWith sep (c :: s) ++ t).head? = some d) :
    d = ascii '\\' ∧ (c = sep ∨ c = ascii '\\') ∨ d = c ∧ ¬ (c = sep ∨ c = ascii '\\') := by
  by_cases hc : c = sep ∨ c = ascii '\\'
  · rw [escapeWith_cons_esc hc] at h
    cases h
    exact .inl ⟨rfl, hc⟩
  · rw [escapeWith_cons_lit hc] at h
    cases h
    exact .inr ⟨rfl, hc⟩

/-- An escaped string doesn't begin with a quote, if the string doesn't. -/
theorem escapeWith_plain (hne : s ≠ []) (hq : ∀ c, s.head? = some c → isQuoteChar c = false)
    (t : List UInt8) :
    ∀ c, (escapeWith (ascii ' ') s ++ t).head? = some c → isQuoteChar c = false := by
  intro d hd
  obtain ⟨c, s, rfl⟩ := List.exists_cons_of_ne_nil hne
  rcases escapeWith_head hd with ⟨rfl, -⟩ | ⟨rfl, -⟩
  · rfl
  · exact hq d rfl

theorem unescapeArg_write (s : List UInt8) :
    unescapeArg (StringForm.unquoted.write s) = s := by
  have happ := unescapeArg_escapeWith (ascii ' ') [] s
  rwa [List.append_nil, show unescapeArg [] = [] from rfl, List.append_nil] at happ

/-- A string without quotes is read up to the blank behind it, if it doesn't end in a backslash. -/
theorem readString_write_unquoted (h : s.getLast? ≠ some (ascii '\\'))
    (hq : ∀ c, s.head? = some c → isQuoteChar c = false) (hne : s ≠ []) (t : List UInt8) :
    readString (StringForm.unquoted.write s ++ ascii ' ' :: t) = some (s, s ++ ascii ' ' :: t) := by
  have hlast : lastBefore (ascii ' ') none s ≠ some (ascii '\\') := fun hb =>
    h ((lastBefore_eq (by decide) s none).mp hb)
  have hend : stringEnd (ascii ' ') none (escapeWith (ascii ' ') s ++ ascii ' ' :: t) =
      some (escapeWith (ascii ' ') s).length := by
    rw [stringEnd_escapeWith (by decide), stringEnd, if_pos rfl, if_neg hlast]
    exact congrArg some (Nat.zero_add _)
  show readString (escapeWith (ascii ' ') s ++ ascii ' ' :: t) = _
  rw [readString_plain (escapeWith_plain hne hq _) rfl (by rw [hend]; rfl)]
  rw [show unescapeArg (escapeWith (ascii ' ') s) = s from unescapeArg_write s]

/-- A string without quotes that ends in a backslash is read on, if no blank follows. -/
theorem readString_write_unquoted_on (h : s.getLast? = some (ascii '\\'))
    (hq : ∀ c, s.head? = some c → isQuoteChar c = false) (ht : ascii ' ' ∉ t) :
    (readString (StringForm.unquoted.write s ++ ascii ' ' :: t)).map Prod.fst =
      some (s ++ unescapeArg (ascii ' ' :: t)) := by
  have hne : s ≠ [] := fun hs => by
    rw [hs] at h
    cases h
  have hlast : lastBefore (ascii ' ') none s = some (ascii '\\') :=
    (lastBefore_eq (by decide) s none).mpr h
  have hend : stringEnd (ascii ' ') none (escapeWith (ascii ' ') s ++ ascii ' ' :: t) = none := by
    rw [stringEnd_escapeWith (by decide), stringEnd, if_pos rfl, if_pos hlast,
      stringEnd_none none ht]
    rfl
  show (readString (escapeWith (ascii ' ') s ++ ascii ' ' :: t)).map Prod.fst = _
  rw [readString_plain (escapeWith_plain hne hq _) (List.append_nil _).symm (by rw [hend]; rfl),
    Option.map_some, unescapeArg_escapeWith]

/-! ## Following arguments -/

/-- Where the search for the next argument comes to. -/
def nextPlace (ptr : List UInt8) : List UInt8 :=
  (ptr.dropWhile (!isCmdBlank ·)).dropWhile isCmdBlank

/-- Characters without a blank that are no comment. -/
structure CmdToken where
  chars : List UInt8
  nonempty : chars ≠ []
  chars_token : ∀ c ∈ chars, isCmdBlank c = false ∧ c ≠ 0
  front : chars.head? ≠ some (ascii '#')

/-- A number that fits an `int`. -/
structure CmdInt where
  neg : Bool
  digits : List UInt8
  nonempty : digits ≠ []
  digits_digit : ∀ c ∈ digits, isDigit c = true
  bound : decimalValue digits ≤ if neg then 0x80000000 else 0x7fffffff

/-- The digits, behind the sign. -/
def CmdInt.text (k : CmdInt) : List UInt8 := if k.neg then ascii '-' :: k.digits else k.digits

/-- The number that is written. -/
def CmdInt.value (k : CmdInt) : Int :=
  if k.neg then -(decimalValue k.digits : Int) else decimalValue k.digits

/-- A string that needs no quotes. -/
structure CmdWord extends CmdToken where
  plain : ascii '\\' ∉ chars
  noQuote : ∀ c, chars.head? = some c → isQuoteChar c = false

/-- The spaces of the C library. -/
def isSpaceByte (c : UInt8) : Bool := c = 32 ∨ 9 ≤ c ∧ c ≤ 13

/-- An argument behind a string. -/
inductive FollowingArg where
  | int (k : CmdInt)
  | float (tok : CmdToken)
  | word (w : CmdWord)

namespace FollowingArg

/-- An argument as it is written. -/
@[grind =] def text : FollowingArg → List UInt8
  | .int k => k.text
  | .float tok => tok.chars
  | .word w => w.chars

/-- The type of the argument. -/
def type : FollowingArg → CmdArgType
  | .int _ => .int
  | .float _ => .float
  | .word _ => .string

variable {F : Type u}

/-- What `mp_input_parse_cmd` stores for it. -/
@[grind =] def value (lib : FloatLib F) : FollowingArg → MpCmdArg F
  | .int k => ⟨.int, .int k.value⟩
  | .float tok => ⟨.float, .float (lib.atof tok.chars)⟩
  | .word w => ⟨.string, .string (some w.chars)⟩

/-- A floating point number is more than spaces and in range. -/
def Ok (lib : FloatLib F) : FollowingArg → Prop
  | .int _ => True
  | .float tok => (∃ c ∈ tok.chars, isSpaceByte c = false) ∧ lib.atofErrno tok.chars = false
  | .word _ => True

end FollowingArg

/-- Arguments behind a string, each with a blank in front of it. -/
def followText (fs : List FollowingArg) : List UInt8 := fs.flatMap fun f => ascii ' ' :: f.text

/-- A number is read up to a blank, unless nothing but spaces is in front of it. -/
def FloatLib.StopsAtBlank {F : Type u} (lib : FloatLib F) : Prop :=
  ∀ tok t : List UInt8, (∀ c ∈ tok, isCmdBlank c = false) → (∃ c ∈ tok, isSpaceByte c = false) →
    lib.atof (tok ++ ascii ' ' :: t) = lib.atof tok ∧
      lib.atofErrno (tok ++ ascii ' ' :: t) = lib.atofErrno tok

theorem digit_class : isDigit c = true → isCmdBlank c = false ∧ c ≠ 0 ∧ c ≠ ascii '#' :=
  forall_byte (P := fun c => isDigit c = true → isCmdBlank c = false ∧ c ≠ 0 ∧ c ≠ ascii '#')
    (by decide +kernel) c

/-- A number is no comment and has no blank. -/
def CmdInt.token (k : CmdInt) : CmdToken where
  chars := k.text
  nonempty := by
    rw [CmdInt.text]
    split
    · exact List.cons_ne_nil _ _
    · exact k.nonempty
  chars_token := by
    rw [CmdInt.text]
    intro c hc
    split at hc
    · rcases List.mem_cons.mp hc with rfl | hc
      · decide
      · exact ⟨(digit_class (k.digits_digit c hc)).1, (digit_class (k.digits_digit c hc)).2.1⟩
    · exact ⟨(digit_class (k.digits_digit c hc)).1, (digit_class (k.digits_digit c hc)).2.1⟩
  front := by
    rw [CmdInt.text]
    split
    · intro h
      cases h
    · intro h
      exact (digit_class (k.digits_digit _ (List.mem_of_head? h))).2.2 rfl

/-- The argument as a token. -/
def FollowingArg.token : FollowingArg → CmdToken
  | .int k => k.token
  | .float tok => tok
  | .word w => w.toCmdToken

theorem FollowingArg.token_chars (f : FollowingArg) : f.token.chars = f.text := by
  cases f with
  | _ => rfl

theorem CmdToken.dropWhile_blank (tok : CmdToken) (t : List UInt8) :
    (tok.chars ++ t).dropWhile isCmdBlank = tok.chars ++ t := by
  obtain ⟨c, s, hcs⟩ := List.exists_cons_of_ne_nil tok.nonempty
  have hc := (tok.chars_token c (by rw [hcs]; exact List.mem_cons_self)).1
  rw [hcs, List.cons_append, List.dropWhile_cons_of_neg (by rw [hc]; exact Bool.false_ne_true)]

theorem followText_dropWhile (fs : List FollowingArg) :
    (followText fs).dropWhile isCmdBlank = (followText fs).drop 1 := by
  cases fs with
  | nil => rfl
  | cons f fs =>
    have htext : followText (f :: fs) = ascii ' ' :: (f.token.chars ++ followText fs) := by
      rw [followText, List.flatMap_cons, f.token_chars]
      rfl
    rw [htext, List.dropWhile_cons_of_pos rfl, f.token.dropWhile_blank]
    rfl

theorem nextPlace_token (tok : CmdToken) (fs : List FollowingArg) :
    nextPlace (tok.chars ++ followText fs) = (followText fs).drop 1 := by
  have hall : ∀ c ∈ tok.chars, (!isCmdBlank c) = true := fun c hc => by
    rw [(tok.chars_token c hc).1]
    rfl
  have hstay : (followText fs).dropWhile (!isCmdBlank ·) = followText fs := by
    cases fs with
    | nil => rfl
    | cons f fs => rfl
  rw [nextPlace, List.dropWhile_append_of_pos hall, hstay, followText_dropWhile]

theorem nextArg_of_place {ptr : List UInt8} {tok : CmdToken} (h : nextPlace ptr = tok.chars ++ t) :
    nextArg ptr = some (tok.chars ++ t) := by
  obtain ⟨c, s, hcs⟩ := List.exists_cons_of_ne_nil tok.nonempty
  have hfront : c ≠ ascii '#' := fun hc => tok.front (by rw [hcs, hc]; rfl)
  rw [nextArg, ← nextPlace, h, hcs, List.cons_append]
  exact if_neg hfront

theorem toInt32_of_bounds {n : Int} (h : -0x80000000 ≤ n) (h' : n ≤ 0x7fffffff) :
    toInt32 n = n := by
  rw [toInt32]
  omega

/-- A number is read up to what is no digit. -/
theorem CmdInt.atoi_eq (k : CmdInt) (ht : ∀ c, t.head? = some c → isDigit c = false) :
    atoi (k.text ++ t) = k.value ∧ atoiErrno (k.text ++ t) = false := by
  have hbound := k.bound
  obtain ⟨d, ds, hds⟩ := List.exists_cons_of_ne_nil k.nonempty
  have hfront := isDigit_front (k.digits_digit d (by rw [hds]; exact List.mem_cons_self))
  have htake := takeWhile_run k.digits_digit ht
  cases hneg : k.neg with
  | false =>
    rw [hneg, if_neg Bool.false_ne_true] at hbound
    have htext : k.text ++ t = k.digits ++ t := by rw [CmdInt.text, hneg]; rfl
    have hdrop : (k.digits ++ t).dropWhile (fun c => c = 32 ∨ 9 ≤ c ∧ c ≤ 13) =
        k.digits ++ t := by
      rw [hds]
      exact List.dropWhile_cons_of_neg fun h => hfront.1 (of_decide_eq_true h)
    have hsign : splitSign (k.digits ++ t) = (false, k.digits ++ t) := by
      rw [hds, List.cons_append, splitSign, if_neg hfront.2.1, if_neg hfront.2.2]
    constructor
    · rw [htext, atoi, strtolDecimal_digits k.nonempty k.digits_digit ht, CmdInt.value, hneg]
      show toInt32 (min (decimalValue k.digits : Int) llongMax) = (decimalValue k.digits : Int)
      rw [llongMax, toInt32_of_bounds (by omega) (by omega)]
      omega
    · rw [htext, atoiErrno, hdrop, hsign]
      dsimp only
      rw [htake, if_neg Bool.false_ne_true, llongMax]
      exact decide_eq_false (by omega)
  | true =>
    rw [hneg, if_pos rfl] at hbound
    have htext : k.text ++ t = ascii '-' :: (k.digits ++ t) := by rw [CmdInt.text, hneg]; rfl
    have hdrop : (ascii '-' :: (k.digits ++ t)).dropWhile
        (fun c => c = 32 ∨ 9 ≤ c ∧ c ≤ 13) = ascii '-' :: (k.digits ++ t) :=
      List.dropWhile_cons_of_neg (by decide)
    have hsign : splitSign (ascii '-' :: (k.digits ++ t)) = (true, k.digits ++ t) := rfl
    constructor
    · rw [htext, atoi, strtolDecimal, hdrop, hsign]
      dsimp only
      rw [htake, if_neg k.nonempty, if_pos rfl, CmdInt.value, hneg]
      show toInt32 (max (-(decimalValue k.digits : Int)) (-llongMax - 1)) =
        -(decimalValue k.digits : Int)
      rw [llongMax, toInt32_of_bounds (by omega) (by omega)]
      omega
    · rw [htext, atoiErrno, hdrop, hsign]
      dsimp only
      rw [htake, if_pos rfl, llongMax]
      exact decide_eq_false (by omega)

section Reading

variable {F : Type u} {lib : FloatLib F}

theorem followText_cases (fs : List FollowingArg) :
    followText fs = [] ∨ ∃ t, followText fs = ascii ' ' :: t := by
  cases fs with
  | nil => exact .inl rfl
  | cons f fs => exact .inr ⟨_, rfl⟩

/-- A string that needs no quotes is read as it stands. -/
theorem CmdWord.readString_eq (w : CmdWord) (fs : List FollowingArg) :
    readString (w.chars ++ followText fs) = some (w.chars, w.chars ++ followText fs) := by
  have hblank : ∀ c ∈ w.chars, ¬ (c = ascii ' ' ∨ c = ascii '\\') := fun c hc h => by
    rcases h with h | h
    · rw [h] at hc
      cases (w.chars_token _ hc).1
    · exact w.plain (h ▸ hc)
  have hesc : ∀ {s : List UInt8}, (∀ c ∈ s, ¬ (c = ascii ' ' ∨ c = ascii '\\')) →
      escapeWith (ascii ' ') s = s := by
    intro s
    induction s with
    | nil => exact fun _ => rfl
    | cons c s ih =>
      intro h
      rw [escapeWith_cons_lit (h c List.mem_cons_self),
        ih fun d hd => h d (List.mem_cons_of_mem c hd)]
  have hlast : w.chars.getLast? ≠ some (ascii '\\') := fun h =>
    w.plain (List.mem_of_getLast? h)
  have hwrite : StringForm.unquoted.write w.chars = w.chars := hesc hblank
  rcases followText_cases fs with h | ⟨t, h⟩
  · have hnone : stringEnd (ascii ' ') none (w.chars ++ []) = none := by
      rw [List.append_nil]
      exact stringEnd_none none fun hm => hblank _ hm (.inl rfl)
    rw [h, readString_plain (t := []) (by rw [List.append_nil]; exact w.noQuote) rfl
      (by rw [hnone, List.append_nil]; rfl), unescapeArg_eq_self w.plain]
  · have hread := readString_write_unquoted hlast w.noQuote w.nonempty t
    rw [hwrite] at hread
    rw [h]
    exact hread

theorem readArg_following (hlib : lib.StopsAtBlank) (f : FollowingArg) (hf : f.Ok lib)
    (fs : List FollowingArg) : readArg lib f.type (f.text ++ followText fs) =
      (f.value lib, some (f.text ++ followText fs)) := by
  cases f with
  | int k =>
    have hdigit : ∀ c, (followText fs).head? = some c → isDigit c = false := fun c hc => by
      rcases followText_cases fs with h | ⟨t, h⟩
      · rw [h] at hc
        cases hc
      · rw [h] at hc
        cases hc
        rfl
    obtain ⟨hval, herr⟩ := k.atoi_eq hdigit
    show (_, _) = _
    rw [show FollowingArg.text (.int k) = k.text from rfl, hval, herr]
    rfl
  | float tok =>
    have hstop : lib.atof (tok.chars ++ followText fs) = lib.atof tok.chars ∧
        lib.atofErrno (tok.chars ++ followText fs) = lib.atofErrno tok.chars := by
      rcases followText_cases fs with h | ⟨t, h⟩
      · rw [h, List.append_nil]
        exact ⟨rfl, rfl⟩
      · rw [h]
        exact hlib _ t (fun c hc => (tok.chars_token c hc).1) hf.1
    have hok : lib.atofErrno tok.chars = false := hf.2
    show (_, _) = _
    rw [show FollowingArg.text (.float tok) = tok.chars from rfl, hstop.1, hstop.2, hok]
    rfl
  | word w =>
    show (_, _) = _
    rw [show FollowingArg.text (.word w) = w.chars from rfl, w.readString_eq fs]
    rfl

/-- The arguments behind a string are read, if the search for them comes to the first one. -/
theorem readArgs_following (hlib : lib.StopsAtBlank) : ∀ (fs : List FollowingArg)
    {ds : List (MpCmdArg F)} {more : List CmdArgType} {ptr : List UInt8},
    (∀ f ∈ fs, f.Ok lib) → ds.map MpCmdArg.type = fs.map FollowingArg.type ++ more →
    nextPlace ptr = (followText fs).drop 1 →
    readArgs lib ds ptr = fs.map (FollowingArg.value lib)
  | [], ds, more, ptr, _, _, hplace => by
    have hnone : nextArg ptr = none := by
      rw [nextArg, ← nextPlace, hplace]
      rfl
    cases ds with
    | nil => rfl
    | cons d ds =>
      rw [readArgs, hnone]
      rfl
  | f :: fs, [], more, ptr, _, htypes, _ => by cases htypes
  | f :: fs, d :: ds, more, ptr, hok, htypes, hplace => by
    have htype : d.type = f.type := (List.cons.inj htypes).1
    have htext : (followText (f :: fs)).drop 1 = f.token.chars ++ followText fs := by
      rw [followText, List.flatMap_cons, f.token_chars]
      rfl
    rw [htext] at hplace
    have hread := readArg_following hlib f (hok f List.mem_cons_self) fs
    have hnext : nextPlace (f.text ++ followText fs) = (followText fs).drop 1 := by
      rw [← f.token_chars]
      exact nextPlace_token f.token fs
    rw [readArgs, nextArg_of_place hplace, htype, f.token_chars]
    dsimp only
    rw [hread]
    dsimp only
    rw [readArgs_following hlib fs (fun g hg => hok g (List.mem_cons_of_mem f hg))
      (List.cons.inj htypes).2 hnext, List.map_cons]

end Reading

end MPlayer
