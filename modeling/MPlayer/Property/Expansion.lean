import MPlayer.Property.Meaning

/-!
# Expansion and meaning

A turn of the loop takes the next token, except that the code and the language do not take the
same characters for `\x`.  `Ready` is the state between the tokens.  What a run writes is set
against the text of the tokens (`CodeOf`), and a run on a clean template is followed to its end
(`Outcome`).
-/

namespace MPlayer.Property

variable {V : Type}

/-! ## Turns of the loop -/

variable {str rest v text : CStr} {s' : Expand} {l : Nat} {c : Char} {ts : List Token}

theorem scanEscape_length {s : Expand} (h : scanEscape str s = some (rest, s', l)) :
    rest.length ≤ str.length := by
  unfold scanEscape at h
  split at h
  case h_6 =>
    split at h
    · cases h
      exact Nat.le_succ _
    · cases h
      exact (List.drop_sublist _ _).length_le
  all_goals cases h <;> simp

theorem scan_length {propList : List (MProperty V)} {s : Expand}
    (h : scan propList c str s = some (rest, s', l)) : rest.length ≤ str.length := by
  unfold scan at h
  split at h
  · exact scanEscape_length h
  · split at h
    · cases h
      exact Nat.le_refl _
    · split at h
      · rename_i hsubst
        split at hsubst
        · have hlen := between_length hsubst
          unfold scanSubst at h
          simp only at h
          split at h
          · obtain ⟨k, hk, he⟩ := Option.bind_eq_some_iff.1 h
            cases he
            exact hlen
          · cases h
            exact hlen
        · cases hsubst
      · split at h
        · rename_i hcond
          split at hcond
          · have hlen := between_length hcond
            cases h
            exact hlen
          · cases hcond
        · cases h
          exact Nat.le_refl _

/-- The loop for as long as the template lasts. -/
def run (propList : List (MProperty V)) (str : CStr) (s : Expand) : Option Expand :=
  expandLoop propList str.length str s

theorem expandLoop_eq_run (propList : List (MProperty V)) {fuel : Nat} (h : str.length ≤ fuel)
    (s : Expand) : expandLoop propList fuel str s = run propList str s := by
  unfold run
  induction fuel using Nat.strongRecOn generalizing str s with
  | ind fuel ih =>
    cases str with
    | nil => cases fuel <;> rfl
    | cons c str =>
      obtain ⟨fuel, rfl⟩ := Nat.exists_eq_add_of_lt (Nat.lt_of_lt_of_le (Nat.succ_pos _) h)
      rw [Nat.zero_add] at h ih ⊢
      rw [List.length_cons] at h ⊢
      unfold expandLoop
      cases hscan : scan propList c str s with
      | none => rfl
      | some r =>
        obtain ⟨rest, s', l⟩ := r
        have hlen := scan_length hscan
        cases hemit : emit s' l with
        | none => simp only [hemit]
        | some s'' =>
          simp only [hemit]
          rw [ih fuel (Nat.lt_succ_self _) (by omega), ih str.length (by omega) hlen]

/-- One turn. -/
theorem run_cons {propList : List (MProperty V)} {s : Expand}
    (h : scan propList c str s = some (rest, s', l)) :
    run propList (c :: str) s = (emit s' l).bind (run propList rest) := by
  conv_lhs => unfold run
  rw [List.length_cons, expandLoop, h]
  cases hemit : emit s' l with
  | none => simp [hemit]
  | some s'' => simp [hemit, expandLoop_eq_run propList (scan_length h)]

theorem run_cons_none {propList : List (MProperty V)} {s : Expand}
    (h : scan propList c str s = none) : run propList (c :: str) s = none := by
  unfold run
  rw [List.length_cons, expandLoop, h]

/-- `p` points to text that begins with a character, and not to a printed string. -/
def Ptr.Shows (p : Ptr) (a : Char) : Prop :=
  p.id = none ∧ ∀ s : Expand, ∃ v, ({ s with p := p }).text = some (a :: v)

theorem Ptr.shows_literal (a : Char) : (Ptr.literal [a]).Shows a := ⟨rfl, fun _ => ⟨[], rfl⟩⟩

theorem Ptr.shows_numVal (a : Char) : (Ptr.numVal a).Shows a := ⟨rfl, fun _ => ⟨[], rfl⟩⟩

theorem Ptr.shows_template (a : Char) (str : CStr) : (Ptr.template (a :: str)).Shows a :=
  ⟨rfl, fun _ => ⟨str, rfl⟩⟩

/-- What a turn makes of the next token.  Those of `\x` are left out: the code and the language
do not take the same characters for it. -/
inductive Turn (propList : List (MProperty V)) (s : Expand) (c : Char) (str : CStr) : Prop where
  | char {a : Char} {rest : CStr} {p : Ptr}
      (htoken : token (0 < s.lvl) c str = (.char a, rest))
      (hscan : scan propList c str s = some (rest, { s with p := p }, 1)) (hp : p.Shows a)
  | hex {rest : CStr} (hc : c = '\\') (hstr : str = 'x' :: rest)
  | trailing (htoken : token (0 < s.lvl) c str = (.trailing, []))
      (hscan : scan propList c str s = none)
  | close (hlvl : 0 < s.lvl) (htoken : token (0 < s.lvl) c str = (.close, str))
      (hscan : scan propList c str s = some (str, scanClose s, 0))
  | subst {name rest : CStr} (htoken : token (0 < s.lvl) c str = (.subst name, rest))
      (hscan : scan propList c str s = scanSubst propList name rest s)
  | cond {isNot : Bool} {name rest : CStr}
      (htoken : token (0 < s.lvl) c str = (.cond isNot name, rest))
      (hscan : scan propList c str s = some (rest, scanCond propList isNot name s, 0))

theorem turn_escape (propList : List (MProperty V)) (s : Expand) (str : CStr) :
    Turn propList s '\\' str := by
  have htoken : token (0 < s.lvl) '\\' str = escapeToken str := by simp [token]
  have hscan : scan propList '\\' str s = scanEscape str s := by simp [scan]
  unfold escapeToken at htoken
  split at htoken
  · exact .trailing htoken hscan
  · exact .char htoken hscan (Ptr.shows_literal _)
  · exact .char htoken hscan (Ptr.shows_literal _)
  · exact .char htoken hscan (Ptr.shows_literal _)
  · exact .char htoken hscan (Ptr.shows_literal _)
  · exact .hex rfl rfl
  · exact .hex rfl rfl
  · rename_i c str he hn hr ht _ hx
    have hother : scanEscape (c :: str) s =
        some (str, { s with p := .template (c :: str) }, 1) := by
      unfold scanEscape
      split
      all_goals simp_all
    exact .char htoken (hscan.trans hother) (Ptr.shows_template _ _)

/-- Every turn is one of these. -/
theorem turn (propList : List (MProperty V)) (s : Expand) (c : Char) (str : CStr) :
    Turn propList s c str := by
  by_cases hc : c = '\\'
  · subst hc
    exact turn_escape propList s str
  by_cases hclose : 0 < s.lvl ∧ c = ')'
  · refine .close hclose.1 ?_ ?_
    · rw [token, if_neg hc, if_pos (by simpa using hclose)]
    · rw [scan, if_neg hc, if_pos hclose]
  cases hsubst : (if c = '$' then between '{' '}' str else none) with
  | some r =>
    refine @Turn.subst _ _ _ _ _ r.1 r.2 ?_ ?_
    · rw [token, if_neg hc, if_neg (by simpa using hclose), hsubst]
    · rw [scan, if_neg hc, if_neg hclose, hsubst]
  | none =>
    cases hcond : (if c = '?' then between '(' ':' str else none) with
    | some r =>
      obtain ⟨name, rest⟩ := r
      have hscan : scan propList c str s =
          some (rest, scanCond propList (decide (name.head? = some '!'))
            (if decide (name.head? = some '!') then name.tail else name) s, 0) := by
        rw [scan, if_neg hc, if_neg hclose, hsubst]
        simp only [hcond]
      have htoken : token (0 < s.lvl) c str =
          (.cond (decide (name.head? = some '!'))
            (if decide (name.head? = some '!') then name.tail else name), rest) := by
        rw [token, if_neg hc, if_neg (by simpa using hclose), hsubst]
        simp only [hcond]
        split
        · rename_i h
          cases h
          rfl
        · rename_i hne h
          cases h
          have hhead : name.head? ≠ some '!' := by
            cases name with
            | nil => simp
            | cons d name => simpa using fun hd : d = '!' => hne name (hd ▸ rfl)
          simp [hhead]
        · rename_i h
          cases h
      exact .cond htoken hscan
    | none =>
      refine @Turn.char _ _ _ _ _ c str (.template (c :: str)) ?_ ?_ (Ptr.shows_template c str)
      · rw [token, if_neg hc, if_neg (by simpa using hclose), hsubst]
        simp only [hcond]
      · rw [scan, if_neg hc, if_neg hclose, hsubst]
        simp only [hcond]

/-! ## Writing -/

/-- The state with more text in `ret`. -/
def Expand.write (s : Expand) (p : Ptr) (v : CStr) : Expand :=
  { s with p := p, ret := s.ret ++ v, size := grow s.size s.ret.length v.length }

theorem emit_skip {s : Expand} (h : s.skip = true) (l : Nat) : emit s l = some s := by
  simp [emit, h]

theorem emit_zero (s : Expand) : emit s 0 = some s := by
  simp [emit]

/-- Text that `p` points to is written if the size is an `int`. -/
theorem emit_text {s : Expand} (hskip : s.skip = false) (hl : 0 < l) (htext : s.text = some v)
    (hv : l ≤ v.length) :
    emit s l =
      if intMax < grow s.size s.ret.length l then none
      else some { s with
        ret := s.ret ++ v.take l
        size := grow s.size s.ret.length l
        fr := false
        freed := if s.fr then s.p.id :: s.freed else s.freed } := by
  have hroom : ¬ (v.length < l ∨ grow s.size s.ret.length l < s.ret.length + l) := by
    unfold grow
    split <;> omega
  rw [emit, if_neg (by simp [hskip]; omega)]
  simp only [htext]
  rw [if_neg hroom]

/-- A character of the template is written and nothing is freed. -/
theorem emit_char {s : Expand} {p : Ptr} {a : Char} (hskip : s.skip = false)
    (hfr : s.fr = false) (hp : p.Shows a) :
    emit { s with p := p } 1 =
      if intMax < grow s.size s.ret.length 1 then none else some (s.write p [a]) := by
  obtain ⟨v, hv⟩ := hp.2 s
  rw [emit_text (s := { s with p := p }) hskip Nat.one_pos hv (by simp)]
  simp [Expand.write, hfr]

/-- A printed string is written and freed. -/
theorem emit_printed {s : Expand} (hskip : s.skip = false) (hv : v ≠ [])
    (hfresh : some s.printed ∉ s.freed) :
    emit { s with p := .heap s.printed v, printed := s.printed + 1, fr := true } v.length =
      if intMax < grow s.size s.ret.length v.length then none
      else some { s.write (.heap s.printed v) v with
        printed := s.printed + 1, fr := false, freed := some s.printed :: s.freed } := by
  have htext : Expand.text
      { s with p := .heap s.printed v, printed := s.printed + 1, fr := true } = some v := by
    simp [Expand.text, hfresh]
  have hemit := emit_text
    (s := { s with p := .heap s.printed v, printed := s.printed + 1, fr := true }) hskip
    (List.length_pos_iff.2 hv) htext (Nat.le_refl _)
  rw [hemit]
  simp [Expand.write, Ptr.id]

/-! ## The state between tokens -/

/-- Inside of the conditions `conds`, the innermost first: text is skipped if one of them does not
hold, and `skipLvl` is the level of the outermost of those. -/
structure Ready (s : Expand) (conds : List Bool) : Prop where
  fr : s.fr = false
  freed : s.AllFreed
  lvl : s.lvl = conds.length
  skip : s.skip = decide (false ∈ conds)
  skipLvl : ∀ inner outer, conds = inner ++ false :: outer → false ∉ outer →
    s.skipLvl = outer.length + 1

variable {propList : List (MProperty V)} {s : Expand} {conds : List Bool}

theorem Ready.withPtr (h : Ready s conds) (p : Ptr) : Ready { s with p := p } conds :=
  ⟨h.fr, h.freed, h.lvl, h.skip, h.skipLvl⟩

theorem Ready.write (h : Ready s conds) (p : Ptr) (v : CStr) : Ready (s.write p v) conds :=
  ⟨h.fr, h.freed, h.lvl, h.skip, h.skipLvl⟩

theorem Ready.fresh (h : Ready s conds) : some s.printed ∉ s.freed := fun hmem => by
  have := h.freed.mem_iff.1 hmem
  simp at this

/-- A printed string that is written is freed. -/
theorem Ready.printed (h : Ready s conds) (p : Ptr) (v : CStr) :
    Ready { s.write p v with
      printed := s.printed + 1, fr := false, freed := some s.printed :: s.freed } conds := by
  refine ⟨rfl, ?_, h.lvl, h.skip, h.skipLvl⟩
  unfold Expand.AllFreed
  rw [List.range_succ, List.map_append]
  exact (List.Perm.cons _ h.freed).trans (List.perm_append_comm : ([some s.printed] ++ _).Perm _)

/-- A condition is entered. -/
theorem Ready.cond (h : Ready s conds) (isNot : Bool) (name : CStr) :
    Ready (scanCond propList isNot name s) (condHolds propList isNot name :: conds) := by
  have hholds : condHolds propList isNot name =
      (decide (0 ≤ mPropertyProbe propList name) != isNot) := rfl
  by_cases hin : false ∈ conds
  · have hs : scanCond propList isNot name s = { s with lvl := s.lvl + 1 } := by
      simp [scanCond, h.skip, hin]
    rw [hs]
    refine ⟨h.fr, h.freed, congrArg (· + 1) h.lvl, ?_, ?_⟩
    · simp [h.skip, hin]
    · intro inner outer he hout
      cases inner with
      | nil => exact absurd ((List.cons.inj he).2 ▸ hin) hout
      | cons b inner => exact h.skipLvl inner outer (List.cons.inj he).2 hout
  · have hskip : s.skip = false := by simp [h.skip, hin]
    -- the condition is the only one that may fail
    have hlast : ∀ inner outer, condHolds propList isNot name :: conds = inner ++ false :: outer →
        condHolds propList isNot name = false ∧ outer = conds := by
      intro inner outer he
      cases inner with
      | nil => exact ⟨(List.cons.inj he).1, (List.cons.inj he).2.symm⟩
      | cons b inner =>
        have hmem : false ∈ conds := (List.cons.inj he).2 ▸ by simp
        exact absurd hmem hin
    cases hc : condHolds propList isNot name with
    | true =>
      have hs : scanCond propList isNot name s = { s with lvl := s.lvl + 1 } := by
        grind [scanCond]
      rw [hs]
      refine ⟨h.fr, h.freed, congrArg (· + 1) h.lvl, by simp [hskip, hin], ?_⟩
      intro inner outer he hout
      exact absurd (hlast inner outer (hc ▸ he)).1 (by simp [hc])
    | false =>
      have hs : scanCond propList isNot name s =
          { s with lvl := s.lvl + 1, skip := true, skipLvl := s.lvl + 1 } := by
        grind [scanCond]
      rw [hs]
      refine ⟨h.fr, h.freed, congrArg (· + 1) h.lvl, by simp, ?_⟩
      intro inner outer he hout
      rw [(hlast inner outer (hc ▸ he)).2]
      exact congrArg (· + 1) h.lvl

/-- A condition is left. -/
theorem Ready.close {b : Bool} (h : Ready s (b :: conds)) : Ready (scanClose s) conds := by
  have hlvl : s.lvl = conds.length + 1 := h.lvl
  refine ⟨h.fr, h.freed, by simp [scanClose, hlvl], ?_, ?_⟩
  · by_cases hin : false ∈ conds
    · -- an outer condition does not hold either
      obtain ⟨inner, outer, he, hout⟩ : ∃ inner outer, conds = inner ++ false :: outer ∧
          false ∉ outer := by
        obtain ⟨pre, suf, he, hpre⟩ := List.eq_append_cons_of_mem (List.mem_reverse.2 hin)
        refine ⟨suf.reverse, pre.reverse, ?_, by simpa using hpre⟩
        simpa using congrArg List.reverse he
      have hl := h.skipLvl (b :: inner) outer (by rw [he]; rfl) hout
      have hlt : s.skipLvl < s.lvl := by
        rw [hl, hlvl, he, List.length_append, List.length_cons]
        omega
      have hskip : s.skip = true := by simp [h.skip, hin]
      simp [scanClose, hskip, hin]
      omega
    · cases b with
      | true =>
        have hskip : s.skip = false := by simp [h.skip, hin]
        simp [scanClose, hskip, hin]
      | false =>
        have hl := h.skipLvl [] conds rfl hin
        simp [scanClose, hin, hl, hlvl]
  · intro inner outer he hout
    exact h.skipLvl (b :: inner) outer (by rw [he]; rfl) hout

/-! ## Hexadecimal escapes -/

/-- What the code makes of `\x` in front of `rest`.  It goes on with the second of two digits, and
takes a number for what is none. -/
inductive HexTurn (propList : List (MProperty V)) (s : Expand) (rest : CStr) : Prop where
  | finish (hrest : rest = []) (hscan : scan propList '\\' ('x' :: rest) s = some ([], s, 0))
  | good {a b c : Char} {rest' : CStr} (hrest : rest = a :: b :: rest')
      (hchar : hexChar a b = some c) (hb : IsHex b)
      (hscan : scan propList '\\' ('x' :: rest) s = some (b :: rest', { s with p := .numVal c }, 1))
  | bad {v : Char} {rest' : CStr} (hnone : ∀ a b l, rest = a :: b :: l → hexChar a b = none)
      (hv : v ≠ 'x')
      (hrest : rest' = 'x' :: rest ∨ rest' = rest ∨ ∃ a, rest = a :: rest' ∧ IsPlain a)
      (hscan : scan propList '\\' ('x' :: rest) s = some (rest', { s with p := .numVal v }, 1))

theorem hexTurn (propList : List (MProperty V)) (s : Expand) (rest : CStr) :
    HexTurn propList s rest := by
  have hscan : scan propList '\\' ('x' :: rest) s = scanEscape ('x' :: rest) s := by simp [scan]
  by_cases hempty : rest = []
  · refine .finish hempty (hscan.trans ?_)
    simp [scanEscape, hempty]
  have hlen : (rest.take 2).length ≤ 2 := List.length_take_le 2 rest
  by_cases hgood : ∃ a b l c, rest = a :: b :: l ∧ hexChar a b = some c
  · obtain ⟨a, b, l, c, rfl, hc⟩ := hgood
    obtain ⟨n, hn, he⟩ := strtoll_hexChar hc
    refine .good rfl hc (hexChar_eq hc).2.1 (hscan.trans ?_)
    simp [scanEscape, hn, he]
  · have hnone : ∀ a b l, rest = a :: b :: l → hexChar a b = none := fun a b l he =>
      Option.eq_none_iff_forall_ne_some.2 fun c hc => hgood ⟨a, b, l, c, he, hc⟩
    obtain ⟨n, stop, hn, h1, h2, hstop, hplain⟩ := strtoll_not_hexChar hlen fun a b hab => by
      obtain ⟨l, hl⟩ : ∃ l, rest = a :: b :: l := ⟨rest.drop 2, by
        rw [← List.take_append_drop 2 rest, hab]
        simp⟩
      exact hnone a b l hl
    refine @HexTurn.bad V propList s rest _
      (('x' :: rest).drop ((rest.take 2).length - stop.length)) hnone (numVal_ne_x h1 h2) ?_
      (hscan.trans ?_)
    · have hcases : (rest.take 2).length - stop.length = 0 ∨
          (rest.take 2).length - stop.length = 1 ∨ (rest.take 2).length - stop.length = 2 := by
        omega
      rcases hcases with h0 | h0 | h0
      · exact .inl (by rw [h0]; rfl)
      · exact .inr (.inl (by rw [h0]; rfl))
      · obtain ⟨a, l, rfl⟩ := List.exists_cons_of_ne_nil hempty
        exact .inr (.inr ⟨a, by rw [h0]; rfl, hplain h0.ge a rfl⟩)
    · simp [scanEscape, hempty, hn]

theorem token_hex (inside : Bool) {a b : Char} (h : hexChar a b = some c) (rest : CStr) :
    token inside '\\' ('x' :: a :: b :: rest) = (.hex c, rest) := by
  simp [token, escapeToken, h]

theorem token_not_hex (inside : Bool) (h : ∀ a b l, rest = a :: b :: l → hexChar a b = none) :
    token inside '\\' ('x' :: rest) = (.hex 'x', rest) := by
  rcases rest with _ | ⟨a, _ | ⟨b, l⟩⟩
  · rfl
  · rfl
  · simp [token, escapeToken, h a b l rfl]

theorem scan_plain (propList : List (MProperty V)) (h : IsPlain c) (str : CStr) (s : Expand) :
    scan propList c str s = some (str, { s with p := .template (c :: str) }, 1) := by
  simp [scan, h.1, h.2.1, h.2.2.1, h.2.2.2]

theorem token_plain (inside : Bool) (h : IsPlain c) (str : CStr) :
    token inside c str = (.char c, str) := by
  simp [token, h.1, h.2.1, h.2.2.1, h.2.2.2]

theorem tokens_cons {n : Nat} {t : Token} (h : token (0 < n) c str = (t, rest)) :
    tokens n (c :: str) = t :: tokens (t.depth n) rest := by
  rw [tokens, h]

/-- Characters, however they are written. -/
def Token.IsText : Token → Prop
  | char _ | hex _ => True
  | _ => False

/-- In text that is skipped, code and language meet again behind an escape. -/
theorem run_hex_skip {propList : List (MProperty V)} {s : Expand} (hskip : s.skip = true)
    (rest : CStr) :
    ∃ p rest' pre, run propList ('\\' :: 'x' :: rest) s = run propList rest' { s with p := p } ∧
      rest'.length ≤ rest.length ∧
      tokens s.lvl ('\\' :: 'x' :: rest) = pre ++ tokens s.lvl rest' ∧
      ∀ t ∈ pre, t.IsText := by
  -- a turn that writes nothing
  have hturn : ∀ {c : Char} {str str' : CStr} {s s' : Expand} {l : Nat},
      s'.skip = true → scan propList c str s = some (str', s', l) →
        run propList (c :: str) s = run propList str' s' := by
    intro c str str' s s' l hs h
    rw [run_cons h, emit_skip hs, Option.bind_some]
  have hptr : ∀ {c : Char} {str str' : CStr} {s' : Expand} (p : Ptr) {l : Nat},
      scan propList c str s' = some (str', { s with p := p }, l) →
        run propList (c :: str) s' = run propList str' { s with p := p } := fun _ _ h =>
    hturn hskip h
  have hplain : ∀ {c : Char} (_ : IsPlain c) (str : CStr) (p : Ptr),
      run propList (c :: str) { s with p := p } =
        run propList str { s with p := .template (c :: str) } := fun hc str p =>
    hptr _ (scan_plain propList hc str _)
  rcases hexTurn propList s rest with ⟨rfl, hscan⟩ | ⟨rfl, hchar, hb, hscan⟩ |
    ⟨hnone, -, hrest, hscan⟩
  · refine ⟨s.p, [], [.hex 'x'], hturn hskip hscan, Nat.le_refl _, ?_, by simp [Token.IsText]⟩
    exact tokens_cons (token_not_hex _ (by simp))
  · rename_i a b c rest'
    refine ⟨_, rest', [.hex c], (hptr (.numVal c) hscan).trans (hplain hb.isPlain rest' _),
      by simp only [List.length_cons]; omega, ?_, by simp [Token.IsText]⟩
    exact tokens_cons (token_hex _ hchar rest')
  · rename_i v rest'
    have hfirst := hptr (.numVal v) hscan
    have htokens : tokens s.lvl ('\\' :: 'x' :: rest) = .hex 'x' :: tokens s.lvl rest :=
      tokens_cons (token_not_hex _ hnone)
    rcases hrest with rfl | rfl | ⟨a, rfl, ha⟩
    · have hx : IsPlain 'x' := by simp [IsPlain]
      exact ⟨_, rest, [.hex 'x'], hfirst.trans (hplain hx rest _), Nat.le_refl _, htokens,
        by simp [Token.IsText]⟩
    · exact ⟨_, rest', [.hex 'x'], hfirst, Nat.le_refl _, htokens, by simp [Token.IsText]⟩
    · refine ⟨_, rest', [.hex 'x', .char a], hfirst, by simp, ?_, by simp [Token.IsText]⟩
      rw [htokens, tokens_cons (token_plain _ ha rest')]
      rfl

theorem pieces_skip {conds : List Bool} (h : false ∈ conds) {pre : List Token}
    (hpre : ∀ t ∈ pre, t.IsText) (ts : List Token) :
    pieces propList conds (pre ++ ts) = pieces propList conds ts := by
  induction pre with
  | nil => rfl
  | cons t pre ih =>
    have ih := ih fun t ht => hpre t (List.mem_cons_of_mem _ ht)
    have ht := hpre t List.mem_cons_self
    cases t <;> simp_all [pieces, Token.IsText]

theorem clean_skip {conds : List Bool} (h : false ∈ conds) {pre : List Token}
    (hpre : ∀ t ∈ pre, t.IsText) (ts : List Token) :
    Clean propList conds (pre ++ ts) ↔ Clean propList conds ts := by
  induction pre with
  | nil => rfl
  | cons t pre ih =>
    have ih := ih fun t ht => hpre t (List.mem_cons_of_mem _ ht)
    have ht := hpre t List.mem_cons_self
    cases t <;> simp_all [Clean, Token.IsText]

/-! ## Substitutions -/

/-- A string that was printed is the next one on the heap. -/
theorem scanSubst_printed {name : CStr} (hname : printed propList name = some v) (rest : CStr)
    {s : Expand} (hfresh : some s.printed ∉ s.freed) :
    scanSubst propList name rest s = some (rest,
      { s with p := .heap s.printed v, printed := s.printed + 1, fr := true }, v.length) := by
  unfold printed at hname
  unfold scanSubst
  rcases hprint : mPropertyPrint propList name with ⟨r, st⟩
  rw [hprint] at hname
  cases st with
  | untouched => cases hname
  | null => cases hname
  | str w =>
    have hr : 0 ≤ r ∧ w = v := by simpa using hname
    obtain ⟨hr, rfl⟩ := hr
    simp [Expand.store, hr, Expand.strlen, Expand.text, hfresh]

/-- Nothing is written otherwise. -/
theorem scanSubst_none (hprop : PrintsOrFails propList) {name : CStr}
    (hname : printed propList name = none) (rest : CStr) (s : Expand) :
    ∃ p, scanSubst propList name rest s = some (rest, { s with p := p }, 0) := by
  have hp := hprop name
  unfold printed at hname
  unfold scanSubst
  rcases hprint : mPropertyPrint propList name with ⟨r, st⟩
  rw [hprint] at hname hp
  rcases hp with ⟨hr, rfl⟩ | ⟨hr, hst⟩
  · refine ⟨s.p, ?_⟩
    dsimp only
    rw [if_neg (by omega)]
    rfl
  · cases st with
    | untouched => exact absurd rfl hst
    | null => exact ⟨.null, by simp [Expand.store]⟩
    | str w => simp [hr] at hname

/-! ## What a run leaves alone -/

/-- What is in memory is neither lost nor freed by reading the template, and what is written then
is new. -/
theorem scan_frame (hprop : PrintsOrFails propList) {s : Expand}
    (h : scan propList c str s = some (rest, s', l)) :
    s'.ret = s.ret ∧ s'.freed = s.freed ∧ s.printed ≤ s'.printed ∧
      (0 < l → ∀ k < s.printed, s'.p.id ≠ some k) := by
  cases turn propList s c str with
  | char htoken hscan hp =>
    cases hscan.symm.trans h
    exact ⟨rfl, rfl, Nat.le_refl _, fun _ k _ => by simp [hp.1]⟩
  | hex hc hstr =>
    subst hc hstr
    cases hexTurn propList s _ with
    | finish _ hscan =>
      cases hscan.symm.trans h
      exact ⟨rfl, rfl, Nat.le_refl _, fun hl => absurd hl (Nat.lt_irrefl 0)⟩
    | good _ _ _ hscan =>
      cases hscan.symm.trans h
      exact ⟨rfl, rfl, Nat.le_refl _, fun _ k _ => by simp [Ptr.id]⟩
    | bad _ _ _ hscan =>
      cases hscan.symm.trans h
      exact ⟨rfl, rfl, Nat.le_refl _, fun _ k _ => by simp [Ptr.id]⟩
  | trailing htoken hscan => cases hscan.symm.trans h
  | close hlvl htoken hscan =>
    cases hscan.symm.trans h
    exact ⟨rfl, rfl, Nat.le_refl _, fun hl => absurd hl (Nat.lt_irrefl 0)⟩
  | subst htoken hscan =>
    rename_i name rest'
    rw [hscan] at h
    have hp := hprop name
    unfold scanSubst at h
    rcases hprint : mPropertyPrint propList name with ⟨r, st⟩
    rw [hprint] at h hp
    dsimp only at h
    rcases hp with ⟨hr, rfl⟩ | ⟨hr, hst⟩
    · rw [if_neg (by omega)] at h
      cases h
      exact ⟨rfl, rfl, Nat.le_refl _, fun hl => absurd hl (Nat.lt_irrefl 0)⟩
    · cases st with
      | untouched => exact absurd rfl hst
      | null =>
        rw [if_neg (by simp [Expand.store])] at h
        cases h
        exact ⟨rfl, rfl, Nat.le_refl _, fun hl => absurd hl (Nat.lt_irrefl 0)⟩
      | str w =>
        rw [if_pos ⟨hr, by simp [Expand.store]⟩] at h
        obtain ⟨l', -, he⟩ := Option.bind_eq_some_iff.1 h
        cases he
        refine ⟨rfl, rfl, Nat.le_succ _, fun _ k hk => ?_⟩
        simp only [Expand.store, Ptr.id, ne_eq, Option.some_inj]
        omega
  | cond htoken hscan =>
    cases hscan.symm.trans h
    unfold scanCond
    dsimp only
    repeat' split
    all_goals exact ⟨rfl, rfl, Nat.le_refl _, fun hl => absurd hl (Nat.lt_irrefl 0)⟩

/-- Writing appends, and frees nothing but `p`. -/
theorem emit_frame {s : Expand} (h : emit s l = some s') :
    s.ret <+: s'.ret ∧ s'.printed = s.printed ∧
      (s'.freed = s.freed ∨ 0 < l ∧ s'.freed = s.p.id :: s.freed) := by
  unfold emit at h
  split at h
  · cases h
    exact ⟨List.prefix_refl _, rfl, .inl rfl⟩
  · rename_i hl
    dsimp only at h
    split at h
    · cases h
    · split at h
      · cases h
      · split at h
        · cases h
        · cases h
          refine ⟨List.prefix_append _ _, rfl, ?_⟩
          dsimp only
          split
          · exact .inr ⟨by omega, rfl⟩
          · exact .inl rfl

/-- A string that was printed and not freed when its turn ended. -/
def Expand.Leaks (s : Expand) (k : Nat) : Prop := k < s.printed ∧ some k ∉ s.freed

/-- What was written stays, and a string that was left behind is never freed. -/
theorem run_frame (hprop : PrintsOrFails propList) :
    ∀ (n : Nat) {str : CStr} {s t : Expand}, str.length ≤ n → run propList str s = some t →
      s.ret <+: t.ret ∧ ∀ k, s.Leaks k → t.Leaks k := by
  intro n
  induction n with
  | zero =>
    intro str s t hn h
    rw [List.length_eq_zero_iff.1 (Nat.le_zero.1 hn)] at h
    cases h
    exact ⟨List.prefix_refl _, fun _ hk => hk⟩
  | succ n ih =>
    intro str s t hn h
    cases str with
    | nil =>
      cases h
      exact ⟨List.prefix_refl _, fun _ hk => hk⟩
    | cons c str =>
      cases hscan : scan propList c str s with
      | none =>
        rw [run_cons_none hscan] at h
        cases h
      | some r =>
        obtain ⟨rest, s', l⟩ := r
        rw [run_cons hscan] at h
        obtain ⟨s'', hemit, hrest⟩ := Option.bind_eq_some_iff.1 h
        have hlen := scan_length hscan
        obtain ⟨hret, hfreed, hprinted, hnew⟩ := scan_frame hprop hscan
        obtain ⟨hret', hprinted', hfreed'⟩ := emit_frame hemit
        rw [List.length_cons] at hn
        obtain ⟨hsuf, hleaks⟩ := ih (by omega) hrest
        refine ⟨(hret ▸ hret').trans hsuf, fun k hk => hleaks k ⟨?_, ?_⟩⟩
        · rw [hprinted']
          exact Nat.lt_of_lt_of_le hk.1 hprinted
        · rcases hfreed' with he | ⟨hl, he⟩
          · rw [he, hfreed]
            exact hk.2
          · rw [he, hfreed, List.mem_cons, not_or]
            exact ⟨(hnew hl k hk.1).symm, hk.2⟩

/-- Then not everything is freed in the end. -/
theorem Expand.Leaks.not_allFreed {s : Expand} {k : Nat} (h : s.Leaks k) : ¬ s.AllFreed :=
  fun hall => h.2 (hall.mem_iff.2 (List.mem_map_of_mem (List.mem_range.2 h.1)))

/-! ## The text that is written -/

/-- What the code writes for the tokens: a digit of an escape comes out again, and one without two
digits does not become an `x`. -/
inductive CodeOf (propList : List (MProperty V)) : List Bool → List Token → CStr → Prop where
  | nil (conds : List Bool) : CodeOf propList conds [] []
  | skip {conds : List Bool} {pre ts : List Token} {text : CStr} (h : false ∈ conds)
      (hpre : ∀ t ∈ pre, t.IsText) (hts : CodeOf propList conds ts text) :
      CodeOf propList conds (pre ++ ts) text
  | char {conds : List Bool} {ts : List Token} {text : CStr} {a : Char} (h : false ∉ conds)
      (hts : CodeOf propList conds ts text) :
      CodeOf propList conds (.char a :: ts) (a :: text)
  | hex {conds : List Bool} {ts : List Token} {text : CStr} {c b : Char} (h : false ∉ conds)
      (hb : IsHex b) (hts : CodeOf propList conds ts text) :
      CodeOf propList conds (.hex c :: ts) (c :: b :: text)
  | bad {conds : List Bool} {text : CStr} (ts : List Token) (h : false ∉ conds)
      (htext : text.head? ≠ some 'x') : CodeOf propList conds (.hex 'x' :: ts) text
  | subst {conds : List Bool} {ts : List Token} {text : CStr} {name v : CStr}
      (hname : printed propList name = some v) (h : false ∉ conds) (hv : v ≠ [])
      (hts : CodeOf propList conds ts text) :
      CodeOf propList conds (.subst name :: ts) (v ++ text)
  | fails {conds : List Bool} {ts : List Token} {text : CStr} {name : CStr}
      (hname : printed propList name = none) (hts : CodeOf propList conds ts text) :
      CodeOf propList conds (.subst name :: ts) text
  | cond {conds : List Bool} {ts : List Token} {text : CStr} {isNot : Bool} {name : CStr}
      (hts : CodeOf propList (condHolds propList isNot name :: conds) ts text) :
      CodeOf propList conds (.cond isNot name :: ts) text
  | close {conds : List Bool} {ts : List Token} {text : CStr}
      (hts : CodeOf propList conds.tail ts text) :
      CodeOf propList conds (.close :: ts) text

/-- Digits in front of a text are still in front of the rest behind a common part. -/
theorem digits_carry {d : CStr} (hd : d ≠ []) (hhex : ∀ c ∈ d, IsHex c)
    (h : d ++ (v ++ text) = v ++ rest) :
    ∃ d', d' ≠ [] ∧ (∀ c ∈ d', IsHex c) ∧ d' ++ text = rest := by
  rw [← List.append_assoc] at h
  rcases List.append_eq_append_iff.1 h with ⟨as, hv, -⟩ | ⟨cs, hdv, hrest⟩
  · have hlen := congrArg List.length hv
    rw [List.length_append, List.length_append] at hlen
    have := List.length_pos_iff.2 hd
    omega
  · have hperm : d.Perm cs := by
      have hcomm : (d ++ v).Perm (cs ++ v) := hdv ▸ List.perm_append_comm
      exact (List.perm_append_right_iff v).1 hcomm
    refine ⟨cs, fun he => hd (List.perm_nil.1 (he ▸ hperm)), fun c hc => ?_, hrest.symm⟩
    exact hhex c (hperm.mem_iff.2 hc)

/-- No text of the language is what the code writes with digits in front of it. -/
theorem CodeOf.digits_ne {conds : List Bool} (h : CodeOf propList conds ts text) {d : CStr}
    (hd : d ≠ []) (hhex : ∀ c ∈ d, IsHex c) : d ++ text ≠ (pieces propList conds ts).flatten := by
  induction h generalizing d with
  | nil conds => simpa [pieces] using hd
  | skip hin hpre hts ih =>
    rw [pieces_skip hin hpre]
    exact ih hd hhex
  | char hin hts ih =>
    rename_i conds ts text a
    intro he
    have hp : pieces propList conds (.char a :: ts) = [a] :: pieces propList conds ts := by
      simp [pieces, hin]
    rw [hp, List.flatten_cons] at he
    obtain ⟨d', hd', hhex', he'⟩ := digits_carry (v := [a]) hd hhex he
    exact ih hd' hhex' he'
  | hex hin hb hts ih =>
    rename_i conds ts text c b
    intro he
    have hp : pieces propList conds (.hex c :: ts) = [c] :: pieces propList conds ts := by
      simp [pieces, hin]
    rw [hp, List.flatten_cons] at he
    obtain ⟨d', hd', hhex', he'⟩ := digits_carry (v := [c]) hd hhex he
    refine ih (d := d' ++ [b]) (by simp) ?_ ((List.append_assoc d' [b] text).trans he')
    intro x hx
    rcases List.mem_append.1 hx with hx | hx
    · exact hhex' x hx
    · exact List.mem_singleton.1 hx ▸ hb
  | bad ts hin htext =>
    rename_i conds text
    intro he
    have hp : pieces propList conds (.hex 'x' :: ts) = ['x'] :: pieces propList conds ts := by
      simp [pieces, hin]
    obtain ⟨c, d, rfl⟩ := List.exists_cons_of_ne_nil hd
    rw [hp] at he
    have hc : c = 'x' := (List.cons.inj he).1
    exact absurd (hc ▸ hhex c List.mem_cons_self) (by unfold IsHex; decide)
  | subst hname hin hv hts ih =>
    rename_i conds ts text name v
    intro he
    have hp : pieces propList conds (.subst name :: ts) = v :: pieces propList conds ts := by
      simp [pieces, hname, hin]
    rw [hp, List.flatten_cons] at he
    obtain ⟨d', hd', hhex', he'⟩ := digits_carry hd hhex he
    exact ih hd' hhex' he'
  | fails hname hts ih =>
    simp only [pieces, hname]
    exact ih hd hhex
  | cond hts ih => exact ih hd hhex
  | close hts ih => exact ih hd hhex

/-- If the code writes the text of the language, the template is clean. -/
theorem CodeOf.clean {conds : List Bool} (h : CodeOf propList conds ts text)
    (he : text = (pieces propList conds ts).flatten) : Clean propList conds ts := by
  induction h with
  | nil conds => trivial
  | skip hin hpre hts ih =>
    rw [pieces_skip hin hpre] at he
    exact (clean_skip hin hpre _).2 (ih he)
  | char hin hts ih =>
    rw [pieces, if_neg hin] at he
    exact ih (List.cons.inj he).2
  | hex hin hb hts ih =>
    rename_i conds ts text c b
    rw [pieces, if_neg hin] at he
    exact absurd (List.cons.inj he).2 (hts.digits_ne (d := [b]) (by simp) (by simpa using hb))
  | bad ts hin htext =>
    rw [pieces, if_neg hin] at he
    rw [he] at htext
    exact absurd rfl htext
  | subst hname hin hv hts ih =>
    rename_i conds ts text name v
    have hp : pieces propList conds (.subst name :: ts) = v :: pieces propList conds ts := by
      simp [pieces, hname, hin]
    rw [hp, List.flatten_cons] at he
    refine ⟨fun w hw => ?_, ih (List.append_cancel_left he)⟩
    rw [hname] at hw
    cases hw
    exact ⟨hin, hv⟩
  | fails hname hts ih =>
    rename_i conds ts text name
    have hp : pieces propList conds (.subst name :: ts) = pieces propList conds ts := by
      simp [pieces, hname]
    refine ⟨fun w hw => ?_, ih (hp ▸ he)⟩
    rw [hname] at hw
    cases hw
  | cond hts ih => exact ih he
  | close hts ih => exact ih he

/-! ## One step -/

/-- What the next turns do in front of the rest of the template: they write nothing, or the next
piece, or come to an escape that is written, or the run fails or leaves memory behind. -/
inductive Advance (propList : List (MProperty V)) (s : Expand) (conds : List Bool) (c : Char)
    (str : CStr) : Prop where
  | quiet {s' : Expand} {conds' : List Bool} {rest : CStr} (hs : Ready s' conds')
      (hrun : run propList (c :: str) s = run propList rest s') (hlen : rest.length ≤ str.length)
      (hret : s'.ret = s.ret) (hsize : s'.size = s.size)
      (hcode : ∀ text, CodeOf propList conds' (tokens s'.lvl rest) text →
        CodeOf propList conds (tokens s.lvl (c :: str)) text)
      (hpieces : pieces propList conds' (tokens s'.lvl rest) =
        pieces propList conds (tokens s.lvl (c :: str)))
      (hclean : Clean propList conds (tokens s.lvl (c :: str)) →
        Clean propList conds' (tokens s'.lvl rest))
  | writes {s' : Expand} {v rest : CStr} (hs : Ready s' conds)
      (hrun : run propList (c :: str) s =
        (if intMax < grow s.size s.ret.length v.length then none else some s').bind
          (run propList rest))
      (hlen : rest.length ≤ str.length)
      (hret : s'.ret = s.ret ++ v) (hsize : s'.size = grow s.size s.ret.length v.length)
      (hcode : ∀ text, CodeOf propList conds (tokens s'.lvl rest) text →
        CodeOf propList conds (tokens s.lvl (c :: str)) (v ++ text))
      (hpieces : pieces propList conds (tokens s.lvl (c :: str)) =
        v :: pieces propList conds (tokens s'.lvl rest))
      (hclean : Clean propList conds (tokens s.lvl (c :: str)) →
        Clean propList conds (tokens s'.lvl rest))
  | hex {rest : CStr} (hc : c = '\\') (hstr : str = 'x' :: rest) (hin : false ∉ conds)
  | lost (hrun : ∀ t, run propList (c :: str) s = some t → ¬ t.AllFreed)
      (hdirty : ¬ Clean propList conds (tokens s.lvl (c :: str)))

theorem advance_char {a : Char} {p : Ptr} (hs : Ready s conds)
    (htoken : token (0 < s.lvl) c str = (.char a, rest))
    (hscan : scan propList c str s = some (rest, { s with p := p }, 1)) (hp : p.Shows a) :
    Advance propList s conds c str := by
  have htokens : tokens s.lvl (c :: str) = .char a :: tokens s.lvl rest := tokens_cons htoken
  by_cases hin : false ∈ conds
  · have hskip : s.skip = true := by simp [hs.skip, hin]
    have hpre : ∀ t ∈ [Token.char a], t.IsText := by simp [Token.IsText]
    refine .quiet (hs.withPtr p) ?_ (scan_length hscan) rfl rfl ?_ ?_ ?_
    · rw [run_cons hscan, emit_skip (s := { s with p := p }) hskip, Option.bind_some]
    · rw [htokens]
      exact fun _ hcode => .skip hin hpre hcode
    · rw [htokens]
      simp [pieces, hin]
    · rw [htokens]
      exact id
  · have hskip : s.skip = false := by simp [hs.skip, hin]
    refine .writes (hs.write p [a]) ?_ (scan_length hscan) rfl rfl ?_ ?_ ?_
    · rw [run_cons hscan, emit_char hskip hs.fr hp]
      rfl
    · rw [htokens]
      exact fun _ hcode => .char hin hcode
    · rw [htokens]
      simp [pieces, hin, Expand.write]
    · rw [htokens]
      exact id

/-- A string that is printed has to be written, since it would not be freed otherwise. -/
theorem advance_subst (hprop : PrintsOrFails propList) {name : CStr} (hs : Ready s conds)
    (htoken : token (0 < s.lvl) c str = (.subst name, rest))
    (hscan : scan propList c str s = scanSubst propList name rest s) :
    Advance propList s conds c str := by
  have htokens : tokens s.lvl (c :: str) = .subst name :: tokens s.lvl rest := tokens_cons htoken
  have hlen := token_length (0 < s.lvl) c str
  rw [htoken] at hlen
  cases hname : printed propList name with
  | none =>
    obtain ⟨p, hp⟩ := scanSubst_none hprop hname rest s
    refine .quiet (hs.withPtr p) ?_ hlen rfl rfl ?_ ?_ ?_
    · rw [run_cons (hscan.trans hp), emit_zero, Option.bind_some]
    · rw [htokens]
      exact fun _ hcode => .fails hname hcode
    · rw [htokens]
      simp [pieces, hname]
    · rw [htokens]
      exact And.right
  | some v =>
    have hrun := run_cons (hscan.trans (scanSubst_printed hname rest hs.fresh))
    by_cases hwritten : false ∉ conds ∧ v ≠ []
    · have hskip : s.skip = false := by simp [hs.skip, hwritten.1]
      rw [emit_printed hskip hwritten.2 hs.fresh] at hrun
      refine .writes (hs.printed (.heap s.printed v) v) hrun hlen rfl rfl ?_ ?_ ?_
      · rw [htokens]
        exact fun _ hcode => .subst hname hwritten.1 hwritten.2 hcode
      · rw [htokens]
        simp [pieces, hname, hwritten.1, Expand.write]
      · rw [htokens]
        exact And.right
    · refine .lost (fun t ht => ?_) ?_
      · have hemit : emit
            { s with p := .heap s.printed v, printed := s.printed + 1, fr := true } v.length =
              some { s with p := .heap s.printed v, printed := s.printed + 1, fr := true } := by
          by_cases hin : false ∈ conds
          · exact emit_skip (by simp [hs.skip, hin]) _
          · have hv : v = [] := Decidable.not_not.mp fun hne => hwritten ⟨hin, hne⟩
            rw [hv]
            exact emit_zero _
        rw [hrun, hemit, Option.bind_some] at ht
        exact ((run_frame hprop _ (Nat.le_refl _) ht).2 s.printed
          ⟨Nat.lt_succ_self _, hs.fresh⟩).not_allFreed
      · rw [htokens]
        exact fun hclean => hwritten (hclean.1 v hname)

theorem advance_cond (hprop : PrintsOrFails propList) {isNot : Bool} {name : CStr}
    (hs : Ready s conds) (htoken : token (0 < s.lvl) c str = (.cond isNot name, rest))
    (hscan : scan propList c str s = some (rest, scanCond propList isNot name s, 0)) :
    Advance propList s conds c str := by
  have hcond : Ready (scanCond propList isNot name s) (condHolds propList isNot name :: conds) :=
    hs.cond isNot name
  have hlvl : (scanCond propList isNot name s).lvl = s.lvl + 1 := by
    rw [hcond.lvl, hs.lvl, List.length_cons]
  have hsize : (scanCond propList isNot name s).size = s.size := by
    unfold scanCond
    dsimp only
    repeat' split
    all_goals rfl
  have htokens : tokens s.lvl (c :: str) =
      .cond isNot name :: tokens (scanCond propList isNot name s).lvl rest := by
    rw [hlvl]
    exact tokens_cons htoken
  refine .quiet hcond ?_ (scan_length hscan) (scan_frame hprop hscan).1 hsize ?_ ?_ ?_
  · rw [run_cons hscan, emit_zero, Option.bind_some]
  · rw [htokens]
    exact fun _ hcode => .cond hcode
  · rw [htokens]
    rfl
  · rw [htokens]
    exact id

/-- Between the tokens there is always such a step. -/
theorem advance (hprop : PrintsOrFails propList) (hs : Ready s conds) (c : Char) (str : CStr) :
    Advance propList s conds c str := by
  cases turn propList s c str with
  | char htoken hscan hp => exact advance_char hs htoken hscan hp
  | hex hc hstr =>
    rename_i rest
    by_cases hin : false ∈ conds
    · subst hc hstr
      have hskip : s.skip = true := by simp [hs.skip, hin]
      obtain ⟨p, rest', pre, hrun, hlen, htokens, hpre⟩ :=
        @run_hex_skip _ propList _ hskip rest
      refine .quiet (hs.withPtr p) hrun (Nat.le_succ_of_le hlen) rfl rfl ?_ ?_ ?_
      · rw [htokens]
        exact fun _ hcode => .skip hin hpre hcode
      · rw [htokens]
        exact (pieces_skip hin hpre _).symm
      · rw [htokens]
        exact (clean_skip hin hpre _).1
    · exact .hex hc hstr hin
  | trailing htoken hscan =>
    refine .lost (fun t ht => ?_) ?_
    · rw [run_cons_none hscan] at ht
      cases ht
    · rw [tokens_cons htoken]
      exact id
  | close hlvl htoken hscan =>
    obtain ⟨b, conds, rfl⟩ : ∃ b bs, conds = b :: bs := by
      refine List.exists_cons_of_ne_nil fun hnil => ?_
      rw [hs.lvl, hnil] at hlvl
      exact absurd hlvl (Nat.lt_irrefl 0)
    have htokens : tokens s.lvl (c :: str) = .close :: tokens (scanClose s).lvl str :=
      tokens_cons htoken
    refine .quiet hs.close ?_ (Nat.le_refl _) rfl rfl ?_ ?_ ?_
    · rw [run_cons hscan, emit_zero, Option.bind_some]
    · rw [htokens]
      exact fun _ hcode => @CodeOf.close V propList (b :: conds) _ _ hcode
    · rw [htokens]
      rfl
    · rw [htokens]
      exact id
  | subst htoken hscan => exact advance_subst hprop hs htoken hscan
  | cond htoken hscan => exact advance_cond hprop hs htoken hscan

/-! ## Runs that free all they print -/

/-- The run writes what the code writes for the tokens, if it frees all that it prints. -/
def Codes (propList : List (MProperty V)) (s : Expand) (conds : List Bool) (ts : List Token)
    (r : Option Expand) : Prop :=
  ∀ t, r = some t → t.AllFreed → ∃ text, t.ret = s.ret ++ text ∧ CodeOf propList conds ts text

/-- An escape that is written. -/
theorem codes_hex (hprop : PrintsOrFails propList) (hs : Ready s conds) (hin : false ∉ conds)
    (hnext : ∀ s' rest', Ready s' conds → s'.lvl = s.lvl → rest'.length < rest.length →
      Codes propList s' conds (tokens s.lvl rest') (run propList rest' s')) :
    Codes propList s conds (tokens s.lvl ('\\' :: 'x' :: rest))
      (run propList ('\\' :: 'x' :: rest) s) := by
  intro t ht hall
  have hskip : s.skip = false := by simp [hs.skip, hin]
  cases hexTurn propList s rest with
  | finish hrest hscan =>
    rw [run_cons hscan, emit_zero] at ht
    subst hrest
    cases ht
    rw [tokens_cons (token_not_hex _ (by simp))]
    exact ⟨[], (List.append_nil _).symm, .bad _ hin (by simp)⟩
  | good hrest hchar hb hscan =>
    rename_i a b c rest'
    subst hrest
    rw [tokens_cons (token_hex _ hchar rest')]
    rw [run_cons hscan, emit_char hskip hs.fr (Ptr.shows_numVal c)] at ht
    split at ht
    · cases ht
    -- the second digit is read once more
    rw [Option.bind_some, run_cons (scan_plain propList hb.isPlain rest' _),
      emit_char (s := s.write _ [c]) hskip hs.fr (Ptr.shows_template b rest')] at ht
    split at ht
    · cases ht
    obtain ⟨text, hret, hcode⟩ := hnext _ rest' ((hs.write (.numVal c) [c]).write _ [b]) rfl
      (by simp only [List.length_cons]; omega) t ht hall
    exact ⟨c :: b :: text, by simpa [Expand.write] using hret, .hex hin hb hcode⟩
  | bad hnone hv hrest hscan =>
    rename_i v rest'
    rw [run_cons hscan, emit_char hskip hs.fr (Ptr.shows_numVal v)] at ht
    split at ht
    · cases ht
    obtain ⟨⟨more, hmore⟩, -⟩ := run_frame hprop _ (Nat.le_refl _) ht
    rw [tokens_cons (token_not_hex _ hnone)]
    refine ⟨v :: more, ?_, .bad _ hin (by simpa using hv)⟩
    rw [← hmore]
    simp [Expand.write]

/-- Before the first turn and behind every token, what a run writes is what the code writes for
the tokens, if it frees all that it prints. -/
theorem codeOf_run (hprop : PrintsOrFails propList) (str : CStr) :
    ∀ {s : Expand} {conds : List Bool}, Ready s conds →
      Codes propList s conds (tokens s.lvl str) (run propList str s) := by
  induction hn : str.length using Nat.strongRecOn generalizing str with
  | ind n ih =>
    intro s conds hs t ht hall
    cases str with
    | nil =>
      cases ht
      rw [tokens]
      exact ⟨[], (List.append_nil _).symm, .nil conds⟩
    | cons c str =>
      rw [List.length_cons] at hn
      cases advance hprop hs c str with
      | quiet hs' hrun hlen hret hsize hcode hpieces hclean =>
        rw [hrun] at ht
        obtain ⟨text, htext, hts⟩ := ih _ (by omega) _ rfl hs' t ht hall
        exact ⟨text, hret ▸ htext, hcode text hts⟩
      | writes hs' hrun hlen hret hsize hcode hpieces hclean =>
        rename_i s' v rest
        rw [hrun] at ht
        split at ht
        · cases ht
        obtain ⟨text, htext, hts⟩ := ih _ (by omega) rest rfl hs' t ht hall
        refine ⟨v ++ text, ?_, hcode text hts⟩
        rw [htext, hret, List.append_assoc]
      | hex hc hstr hin =>
        subst hc hstr
        rw [List.length_cons] at hn
        refine codes_hex hprop hs hin (fun s' rest' hs' hlvl hlt => ?_) t ht hall
        exact hlvl ▸ ih _ (by omega) rest' rfl hs'
      | lost hrun hdirty => exact absurd hall (hrun t ht)

/-! ## Runs on clean templates -/

theorem SizesFit.le {size pos : Nat} {vs : List CStr} (h : SizesFit size pos vs) :
    size ≤ intMax := by
  induction vs generalizing size pos with
  | nil => exact h
  | cons v vs ih =>
    refine Nat.le_trans ?_ (ih h)
    unfold grow
    split <;> omega

theorem lt_grow (size pos l : Nat) : pos + l < grow size pos l := by
  unfold grow
  split <;> omega

/-- A run on a clean template writes the text if the sizes fit, and else does not end. -/
def Outcome (propList : List (MProperty V)) (s : Expand) (conds : List Bool) (ts : List Token)
    (t : Option Expand) : Prop :=
  (SizesFit s.size s.ret.length (pieces propList conds ts) →
    ∃ t', t = some t' ∧ t'.ret = s.ret ++ (pieces propList conds ts).flatten ∧ t'.AllFreed ∧
      t'.ret.length < t'.size) ∧
  (¬ SizesFit s.size s.ret.length (pieces propList conds ts) → t = none)

/-- What is written first is the first piece. -/
theorem outcome_write {ts' : List Token} {f : Expand → Option Expand}
    (hp : pieces propList conds ts = v :: pieces propList conds ts') (hret : s'.ret = s.ret ++ v)
    (hsize : s'.size = grow s.size s.ret.length v.length)
    (h : s'.ret.length < s'.size → s'.size ≤ intMax → Outcome propList s' conds ts' (f s')) :
    Outcome propList s conds ts
      ((if intMax < grow s.size s.ret.length v.length then none else some s').bind f) := by
  have hret' : s'.ret.length = s.ret.length + v.length := by
    rw [hret]
    exact List.length_append
  have hlt := lt_grow s.size s.ret.length v.length
  unfold Outcome at h ⊢
  rw [hp, SizesFit, List.flatten_cons]
  by_cases hbig : intMax < grow s.size s.ret.length v.length
  · rw [if_pos hbig]
    exact ⟨fun hfit => absurd hbig (Nat.not_lt.2 hfit.le), fun _ => rfl⟩
  · have h := h (by omega) (by omega)
    rw [hret', hsize, hret] at h
    rw [if_neg hbig, Option.bind_some]
    simpa using h

theorem outcome_congr {s : Expand} {conds conds' : List Bool} {ts' : List Token}
    {t : Option Expand} (hret : s'.ret = s.ret) (hsize : s'.size = s.size)
    (hp : pieces propList conds' ts' = pieces propList conds ts)
    (h : Outcome propList s' conds' ts' t) : Outcome propList s conds ts t := by
  unfold Outcome at h ⊢
  rwa [hret, hsize, hp] at h

/-- A clean template has no escape that is written. -/
theorem hex_dirty (hin : false ∉ conds) (n : Nat) (rest : CStr) :
    ¬ Clean propList conds (tokens n ('\\' :: 'x' :: rest)) := by
  obtain ⟨c, rest', htoken⟩ : ∃ c rest', token (0 < n) '\\' ('x' :: rest) = (.hex c, rest') := by
    by_cases hgood : ∃ a b l c, rest = a :: b :: l ∧ hexChar a b = some c
    · obtain ⟨a, b, l, c, rfl, hc⟩ := hgood
      exact ⟨_, _, token_hex _ hc l⟩
    · exact ⟨_, _, token_not_hex _ fun a b l he => Option.eq_none_iff_forall_ne_some.2 fun c hc =>
        hgood ⟨a, b, l, c, he, hc⟩⟩
  rw [tokens_cons htoken]
  exact fun hclean => hin hclean.1

/-- A clean template is expanded from every state between its tokens. -/
theorem run_of_clean (hprop : PrintsOrFails propList) (str : CStr) :
    ∀ {s : Expand} {conds : List Bool}, Ready s conds → s.ret.length < s.size →
      s.size ≤ intMax → Clean propList conds (tokens s.lvl str) →
      Outcome propList s conds (tokens s.lvl str) (run propList str s) := by
  induction hn : str.length using Nat.strongRecOn generalizing str with
  | ind n ih =>
    intro s conds hs hroom hmax hclean
    cases str with
    | nil =>
      rw [tokens]
      exact ⟨fun _ => ⟨s, rfl, by simp [pieces], hs.freed, hroom⟩, fun hfit => absurd hmax hfit⟩
    | cons c str =>
      rw [List.length_cons] at hn
      cases advance hprop hs c str with
      | quiet hs' hrun hlen hret hsize hcode hpieces hclean' =>
        rw [hrun]
        refine outcome_congr hret hsize hpieces (ih _ (by omega) _ rfl hs' ?_ ?_ (hclean' hclean))
        · rw [hret, hsize]
          exact hroom
        · rw [hsize]
          exact hmax
      | writes hs' hrun hlen hret hsize hcode hpieces hclean' =>
        rename_i s' v rest
        rw [hrun]
        exact outcome_write hpieces hret hsize fun hroom hmax =>
          ih _ (by omega) rest rfl hs' hroom hmax (hclean' hclean)
      | hex hc hstr hin =>
        subst hc hstr
        exact absurd hclean (hex_dirty hin _ _)
      | lost hrun hdirty => exact absurd hclean hdirty

/-! ## The result -/

/-- A template is expanded to the text that it stands for, without a read or write or free that is
not allowed, exactly if it is clean and the sizes fit. -/
theorem expands_iff (hprop : PrintsOrFails propList) (str : CStr) :
    Expands propList str ↔
      Clean propList [] (tokens 0 str) ∧
        SizesFit (str.length + 512) 0 (pieces propList [] (tokens 0 str)) := by
  have hready : Ready ⟨[], str.length + 512, .null, false, false, 0, 0, 0, []⟩ [] :=
    ⟨rfl, List.Perm.refl _, rfl, rfl, fun inner outer he => by simp at he⟩
  have hexpand : mPropertiesExpandString propList str =
      if intMax < str.length + 512 then none
      else (run propList str ⟨[], str.length + 512, .null, false, false, 0, 0, 0, []⟩).bind
        fun s => if s.ret.length < s.size then some s else none := by
    unfold mPropertiesExpandString run
    dsimp only
    split
    · rfl
    · split <;> rename_i h <;> rw [h] <;> rfl
  have hrun := fun hmax => run_of_clean hprop str hready (Nat.succ_pos _) hmax
  unfold Expands
  rw [hexpand]
  constructor
  · rintro ⟨s, h, hret, hall⟩
    split at h
    · cases h
    rename_i hmax
    obtain ⟨t, ht, he⟩ := Option.bind_eq_some_iff.1 h
    split at he
    case isFalse => cases he
    cases he
    obtain ⟨text, htext, hcode⟩ := codeOf_run hprop str hready _ ht hall
    have hclean := hcode.clean (by rw [← meaning, ← hret, htext]; rfl)
    refine ⟨hclean, Classical.byContradiction fun hfit => ?_⟩
    cases ht.symm.trans ((hrun (Nat.not_lt.1 hmax) hclean).2 hfit)
  · rintro ⟨hclean, hfit⟩
    obtain ⟨t, ht, hret, hall, hlt⟩ := (hrun hfit.le hclean).1 hfit
    rw [if_neg (Nat.not_lt.2 hfit.le), ht, Option.bind_some, if_pos hlt]
    exact ⟨t, rfl, hret, hall⟩

/-- A property that is available and printed. -/
def titleProperty (title : CStr) : MProperty Unit where
  name := "title".toList
  wildcard := false
  printValue := fun _ => none
  print := fun _ => (mPropertyOk, .str title)
  toStr := fun _ => (mPropertyOk, .str title)
  getType := fun _ => (mPropertyOk, fun _ => none)
  get := fun _ => (mPropertyOk, ())
  probe := fun _ => mPropertyOk

theorem titleProperty_prints (title : CStr) : PrintsOrFails [titleProperty title] := by
  refine printsOrFails_of_answers fun p hp key => ?_
  rw [List.mem_singleton.1 hp]
  simp [titleProperty, mPropertyOk]

theorem expands_title : Expands [titleProperty "A".toList] "?(title:${title}\\n)".toList := by
  have hprinted : printed [titleProperty ['A']] ['t', 'i', 't', 'l', 'e'] = some ['A'] := rfl
  have hholds : condHolds [titleProperty ['A']] false ['t', 'i', 't', 'l', 'e'] = true := rfl
  refine (expands_iff (titleProperty_prints _) _).2 ⟨?_, ?_⟩
  · simp [tokens, token, escapeToken, between, Token.depth, Clean, hprinted, hholds]
  · simp [tokens, token, escapeToken, between, Token.depth, pieces, hprinted, hholds, SizesFit,
      grow, intMax]

/-- The last digit of an escape comes out once more. -/
theorem not_expands_hex : ¬ ∀ propList : List (MProperty Unit), PrintsOrFails propList →
    ∀ str, Expands propList str := by
  intro h
  obtain ⟨s, hs, hret, -⟩ := h [] (printsOrFails_of_answers (by simp)) "\\x41".toList
  have hrun : (mPropertiesExpandString ([] : List (MProperty Unit)) "\\x41".toList).map
      Expand.ret = some "A1".toList := by decide
  have hchar : hexChar '4' '1' = some 'A' := by decide
  have hmeaning : meaning ([] : List (MProperty Unit)) "\\x41".toList = "A".toList := by
    simp [meaning, tokens, token, escapeToken, Token.depth, pieces, hchar]
  rw [hs, Option.map_some, hret, hmeaning] at hrun
  exact absurd hrun (by decide)

end MPlayer.Property
