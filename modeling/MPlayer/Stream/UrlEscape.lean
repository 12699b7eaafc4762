import MPlayer.Stream.Text

/-!
# Escaping URLs

`url_escape_string` splits a URL at the characters that are kept, takes the escapes of each run
between them back and escapes the run anew.  A URL whose host is an IPv6 address in brackets is
copied as it is up to the end of the brackets.

*Kept.*  No run gives a character that is kept (`escPart_not_kept`), so that an escaped URL falls
into the same runs.  Taking escapes back goes over the kept characters (`unescape_append`).

*Runs.*  Escaping a run does not change what its escapes stand for (`unescape_escPart`), and it
makes it at most three times as long (`escPart_length_le`).
-/

namespace MPlayer

/-! ## The code -/

/-- The byte that an escape in front stands for. -/
def escapeAt : List UInt8 → Option UInt8
  | c :: c1 :: c2 :: _ =>
    if c = ascii '%' then
      (hexVal c1).bind fun h => (hexVal c2).map fun l => h * 16 + l
    else none
  | _ => none

/-- The loop of `url_unescape_string`, with how many bytes of an escape are still to be passed. -/
@[grind =] def unescapeLoop : Nat → List UInt8 → List UInt8
  | _, [] => []
  | k + 1, _ :: s => unescapeLoop k s
  | 0, c :: s =>
    match escapeAt (c :: s) with
    | some v => v :: unescapeLoop 2 s
    | none => c :: unescapeLoop 0 s

/-- The bytes that `url_unescape_string` writes in front of the NUL. -/
def urlUnescapeString (inbuf : List UInt8) : List UInt8 := unescapeLoop 0 inbuf

/-- The escape of a byte. -/
def escaped (c : UInt8) : List UInt8 := [ascii '%', hexDigit (c >>> 4), hexDigit (c &&& 0xf)]

@[grind =] def urlEscapeStringPart : List UInt8 → List UInt8
  | [] => []
  | c :: s =>
    (if isAlnum c || (escapeAt (c :: s)).isSome then [c] else escaped c) ++ urlEscapeStringPart s

/-- The mark characters and the reserved ones, which are not touched. -/
def isKept (c : UInt8) : Bool := c ∈ asciis "-_.!~*'();/?:@&=+$,"

/-- What a run becomes. -/
def escapeRun (run : List UInt8) : List UInt8 :=
  urlEscapeStringPart (cstr (urlUnescapeString run))

/-- The loop of `url_escape_string`, with the run that it is in. -/
@[grind =] def escapeRuns (run : List UInt8) : List UInt8 → List UInt8
  | [] => escapeRun run
  | c :: s => if isKept c then escapeRun run ++ c :: escapeRuns [] s else escapeRuns (run ++ [c]) s

/-- The length of the part with an IPv6 address that is copied as it is. -/
def rawLength (inbuf : List UInt8) : Nat :=
  match Lib.findSub (asciis "://[") inbuf with
  | none => 0
  | some tmp =>
    match Lib.findSub [ascii ']'] (inbuf.drop (tmp + 4)) with
    | none => 0
    | some k =>
      let i := tmp + 4 + k + 1
      match inbuf.drop i with
      | [] => i
      | c :: _ => if c = ascii '/' ∨ c = ascii ':' then i else 0

def urlEscapeString (inbuf : List UInt8) : List UInt8 :=
  inbuf.take (rawLength inbuf) ++ escapeRuns [] (inbuf.drop (rawLength inbuf))

/-! ## Taking escapes back -/

theorem unescapeLoop_eq_drop : ∀ (k : Nat) (s : List UInt8),
    unescapeLoop k s = urlUnescapeString (s.drop k)
  | 0, _ => rfl
  | _ + 1, [] => rfl
  | k + 1, _ :: s => unescapeLoop_eq_drop k s

@[simp] theorem unescape_nil : urlUnescapeString [] = [] := rfl

variable {c v x : UInt8} {s : List UInt8}

theorem unescape_of_some (h : escapeAt (c :: s) = some v) :
    urlUnescapeString (c :: s) = v :: urlUnescapeString (s.drop 2) := by
  rw [← unescapeLoop_eq_drop, urlUnescapeString, unescapeLoop, h]

theorem unescape_of_none (h : escapeAt (c :: s) = none) :
    urlUnescapeString (c :: s) = c :: urlUnescapeString s := by
  rw [urlUnescapeString, unescapeLoop, h]
  rfl

theorem escapeAt_eq_some (h : escapeAt s = some v) :
    ∃ c1 c2 q h l, s = ascii '%' :: c1 :: c2 :: q ∧ hexVal c1 = some h ∧ hexVal c2 = some l ∧
      v = h * 16 + l := by
  cases s with
  | nil => cases h
  | cons c s =>
    cases s with
    | nil => cases h
    | cons c1 s =>
      cases s with
      | nil => cases h
      | cons c2 q =>
        rw [escapeAt] at h
        split at h
        · rename_i hc
          obtain ⟨hi, hhi, h⟩ := Option.bind_eq_some_iff.mp h
          obtain ⟨lo, hlo, rfl⟩ := Option.map_eq_some_iff.mp h
          exact ⟨c1, c2, q, hi, lo, hc ▸ rfl, hhi, hlo, rfl⟩
        · cases h

theorem escapeAt_of_ne (s : List UInt8) (h : c ≠ ascii '%') : escapeAt (c :: s) = none :=
  Option.eq_none_iff_forall_ne_some.mpr fun v hv => by
    obtain ⟨_, _, _, _, _, hs, -⟩ := escapeAt_eq_some hv
    exact h (List.cons.inj hs).1

/-- A string is read from the front, escape by escape. -/
theorem escapes_induction {P : List UInt8 → Prop} (nil : P [])
    (esc : ∀ c1 c2 q v, escapeAt (ascii '%' :: c1 :: c2 :: q) = some v → P q →
      P (ascii '%' :: c1 :: c2 :: q))
    (lit : ∀ c s, escapeAt (c :: s) = none → P s → P (c :: s)) : ∀ s, P s
  | [] => nil
  | c :: s => by
    obtain ⟨r, hr⟩ : ∃ r, escapeAt (c :: s) = r := ⟨_, rfl⟩
    cases r with
    | none => exact lit c s hr (escapes_induction nil esc lit s)
    | some v =>
      obtain ⟨c1, c2, q, _, _, hs, -⟩ := escapeAt_eq_some hr
      obtain ⟨rfl, rfl⟩ := List.cons.inj hs
      exact esc c1 c2 q v hr (escapes_induction nil esc lit q)
termination_by s => s.length

/-- A byte that no escape contains. -/
def NotInEscape (x : UInt8) : Prop := x ≠ ascii '%' ∧ hexVal x = none

instance (x : UInt8) : Decidable (NotInEscape x) := inferInstanceAs (Decidable (_ ∧ _))

theorem escapeAt_append (hx : NotInEscape x) (t : List UInt8) : ∀ {s : List UInt8},
    s ≠ [] → escapeAt (s ++ x :: t) = escapeAt s
  | [], h => absurd rfl h
  | [c], _ => by
    cases t with
    | nil => rfl
    | cons d t =>
      show (if c = ascii '%' then (hexVal x).bind _ else none) = none
      rw [hx.2]
      exact ite_self none
  | [c, d], _ => by
    show (if c = ascii '%' then (hexVal d).bind fun h => (hexVal x).map _ else none) = none
    rw [hx.2]
    split
    · exact Option.bind_fun_none (hexVal d)
    · rfl
  | _ :: _ :: _ :: _, _ => rfl

/-- Taking escapes back goes over a byte that no escape contains. -/
theorem unescape_append (hx : NotInEscape x) (s t : List UInt8) :
    urlUnescapeString (s ++ x :: t) = urlUnescapeString s ++ x :: urlUnescapeString t := by
  induction s using escapes_induction with
  | nil => exact unescape_of_none (escapeAt_of_ne t hx.1)
  | esc c1 c2 q v h ih =>
    have happ : escapeAt (ascii '%' :: (c1 :: c2 :: q ++ x :: t)) = some v :=
      (escapeAt_append hx t (List.cons_ne_nil (ascii '%') (c1 :: c2 :: q))).trans h
    rw [List.cons_append, unescape_of_some happ, unescape_of_some h]
    exact congrArg (v :: ·) ih
  | lit c s h ih =>
    have happ : escapeAt (c :: (s ++ x :: t)) = none :=
      (escapeAt_append hx t (List.cons_ne_nil c s)).trans h
    rw [List.cons_append, unescape_of_none happ, unescape_of_none h, ih]
    rfl

theorem unescape_length_le (s : List UInt8) : (urlUnescapeString s).length ≤ s.length := by
  induction s using escapes_induction with
  | nil => exact Nat.le_refl 0
  | esc c1 c2 q v h ih =>
    rw [unescape_of_some h]
    show (urlUnescapeString q).length + 1 ≤ q.length + 3
    omega
  | lit c s h ih =>
    rw [unescape_of_none h]
    exact Nat.succ_le_succ ih

/-- A byte that no escape contains does not get lost. -/
theorem count_unescape_le (hx : NotInEscape x) (s : List UInt8) :
    s.count x ≤ (urlUnescapeString s).count x := by
  induction s using escapes_induction with
  | nil => exact Nat.le_refl 0
  | esc c1 c2 q v h ih =>
    obtain ⟨_, _, _, h1, h2, hs, hh1, hh2, -⟩ := escapeAt_eq_some h
    cases hs
    have hne : ∀ {c d : UInt8}, hexVal c = some d → c ≠ x := fun hc e => by
      rw [e, hx.2] at hc
      cases hc
    rw [unescape_of_some h, List.count_cons_of_ne hx.1.symm, List.count_cons_of_ne (hne hh1),
      List.count_cons_of_ne (hne hh2)]
    exact Nat.le_trans ih List.count_le_count_cons
  | lit c s h ih =>
    rw [unescape_of_none h, List.count_cons, List.count_cons]
    exact Nat.add_le_add_right ih _

/-- Nowhere in a string is there an escape. -/
def NoEscape (s : List UInt8) : Prop := ∀ t, t <:+ s → escapeAt t = none

theorem NoEscape.cons_iff : NoEscape (c :: s) ↔ escapeAt (c :: s) = none ∧ NoEscape s := by
  constructor
  · intro h
    exact ⟨h _ (List.suffix_refl _), fun t ht => h t (ht.trans (List.suffix_cons c s))⟩
  · rintro ⟨h1, h2⟩ t ht
    rcases List.suffix_cons_iff.mp ht with rfl | ht
    · exact h1
    · exact h2 t ht

/-- Taking escapes back leaves exactly the strings as they are that have none, and makes the
others shorter. -/
theorem noEscape_iff_length (s : List UInt8) :
    NoEscape s ↔ s.length ≤ (urlUnescapeString s).length := by
  induction s using escapes_induction with
  | nil =>
    exact ⟨fun _ => Nat.le_refl 0, fun _ t ht => by rw [List.suffix_nil.mp ht]; rfl⟩
  | esc c1 c2 q v h ih =>
    have hlen := unescape_length_le q
    rw [unescape_of_some h]
    constructor
    · intro hno
      cases h.symm.trans (hno _ (List.suffix_refl _))
    · intro hle
      simp only [List.length_cons, List.drop_succ_cons, List.drop_zero] at hle
      omega
  | lit c s h ih =>
    rw [NoEscape.cons_iff, ih, unescape_of_none h, List.length_cons, List.length_cons,
      Nat.add_le_add_iff_right]
    exact and_iff_right h

theorem NoEscape.unescape (h : NoEscape s) : urlUnescapeString s = s := by
  induction s with
  | nil => rfl
  | cons c s ih =>
    obtain ⟨h1, h2⟩ := NoEscape.cons_iff.mp h
    rw [unescape_of_none h1, ih h2]

/-! ## Escaping a run -/

theorem part_of_alnum (s : List UInt8) (h : isAlnum c = true) :
    urlEscapeStringPart (c :: s) = c :: urlEscapeStringPart s := by
  rw [urlEscapeStringPart, h]
  rfl

theorem part_of_some (h : escapeAt (c :: s) = some v) :
    urlEscapeStringPart (c :: s) = c :: urlEscapeStringPart s := by
  rw [urlEscapeStringPart, h, Option.isSome_some, Bool.or_true]
  rfl

theorem part_of_other (h : isAlnum c = false) (h' : escapeAt (c :: s) = none) :
    urlEscapeStringPart (c :: s) = escaped c ++ urlEscapeStringPart s := by
  rw [urlEscapeStringPart, h, h']
  rfl

/-- What holds of the bytes of an escape. -/
theorem byte_class (c : UInt8) :
    ((hexVal c).isSome = true → isAlnum c = true) ∧ (isAlnum c = true → c ≠ ascii '%') ∧
      escapeAt (escaped c) = some c ∧ isAlnum (hexDigit (c >>> 4)) = true ∧
      isAlnum (hexDigit (c &&& 0xf)) = true :=
  forall_byte (P := fun c =>
    ((hexVal c).isSome = true → isAlnum c = true) ∧ (isAlnum c = true → c ≠ ascii '%') ∧
      escapeAt (escaped c) = some c ∧ isAlnum (hexDigit (c >>> 4)) = true ∧
      isAlnum (hexDigit (c &&& 0xf)) = true) (by decide +kernel) c

theorem isAlnum_of_hexVal (h : (hexVal c).isSome = true) : isAlnum c = true :=
  (byte_class c).1 h

theorem isAlnum_ne (h : isAlnum c = true) : c ≠ ascii '%' := (byte_class c).2.1 h

theorem escapeAt_escaped (c : UInt8) (t : List UInt8) : escapeAt (escaped c ++ t) = some c :=
  (byte_class c).2.2.1

theorem isAlnum_hexDigits (c : UInt8) :
    isAlnum (hexDigit (c >>> 4)) = true ∧ isAlnum (hexDigit (c &&& 0xf)) = true :=
  (byte_class c).2.2.2

/-- An escape stays as it is. -/
theorem part_of_escape {c1 c2 : UInt8} {q : List UInt8}
    (h : escapeAt (ascii '%' :: c1 :: c2 :: q) = some v) :
    urlEscapeStringPart (ascii '%' :: c1 :: c2 :: q) =
      ascii '%' :: c1 :: c2 :: urlEscapeStringPart q := by
  obtain ⟨_, _, _, _, _, hs, h1, h2, -⟩ := escapeAt_eq_some h
  cases hs
  rw [part_of_some h, part_of_alnum _ (isAlnum_of_hexVal (by rw [h1]; rfl)),
    part_of_alnum _ (isAlnum_of_hexVal (by rw [h2]; rfl))]

/-- A run is made of letters, digits and percent signs. -/
theorem mem_part : ∀ {s : List UInt8}, x ∈ urlEscapeStringPart s → x = ascii '%' ∨ isAlnum x = true
  | [], h => absurd h List.not_mem_nil
  | c :: s, h => by
    by_cases hc : isAlnum c = true
    · rw [part_of_alnum s hc] at h
      rcases List.mem_cons.mp h with rfl | h
      · exact Or.inr hc
      · exact mem_part h
    · obtain ⟨r, hr⟩ : ∃ r, escapeAt (c :: s) = r := ⟨_, rfl⟩
      cases r with
      | some v =>
        rw [part_of_some hr] at h
        obtain ⟨_, _, _, _, _, hs, -⟩ := escapeAt_eq_some hr
        rcases List.mem_cons.mp h with rfl | h
        · exact Or.inl (List.cons.inj hs).1
        · exact mem_part h
      | none =>
        rw [part_of_other (Bool.eq_false_iff.mpr hc) hr] at h
        obtain ⟨h1, h2⟩ := isAlnum_hexDigits c
        rcases List.mem_append.mp h with h | h
        · rcases List.mem_cons.mp h with rfl | h
          · exact Or.inl rfl
          · rcases List.mem_cons.mp h with rfl | h
            · exact Or.inr h1
            · rw [List.mem_singleton.mp h]
              exact Or.inr h2
        · exact mem_part h

/-- Escaping a run does not change what its escapes stand for. -/
theorem unescape_part (s : List UInt8) :
    urlUnescapeString (urlEscapeStringPart s) = urlUnescapeString s := by
  induction s using escapes_induction with
  | nil => rfl
  | esc c1 c2 q v h ih =>
    have h' : escapeAt (ascii '%' :: c1 :: c2 :: urlEscapeStringPart q) = some v := h
    rw [part_of_escape h, unescape_of_some h, unescape_of_some h']
    exact congrArg (List.cons v) ih
  | lit c s h ih =>
    rw [unescape_of_none h, ← ih]
    by_cases hc : isAlnum c = true
    · rw [part_of_alnum s hc]
      exact unescape_of_none (escapeAt_of_ne _ (isAlnum_ne hc))
    · rw [part_of_other (Bool.eq_false_iff.mpr hc) h]
      exact unescape_of_some (escapeAt_escaped c _)

theorem part_length_le : ∀ s : List UInt8, (urlEscapeStringPart s).length ≤ 3 * s.length
  | [] => Nat.le_refl 0
  | c :: s => by
    have ih := part_length_le s
    have hc : (if isAlnum c || (escapeAt (c :: s)).isSome then [c]
      else escaped c).length ≤ 3 := by
      split
      · exact Nat.le_of_ble_eq_true rfl
      · exact Nat.le_refl 3
    rw [urlEscapeStringPart, List.length_append, List.length_cons]
    omega

theorem escapeRun_length_le (run : List UInt8) : (escapeRun run).length ≤ 3 * run.length := by
  have h1 := part_length_le (cstr (urlUnescapeString run))
  have h2 := cstr_length_le (urlUnescapeString run)
  have h3 := unescape_length_le run
  rw [escapeRun]
  omega

/-! ## Kept characters -/

theorem isKept_class (x : UInt8) : isKept x = true →
    NotInEscape x ∧ x ≠ 0 ∧ x ≠ ascii '%' ∧ isAlnum x = false :=
  forall_byte (P := fun x => isKept x = true →
    NotInEscape x ∧ x ≠ 0 ∧ x ≠ ascii '%' ∧ isAlnum x = false) (by decide +kernel) x

theorem isKept_notInEscape (h : isKept x = true) : NotInEscape x :=
  (isKept_class x h).1

theorem isKept_ne_zero (h : isKept x = true) : x ≠ 0 := (isKept_class x h).2.1

theorem isKept_of_part (h : x = ascii '%' ∨ isAlnum x = true) : isKept x = false :=
  Bool.eq_false_iff.mpr fun hk => by
    obtain ⟨-, -, hne, halnum⟩ := isKept_class x hk
    rcases h with h | h
    · exact hne h
    · rw [halnum] at h
      cases h

/-- A run of which no character is kept. -/
def KeptFree (s : List UInt8) : Prop := ∀ x ∈ s, isKept x = false

theorem escapeRun_keptFree (run : List UInt8) : KeptFree (escapeRun run) :=
  fun _ hx => isKept_of_part (mem_part hx)

theorem KeptFree.not_mem (h : KeptFree s) (hx : isKept x = true) : x ∉ s :=
  fun hm => Bool.false_ne_true ((h x hm).symm.trans hx)

theorem escapeRuns_kept (run : List UInt8) (s : List UInt8) (h : isKept c = true) :
    escapeRuns run (c :: s) = escapeRun run ++ c :: escapeRuns [] s := by
  rw [escapeRuns, if_pos h]

theorem escapeRuns_keptFree : ∀ (run : List UInt8) {s : List UInt8} (t : List UInt8), KeptFree s →
    escapeRuns run (s ++ t) = escapeRuns (run ++ s) t
  | run, [], t, _ => by rw [List.append_nil]; rfl
  | run, c :: s, t, h => by
    rw [List.cons_append, escapeRuns,
      if_neg fun hc => Bool.false_ne_true ((h c List.mem_cons_self).symm.trans hc),
      escapeRuns_keptFree (run ++ [c]) t fun x hx => h x (List.mem_cons_of_mem c hx),
      List.append_assoc]
    rfl

/-- A character that is kept separates what is escaped. -/
theorem escapeRuns_append_kept : ∀ (run a : List UInt8) {c : UInt8} (s : List UInt8),
    isKept c = true → escapeRuns run (a ++ c :: s) = escapeRuns run a ++ c :: escapeRuns [] s
  | run, [], c, s, h => escapeRuns_kept run s h
  | run, d :: a, c, s, h => by
    rw [List.cons_append, escapeRuns, escapeRuns]
    split
    · rw [escapeRuns_append_kept [] a s h, List.append_assoc]
      rfl
    · exact escapeRuns_append_kept (run ++ [d]) a s h

/-- A character that is kept occurs as often as before. -/
theorem count_escapeRuns (hx : isKept x = true) : ∀ {run : List UInt8}
    (s : List UInt8), KeptFree run → (escapeRuns run s).count x = s.count x
  | run, [], _ => List.count_eq_zero.mpr ((escapeRun_keptFree run).not_mem hx)
  | run, c :: s, h => by
    rw [escapeRuns]
    split
    · rw [List.count_append, List.count_eq_zero.mpr ((escapeRun_keptFree run).not_mem hx),
        Nat.zero_add, List.count_cons, List.count_cons,
        count_escapeRuns hx s fun _ hm => absurd hm List.not_mem_nil]
    · rename_i hc
      have hne : c ≠ x := fun e => hc (e ▸ hx)
      have hrun : KeptFree (run ++ [c]) := fun y hy => by
        rcases List.mem_append.mp hy with hy | hy
        · exact h y hy
        · rw [List.mem_singleton.mp hy]
          exact Bool.eq_false_iff.mpr hc
      rw [count_escapeRuns hx s hrun, List.count_cons_of_ne hne]

theorem escapeRuns_length_le : ∀ (run s : List UInt8),
    (escapeRuns run s).length ≤ 3 * (run.length + s.length)
  | run, [] => escapeRun_length_le run
  | run, c :: s => by
    rw [escapeRuns]
    split
    · have h1 := escapeRun_length_le run
      have h2 := escapeRuns_length_le [] s
      simp only [List.length_append, List.length_cons, List.length_nil] at h2 ⊢
      omega
    · have h := escapeRuns_length_le (run ++ [c]) s
      simp only [List.length_append, List.length_cons, List.length_nil] at h ⊢
      omega

/-- What is written is made of letters, digits, percent signs and characters that are kept. -/
theorem mem_escapeRuns : ∀ {run s : List UInt8}, x ∈ escapeRuns run s →
    x = ascii '%' ∨ isAlnum x = true ∨ isKept x = true
  | _, [], h => (mem_part h).imp_right Or.inl
  | run, c :: s, h => by
    rw [escapeRuns] at h
    split at h
    · rename_i hc
      rcases List.mem_append.mp h with h | h
      · exact (mem_part h).imp_right Or.inl
      · rcases List.mem_cons.mp h with rfl | h
        · exact Or.inr (Or.inr hc)
        · exact mem_escapeRuns h
    · exact mem_escapeRuns h

/-- An escaped URL is at most three times as long. -/
theorem urlEscapeString_length_le (s : List UInt8) :
    (urlEscapeString s).length ≤ 3 * s.length := by
  have h1 := escapeRuns_length_le [] (s.drop (rawLength s))
  have h2 := List.length_take_le' (rawLength s) s
  have h3 : (s.take (rawLength s)).length + (s.drop (rawLength s)).length = s.length := by
    rw [← List.length_append, List.take_append_drop]
  rw [urlEscapeString, List.length_append]
  simp only [List.length_nil] at h1
  omega

/-! ## The IPv6 part -/

/-- The bracket that ends the part is found, and then the part goes up to it. -/
theorem rawLength_pos (h : 0 < rawLength s) :
    ∃ tmp k, Lib.findSub (asciis "://[") s = some tmp ∧
      Lib.findSub [ascii ']'] (s.drop (tmp + 4)) = some k ∧ rawLength s = tmp + 4 + k + 1 ∧
      ∀ c, (s.drop (rawLength s)).head? = some c → c = ascii '/' ∨ c = ascii ':' := by
  rw [rawLength] at h ⊢
  obtain ⟨r, hr⟩ : ∃ r, Lib.findSub (asciis "://[") s = r := ⟨_, rfl⟩
  rw [hr] at h ⊢
  cases r with
  | none => exact absurd h (Nat.lt_irrefl 0)
  | some tmp =>
    dsimp only at h ⊢
    obtain ⟨r, hk⟩ : ∃ r, Lib.findSub [ascii ']'] (s.drop (tmp + 4)) = r := ⟨_, rfl⟩
    rw [hk] at h ⊢
    cases r with
    | none => exact absurd h (Nat.lt_irrefl 0)
    | some k =>
      dsimp only at h ⊢
      obtain ⟨r, hd⟩ : ∃ r, s.drop (tmp + 4 + k + 1) = r := ⟨_, rfl⟩
      rw [hd] at h ⊢
      cases r with
      | nil =>
        refine ⟨tmp, k, rfl, hk, rfl, fun c hc => ?_⟩
        rw [hd] at hc
        cases hc
      | cons c t =>
        dsimp only at h ⊢
        split at h
        · rename_i hc
          rw [if_pos hc]
          refine ⟨tmp, k, rfl, hk, rfl, fun d hd' => ?_⟩
          rw [hd] at hd'
          cases hd'
          exact hc
        · exact absurd h (Nat.lt_irrefl 0)

theorem rawLength_eq {s : List UInt8} {tmp k : Nat}
    (htmp : Lib.findSub (asciis "://[") s = some tmp)
    (hk : Lib.findSub [ascii ']'] (s.drop (tmp + 4)) = some k)
    (h : ∀ c, (s.drop (tmp + 4 + k + 1)).head? = some c → c = ascii '/' ∨ c = ascii ':') :
    rawLength s = tmp + 4 + k + 1 := by
  rw [rawLength, htmp]
  dsimp only
  rw [hk]
  dsimp only
  obtain ⟨r, hd⟩ : ∃ r, s.drop (tmp + 4 + k + 1) = r := ⟨_, rfl⟩
  rw [hd] at h ⊢
  cases r with
  | nil => rfl
  | cons c t => exact if_pos (h c rfl)

theorem rawLength_eq_zero {s : List UInt8} (h : ascii '[' ∉ s) : rawLength s = 0 := by
  refine Nat.eq_zero_of_not_pos fun hpos => ?_
  obtain ⟨tmp, -, htmp, -⟩ := rawLength_pos hpos
  obtain ⟨pre, suf, rfl, -⟩ := Lib.findSub_split htmp
  exact h (List.mem_append_left _ (List.mem_append_right _ (by decide)))

theorem rawLength_le (s : List UInt8) : rawLength s ≤ s.length := by
  rcases Nat.eq_zero_or_pos (rawLength s) with h | h
  · omega
  · obtain ⟨tmp, k, -, hk, hraw, -⟩ := rawLength_pos h
    obtain ⟨pre, suf, hs, hpre⟩ := Lib.findSub_split hk
    have hlen := congrArg List.length hs
    simp only [List.length_drop, List.length_append, List.length_cons, List.length_nil] at hlen
    omega

/-- The part ends with a bracket. -/
theorem rawLength_bracket (h : 0 < rawLength s) : ∃ p, s.take (rawLength s) = p ++ [ascii ']'] := by
  obtain ⟨tmp, k, -, hk, hraw, -⟩ := rawLength_pos h
  obtain ⟨pre, suf, hs, rfl⟩ := Lib.findSub_split hk
  have hle : tmp + 4 ≤ s.length := by
    have hlen := congrArg List.length hs
    simp only [List.length_drop, List.length_append, List.length_cons, List.length_nil] at hlen
    omega
  refine ⟨s.take (tmp + 4) ++ pre, ?_⟩
  have hsplit : s = s.take (tmp + 4) ++ pre ++ [ascii ']'] ++ suf := by
    rw [List.append_assoc _ pre, List.append_assoc, ← hs, List.take_append_drop]
  have hlen : (s.take (tmp + 4) ++ pre ++ [ascii ']']).length = rawLength s := by
    rw [hraw]
    simp only [List.length_append, List.length_take_of_le hle, List.length_cons, List.length_nil]
  exact (congrArg (List.take (rawLength s)) hsplit).trans (List.take_left' hlen)

/-- The escaped URL has the same part. -/
theorem rawLength_urlEscapeString (s : List UInt8) :
    rawLength (urlEscapeString s) = rawLength s := by
  rcases Nat.eq_zero_or_pos (rawLength s) with h | h
  · rw [urlEscapeString, h, List.take_zero, List.nil_append]
    refine rawLength_eq_zero fun hm => ?_
    have hbracket := mem_escapeRuns hm
    revert hbracket
    decide
  · obtain ⟨tmp, k, htmp, hk, hraw, hnext⟩ := rawLength_pos h
    have hlen : (s.take (rawLength s)).length = rawLength s :=
      List.length_take_of_le (rawLength_le s)
    have htake : s.take (rawLength s) = (urlEscapeString s).take (rawLength s) := by
      rw [urlEscapeString, List.take_append_of_le_length (Nat.le_of_eq hlen.symm),
        List.take_take, Nat.min_self]
    have htmp' : Lib.findSub (asciis "://[") (urlEscapeString s) = some tmp :=
      Lib.findSub_congr_take htmp (by rw [hraw]; exact Nat.le_add_right _ (k + 1)) htake
    have hk' : Lib.findSub [ascii ']'] ((urlEscapeString s).drop (tmp + 4)) = some k := by
      refine Lib.findSub_congr_take hk (Nat.le_refl _) ?_
      have hdrop := congrArg (List.drop (tmp + 4)) htake
      rw [List.drop_take, List.drop_take] at hdrop
      have hsub : rawLength s - (tmp + 4) = k + 1 := by omega
      rwa [hsub] at hdrop
    rw [hraw]
    refine rawLength_eq htmp' hk' fun c hc => ?_
    rw [← hraw, urlEscapeString, List.drop_left' hlen] at hc
    obtain ⟨r, hr⟩ : ∃ r, s.drop (rawLength s) = r := ⟨_, rfl⟩
    rw [hr] at hc hnext
    cases r with
    | nil => cases hc
    | cons d t =>
      have hd := hnext d rfl
      have hkept : isKept d = true := by
        rcases hd with rfl | rfl
        · decide
        · decide
      rw [escapeRuns_kept [] t hkept] at hc
      cases hc
      exact hd

theorem count_urlEscapeString (hx : isKept x = true) (s : List UInt8) :
    (urlEscapeString s).count x = s.count x := by
  rw [urlEscapeString, List.count_append,
    count_escapeRuns hx _ fun _ hm => absurd hm List.not_mem_nil, ← List.count_append,
    List.take_append_drop]

/-- What stands in front of the authority is still there. -/
theorem urlEscapeString_scheme (h : asciis "://" <:+: s) : asciis "://" <:+: urlEscapeString s := by
  rcases Nat.eq_zero_or_pos (rawLength s) with h0 | hpos
  · obtain ⟨a, b, rfl⟩ := h
    rw [urlEscapeString, h0, List.take_zero, List.nil_append, List.drop_zero, List.append_assoc]
    refine ⟨escapeRuns [] a, escapeRuns [] b, ?_⟩
    show _ = escapeRuns [] (a ++ ascii ':' :: ascii '/' :: ascii '/' :: b)
    rw [escapeRuns_append_kept [] a _ (by decide), escapeRuns_kept [] _ (by decide),
      escapeRuns_kept [] _ (by decide), List.append_assoc]
    rfl
  · obtain ⟨tmp, k, htmp, -, hraw, -⟩ := rawLength_pos hpos
    have htake' : s.take (rawLength s) = (s.take (rawLength s)).take (rawLength s) := by
      rw [List.take_take, Nat.min_self]
    have htake : Lib.findSub (asciis "://[") (s.take (rawLength s)) = some tmp := by
      refine Lib.findSub_congr_take htmp ?_ htake'
      rw [hraw]
      exact Nat.le_add_right _ (k + 1)
    obtain ⟨pre, suf, hs, -⟩ := Lib.findSub_split htake
    rw [urlEscapeString, hs, List.append_assoc, List.append_assoc]
    exact ⟨pre, ascii '[' :: (suf ++ escapeRuns [] (s.drop (rawLength s))), by
      rw [List.append_assoc]; rfl⟩

end MPlayer
