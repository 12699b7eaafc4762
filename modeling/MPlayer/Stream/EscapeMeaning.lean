import MPlayer.Stream.UrlEscape

/-!
# What escaping keeps

Escaping a URL should not change what its escapes stand for, and escaping it once more should not
change it.

*Runs.*  Both go run by run.  A run is decoded and cut at its first NUL, and what is left is
escaped without touching what looks like an escape already.  So what is decoded may be decoded
once more (`runs_agree_last`), and a NUL takes the rest of its run with it (`runs_agree_kept`).

*Twice.*  A run is escaped to the same text again if the escapes in what is decoded are such that
escaping writes them (`StableEscapes`).

*URLs.*  Both hold exactly when no run decodes to an escape, and to a NUL at most the last one, or
when the IPv6 part ends the string before and all escapes are stable (`urlEscape_preserves_iff`).
-/

namespace MPlayer

/-! ## Runs -/

/-- The runs that a string is split into. -/
def runsOf (run : List UInt8) : List UInt8 → List (List UInt8)
  | [] => [run]
  | c :: s => if isKept c then run :: runsOf [] s else runsOf (run ++ [c]) s

/-- What a run stands for, as a C string. -/
def decoded (run : List UInt8) : List UInt8 := cstr (urlUnescapeString run)

/-- No run stands for an escape, and only the last one may stand for a NUL. -/
structure DecodesOnce (runs : List (List UInt8)) : Prop where
  noEscape : ∀ r ∈ runs, NoEscape (decoded r)
  noNul : ∀ r ∈ runs.dropLast, 0 ∉ urlUnescapeString r

/-- At the end of the string. -/
theorem runs_agree_last (u : List UInt8) :
    cstr (urlUnescapeString (cstr u)) = cstr u ↔ NoEscape (cstr u) := by
  constructor
  · intro h
    rw [noEscape_iff_length]
    have hle := cstr_length_le (urlUnescapeString (cstr u))
    rwa [h] at hle
  · intro h
    rw [h.unescape]
    exact cstr_eq_self (zero_not_mem_cstr u)

/-- What stands in front of a letter that occurs often is long. -/
theorem length_le_of_count {x : UInt8} {a b a' b' : List UInt8}
    (h : a ++ x :: a' = b ++ x :: b') (hc : b.count x ≤ a.count x) : b.length ≤ a.length := by
  refine Nat.le_of_not_lt fun hlt => ?_
  have hpre : a ++ [x] <+: b := by
    have h1 : a ++ [x] <+: b ++ x :: b' := ⟨a', by rw [← h, List.append_assoc]; rfl⟩
    refine List.prefix_of_prefix_length_le h1 (List.prefix_append b _) ?_
    rw [List.length_append, List.length_singleton]
    exact hlt
  have hcount := hpre.sublist.count_le x
  rw [List.count_append, List.count_singleton_self] at hcount
  omega

/-- In front of a character that is kept. -/
theorem runs_agree_kept {x : UInt8} (hx : isKept x = true) (u X Y : List UInt8) :
    cstr (urlUnescapeString (cstr u) ++ x :: X) = cstr (u ++ x :: Y) ↔
      (NoEscape (cstr u) ∧ 0 ∉ u) ∧ cstr X = cstr Y := by
  have hx0 := isKept_ne_zero hx
  constructor
  · intro h
    have hle := unescape_length_le (cstr u)
    have hcount := count_unescape_le (isKept_notInEscape hx) (cstr u)
    by_cases hv : 0 ∈ urlUnescapeString (cstr u)
    · have hlt := cstr_length_lt hv
      rw [cstr_append_of_mem hv] at h
      by_cases hu : 0 ∈ u
      · rw [cstr_append_of_mem hu] at h
        rw [h] at hlt
        omega
      · rw [cstr_append hu] at h
        rw [h, List.length_append] at hlt
        rw [cstr_eq_self hu] at hlt hle
        omega
    · rw [cstr_append hv, cstr_cons hx0] at h
      by_cases hu : 0 ∈ u
      · rw [cstr_append_of_mem hu] at h
        have hsum := congrArg (List.count x) h
        rw [List.count_append, List.count_cons_self] at hsum
        omega
      · rw [cstr_append hu, cstr_cons hx0] at h
        rw [cstr_eq_self hu] at h hcount ⊢
        have hno : NoEscape u := (noEscape_iff_length u).mpr (length_le_of_count h hcount)
        rw [hno.unescape] at h
        exact ⟨⟨hno, hu⟩, (List.cons.inj (List.append_cancel_left h)).2⟩
  · rintro ⟨⟨hno, hu⟩, hXY⟩
    rw [hno.unescape, cstr_eq_self hu, cstr_append hu, cstr_append hu, cstr_cons hx0,
      cstr_cons hx0, hXY]

theorem runsOf_ne_nil : ∀ (run s : List UInt8), runsOf run s ≠ []
  | _, [] => List.cons_ne_nil _ _
  | run, c :: s => by
    rw [runsOf]
    split
    · exact List.cons_ne_nil _ _
    · exact runsOf_ne_nil _ s

theorem DecodesOnce.singleton_iff {r : List UInt8} : DecodesOnce [r] ↔ NoEscape (decoded r) := by
  constructor
  · intro h
    exact h.noEscape r List.mem_cons_self
  · intro h
    constructor
    · intro q hq
      rw [List.mem_singleton.mp hq]
      exact h
    · intro q hq
      exact absurd hq List.not_mem_nil

theorem DecodesOnce.cons_iff {r : List UInt8} {runs : List (List UInt8)} (hruns : runs ≠ []) :
    DecodesOnce (r :: runs) ↔
      (NoEscape (decoded r) ∧ 0 ∉ urlUnescapeString r) ∧ DecodesOnce runs := by
  constructor
  · rintro ⟨h1, h2⟩
    rw [List.dropLast_cons_of_ne_nil hruns] at h2
    rw [List.forall_mem_cons] at h1 h2
    exact ⟨⟨h1.1, h2.1⟩, h1.2, h2.2⟩
  · rintro ⟨⟨h1, h2⟩, h3, h4⟩
    constructor
    · rw [List.forall_mem_cons]
      exact ⟨h1, h3⟩
    · rw [List.dropLast_cons_of_ne_nil hruns, List.forall_mem_cons]
      exact ⟨h2, h4⟩

/-- What is escaped stands for the same exactly if its runs are decoded once. -/
theorem escapeRuns_agree_iff : ∀ (run s : List UInt8),
    cstr (urlUnescapeString (escapeRuns run s)) = cstr (urlUnescapeString (run ++ s)) ↔
      DecodesOnce (runsOf run s)
  | run, [] => by
    rw [runsOf, DecodesOnce.singleton_iff, escapeRuns, escapeRun, unescape_part, List.append_nil]
    exact runs_agree_last (urlUnescapeString run)
  | run, c :: s => by
    rw [runsOf]
    split
    · rename_i hc
      rw [escapeRuns_kept run s hc, unescape_append (isKept_notInEscape hc),
        unescape_append (isKept_notInEscape hc), escapeRun, unescape_part, runs_agree_kept hc,
        DecodesOnce.cons_iff (runsOf_ne_nil [] s), ← escapeRuns_agree_iff [] s]
      rfl
    · rename_i hc
      have ih := escapeRuns_agree_iff (run ++ [c]) s
      rw [List.append_assoc] at ih
      rw [escapeRuns, if_neg hc]
      exact ih

/-! ## Twice -/

/-- Each escape stands for a byte that is escaped, and is written as the code writes it. -/
def StableEscapes (s : List UInt8) : Prop :=
  ∀ t, t <:+ s → ∀ c, escapeAt t = some c →
    c ≠ 0 ∧ isAlnum c = false ∧ escapeAt (c :: t.drop 3) = none ∧ escaped c <+: t

variable {s : List UInt8} {c v : UInt8}

theorem NoEscape.stable (h : NoEscape s) : StableEscapes s := fun t ht c hc => by
  cases (h t ht).symm.trans hc

theorem StableEscapes.lit_iff (h : escapeAt (c :: s) = none) :
    StableEscapes (c :: s) ↔ StableEscapes s := by
  constructor
  · exact fun hs t ht => hs t (ht.trans (List.suffix_cons c s))
  · intro hs t ht v hv
    rcases List.suffix_cons_iff.mp ht with rfl | ht
    · cases h.symm.trans hv
    · exact hs t ht v hv

theorem StableEscapes.esc_iff {c1 c2 : UInt8} {q : List UInt8}
    (h : escapeAt (ascii '%' :: c1 :: c2 :: q) = some v) :
    StableEscapes (ascii '%' :: c1 :: c2 :: q) ↔
      (v ≠ 0 ∧ isAlnum v = false ∧ escapeAt (v :: q) = none ∧ escaped v = [ascii '%', c1, c2]) ∧
        StableEscapes q := by
  obtain ⟨_, _, _, _, _, hs, h1, h2, -⟩ := escapeAt_eq_some h
  cases hs
  have hlit1 := escapeAt_of_ne (c2 :: q) (isAlnum_ne (isAlnum_of_hexVal (by rw [h1]; rfl)))
  have hlit2 := escapeAt_of_ne q (isAlnum_ne (isAlnum_of_hexVal (by rw [h2]; rfl)))
  rw [← lit_iff hlit2, ← lit_iff hlit1]
  constructor
  · intro hs
    obtain ⟨h0, halnum, hnext, hpre⟩ := hs _ (List.suffix_refl _) v h
    have heq := List.prefix_iff_eq_take.mp hpre
    exact ⟨⟨h0, halnum, hnext, heq⟩, fun t ht => hs t (ht.trans (List.suffix_cons _ _))⟩
  · rintro ⟨⟨h0, halnum, hnext, heq⟩, hs⟩ t ht w hw
    rcases List.suffix_cons_iff.mp ht with rfl | ht
    · cases h.symm.trans hw
      exact ⟨h0, halnum, hnext, heq ▸ ⟨q, rfl⟩⟩
    · exact hs t ht w hw

theorem escapeAt_percent (h : escapeAt (c :: s) = some v) : c = ascii '%' := by
  obtain ⟨_, _, _, _, _, hs, -⟩ := escapeAt_eq_some h
  exact (List.cons.inj hs).1

theorem ne_zero_of_hexVal : (hexVal c).isSome = true → c ≠ 0 :=
  forall_byte (P := fun c => (hexVal c).isSome = true → c ≠ 0) (by decide +kernel) c

/-- Two digits in front stay. -/
theorem escapeAt_decoded (h : escapeAt (ascii '%' :: s) = some v) :
    escapeAt (ascii '%' :: decoded s) = some v := by
  obtain ⟨c1, c2, q, _, _, hs, h1, h2, -⟩ := escapeAt_eq_some h
  cases hs
  have hd1 : (hexVal c1).isSome = true := by rw [h1]; rfl
  have hd2 : (hexVal c2).isSome = true := by rw [h2]; rfl
  rw [decoded, unescape_of_none (escapeAt_of_ne _ (isAlnum_ne (isAlnum_of_hexVal hd1))),
    unescape_of_none (escapeAt_of_ne _ (isAlnum_ne (isAlnum_of_hexVal hd2))),
    cstr_cons (ne_zero_of_hexVal hd1), cstr_cons (ne_zero_of_hexVal hd2)]
  exact h

/-- The first byte is a digit only if it was one. -/
theorem StableEscapes.hex_front {w : List UInt8} {d : UInt8} (hs : StableEscapes s)
    (hd : (hexVal d).isSome = true) (h : decoded s = d :: w) :
    ∃ t, s = d :: t ∧ decoded t = w ∧ StableEscapes t := by
  have hd0 := ne_zero_of_hexVal hd
  cases s with
  | nil => cases h
  | cons c s =>
    obtain ⟨r, hr⟩ : ∃ r, escapeAt (c :: s) = r := ⟨_, rfl⟩
    cases r with
    | none =>
      rw [decoded, unescape_of_none hr] at h
      by_cases hc : c = 0
      · rw [hc] at h
        cases h
      · rw [cstr_cons hc] at h
        obtain ⟨rfl, hw⟩ := List.cons.inj h
        exact ⟨s, rfl, hw, (lit_iff hr).mp hs⟩
    | some v =>
      obtain ⟨hv0, halnum, -⟩ := hs _ (List.suffix_refl _) v hr
      rw [decoded, unescape_of_some hr, cstr_cons hv0] at h
      have hv := (List.cons.inj h).1
      rw [hv, isAlnum_of_hexVal hd] at halnum
      cases halnum

theorem StableEscapes.escapeAt_decoded (hs : StableEscapes s)
    (h : escapeAt (ascii '%' :: decoded s) = some v) : escapeAt (ascii '%' :: s) = some v := by
  obtain ⟨c1, c2, q, _, _, hw, h1, h2, -⟩ := escapeAt_eq_some h
  obtain ⟨t, rfl, ht, hst⟩ := hs.hex_front (by rw [h1]; rfl) (List.cons.inj hw).2
  obtain ⟨t', rfl, ht', -⟩ := hst.hex_front (by rw [h2]; rfl) ht
  rw [hw] at h
  exact h

theorem decoded_of_some (h : escapeAt (c :: s) = some v) (hv : v ≠ 0) :
    decoded (c :: s) = v :: decoded (s.drop 2) := by
  rw [decoded, unescape_of_some h, cstr_cons hv]
  rfl

theorem decoded_of_none (h : escapeAt (c :: s) = none) (hc : c ≠ 0) :
    decoded (c :: s) = c :: decoded s := by
  rw [decoded, unescape_of_none h, cstr_cons hc]
  rfl

theorem part_cons_length_le (c : UInt8) (s : List UInt8) :
    (urlEscapeStringPart (c :: s)).length ≤ 3 + (urlEscapeStringPart s).length := by
  have hc : (if isAlnum c || (escapeAt (c :: s)).isSome then [c] else escaped c).length ≤ 3 := by
    split
    · exact Nat.le_of_ble_eq_true rfl
    · exact Nat.le_refl 3
  rw [urlEscapeStringPart, List.length_append]
  omega

/-- Decoding before escaping does not make it longer. -/
theorem part_decoded_length_le (h0 : 0 ∉ s) :
    (urlEscapeStringPart (decoded s)).length ≤ (urlEscapeStringPart s).length := by
  induction s using escapes_induction with
  | nil => exact Nat.le_refl 0
  | esc c1 c2 q v h ih =>
    have hq := ih fun hm => h0 (List.mem_cons_of_mem _ (List.mem_cons_of_mem _
      (List.mem_cons_of_mem _ hm)))
    rw [part_of_escape h]
    by_cases hv : v = 0
    · rw [decoded, unescape_of_some h, hv]
      exact Nat.zero_le _
    · rw [decoded_of_some h hv]
      have hle := part_cons_length_le v (decoded q)
      show (urlEscapeStringPart (v :: decoded q)).length ≤ (urlEscapeStringPart q).length + 3
      omega
  | lit c s h ih =>
    have hs := ih fun hm => h0 (List.mem_cons_of_mem c hm)
    have hc : c ≠ 0 := fun e => h0 (e ▸ List.mem_cons_self)
    rw [decoded_of_none h hc]
    by_cases halnum : isAlnum c = true
    · rw [part_of_alnum _ halnum, part_of_alnum _ halnum]
      exact Nat.succ_le_succ hs
    · have hle := part_cons_length_le c (decoded s)
      rw [part_of_other (Bool.eq_false_iff.mpr halnum) h]
      show _ ≤ (urlEscapeStringPart s).length + 3
      omega

/-- Escapes that are stable are written again. -/
theorem StableEscapes.part_decoded (hs : StableEscapes s) (h0 : 0 ∉ s) :
    urlEscapeStringPart (decoded s) = urlEscapeStringPart s := by
  induction s using escapes_induction with
  | nil => rfl
  | esc c1 c2 q v h ih =>
    obtain ⟨⟨hv, halnum, hnext, heq⟩, hq⟩ := (esc_iff h).mp hs
    have hnone : escapeAt (v :: decoded q) = none := by
      refine Option.eq_none_iff_forall_ne_some.mpr fun w hw => ?_
      have hp := escapeAt_percent hw
      rw [hp] at hw hnext
      cases hnext.symm.trans (hq.escapeAt_decoded hw)
    rw [decoded_of_some h hv, part_of_escape h]
    show urlEscapeStringPart (v :: decoded q) = _
    rw [part_of_other halnum hnone, heq, ih hq fun hm => h0 (List.mem_cons_of_mem _
      (List.mem_cons_of_mem _ (List.mem_cons_of_mem _ hm)))]
    rfl
  | lit c s h ih =>
    have hc : c ≠ 0 := fun e => h0 (e ▸ List.mem_cons_self)
    have hq := (lit_iff h).mp hs
    have ih := ih hq fun hm => h0 (List.mem_cons_of_mem c hm)
    rw [decoded_of_none h hc]
    by_cases halnum : isAlnum c = true
    · rw [part_of_alnum _ halnum, part_of_alnum _ halnum, ih]
    · have hnone : escapeAt (c :: decoded s) = none := by
        refine Option.eq_none_iff_forall_ne_some.mpr fun w hw => ?_
        have hp := escapeAt_percent hw
        rw [hp] at hw h
        cases h.symm.trans (hq.escapeAt_decoded hw)
      have hfalse := Bool.eq_false_iff.mpr halnum
      rw [part_of_other hfalse hnone, part_of_other hfalse h, ih]

/-- Only escapes that are stable are written again. -/
theorem stable_of_part_decoded (h0 : 0 ∉ s)
    (heq : urlEscapeStringPart (decoded s) = urlEscapeStringPart s) : StableEscapes s := by
  induction s using escapes_induction with
  | nil =>
    intro t ht c hc
    rw [List.suffix_nil.mp ht] at hc
    cases hc
  | esc c1 c2 q v h ih =>
    have hq0 : 0 ∉ q := fun hm => h0 (List.mem_cons_of_mem _ (List.mem_cons_of_mem _
      (List.mem_cons_of_mem _ hm)))
    have hle := part_decoded_length_le hq0
    rw [part_of_escape h] at heq
    have hv : v ≠ 0 := fun e => by
      rw [decoded, unescape_of_some h, e] at heq
      cases heq
    rw [decoded_of_some h hv] at heq
    change urlEscapeStringPart (v :: decoded q) = _ at heq
    have halnum : isAlnum v = false := by
      refine Bool.eq_false_iff.mpr fun ha => ?_
      rw [part_of_alnum _ ha] at heq
      exact isAlnum_ne ha (List.cons.inj heq).1
    have hnone : escapeAt (v :: decoded q) = none := by
      refine Option.eq_none_iff_forall_ne_some.mpr fun w hw => ?_
      rw [part_of_some hw] at heq
      have hlen := congrArg List.length heq
      simp only [List.length_cons] at hlen
      omega
    have hnext : escapeAt (v :: q) = none := by
      refine Option.eq_none_iff_forall_ne_some.mpr fun w hw => ?_
      have hp := escapeAt_percent hw
      rw [hp] at hw hnone
      cases hnone.symm.trans (escapeAt_decoded hw)
    rw [part_of_other halnum hnone] at heq
    obtain ⟨heq1, heq2⟩ := List.append_inj
      (show escaped v ++ _ = [ascii '%', c1, c2] ++ urlEscapeStringPart q from heq) rfl
    exact (StableEscapes.esc_iff h).mpr ⟨⟨hv, halnum, hnext, heq1⟩, ih hq0 heq2⟩
  | lit c s h ih =>
    have hs0 : 0 ∉ s := fun hm => h0 (List.mem_cons_of_mem c hm)
    have hc : c ≠ 0 := fun e => h0 (e ▸ List.mem_cons_self)
    have hle := part_decoded_length_le hs0
    rw [StableEscapes.lit_iff h]
    rw [decoded_of_none h hc] at heq
    by_cases halnum : isAlnum c = true
    · rw [part_of_alnum _ halnum, part_of_alnum _ halnum] at heq
      exact ih hs0 (List.cons.inj heq).2
    · have hfalse := Bool.eq_false_iff.mpr halnum
      rw [part_of_other hfalse h] at heq
      obtain ⟨r, hr⟩ : ∃ r, escapeAt (c :: decoded s) = r := ⟨_, rfl⟩
      cases r with
      | none =>
        rw [part_of_other hfalse hr] at heq
        exact ih hs0 (List.append_cancel_left heq)
      | some w =>
        rw [part_of_some hr] at heq
        have hlen := congrArg List.length heq
        rw [List.length_cons, List.length_append] at hlen
        have hesc : (escaped c).length = 3 := rfl
        omega

/-- A run is escaped to the same text again. -/
theorem escapeRun_twice_iff (run : List UInt8) :
    escapeRun (escapeRun run) = escapeRun run ↔ StableEscapes (decoded run) := by
  have h0 : 0 ∉ decoded run := zero_not_mem_cstr _
  have htwice : escapeRun (escapeRun run) = urlEscapeStringPart (decoded (decoded run)) := by
    rw [escapeRun, escapeRun, unescape_part]
    rfl
  rw [htwice]
  exact ⟨stable_of_part_decoded h0, fun h => h.part_decoded h0⟩

/-- The text falls into the same runs again. -/
theorem escapeRuns_twice_iff : ∀ (run s : List UInt8),
    escapeRuns [] (escapeRuns run s) = escapeRuns run s ↔
      ∀ r ∈ runsOf run s, StableEscapes (decoded r)
  | run, [] => by
    have hrun := escapeRuns_keptFree [] [] (escapeRun_keptFree run)
    rw [List.append_nil, List.nil_append] at hrun
    rw [escapeRuns, hrun, runsOf, List.forall_mem_singleton, ← escapeRun_twice_iff]
    rfl
  | run, c :: s => by
    rw [runsOf]
    split
    · rename_i hc
      have hnone := (escapeRun_keptFree run).not_mem hc
      have hnone' := (escapeRun_keptFree (escapeRun run)).not_mem hc
      rw [escapeRuns_kept run s hc, escapeRuns_keptFree [] _ (escapeRun_keptFree run),
        List.nil_append, escapeRuns_kept _ _ hc, List.forall_mem_cons, ← escapeRun_twice_iff,
        ← escapeRuns_twice_iff [] s]
      exact Lib.append_letter_inj hnone' hnone
    · rename_i hc
      rw [escapeRuns, if_neg hc]
      exact escapeRuns_twice_iff (run ++ [c]) s

/-! ## URLs -/

/-- Escaping keeps what the escapes stand for, escaping once more keeps the text, and it is at
most three times as long. -/
def EscapePreserves (s : List UInt8) : Prop :=
  cstr (urlUnescapeString (urlEscapeString s)) = cstr (urlUnescapeString s) ∧
    urlEscapeString (urlEscapeString s) = urlEscapeString s ∧
      (urlEscapeString s).length ≤ 3 * s.length

/-- The part with an IPv6 address. -/
def rawPart (s : List UInt8) : List UInt8 := s.take (rawLength s)

/-- The runs that are escaped. -/
def escapedRuns (s : List UInt8) : List (List UInt8) := runsOf [] (s.drop (rawLength s))

theorem urlEscape_agrees_iff (s : List UInt8) :
    cstr (urlUnescapeString (urlEscapeString s)) = cstr (urlUnescapeString s) ↔
      0 ∈ urlUnescapeString (rawPart s) ∨ DecodesOnce (escapedRuns s) := by
  have hruns := escapeRuns_agree_iff [] (s.drop (rawLength s))
  have hs : s = rawPart s ++ s.drop (rawLength s) := (List.take_append_drop _ s).symm
  rw [List.nil_append] at hruns
  rcases Nat.eq_zero_or_pos (rawLength s) with h | h
  · have hraw : rawPart s = [] := by rw [rawPart, h, List.take_zero]
    rw [h, List.drop_zero] at hruns
    rw [urlEscapeString, hraw, escapedRuns, h, List.take_zero, List.nil_append, List.drop_zero,
      hruns]
    exact (or_iff_right List.not_mem_nil).symm
  · obtain ⟨p, hp⟩ := rawLength_bracket h
    have hbracket : NotInEscape (ascii ']') := by decide
    have happ : ∀ t, urlUnescapeString (rawPart s ++ t) =
        urlUnescapeString (rawPart s) ++ urlUnescapeString t := fun t => by
      rw [rawPart, hp, List.append_assoc, List.singleton_append, unescape_append hbracket,
        unescape_append hbracket, List.append_assoc]
      rfl
    have hesc : urlUnescapeString (urlEscapeString s) = urlUnescapeString (rawPart s) ++
        urlUnescapeString (escapeRuns [] (s.drop (rawLength s))) := happ _
    have hun : urlUnescapeString s = urlUnescapeString (rawPart s) ++
        urlUnescapeString (s.drop (rawLength s)) := by rw [← happ, ← hs]
    rw [hesc, hun]
    by_cases h0 : 0 ∈ urlUnescapeString (rawPart s)
    · rw [cstr_append_of_mem h0, cstr_append_of_mem h0]
      exact ⟨fun _ => Or.inl h0, fun _ => rfl⟩
    · rw [cstr_append h0, cstr_append h0, escapedRuns, ← hruns]
      exact ⟨fun e => Or.inr (List.append_cancel_left e),
        fun e => e.elim (fun hm => absurd hm h0) (congrArg _)⟩

theorem urlEscape_twice_iff (s : List UInt8) :
    urlEscapeString (urlEscapeString s) = urlEscapeString s ↔
      ∀ r ∈ escapedRuns s, StableEscapes (decoded r) := by
  have hlen : (s.take (rawLength s)).length = rawLength s :=
    List.length_take_of_le (rawLength_le s)
  rw [escapedRuns, ← escapeRuns_twice_iff]
  have htwice : urlEscapeString (urlEscapeString s) = s.take (rawLength s) ++
      escapeRuns [] (escapeRuns [] (s.drop (rawLength s))) := by
    rw [urlEscapeString, rawLength_urlEscapeString, urlEscapeString, List.take_left' hlen,
      List.drop_left' hlen]
  rw [htwice, urlEscapeString]
  exact ⟨List.append_cancel_left, fun h => congrArg _ h⟩

theorem urlEscape_preserves_iff (s : List UInt8) :
    EscapePreserves s ↔ DecodesOnce (escapedRuns s) ∨
      (0 ∈ urlUnescapeString (rawPart s) ∧ ∀ r ∈ escapedRuns s, StableEscapes (decoded r)) := by
  rw [EscapePreserves, urlEscape_agrees_iff, urlEscape_twice_iff]
  constructor
  · rintro ⟨h0 | hruns, hstable, -⟩
    · exact Or.inr ⟨h0, hstable⟩
    · exact Or.inl hruns
  · rintro (hruns | ⟨h0, hstable⟩)
    · exact ⟨Or.inr hruns, fun r hr => (hruns.noEscape r hr).stable, urlEscapeString_length_le s⟩
    · exact ⟨Or.inl h0, hstable, urlEscapeString_length_le s⟩

/-- An escaped percent sign in front of two digits becomes an escape. -/
theorem urlEscape_not_preserves : ¬ EscapePreserves (asciis "%2541") := by
  intro h
  exact absurd h.1 (by decide)

end MPlayer
