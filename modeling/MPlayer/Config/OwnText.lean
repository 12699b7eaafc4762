import MPlayer.Config.ConfigFile

/-!
# Config lines and the text behind them

A scan that ends on the line's own characters comes out the same whatever is behind the line's
`NUL`.  Every scan does, except the copy of a quoted parameter without its second quote.  So a
config file is parsed from the text of its lines if and only if no line that is reached has such
a parameter.
-/

namespace MPlayer

/-! ## What a scan examines -/

variable {c : Char} {s m : CStr} {act : LineAct}

/-- Behind a character other than `NUL`, a line goes on up to its `NUL`. -/
theorem getLast_nul (hl : (c :: s).getLast? = some nul) (hc : c ≠ nul) : s.getLast? = some nul := by
  cases s with
  | nil => exact absurd (Option.some.inj hl) hc
  | cons d s => rwa [List.getLast?_cons_cons] at hl

/-- A scan that ends doesn't see what is behind the characters it has. -/
theorem skipSpaces_append (x : CStr) : ∀ {m r : CStr},
    skipSpaces m = some r → skipSpaces (m ++ x) = some (r ++ x)
  | [], _, h => nomatch h
  | c :: m, r, h => by
    rw [skipSpaces] at h
    rw [List.cons_append, skipSpaces]
    split at h
    case isTrue hs => rw [if_pos hs, skipSpaces_append x h]
    case isFalse hs => rw [if_neg hs, ← Option.some.inj h, List.cons_append]

theorem skipSpaces_getLast : ∀ {m : CStr}, m.getLast? = some nul →
    ∃ c r, skipSpaces m = some (c :: r) ∧ (c :: r).getLast? = some nul
  | [], h => nomatch h
  | c :: m, h => by
    rw [skipSpaces]
    split
    case isTrue hs =>
      exact skipSpaces_getLast (getLast_nul h fun e => absurd (e ▸ hs) (by decide))
    case isFalse => exact ⟨c, m, rfl, h⟩

theorem copyWhile_append (p : Char → Bool) (x : CStr) : ∀ {k : Nat} {m : CStr} {o},
    copyWhile p k m = some o →
    copyWhile p k (m ++ x) = some (o.map fun (w, s) => (w, s ++ x))
  | _, [], _, h => nomatch h
  | k, c :: m, o, h => by
    rw [copyWhile] at h
    rw [List.cons_append, copyWhile]
    split at h
    case isTrue hc =>
      rw [if_pos hc]
      split at h
      case isTrue hk => rw [if_pos hk, ← Option.some.inj h, Option.map_none]
      case isFalse hk =>
        obtain ⟨o, ho, rfl⟩ := Option.map_eq_some_iff.mp h
        rw [if_neg hk, copyWhile_append p x ho, Option.map_some]
        cases o <;> rfl
    case isFalse hc =>
      rw [if_neg hc, ← Option.some.inj h]
      rfl

/-- What is copied, and the character behind it. -/
theorem copyWhile_rest (p : Char → Bool) : ∀ {k : Nat} {m w s : CStr},
    copyWhile p k m = some (some (w, s)) → ∃ c t, s = c :: t ∧ m = w ++ c :: t ∧ ¬p c = true
  | _, [], _, _, h => nomatch h
  | k, c :: m, w, s, h => by
    rw [copyWhile] at h
    split at h
    case isTrue =>
      split at h
      case isTrue => exact nomatch h
      case isFalse =>
        obtain ⟨o, ho, hw⟩ := Option.map_eq_some_iff.mp h
        obtain ⟨⟨w, s⟩, rfl, hws⟩ := Option.map_eq_some_iff.mp hw
        obtain ⟨rfl, rfl⟩ := Prod.mk.inj hws
        obtain ⟨d, t, rfl, rfl, hd⟩ := copyWhile_rest p ho
        exact ⟨d, t, rfl, rfl, hd⟩
    case isFalse hc =>
      obtain ⟨rfl, rfl⟩ := Prod.mk.inj (Option.some.inj (Option.some.inj h))
      exact ⟨c, m, rfl, rfl, hc⟩

/-- A copy examines what isn't there if nothing stops it. -/
theorem copyWhile_eq_none (p : Char → Bool) : ∀ {k : Nat} {m : CStr}, 1 ≤ k →
    (copyWhile p k m = none ↔ (∀ c ∈ m, p c = true) ∧ m.length < k)
  | k, [], hk => iff_of_true rfl ⟨fun _ hc => (List.not_mem_nil hc).elim, hk⟩
  | k, c :: m, hk => by
    rw [copyWhile, List.forall_mem_cons, List.length_cons]
    split
    case isTrue hc =>
      split
      case isTrue => exact iff_of_false nofun (by omega)
      case isFalse hk' =>
        rw [Option.map_eq_none_iff, copyWhile_eq_none p (by omega : 1 ≤ k - 1), and_assoc]
        exact ⟨fun ⟨hm, hlt⟩ => ⟨hc, hm, by omega⟩, fun ⟨_, hm, hlt⟩ => ⟨hm, by omega⟩⟩
    case isFalse hc => exact iff_of_false nofun fun h => hc h.1.1

theorem copyWhile_getLast {p : Char → Bool} {k : Nat} {w : CStr}
    (h : copyWhile p k m = some (some (w, s))) (hm : m.getLast? = some nul) :
    s.getLast? = some nul := by
  obtain ⟨c, t, rfl, rfl, -⟩ := copyWhile_rest p h
  rwa [List.getLast?_append, List.getLast?_cons, Option.some_or, ← List.getLast?_cons] at hm

/-- A loop that stops at the `NUL` ends on the line. -/
theorem copyWhile_nul {p : Char → Bool} {k : Nat} (hp : p nul = false) (hk : 1 ≤ k)
    (hm : m.getLast? = some nul) :
    copyWhile p k m = some none ∨
      ∃ w s, copyWhile p k m = some (some (w, s)) ∧ s.getLast? = some nul := by
  cases h : copyWhile p k m with
  | none =>
    have hall := ((copyWhile_eq_none p hk).mp h).1 nul (List.mem_of_getLast? hm)
    exact nomatch hall.symm.trans hp
  | some o =>
    cases o with
    | none => exact .inl rfl
    | some ws => exact .inr ⟨ws.1, ws.2, rfl, copyWhile_getLast h hm⟩

/-- What a line asks for, with what is behind the place that the scan has come to. -/
def behind (x : CStr) : LineAct ⊕ (CStr × CStr) → LineAct ⊕ (CStr × CStr) :=
  Sum.map id fun (opt, s) => (opt, s ++ x)

theorem scanHead_append (x : CStr) {h : LineAct ⊕ (CStr × CStr)} (hm : scanHead m = some h) :
    scanHead (m ++ x) = some (behind x h) := by
  unfold scanHead at hm ⊢
  split at hm
  case h_1 c s hs =>
    rw [skipSpaces_append x hs]
    dsimp only [List.cons_append]
    split at hm
    case isTrue hc =>
      rw [if_pos hc, ← Option.some.inj hm]
      rfl
    case isFalse hc =>
      rw [if_neg hc]
      split at hm
      case h_1 => exact nomatch hm
      case h_2 ho =>
        rw [← List.cons_append, copyWhile_append _ x ho, ← Option.some.inj hm]
        rfl
      case h_3 opt s ho =>
        rw [← List.cons_append, copyWhile_append _ x ho]
        dsimp only [Option.map_some]
        split at hm
        case isTrue he =>
          rw [if_pos he, ← Option.some.inj hm]
          rfl
        case isFalse he =>
          rw [if_neg he]
          split at hm
          case isTrue hp =>
            rw [if_pos hp, ← Option.some.inj hm]
            rfl
          case isFalse hp =>
            rw [if_neg hp]
            split at hm
            case h_1 d s hs =>
              rw [skipSpaces_append x hs]
              dsimp only [List.cons_append]
              split at hm
              case isTrue hd =>
                obtain ⟨s, hs, rfl⟩ := Option.map_eq_some_iff.mp hm
                rw [if_pos hd, skipSpaces_append x hs]
                rfl
              case isFalse hd =>
                rw [if_neg hd, ← Option.some.inj hm]
                rfl
            case h_2 => exact nomatch hm
  case h_2 => exact nomatch hm

theorem copyParam_append (x : CStr) {o : Option (CStr × CStr)} (h : copyParam c s = some o) :
    copyParam c (s ++ x) = some (o.map fun (w, s) => (w, s ++ x)) := by
  unfold copyParam at h ⊢
  split at h
  case isTrue hq =>
    obtain ⟨o, ho, rfl⟩ := Option.map_eq_some_iff.mp h
    rw [if_pos hq, copyWhile_append _ x ho]
    cases o with
    | none => rfl
    | some ws =>
      obtain ⟨c, t, hs, -⟩ := copyWhile_rest _ ho
      simp only [Option.map_some, hs, List.cons_append, List.tail_cons]
  case isFalse hq => rw [if_neg hq, ← List.cons_append, copyWhile_append _ x h]

theorem scanParam_append (x opt : CStr) : ∀ {m : CStr} {act : LineAct},
    scanParam opt m = some act → scanParam opt (m ++ x) = some act
  | [], _, h => by cases h
  | c :: s, act, h => by
    rw [scanParam] at h
    rw [List.cons_append, scanParam]
    split at h
    case h_1 => cases h
    case h_2 hp => rwa [copyParam_append x hp]
    case h_3 param s hp =>
      rw [copyParam_append x hp]
      dsimp only [Option.map_some]
      split at h
      case isTrue he => rwa [if_pos he]
      case isFalse he =>
        rw [if_neg he]
        split at h
        case h_1 hs => rwa [skipSpaces_append x hs]
        case h_2 => cases h

theorem scanLine_append (x : CStr) (h : scanLine m = some act) : scanLine (m ++ x) = some act := by
  unfold scanLine at h ⊢
  split at h
  case h_1 => exact nomatch h
  case h_2 hh =>
    rw [scanHead_append x hh]
    exact h
  case h_3 opt s hh =>
    rw [scanHead_append x hh]
    exact scanParam_append x opt h

/-- The part of a line before the parameter is the line's own. -/
theorem scanHead_nul (hm : m.getLast? = some nul) :
    (∃ act, scanHead m = some (.inl act)) ∨
      ∃ opt c s, scanHead m = some (.inr (opt, c :: s)) ∧ (c :: s).getLast? = some nul := by
  obtain ⟨c, s, hs, hl⟩ := skipSpaces_getLast hm
  unfold scanHead
  rw [hs]
  dsimp only
  split
  case isTrue => exact .inl ⟨_, rfl⟩
  case isFalse =>
    obtain ho | ⟨opt, s, ho, hl⟩ :=
      copyWhile_nul (p := isOptChar) (k := maxOptLen) rfl (by decide) hl
    case inl => exact .inl ⟨_, by rw [ho]⟩
    case inr =>
      rw [ho]
      dsimp only
      split
      case isTrue => exact .inl ⟨_, rfl⟩
      case isFalse =>
        split
        case isTrue => exact .inl ⟨_, rfl⟩
        case isFalse =>
          obtain ⟨d, s, hs, hl⟩ := skipSpaces_getLast hl
          rw [hs]
          dsimp only
          split
          case isTrue hd =>
            have hs := getLast_nul hl fun e => absurd (e ▸ hd) (by decide)
            obtain ⟨c, s, hs, hl⟩ := skipSpaces_getLast hs
            exact .inr ⟨opt, c, s, by rw [hs, Option.map_some], hl⟩
          case isFalse => exact .inl ⟨_, rfl⟩

theorem isQuote_ne_nul (h : isQuote c = true) : c ≠ nul :=
  fun e => absurd (e ▸ h) (by decide)

theorem copyParam_getLast {w r : CStr} (h : copyParam c s = some (some (w, r)))
    (hl : (c :: s).getLast? = some nul) : r.getLast? = some nul := by
  unfold copyParam at h
  split at h
  case isTrue hq =>
    obtain ⟨o, ho, hw⟩ := Option.map_eq_some_iff.mp h
    obtain ⟨⟨w, t⟩, rfl, hwr⟩ := Option.map_eq_some_iff.mp hw
    obtain ⟨rfl, rfl⟩ := Prod.mk.inj hwr
    have ht := copyWhile_getLast ho (getLast_nul hl (isQuote_ne_nul hq))
    obtain ⟨d, t, rfl, -, hd⟩ := copyWhile_rest _ ho
    obtain rfl : d = c := Decidable.not_not.mp fun hne => hd (bne_iff_ne.mpr hne)
    exact getLast_nul ht (isQuote_ne_nul hq)
  case isFalse => exact copyWhile_getLast h hl

/-- The loop over a parameter stays on the line, unless the parameter is quoted, no quote ends
it, and it isn't too long. -/
theorem copyParam_eq_none (hl : (c :: s).getLast? = some nul) :
    copyParam c s = none ↔ isQuote c = true ∧ c ∉ s ∧ s.length < maxParamLen := by
  unfold copyParam
  split
  case isTrue hq =>
    have hmem : (∀ d ∈ s, (d != c) = true) ↔ c ∉ s :=
      ⟨fun h hc => bne_iff_ne.mp (h c hc) rfl, fun h d hd => bne_iff_ne.mpr fun e => h (e ▸ hd)⟩
    rw [Option.map_eq_none_iff, copyWhile_eq_none _ (by decide), hmem]
    exact (and_iff_right hq).symm
  case isFalse hq =>
    refine iff_of_false (fun h => ?_) fun h => hq h.1
    have hnul := ((copyWhile_eq_none _ (by decide)).mp h).1 nul (List.mem_of_getLast? hl)
    exact absurd hnul (by decide)

theorem scanParam_eq_none (opt : CStr) (hl : (c :: s).getLast? = some nul) :
    scanParam opt (c :: s) = none ↔ copyParam c s = none := by
  rw [scanParam]
  split
  case h_1 h => exact iff_of_true rfl h
  case h_2 h =>
    exact iff_of_false (Option.some_ne_none _) fun h' => Option.some_ne_none _ (h.symm.trans h')
  case h_3 w r h =>
    refine iff_of_false ?_ fun h' => Option.some_ne_none _ (h.symm.trans h')
    obtain ⟨d, u, hu, -⟩ := skipSpaces_getLast (copyParam_getLast h hl)
    split
    case isTrue => exact Option.some_ne_none _
    case isFalse =>
      rw [hu]
      exact Option.some_ne_none _

/-! ## Lines with their `NUL` -/

/-- A parameter that begins with a quote which doesn't come again before the line's `NUL`. -/
def Unclosed (line : CStr) : Prop :=
  ∃ opt q s, scanHead (line ++ [nul]) = some (.inr (opt, q :: s)) ∧ isQuote q = true ∧ q ∉ s

/-- A line whose parameter, if it begins with a quote, has the quote again before the line's
`NUL` or is too long. -/
def Closed (line : CStr) : Prop :=
  ∀ opt q s, scanHead (line ++ [nul]) = some (.inr (opt, q :: s)) → isQuote q = true →
    q ∈ s ∨ maxParamLen ≤ s.length

/-- A line is scanned with nothing behind its `NUL` if and only if it is closed. -/
theorem scanLine_isSome (line : CStr) :
    (∃ act, scanLine (line ++ [nul]) = some act) ↔ Closed line := by
  have hnul : (line ++ [nul]).getLast? = some nul := List.getLast?_concat
  obtain ⟨act, hh⟩ | ⟨opt, c, s, hh, hl⟩ := scanHead_nul hnul
  case inl =>
    refine iff_of_true ⟨act, by rw [scanLine, hh]⟩ fun opt q s hq => ?_
    exact nomatch hh.symm.trans hq
  case inr =>
    have hnone := (scanParam_eq_none opt hl).trans (copyParam_eq_none hl)
    rw [scanLine, hh]
    dsimp only
    constructor
    case mp =>
      intro ⟨act, hact⟩ opt q s hq hquote
      obtain ⟨-, h⟩ := Prod.mk.inj (Sum.inr.inj (Option.some.inj (hh.symm.trans hq)))
      obtain ⟨rfl, rfl⟩ := List.cons.inj h
      refine Decidable.byContradiction fun hn => ?_
      have hn := hnone.mpr ⟨hquote, fun hm => hn (.inl hm), by omega⟩
      exact nomatch hact.symm.trans hn
    case mpr =>
      intro h
      refine Option.ne_none_iff_exists'.mp fun hn => ?_
      obtain ⟨hquote, hmem, hlen⟩ := hnone.mp hn
      obtain hs | hs := h opt c s hh hquote
      case inl => exact hmem hs
      case inr => omega

/-- A parameter that isn't closed is an error if it is too long. -/
theorem Unclosed.error {line : CStr} (h : Unclosed line)
    (hact : scanLine (line ++ [nul]) = some act) : act = .error := by
  obtain ⟨opt, q, s, hh, hq, hs⟩ := h
  rw [scanLine, hh] at hact
  dsimp only at hact
  rw [scanParam, copyParam, if_pos hq] at hact
  cases ho : copyWhile (· != q) maxParamLen s with
  | none =>
    rw [ho] at hact
    cases hact
  | some o =>
    cases o with
    | none =>
      rw [ho] at hact
      exact (Option.some.inj hact).symm
    | some ws =>
      obtain ⟨d, t, -, rfl, hd⟩ := copyWhile_rest _ ho
      obtain rfl : d = q := Decidable.not_not.mp fun hne => hd (bne_iff_ne.mpr hne)
      exact absurd (List.mem_append_right _ (List.mem_cons_self ..)) hs

/-! ## Files -/

variable {C P : Type} (ops : ConfigOps C P)

/-- In a run over the lines, every line that is reached is parsed from its own text: no
character behind its `NUL` is examined, what it asks for is the same with what is in the buffer
behind it, and it is an error if its parameter isn't closed. -/
def OwnText : List CStr → CStr → FileState C P → Prop
  | [], _, _ => True
  | line :: lines, buf, st =>
    st.errors < 16 →
      ∃ act, scanLine (line ++ [nul]) = some act ∧ scanLine (putLine line buf) = some act ∧
        (Unclosed line → applyAct ops act st = st.fail) ∧
        OwnText lines (putLine line buf) (applyAct ops act st)

/-- Every line that is reached before there are too many errors is closed. -/
def LinesClosed : List CStr → FileState C P → Prop
  | [], _ => True
  | line :: lines, st =>
    st.errors < 16 →
      Closed line ∧
        ∀ act, scanLine (line ++ [nul]) = some act → LinesClosed lines (applyAct ops act st)

variable {ops}

theorem putLine_scan {line : CStr} (h : scanLine (line ++ [nul]) = some act) (buf : CStr) :
    scanLine (putLine line buf) = some act := by
  rw [putLine, ← List.singleton_append, ← List.append_assoc]
  exact scanLine_append _ h

theorem ownText_iff : ∀ {lines : List CStr} {buf : CStr} {st : FileState C P},
    OwnText ops lines buf st ↔ LinesClosed ops lines st
  | [], _, _ => Iff.rfl
  | line :: lines, buf, st => by
    rw [OwnText, LinesClosed]
    refine imp_congr_right fun _ => ?_
    constructor
    case mp =>
      intro ⟨act, hact, _, _, hrest⟩
      refine ⟨(scanLine_isSome line).mp ⟨act, hact⟩, fun act' hact' => ?_⟩
      obtain rfl := Option.some.inj (hact.symm.trans hact')
      exact ownText_iff.mp hrest
    case mpr =>
      intro ⟨hclosed, hrest⟩
      obtain ⟨act, hact⟩ := (scanLine_isSome line).mpr hclosed
      refine ⟨act, hact, putLine_scan hact buf, fun h => ?_, ownText_iff.mpr (hrest act hact)⟩
      rw [h.error hact, applyAct]

/-- The outcome doesn't depend on what the buffer holds at first. -/
theorem OwnText.parseLines : ∀ {lines : List CStr} {buf : CStr} {st : FileState C P},
    OwnText ops lines buf st →
    ∃ st', ∀ buf', MPlayer.parseLines ops lines buf' st = some st'
  | [], _, st, _ => ⟨st, fun _ => rfl⟩
  | line :: lines, buf, st, h => by
    by_cases he : 16 ≤ st.errors
    case pos => exact ⟨st, fun _ => by rw [MPlayer.parseLines, if_pos he]⟩
    case neg =>
      obtain ⟨act, hact, -, -, hrest⟩ := h (Nat.lt_of_not_le he)
      obtain ⟨st', hst⟩ := OwnText.parseLines hrest
      refine ⟨st', fun buf' => ?_⟩
      rw [MPlayer.parseLines, if_neg he, putLine_scan hact]
      exact hst _

variable (ops)

/-- Where the loop over the lines begins. -/
def FileState.entered (config : C) : FileState C P := ⟨ops.setMode .configFile config, none, 0, 1⟩

/-- A call on a file that can be opened: every line is parsed from its own text, and the outcome
is there and doesn't depend on what the buffer holds at first. -/
def ParsedFromOwnText (depth : Nat) (text : CStr) (silent : Bool) (config : C) : Prop :=
  (depth < maxRecursionDepth →
    ∀ buf, OwnText ops (fgetsLines text) buf (FileState.entered ops config)) ∧
  ∃ r, ∀ buf, mConfigParseConfigFile ops depth buf (some text) silent config = some r

/-- A file is parsed from its own text if and only if, of the lines that are reached, each one
whose parameter begins with a quote has the quote again, or has too many characters. -/
theorem config_file_own_text (depth : Nat) (text : CStr) (silent : Bool) (config : C) :
    ParsedFromOwnText ops depth text silent config ↔
      (depth < maxRecursionDepth →
        LinesClosed ops (fgetsLines text) (FileState.entered ops config)) := by
  constructor
  case mp => exact fun h hd => ownText_iff.mp (h.1 hd [])
  case mpr =>
    intro h
    refine ⟨fun hd _ => ownText_iff.mpr (h hd), ?_⟩
    by_cases hd : depth < maxRecursionDepth
    case pos =>
      have hown : OwnText ops (fgetsLines text) [] _ := ownText_iff.mpr (h hd)
      obtain ⟨st, hst⟩ := hown.parseLines
      refine ⟨(st.ret, ops.setMode (ops.mode config) st.config), fun buf => ?_⟩
      have hrun := hst buf
      rw [FileState.entered] at hrun
      rw [mConfigParseConfigFile, if_neg (by omega)]
      dsimp only
      rw [hrun, Option.map_some]
    case neg =>
      exact ⟨(-1, config), fun _ => by rw [mConfigParseConfigFile, if_pos (by omega)]⟩

/-- A config that keeps the options that are set. -/
def logOps : ConfigOps (List (CStr × CStr)) Unit where
  mode _ := .commandLine
  setMode _ c := c
  addProfile _ c := ((), c)
  setDesc _ _ c := c
  setProfileOption _ _ _ c := (1, c)
  setOption opt param c := (1, c ++ [(opt, param)])

/-- The two lines of a file. -/
theorem fgetsLines_pair :
    fgetsLines "# 12345'yy\na='x\n".toList = ["# 12345'yy\n".toList, "a='x\n".toList] := by
  have h1 : fgets (maxLineLen - 1) "# 12345'yy\na='x\n".toList =
      ("# 12345'yy\n".toList, "a='x\n".toList) := by decide
  have h2 : fgets (maxLineLen - 1) "a='x\n".toList = ("a='x\n".toList, []) := by decide
  rw [show "# 12345'yy\na='x\n".toList = '#' :: " 12345'yy\na='x\n".toList from rfl] at h1 ⊢
  rw [fgetsLines, h1]
  dsimp only
  rw [show "a='x\n".toList = 'a' :: "='x\n".toList from rfl] at h2 ⊢
  rw [fgetsLines, h2, fgetsLines]

/-- The parameter in the second line goes on up to the quote in the first. -/
theorem config_file_stale_quote :
    let text := "# 12345'yy\na='x\n".toList
    ¬ParsedFromOwnText logOps 0 text false [] ∧
      ∀ buf, mConfigParseConfigFile logOps 0 buf (some text) false [] =
        some (-1, [("a".toList, "x\n".toList)]) := by
  have hfirst : scanLine ("# 12345'yy\n".toList ++ [nul]) = some .blank := by decide
  have hstale : scanLine ("a='x\n".toList ++ nul :: "5'yy\n".toList ++ [nul]) =
      some (.option "a".toList "x\n".toList true) := by decide
  constructor
  case left =>
    intro h
    have hown := h.1 (by decide) []
    rw [fgetsLines_pair] at hown
    obtain ⟨first, hact, _, _, hown⟩ := hown (by decide)
    obtain rfl : first = .blank := Option.some.inj (hact.symm.trans hfirst)
    obtain ⟨act, hact, -⟩ := hown (by decide)
    have hnone : scanLine ("a='x\n".toList ++ [nul]) = none := by decide
    exact nomatch hact.symm.trans hnone
  case right =>
    intro buf
    have hbuf : putLine "a='x\n".toList (putLine "# 12345'yy\n".toList buf) =
        ("a='x\n".toList ++ nul :: "5'yy\n".toList ++ [nul]) ++ buf.drop 12 := rfl
    rw [mConfigParseConfigFile, if_neg (by decide)]
    dsimp only
    rw [fgetsLines_pair, parseLines, if_neg (by decide), putLine_scan hfirst]
    dsimp only
    rw [parseLines, if_neg (by decide), hbuf, scanLine_append _ hstale]
    rfl

end MPlayer
