import MPlayer.Input.Arguments
import Mathlib.Data.List.TakeWhile

/-!
# Strings that survive being written

A string survives if each command that takes a string and further arguments gets the string and
the arguments behind it, as they are written (`Survives`).  In quotes a string survives exactly if
it doesn't end in a backslash.  Without quotes it also has to begin as a string does, and blanks
may stand only at its end, since the search for the next argument goes on in the string
(`cmd_string_survives_iff`).
-/

namespace MPlayer

universe u

/-! ## Commands with a string -/

/-- The name of a command as it is typed. -/
structure CmdName where
  chars : List UInt8
  nonempty : chars ≠ []
  chars_name : ∀ c ∈ chars, isCmdBlank c = false ∧ c ≠ 0
  no_pause : chars ∉ [asciis "pausing", asciis "pausing_keep", asciis "pausing_toggle",
    asciis "pausing_keep_force"]

variable {F : Type u}

/-- The command that a name stands for. -/
def CmdName.find (name : CmdName) (cmds : List (MpCmd F)) : Option (MpCmd F) :=
  cmds.find? fun d => avStrncaseeq d.name name.chars name.chars.length

/-- A command with a string and further arguments. -/
def CmdName.line (name : CmdName) (form : StringForm) (s : List UInt8)
    (fs : List FollowingArg) : List UInt8 :=
  name.chars ++ ascii ' ' :: (form.write s ++ followText fs)

/-- Each command that takes the string and further arguments gets them. -/
def Survives (lib : FloatLib F) (form : StringForm) (s : List UInt8) : Prop :=
  ∀ (cmds : List (MpCmd F)) (pausingDefault : Int) (name : CmdName) (d : MpCmd F)
    (fs : List FollowingArg) (more : List CmdArgType), fs ≠ [] → (∀ f ∈ fs, f.Ok lib) →
    name.find cmds = some d →
    d.args.map MpCmdArg.type = .string :: (fs.map FollowingArg.type ++ more) →
    d.nargs ≤ fs.length + 1 →
    ∃ cmd, mpInputParseCmd lib cmds pausingDefault (name.line form s fs) = some cmd ∧
      cmd.args.take (fs.length + 1) = ⟨.string, .string (some s)⟩ :: fs.map (FollowingArg.value lib)

/-- The string begins as one without quotes does, and blanks stand only at its end. -/
structure PlainArg (s : List UInt8) : Prop where
  nonempty : s ≠ []
  front : s.head? ∉ [some 34, some 39, some (ascii '#'), some 9]
  blanks : ∀ c ∈ s.dropWhile (!isCmdBlank ·), isCmdBlank c = true

/-- The strings that survive. -/
def StringOk : StringForm → List UInt8 → Prop
  | .quoted, s => s.getLast? ≠ some (ascii '\\')
  | .unquoted, s => s.getLast? ≠ some (ascii '\\') ∧ PlainArg s

/-! ## Lines -/

theorem cmdName_chars (name : CmdName) : ∀ c ∈ name.chars, (!isCmdBlank c) = true := fun c hc => by
  rw [(name.chars_name c hc).1]
  rfl

/-- A name is no word that asks for a pause. -/
theorem splitPausing_name (name : CmdName) (t : List UInt8) :
    splitPausing (name.chars ++ ascii ' ' :: t) = (none, name.chars ++ ascii ' ' :: t) := by
  have hspace : ascii ' ' ∉ name.chars := fun h => by
    cases (name.chars_name _ h).1
  have hno : ∀ w v, w ∈ [asciis "pausing", asciis "pausing_keep", asciis "pausing_toggle",
      asciis "pausing_keep_force"] → ascii ' ' ∉ w → w ++ [ascii ' '] = v →
      ¬ v <+: name.chars ++ ascii ' ' :: t := by
    rintro w v hw hblank rfl ⟨u, hu⟩
    rw [List.append_assoc] at hu
    exact name.no_pause (((Lib.append_letter_inj hblank hspace).mp hu).1 ▸ hw)
  have h1 := hno (asciis "pausing") (asciis "pausing ") (by simp) (by decide) (by decide)
  have h2 := hno (asciis "pausing_keep") (asciis "pausing_keep ") (by simp) (by decide) (by decide)
  have h3 := hno (asciis "pausing_toggle") (asciis "pausing_toggle ") (by simp) (by decide)
    (by decide)
  have h4 := hno (asciis "pausing_keep_force") (asciis "pausing_keep_force ") (by simp)
    (by decide) (by decide)
  rw [splitPausing, if_neg h1, if_neg h2, if_neg h3, if_neg h4]

theorem avStrncaseeq_take (a b : List UInt8) (n : Nat) (t : List UInt8) (hn : b.length = n) :
    avStrncaseeq a (b ++ t) n = avStrncaseeq a b n := by
  rw [Bool.eq_iff_iff, avStrncaseeq_iff, avStrncaseeq_iff, ← hn, List.take_left, List.take_length]

variable {t ptr s : List UInt8} {lib : FloatLib F} {form : StringForm} {n : Nat}

/-- The line of a command is looked up and its arguments are read. -/
theorem mpInputParseCmd_line (lib : FloatLib F) (cmds : List (MpCmd F)) (pausingDefault : Int)
    (name : CmdName) {d : MpCmd F} (hzero : 0 ∉ t) (hfind : name.find cmds = some d)
    (hargs : d.nargs ≤ (readArgs lib d.args (name.chars ++ ascii ' ' :: t)).length) :
    ∃ cmd, mpInputParseCmd lib cmds pausingDefault (name.chars ++ ascii ' ' :: t) = some cmd ∧
      cmd.args = readArgs lib d.args (name.chars ++ ascii ' ' :: t) ++
        (d.args.drop (readArgs lib d.args (name.chars ++ ascii ' ' :: t)).length).takeWhile
          fun a => decide (a.type ≠ .last) := by
  have hline : 0 ∉ name.chars ++ ascii ' ' :: t := fun h => by
    rcases List.mem_append.mp h with h | h
    · exact (name.chars_name 0 h).2 rfl
    · rcases List.mem_cons.mp h with h | h
      · cases h
      · exact hzero h
  obtain ⟨c, s, hcs⟩ := List.exists_cons_of_ne_nil name.nonempty
  have hc := (name.chars_name c (by rw [hcs]; exact List.mem_cons_self)).1
  have hdrop : (name.chars ++ ascii ' ' :: t).dropWhile isCmdBlank =
      name.chars ++ ascii ' ' :: t := by
    rw [hcs, List.cons_append, List.dropWhile_cons_of_neg (by rw [hc]; exact Bool.false_ne_true)]
  have htake : (name.chars ++ ascii ' ' :: t).takeWhile (!isCmdBlank ·) = name.chars :=
    takeWhile_run (cmdName_chars name) fun c hc => by
      cases hc
      rfl
  have hl : name.chars.length ≠ 0 := fun h => name.nonempty (List.eq_nil_of_length_eq_zero h)
  have hfind' : cmds.find? (fun d => avStrncaseeq d.name (name.chars ++ ascii ' ' :: t)
      name.chars.length) = some d := by
    rw [← hfind, CmdName.find]
    exact congrArg (fun p => cmds.find? p) (funext fun d => avStrncaseeq_take _ _ _ _ rfl)
  rw [mpInputParseCmd, cstr_eq_self hline, hdrop, splitPausing_name]
  dsimp only
  rw [htake, if_neg hl, hfind']
  dsimp only
  rw [if_neg (Nat.not_lt.mpr hargs)]
  exact ⟨_, rfl, rfl⟩

theorem nextArg_name (name : CmdName) (t : List UInt8) :
    nextPlace (name.chars ++ ascii ' ' :: t) = t.dropWhile isCmdBlank := by
  rw [nextPlace, List.dropWhile_append_of_pos (cmdName_chars name)]
  rfl

/-! ## Strings that survive -/

/-- A string that is read is followed by the arguments, if the search for them comes there. -/
theorem readArgs_string (hlib : lib.StopsAtBlank) {fs : List FollowingArg}
    (hok : ∀ f ∈ fs, f.Ok lib) {ds : List (MpCmdArg F)} {more : List CmdArgType}
    (htypes : ds.map MpCmdArg.type = .string :: (fs.map FollowingArg.type ++ more))
    {next : List UInt8} (hptr : nextArg ptr = some t) (hread : readString t = some (s, next))
    (hplace : nextPlace next = (followText fs).drop 1) :
    readArgs lib ds ptr = ⟨.string, .string (some s)⟩ :: fs.map (FollowingArg.value lib) := by
  cases ds with
  | nil => cases htypes
  | cons d ds =>
    obtain ⟨htype, hrest⟩ := List.cons.inj htypes
    rw [readArgs, hptr, htype]
    dsimp only
    rw [readArg, hread]
    dsimp only [Option.map_some]
    rw [readArgs_following hlib fs hok hrest hplace]

theorem zero_not_mem_escapeWith {sep : UInt8} (h : 0 ∉ s) : 0 ∉ escapeWith sep s := fun hm => by
  obtain ⟨c, hc, hm⟩ := List.mem_flatMap.mp hm
  split at hm
  · rcases List.mem_cons.mp hm with hm | hm
    · cases hm
    · exact h (List.mem_singleton.mp hm ▸ hc)
  · exact h (List.mem_singleton.mp hm ▸ hc)

theorem zero_not_mem_write (h : 0 ∉ s) : 0 ∉ form.write s := by
  cases form with
  | quoted =>
    intro hm
    rcases List.mem_cons.mp hm with hm | hm
    · cases hm
    rcases List.mem_append.mp hm with hm | hm
    · exact zero_not_mem_escapeWith h hm
    · cases List.mem_singleton.mp hm
  | unquoted => exact zero_not_mem_escapeWith h

theorem zero_not_mem_followText (fs : List FollowingArg) : 0 ∉ followText fs := fun hm => by
  obtain ⟨f, -, hm⟩ := List.mem_flatMap.mp hm
  rcases List.mem_cons.mp hm with hm | hm
  · cases hm
  · rw [← f.token_chars] at hm
    exact (f.token.chars_token 0 hm).2 rfl

/-- The written string begins where the search for it comes to. -/
theorem PlainArg.nextArg (h : PlainArg s) (t : List UInt8)
    (hptr : nextPlace ptr = (StringForm.unquoted.write s ++ t).dropWhile isCmdBlank) :
    MPlayer.nextArg ptr = some (StringForm.unquoted.write s ++ t) := by
  obtain ⟨c, s, rfl⟩ := List.exists_cons_of_ne_nil h.nonempty
  have hfront := h.front
  simp only [List.head?_cons, List.mem_cons, Option.some.injEq, List.not_mem_nil, or_false,
    not_or] at hfront
  obtain ⟨d, u, hu⟩ : ∃ d u, escapeWith (ascii ' ') (c :: s) ++ t = d :: u := by
    by_cases hc : c = ascii ' ' ∨ c = ascii '\\'
    · rw [escapeWith_cons_esc hc]
      exact ⟨_, _, rfl⟩
    · rw [escapeWith_cons_lit hc]
      exact ⟨_, _, rfl⟩
  have hd : isCmdBlank d = false ∧ d ≠ ascii '#' := by
    have hhead : (escapeWith (ascii ' ') (c :: s) ++ t).head? = some d := by
      rw [hu]
      rfl
    rcases escapeWith_head hhead with ⟨rfl, -⟩ | ⟨rfl, hlit⟩
    · exact ⟨rfl, by decide⟩
    · refine ⟨?_, hfront.2.2.1⟩
      rw [isCmdBlank, Bool.or_eq_false_iff]
      exact ⟨decide_eq_false fun h => hlit (.inl h), decide_eq_false hfront.2.2.2⟩
  have hwrite : StringForm.unquoted.write (c :: s) ++ t = d :: u := hu
  rw [hwrite, List.dropWhile_cons_of_neg (by rw [hd.1]; exact Bool.false_ne_true)] at hptr
  rw [MPlayer.nextArg, ← nextPlace, hptr, hwrite]
  exact if_neg hd.2

theorem PlainArg.noQuote (h : PlainArg s) : ∀ c, s.head? = some c → isQuoteChar c = false := by
  intro c hc
  have hfront := h.front
  simp only [hc, List.mem_cons, Option.some.injEq, List.not_mem_nil, or_false, not_or] at hfront
  rw [isQuoteChar, Bool.or_eq_false_iff]
  exact ⟨decide_eq_false hfront.2.1, decide_eq_false hfront.1⟩

/-- Blanks at the end of a string are passed over. -/
theorem PlainArg.nextPlace (h : PlainArg s) (fs : List FollowingArg) (hne : fs ≠ []) :
    MPlayer.nextPlace (s ++ followText fs) = (followText fs).drop 1 := by
  obtain ⟨f, gs, rfl⟩ := List.exists_cons_of_ne_nil hne
  have hstay : (followText (f :: gs)).dropWhile (!isCmdBlank ·) = followText (f :: gs) := rfl
  have hsplit : (s ++ followText (f :: gs)).dropWhile (!isCmdBlank ·) =
      s.dropWhile (!isCmdBlank ·) ++ followText (f :: gs) := by
    rw [List.dropWhile_append, hstay]
    split
    · rename_i hnil
      rw [List.isEmpty_iff] at hnil
      rw [hnil]
      rfl
    · rfl
  rw [MPlayer.nextPlace, hsplit, List.dropWhile_append_of_pos h.blanks, followText_dropWhile]

theorem survives_of_ok (hlib : lib.StopsAtBlank) (hzero : 0 ∉ s) (hok : StringOk form s) :
    Survives lib form s := by
  intro cmds pausingDefault name d fs more hne hfs hfind htypes hnargs
  have hread : readArgs lib d.args (name.line form s fs) =
      ⟨.string, .string (some s)⟩ :: fs.map (FollowingArg.value lib) := by
    cases form with
    | quoted =>
      have hptr : nextArg (name.line .quoted s fs) =
          some (StringForm.quoted.write s ++ followText fs) := by
        rw [nextArg, ← nextPlace, CmdName.line, nextArg_name]
        rfl
      refine readArgs_string hlib hfs htypes hptr (readString_write_quoted hok _) ?_
      rw [nextPlace]
      obtain ⟨f, gs, rfl⟩ := List.exists_cons_of_ne_nil hne
      exact followText_dropWhile (f :: gs)
    | unquoted =>
      obtain ⟨hlast, hplain⟩ := hok
      have hptr : nextArg (name.line .unquoted s fs) =
          some (StringForm.unquoted.write s ++ followText fs) :=
        hplain.nextArg (followText fs) (by rw [CmdName.line, nextArg_name])
      have hread : readString (StringForm.unquoted.write s ++ followText fs) =
          some (s, s ++ followText fs) := by
        obtain ⟨f, gs, rfl⟩ := List.exists_cons_of_ne_nil hne
        exact readString_write_unquoted hlast hplain.noQuote hplain.nonempty _
      exact readArgs_string hlib hfs htypes hptr hread (hplain.nextPlace fs hne)
  have hzero' : 0 ∉ form.write s ++ followText fs := fun h => by
    rcases List.mem_append.mp h with h | h
    · exact zero_not_mem_write hzero h
    · exact zero_not_mem_followText fs h
  obtain ⟨cmd, hcmd, hargs⟩ := mpInputParseCmd_line lib cmds pausingDefault name hzero' hfind
    (by
      rw [← CmdName.line, hread, List.length_cons, List.length_map]
      exact hnargs)
  refine ⟨cmd, hcmd, ?_⟩
  rw [hargs, ← CmdName.line, hread, List.take_append_of_le_length (by simp)]
  exact List.take_of_length_le (by simp)

/-! ## Strings that don't survive -/

/-- A command with two strings. -/
def probeCmd (F : Type u) : MpCmd F where
  id := .other 0
  name := [ascii 'x']
  nargs := 0
  args := [⟨.string, .string none⟩, ⟨.string, .string none⟩, ⟨.last, .int 0⟩]
  pausing := 0

def probeName : CmdName where
  chars := [ascii 'x']
  nonempty := List.cons_ne_nil _ _
  chars_name := by decide +kernel
  no_pause := by decide

/-- A word that is longer than a string. -/
def longWord (n : Nat) : CmdWord where
  chars := List.replicate (n + 1) (ascii 'x')
  nonempty := List.cons_ne_nil _ _
  chars_token := fun c hc => by
    rw [List.eq_of_mem_replicate hc]
    decide
  front := by
    rw [List.replicate_succ, List.head?_cons]
    decide
  plain := fun h => by cases List.eq_of_mem_replicate h
  noQuote := fun c hc => by
    rw [List.replicate_succ, List.head?_cons] at hc
    cases hc
    rfl

theorem longWord_mem {c : UInt8} (h : c ∈ (longWord n).chars) : c = ascii 'x' :=
  List.eq_of_mem_replicate h

theorem longWord_length (n : Nat) : (longWord n).chars.length = n + 1 := List.length_replicate

/-- If a string survives, it is read where the search for it comes to, and a word behind it is
read where the search comes to next. -/
theorem Survives.probe (hzero : 0 ∉ s) (h : Survives lib form s) (n : Nat) : ∃ t next t',
    nextArg (probeName.chars ++ ascii ' ' :: (form.write s ++ ascii ' ' :: (longWord n).chars)) =
      some t ∧
    readString t = some (s, next) ∧ nextArg next = some t' ∧
    (readString t').map Prod.fst = some (longWord n).chars := by
  have hline : probeName.line form s [.word (longWord n)] =
      probeName.chars ++ ascii ' ' :: (form.write s ++ ascii ' ' :: (longWord n).chars) := by
    rw [CmdName.line, followText, List.flatMap_cons, List.flatMap_nil, List.append_nil]
    rfl
  have hzero' : 0 ∉ form.write s ++ ascii ' ' :: (longWord n).chars := fun hm => by
    rcases List.mem_append.mp hm with hm | hm
    · exact zero_not_mem_write hzero hm
    · rcases List.mem_cons.mp hm with hm | hm
      · cases hm
      · cases longWord_mem hm
  have hfind : probeName.find [probeCmd F] = some (probeCmd F) := rfl
  obtain ⟨cmd, hcmd, hargs⟩ := h [probeCmd F] 0 probeName (probeCmd F) [.word (longWord n)] [.last]
    (List.cons_ne_nil _ _) (fun f hf => by rw [List.mem_singleton.mp hf]; trivial) hfind rfl
    (Nat.zero_le _)
  obtain ⟨cmd', hcmd', hargs'⟩ :=
    mpInputParseCmd_line lib [probeCmd F] 0 probeName hzero' hfind (Nat.zero_le _)
  rw [hline, hcmd'] at hcmd
  cases hcmd
  rw [hargs', show (probeCmd F).args = [⟨.string, .string none⟩, ⟨.string, .string none⟩,
    ⟨.last, .int 0⟩] from rfl] at hargs
  rw [readArgs] at hargs
  cases ht : nextArg (probeName.chars ++
      ascii ' ' :: (form.write s ++ ascii ' ' :: (longWord n).chars)) with
  | none =>
    rw [ht] at hargs
    cases hargs
  | some t =>
    rw [ht] at hargs
    dsimp only [readArg] at hargs
    cases hr : readString t with
    | none =>
      rw [hr] at hargs
      cases hargs
    | some r =>
      obtain ⟨v, next⟩ := r
      rw [hr] at hargs
      dsimp only [Option.map_some] at hargs
      rw [readArgs] at hargs
      cases ht' : nextArg next with
      | none =>
        rw [ht'] at hargs
        cases hargs
      | some t' =>
        rw [ht'] at hargs
        dsimp only [readArg] at hargs
        have htwo : [(⟨.string, .string (some v)⟩ : MpCmdArg F),
            ⟨.string, .string ((readString t').map Prod.fst)⟩] =
            [⟨.string, .string (some s)⟩, ⟨.string, .string (some (longWord n).chars)⟩] :=
          hargs
        obtain ⟨h1, h2⟩ := List.cons.inj htwo
        have hv : some v = some s := CmdValue.string.inj (MpCmdArg.mk.inj h1).2
        have hw : (readString t').map Prod.fst = some (longWord n).chars :=
          CmdValue.string.inj (MpCmdArg.mk.inj (List.cons.inj h2).1).2
        cases hv
        exact ⟨t, next, t', rfl, hr, ht', hw⟩

/-! ## Where the search for arguments comes to -/

theorem quote_not_mem_longWord {q : UInt8} (hq : isQuoteChar q = true) (n : Nat) :
    q ∉ ascii ' ' :: (longWord n).chars := fun hm => by
  rcases List.mem_cons.mp hm with rfl | hm
  · cases hq
  · rw [longWord_mem hm] at hq
    cases hq

/-- A quote ends in front of the long word. -/
theorem stringEnd_lt {q : UInt8} (hq : isQuoteChar q = true) {u : List UInt8} {l : Nat}
    (h : stringEnd q none (u ++ ascii ' ' :: (longWord n).chars) = some l) : l < u.length := by
  refine Nat.lt_of_not_le fun hle => quote_not_mem_longWord hq n ?_
  have hget := stringEnd_get h
  rw [List.getElem?_append_right hle] at hget
  exact List.mem_of_getElem? hget

/-- What is read in front of the end of an escaped string is no longer than the string. -/
theorem unescapeArg_take_escapeWith (sep : UInt8) : ∀ (u : List UInt8) (l : Nat),
    (unescapeArg ((escapeWith sep u).take l)).length ≤ u.length
  | u, 0 => Nat.zero_le _
  | [], l + 1 => Nat.zero_le _
  | c :: u, 1 => by
    by_cases hc : c = sep ∨ c = ascii '\\'
    · rw [escapeWith_cons_esc hc]
      exact Nat.zero_le _
    · rw [escapeWith_cons_lit hc, List.take_succ_cons, List.take_zero]
      exact Nat.le_trans (unescapeArg_length [c]) (Nat.succ_le_succ (Nat.zero_le _))
  | c :: u, l + 2 => by
    by_cases hc : c = sep ∨ c = ascii '\\'
    · rw [escapeWith_cons_esc hc, List.take_succ_cons, List.take_succ_cons, unescapeArg_esc]
      exact Nat.succ_le_succ (unescapeArg_take_escapeWith sep u l)
    · rw [escapeWith_cons_lit hc, List.take_succ_cons, unescapeArg_lit fun hb => hc (.inr hb)]
      exact Nat.succ_le_succ (unescapeArg_take_escapeWith sep u (l + 1))

/-- Tabs in front of a string are passed over, with the string if it is made of them. -/
theorem dropWhile_escapeWith (w : CmdToken) : ∀ s : List UInt8,
    (escapeWith (ascii ' ') s ++ ascii ' ' :: w.chars).dropWhile isCmdBlank = w.chars ∨
      ∃ v, v <:+ s ∧ v ≠ [] ∧ v.head? ≠ some 9 ∧
        (escapeWith (ascii ' ') s ++ ascii ' ' :: w.chars).dropWhile isCmdBlank =
          escapeWith (ascii ' ') v ++ ascii ' ' :: w.chars
  | [] => by
    refine .inl ?_
    have hdrop := w.dropWhile_blank []
    rwa [List.append_nil] at hdrop
  | c :: s => by
    by_cases hc : c = 9
    · rw [hc, escapeWith_cons_lit (by decide), List.cons_append,
        List.dropWhile_cons_of_pos (by decide)]
      refine (dropWhile_escapeWith w s).imp_right ?_
      rintro ⟨v, hv, hrest⟩
      exact ⟨v, hv.trans (List.suffix_cons 9 s), hrest⟩
    · refine .inr ⟨c :: s, List.suffix_refl _, List.cons_ne_nil _ _,
        fun h => hc (Option.some.inj h), ?_⟩
      by_cases hesc : c = ascii ' ' ∨ c = ascii '\\'
      · rw [escapeWith_cons_esc hesc]
        rfl
      · have hblank : isCmdBlank c = false := by
          rw [isCmdBlank, Bool.or_eq_false_iff]
          exact ⟨decide_eq_false fun h => hesc (.inl h), decide_eq_false hc⟩
        rw [escapeWith_cons_lit hesc, List.cons_append,
          List.dropWhile_cons_of_neg (by rw [hblank]; exact Bool.false_ne_true)]

/-- The long word isn't read where the search comes to a shorter string in front of it. -/
theorem readString_ne_longWord {v : List UInt8} (hv : v ≠ []) (hlen : v.length ≤ n) :
    (readString (v ++ ascii ' ' :: (longWord n).chars)).map Prod.fst ≠ some (longWord n).chars := by
  intro h
  obtain ⟨c, v, rfl⟩ := List.exists_cons_of_ne_nil hv
  have hshort : ∀ u : List UInt8, u.length ≤ n → unescapeArg u ≠ (longWord n).chars :=
    fun u hu heq => by
      have hle := unescapeArg_length u
      rw [heq, longWord_length] at hle
      omega
  cases hq : isQuoteChar c with
  | true =>
    rw [List.cons_append, readString_quoted hq, Option.map_map] at h
    obtain ⟨l, hl, hval⟩ := Option.map_eq_some_iff.mp h
    have hlt := stringEnd_lt hq hl
    rw [List.length_cons] at hlen
    refine hshort _ ?_ hval
    rw [List.length_take]
    omega
  | false =>
    have hplain : ∀ d, ((c :: v) ++ ascii ' ' :: (longWord n).chars).head? = some d →
        isQuoteChar d = false := fun d hd => by
      cases hd
      exact hq
    generalize hptr : (c :: v) ++ ascii ' ' :: (longWord n).chars = ptr at h hplain
    generalize hl : (stringEnd (ascii ' ') none ptr).getD ptr.length = l
    have hlptr : l ≤ ptr.length := by
      rw [← hl]
      cases hend : stringEnd (ascii ' ') none ptr with
      | none => exact Nat.le_refl _
      | some k =>
        obtain ⟨hk, -⟩ := List.getElem?_eq_some_iff.mp (stringEnd_get hend)
        exact Nat.le_of_lt hk
    have hread := readString_plain (s := ptr.take l) hplain (List.take_append_drop l ptr).symm
      (by rw [hl, List.length_take, Nat.min_eq_left hlptr])
    rw [hread] at h
    have hval : unescapeArg (ptr.take l) = (longWord n).chars := Option.some.inj h
    rcases Nat.lt_or_ge (c :: v).length l with hlt | hge
    · have hmem : ascii ' ' ∈ ptr.take l := by
        refine List.mem_of_getElem? (i := (c :: v).length) ?_
        rw [List.getElem?_take_of_lt hlt, ← hptr, List.getElem?_append_right (Nat.le_refl _),
          Nat.sub_self]
        rfl
      have hin := mem_unescapeArg (by decide) hmem
      rw [hval] at hin
      cases longWord_mem hin
    · refine hshort _ ?_ hval
      rw [List.length_take]
      omega

/-- If the string has a blank in front of something else, the search stops in it. -/
theorem nextPlace_inside {c : UInt8} (hc : c ∈ s.dropWhile (!isCmdBlank ·))
    (hblank : isCmdBlank c = false) (t : List UInt8) :
    ∃ v, v <:+ s ∧ v ≠ [] ∧ nextPlace (s ++ t) = v ++ t := by
  have hne : s.dropWhile (!isCmdBlank ·) ≠ [] := List.ne_nil_of_mem hc
  have hne' : (s.dropWhile (!isCmdBlank ·)).dropWhile isCmdBlank ≠ [] := fun hnil => by
    rw [List.dropWhile_eq_nil_iff.mp hnil c hc] at hblank
    cases hblank
  refine ⟨_, (List.dropWhile_suffix _).trans (List.dropWhile_suffix _), hne', ?_⟩
  rw [nextPlace, List.dropWhile_append, if_neg fun h => hne (List.isEmpty_iff.mp h),
    List.dropWhile_append, if_neg fun h => hne' (List.isEmpty_iff.mp h)]

/-! ## Surviving -/

/-- The place of an argument is where the search comes to, and no comment begins there. -/
theorem nextArg_some (h : nextArg ptr = some t) :
    nextPlace ptr = t ∧ t.head? ≠ some (ascii '#') := by
  rw [nextArg, ← nextPlace] at h
  cases hplace : nextPlace ptr with
  | nil =>
    rw [hplace] at h
    cases h
  | cons c u =>
    rw [hplace] at h
    dsimp only at h
    split at h
    · cases h
    · rename_i hc
      cases h
      exact ⟨rfl, fun hhead => hc (Option.some.inj hhead)⟩

/-- A string without quotes that is read as it is begins where the search comes to it and ends at
the blank behind it. -/
theorem readString_unquoted {s t next : List UInt8} (hptr : nextArg (probeName.chars ++
      ascii ' ' :: (escapeWith (ascii ' ') s ++ ascii ' ' :: (longWord s.length).chars)) = some t)
    (hread : readString t = some (s, next)) :
    s.getLast? ≠ some (ascii '\\') ∧ s ≠ [] ∧
      s.head? ∉ [some 34, some 39, some (ascii '#'), some 9] ∧
      next = s ++ ascii ' ' :: (longWord s.length).chars := by
  obtain ⟨hplace, hcomment⟩ := nextArg_some hptr
  rw [nextArg_name] at hplace
  rcases dropWhile_escapeWith (longWord s.length).toCmdToken s with
    hdrop | ⟨v, hv, hne, htab, hdrop⟩
  · -- If the string is passed over, the long word is read.
    rw [← hplace, hdrop] at hread
    have hword := (longWord s.length).readString_eq []
    rw [show followText [] = [] from rfl, List.append_nil, hread] at hword
    have hlen := longWord_length s.length
    rw [← (Prod.mk.inj (Option.some.inj hword)).1] at hlen
    omega
  · rw [hdrop] at hplace
    rw [← hplace] at hread hcomment
    obtain ⟨c, u, rfl⟩ := List.exists_cons_of_ne_nil hne
    have hle := hv.length_le
    rw [List.length_cons] at hle
    cases hquote : isQuoteChar c with
    | true =>
      have hlit : ¬ (c = ascii ' ' ∨ c = ascii '\\') := fun h => by
        rcases h with rfl | rfl
        · cases hquote
        · cases hquote
      rw [escapeWith_cons_lit hlit, List.cons_append, readString_quoted hquote] at hread
      obtain ⟨l, hl, hval⟩ := Option.map_eq_some_iff.mp hread
      have hlt := stringEnd_lt hquote hl
      have hshort := unescapeArg_take_escapeWith (ascii ' ') u l
      rw [← List.take_append_of_le_length (Nat.le_of_lt hlt), (Prod.mk.inj hval).1] at hshort
      omega
    | false =>
      have hq : ∀ d, (c :: u).head? = some d → isQuoteChar d = false := fun d hd => by
        cases hd
        exact hquote
      by_cases hlast : (c :: u).getLast? = some (ascii '\\')
      · have hon := readString_write_unquoted_on hlast hq
          (t := (longWord s.length).chars) fun h => by cases longWord_mem h
        rw [show StringForm.unquoted.write (c :: u) = escapeWith (ascii ' ') (c :: u) from rfl,
          hread, unescapeArg_lit (by decide),
          unescapeArg_eq_self (longWord s.length).plain] at hon
        have hlen := congrArg List.length (Option.some.inj hon)
        rw [List.length_append, List.length_cons, List.length_cons, longWord_length] at hlen
        dsimp only at hlen
        omega
      · have hval := readString_write_unquoted hlast hq (List.cons_ne_nil c u)
          (longWord s.length).chars
        rw [show StringForm.unquoted.write (c :: u) = escapeWith (ascii ' ') (c :: u) from rfl,
          hread] at hval
        obtain ⟨rfl, rfl⟩ := Prod.mk.inj (Option.some.inj hval)
        refine ⟨hlast, List.cons_ne_nil c u, fun hmem => ?_, rfl⟩
        simp only [List.head?_cons, List.mem_cons, Option.some.injEq, List.not_mem_nil,
          or_false] at hmem
        rcases hmem with rfl | rfl | rfl | rfl
        · cases hquote
        · cases hquote
        · exact hcomment rfl
        · exact htab rfl

/-- A string survives exactly if it is read as it is written and blanks don't stop the search for
the next argument in it. -/
theorem cmd_string_survives_iff (lib : FloatLib F) (hlib : lib.StopsAtBlank) (form : StringForm)
    {s : List UInt8} (hzero : 0 ∉ s) : Survives lib form s ↔ StringOk form s := by
  refine ⟨fun h => ?_, survives_of_ok hlib hzero⟩
  obtain ⟨t, next, t', hptr, hread, hptr', hread'⟩ := h.probe hzero s.length
  cases form with
  | quoted =>
    intro hlast
    have ht : some (StringForm.quoted.write s ++ ascii ' ' :: (longWord s.length).chars) =
        some t := by
      rw [← hptr, nextArg, ← nextPlace, nextArg_name]
      rfl
    rw [← Option.some.inj ht, readString_write_quoted_none hlast
      (quote_not_mem_longWord rfl _)] at hread
    cases hread
  | unquoted =>
    obtain ⟨hlast, hne, hfront, rfl⟩ := readString_unquoted hptr hread
    refine ⟨hlast, hne, hfront, fun c hc => ?_⟩
    cases hblank : isCmdBlank c with
    | true => rfl
    | false =>
      obtain ⟨v, hv, hvne, hplace⟩ :=
        nextPlace_inside hc hblank (ascii ' ' :: (longWord s.length).chars)
      rw [← (nextArg_some hptr').1, hplace] at hread'
      exact absurd hread' (readString_ne_longWord hvne hv.length_le)

/-- Floating point numbers with a sign, digits and decimals, as the digits and the number of
decimals. -/
def decimals : FloatLib (Int × Nat) where
  atof s :=
    let body := splitSign (s.dropWhile isSpaceByte)
    let rest := body.2.dropWhile isDigit
    let frac := if rest.head? = some (ascii '.') then (rest.drop 1).takeWhile isDigit else []
    let n := decimalValue (body.2.takeWhile isDigit ++ frac)
    (if body.1 then -n else n, frac.length)
  atofErrno _ := false
  atofLength s :=
    let digits := (splitSign (s.dropWhile isSpaceByte)).2
    let rest := digits.dropWhile isDigit
    let frac := if rest.head? = some (ascii '.') then (rest.drop 1).takeWhile isDigit else []
    if digits.takeWhile isDigit ++ frac = [] then 0
    else if rest.head? = some (ascii '.') then s.length - rest.length + 1 + frac.length
    else s.length - rest.length

theorem decimals_stopsAtBlank : decimals.StopsAtBlank := by
  intro tok t _ hspace
  refine ⟨?_, rfl⟩
  have hrun : ∀ u : List UInt8, (u ++ ascii ' ' :: t).takeWhile isDigit = u.takeWhile isDigit :=
    fun u => by
      rw [List.takeWhile_append]
      split
      · rename_i hall
        rw [List.takeWhile_cons_of_neg (by decide), List.append_nil,
          (List.takeWhile_sublist isDigit).eq_of_length hall]
      · rfl
  have hdrop : ∀ u : List UInt8, (u ++ ascii ' ' :: t).dropWhile isDigit =
      u.dropWhile isDigit ++ ascii ' ' :: t := fun u => by
    rw [List.dropWhile_append]
    split
    · rename_i hnil
      rw [List.isEmpty_iff.mp hnil]
      rfl
    · rfl
  obtain ⟨c, hc, hnot⟩ := hspace
  have hne : tok.dropWhile isSpaceByte ≠ [] := fun hnil => by
    rw [List.dropWhile_eq_nil_iff.mp hnil c hc] at hnot
    cases hnot
  have hbody : (tok ++ ascii ' ' :: t).dropWhile isSpaceByte =
      tok.dropWhile isSpaceByte ++ ascii ' ' :: t := by
    rw [List.dropWhile_append, if_neg fun h => hne (List.isEmpty_iff.mp h)]
  have hsign : splitSign (tok.dropWhile isSpaceByte ++ ascii ' ' :: t) =
      ((splitSign (tok.dropWhile isSpaceByte)).1,
        (splitSign (tok.dropWhile isSpaceByte)).2 ++ ascii ' ' :: t) := by
    obtain ⟨d, u, hdu⟩ := List.exists_cons_of_ne_nil hne
    rw [hdu, List.cons_append, splitSign, splitSign]
    repeat' split
    all_goals rfl
  have hfrac : ∀ u : List UInt8,
      (if (u ++ ascii ' ' :: t).head? = some (ascii '.') then
        ((u ++ ascii ' ' :: t).drop 1).takeWhile isDigit else []) =
      if u.head? = some (ascii '.') then (u.drop 1).takeWhile isDigit else [] := fun u => by
    cases u with
    | nil => rfl
    | cons d u =>
      show (if some d = some (ascii '.') then (u ++ ascii ' ' :: t).takeWhile isDigit else []) = _
      rw [hrun]
      rfl
  show (_, _) = (_, _)
  rw [hbody, hsign]
  dsimp only
  rw [hrun, hdrop, hfrac]

theorem cmd_string_survives_sample :
    Survives decimals .quoted (asciis "say \"a b\"") ∧ Survives decimals .unquoted (asciis "ab ") :=
  ⟨(cmd_string_survives_iff decimals decimals_stopsAtBlank .quoted (by decide)).mpr
      (by
        show (asciis "say \"a b\"").getLast? ≠ some (ascii '\\')
        decide),
    (cmd_string_survives_iff decimals decimals_stopsAtBlank .unquoted (by decide)).mpr
      ⟨by decide +kernel, by decide +kernel, by decide +kernel, by decide +kernel⟩⟩

/-- A string with a blank in it that isn't in quotes, and one in quotes that ends in a
backslash. -/
theorem cmd_string_not_survives : ¬ Survives decimals .unquoted (asciis "a b") ∧
    ¬ Survives decimals .quoted (asciis "a\\") := by
  constructor
  · intro h
    obtain ⟨t, next, t', hptr, hread, hptr', hread'⟩ := h.probe (by decide) 0
    cases hptr
    cases hread
    cases hptr'
    cases hread'
  · intro h
    obtain ⟨t, next, t', hptr, hread, hptr', hread'⟩ := h.probe (by decide) 0
    cases hptr
    cases hread

end MPlayer
