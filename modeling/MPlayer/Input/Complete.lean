import MPlayer.Input.Survival

/-!
# Complete commands

The loop of `mp_input_parse_cmd` over the arguments ends where no more text is found, and at an
argument that sets `errno`, is a string whose quote has no end, or stands behind the last argument.
Such an argument is counted all the same.  Text that is no number sets no `errno` and is read as 0.
So a command with an argument that is not of its type is refused only if fewer arguments are counted
than are mandatory (`parses_completely_iff`).
-/

namespace MPlayer

universe u

variable {F : Type u}

/-! ## Commands that are complete -/

/-- What stands behind a number: nothing, or white space. -/
def EndsNumber (rest : List UInt8) : Prop := ∀ c, rest.head? = some c → isSpaceByte c = true

/-- The text of an argument is a whole number that an `int` has. -/
def IntText (t : List UInt8) (n : Int) : Prop :=
  ∃ rest, strtolDecimal t = some (n, rest) ∧ EndsNumber rest ∧ -0x80000000 ≤ n ∧ n ≤ 0x7fffffff

/-- The text of an argument is a floating point number, which sets no `errno`. -/
def FloatText (lib : FloatLib F) (t : List UInt8) : Prop :=
  lib.atofErrno t = false ∧ 0 < lib.atofLength t ∧ EndsNumber (t.drop (lib.atofLength t))

/-- An argument of a type is what the text at its place says, and the search for the next one begins
at the last text. -/
inductive ArgRead (lib : FloatLib F) :
    CmdArgType → List UInt8 → CmdValue F → List UInt8 → Prop where
  | int {t : List UInt8} {n : Int} : IntText t n → ArgRead lib .int t (.int n) t
  | float {t : List UInt8} : FloatText lib t → ArgRead lib .float t (.float (lib.atof t)) t
  | string {t s t' : List UInt8} :
      readString t = some (s, t') → ArgRead lib .string t (.string (some s)) t'

/-- Arguments are read one by one from a line. -/
inductive ArgsRead (lib : FloatLib F) :
    List (MpCmdArg F) → List UInt8 → List (MpCmdArg F) → Prop where
  | nil {ds : List (MpCmdArg F)} {ptr : List UInt8} : ArgsRead lib ds ptr []
  | cons {d : MpCmdArg F} {ds args : List (MpCmdArg F)} {ptr t t' : List UInt8} {v : CmdValue F} :
      nextArg ptr = some t → ArgRead lib d.type t v t' → ArgsRead lib ds t' args →
        ArgsRead lib (d :: ds) ptr (⟨d.type, v⟩ :: args)

/-- Among the arguments stands a string whose quote has no end. -/
inductive Unterminated (lib : FloatLib F) : List (MpCmdArg F) → List UInt8 → Prop where
  | here {d : MpCmdArg F} {ds : List (MpCmdArg F)} {ptr t : List UInt8} :
      nextArg ptr = some t → d.type = .string → readString t = none → Unterminated lib (d :: ds) ptr
  | behind {d : MpCmdArg F} {ds : List (MpCmdArg F)} {ptr t t' : List UInt8} :
      nextArg ptr = some t → (readArg lib d.type t).2 = some t' → Unterminated lib ds t' →
        Unterminated lib (d :: ds) ptr

/-- The arguments of a command in front of the one of type -1. -/
def MpCmd.declared (d : MpCmd F) : List (MpCmdArg F) :=
  d.args.takeWhile fun a => decide (a.type ≠ .last)

/-- The line from the name of the command on. -/
def cmdText (line : List UInt8) : List UInt8 :=
  (splitPausing ((cstr line).dropWhile isCmdBlank)).2

/-- The command that a line names. -/
def cmdNamed (mpCmds : List (MpCmd F)) (line : List UInt8) : Option (MpCmd F) :=
  let l := ((cmdText line).takeWhile (!isCmdBlank ·)).length
  if l = 0 then none else mpCmds.find? fun d => avStrncaseeq d.name (cmdText line) l

/-- A command that was parsed: `nargs` arguments were read from the line, the mandatory ones among
them, the others are as they are declared, and no quote is without an end. -/
structure CompleteCmd (lib : FloatLib F) (d : MpCmd F) (str : List UInt8) (cmd : MpCmd F) :
    Prop where
  read : ArgsRead lib d.args str (cmd.args.take cmd.nargs)
  counted : (cmd.args.take cmd.nargs).length = cmd.nargs
  mandatory : d.nargs ≤ cmd.nargs
  defaults : cmd.args.drop cmd.nargs = d.declared.drop cmd.nargs
  terminated : ¬ Unterminated lib d.args str

/-- What `mp_input_parse_cmd` returns for a line is complete. -/
def ParsesCompletely (lib : FloatLib F) (mpCmds : List (MpCmd F)) (pausingDefault : Int)
    (line : List UInt8) : Prop :=
  ∀ cmd, mpInputParseCmd lib mpCmds pausingDefault line = some cmd →
    ∃ d, cmdNamed mpCmds line = some d ∧ CompleteCmd lib d (cmdText line) cmd

/-- The text of an argument is what its type asks for. -/
def ArgText (lib : FloatLib F) (t : List UInt8) : CmdArgType → Prop
  | .int => ∃ n, IntText t n
  | .float => FloatText lib t
  | .string => readString t ≠ none
  | .void => False
  | .last => False

/-- The arguments on a line are all what their types ask for. -/
@[grind =] def ArgTexts (lib : FloatLib F) : List (MpCmdArg F) → List UInt8 → Prop
  | [], _ => True
  | d :: ds, ptr =>
    match nextArg ptr with
    | none => True
    | some t => ArgText lib t d.type ∧ ∀ t', (readArg lib d.type t).2 = some t' → ArgTexts lib ds t'

/-- How many arguments stand on a line, up to one that ends the search: it sets `errno`, its quote
has no end, or it is behind the last one of the table. -/
@[grind =] def argsOnLine (lib : FloatLib F) : List (MpCmdArg F) → List UInt8 → Nat
  | [], _ => 0
  | d :: ds, ptr =>
    match nextArg ptr with
    | none => 0
    | some t =>
      match (readArg lib d.type t).2 with
      | none => 1
      | some t' => argsOnLine lib ds t' + 1

/-! ## The loop over the arguments -/

/-- The command that is returned, in terms of the one that is named. -/
theorem mpInputParseCmd_eq (lib : FloatLib F) (mpCmds : List (MpCmd F)) (pausingDefault : Int)
    (line : List UInt8) :
    mpInputParseCmd lib mpCmds pausingDefault line =
      (cmdNamed mpCmds line).bind fun d =>
        let args := readArgs lib d.args (cmdText line)
        if args.length < d.nargs then none
        else some {
          id := d.id
          name := d.name
          nargs := args.length
          args := args ++ (d.args.drop args.length).takeWhile fun a => decide (a.type ≠ .last)
          pausing := (splitPausing ((cstr line).dropWhile isCmdBlank)).1.getD
            (pausingFor pausingDefault d.id) } := by
  unfold mpInputParseCmd cmdNamed cmdText
  dsimp only
  split
  · rfl
  · split
    · rename_i hfind
      rw [hfind]
      rfl
    · rename_i d hfind
      rw [hfind]
      rfl

variable {lib : FloatLib F} {type : CmdArgType} {t t' ptr : List UInt8} {ds : List (MpCmdArg F)}

theorem IntText.atoi_eq {n : Int} (h : IntText t n) : atoi t = n ∧ atoiErrno t = false := by
  obtain ⟨rest, hread, -, hlo, hhi⟩ := h
  refine ⟨by rw [atoi, hread]; exact toInt32_of_bounds hlo hhi, ?_⟩
  unfold strtolDecimal at hread
  unfold atoiErrno
  dsimp only at hread ⊢
  generalize splitSign (t.dropWhile fun c => c = 32 ∨ 9 ≤ c ∧ c ≤ 13) = body at hread ⊢
  generalize decimalValue (body.2.takeWhile isDigit) = value at hread ⊢
  rw [llongMax] at hread ⊢
  split at hread
  · cases hread
  · cases hread
    cases body.1 with
    | true =>
      simp only [if_true] at hlo ⊢
      exact decide_eq_false (by omega)
    | false =>
      simp only [Bool.false_eq_true, if_false] at hhi ⊢
      exact decide_eq_false (by omega)

/-- An argument that is what its type asks for is read. -/
theorem argRead_of_argText (h : ArgText lib t type) :
    ∃ v t', readArg lib type t = (⟨type, v⟩, some t') ∧ ArgRead lib type t v t' := by
  cases type with
  | int =>
    obtain ⟨n, hn⟩ := h
    obtain ⟨hatoi, herrno⟩ := hn.atoi_eq
    exact ⟨.int n, t, by simp [readArg, hatoi, herrno], .int hn⟩
  | float => exact ⟨.float (lib.atof t), t, by simp [readArg, h.1], .float h⟩
  | string =>
    obtain ⟨⟨s, t'⟩, hread⟩ := Option.ne_none_iff_exists'.mp h
    exact ⟨.string (some s), t', by simp [readArg, hread], .string hread⟩
  | void => exact h.elim
  | last => exact h.elim

theorem ArgRead.argText {v : CmdValue F} (h : ArgRead lib type t v t') : ArgText lib t type := by
  cases h with
  | int h => exact ⟨_, h⟩
  | float h => exact h
  | string h => exact Option.ne_none_iff_exists'.mpr ⟨_, h⟩

theorem ArgRead.readArg {v : CmdValue F} (h : ArgRead lib type t v t') :
    MPlayer.readArg lib type t = (⟨type, v⟩, some t') := by
  cases h with
  | int h =>
    obtain ⟨hatoi, herrno⟩ := h.atoi_eq
    simp [MPlayer.readArg, hatoi, herrno]
  | float h => simp [MPlayer.readArg, h.1]
  | string h => simp [MPlayer.readArg, h]

theorem ArgRead.not_last {v : CmdValue F} (h : ArgRead lib type t v t') : type ≠ .last := by
  cases h with
  | int => exact CmdArgType.noConfusion
  | float => exact CmdArgType.noConfusion
  | string => exact CmdArgType.noConfusion

/-- If every argument that is there is what its type asks for, the loop reads them all. -/
theorem readArgs_all (h : ArgTexts lib ds ptr) : ArgsRead lib ds ptr (readArgs lib ds ptr) := by
  induction ds generalizing ptr with
  | nil => exact .nil
  | cons d ds ih =>
    rw [ArgTexts] at h
    rw [readArgs]
    cases hnext : nextArg ptr with
    | none => exact .nil
    | some t =>
      simp only [hnext] at h ⊢
      obtain ⟨v, t', hread, hv⟩ := argRead_of_argText h.1
      rw [hread] at h ⊢
      exact .cons hnext hv (ih (h.2 t' rfl))

/-- The loop counts the arguments on the line. -/
theorem readArgs_length : (readArgs lib ds ptr).length = argsOnLine lib ds ptr := by
  induction ds generalizing ptr with
  | nil => rfl
  | cons d ds ih =>
    rw [argsOnLine, readArgs]
    cases nextArg ptr with
    | none => rfl
    | some t =>
      dsimp only
      cases (readArg lib d.type t).2 with
      | none => rfl
      | some t' => exact congrArg (· + 1) ih

/-- If all that are counted are read, every argument that is there is what its type asks for. -/
theorem ArgsRead.argTexts {args : List (MpCmdArg F)} (hargs : ArgsRead lib ds ptr args)
    (h : args.length = argsOnLine lib ds ptr) : ArgTexts lib ds ptr := by
  induction hargs with
  | @nil ds ptr =>
    cases ds with
    | nil => trivial
    | cons d ds =>
      rw [argsOnLine] at h
      rw [ArgTexts]
      cases hnext : nextArg ptr with
      | none => trivial
      | some t =>
        simp only [hnext] at h
        split at h
        · cases h
        · cases h
  | cons hnext hread _ ih =>
    rw [argsOnLine, hnext] at h
    rw [ArgTexts, hnext]
    simp only [hread.readArg] at h ⊢
    refine ⟨hread.argText, fun u hu => ?_⟩
    cases hu
    exact ih (Nat.succ.inj h)

theorem ArgsRead.le_declared {args : List (MpCmdArg F)} (h : ArgsRead lib ds ptr args) :
    (ds.drop args.length).takeWhile (fun a => decide (a.type ≠ .last)) =
      (ds.takeWhile fun a => decide (a.type ≠ .last)).drop args.length := by
  induction h with
  | nil => rfl
  | cons _ hread _ ih => simpa [hread.not_last] using ih

theorem Unterminated.not_argTexts (h : Unterminated lib ds ptr) : ¬ArgTexts lib ds ptr := by
  induction h with
  | here hnext htype hread =>
    rw [ArgTexts, hnext, htype]
    exact fun h => h.1 hread
  | behind hnext hread _ ih =>
    rw [ArgTexts, hnext]
    exact fun h => ih (h.2 _ hread)

/-! ## Results -/

/-- What is returned is complete exactly if every argument on the line is what its type asks for, or
fewer arguments stand on the line, up to one that ends the search, than are mandatory. -/
theorem parses_completely_iff (lib : FloatLib F) (mpCmds : List (MpCmd F)) (pausingDefault : Int)
    (line : List UInt8) :
    ParsesCompletely lib mpCmds pausingDefault line ↔
      ∀ d, cmdNamed mpCmds line = some d →
        ArgTexts lib d.args (cmdText line) ∨ argsOnLine lib d.args (cmdText line) < d.nargs := by
  rw [ParsesCompletely, mpInputParseCmd_eq]
  cases hnamed : cmdNamed mpCmds line with
  | none => simp
  | some d =>
    simp only [Option.bind_some, Option.some.injEq, forall_eq', readArgs_length]
    constructor
    · intro h
      by_cases hfew : argsOnLine lib d.args (cmdText line) < d.nargs
      · exact .inr hfew
      · rw [if_neg hfew] at h
        obtain ⟨d', rfl, hcomplete⟩ := h _ rfl
        exact .inl (hcomplete.read.argTexts hcomplete.counted)
    · intro h cmd hcmd
      split at hcmd
      · cases hcmd
      · rename_i hmany
        have htexts := h.resolve_right hmany
        have hread := readArgs_all htexts
        cases hcmd
        rw [← readArgs_length] at hmany ⊢
        refine ⟨d, rfl, ?_, ?_, Nat.not_lt.mp hmany, ?_, fun hq => hq.not_argTexts htexts⟩
        · rw [List.take_left]
          exact hread
        · rw [List.take_left]
        · rw [List.drop_left, hread.le_declared]
          rfl

/-- `osd_show_text`. -/
def osdShowText : MpCmd (Int × Nat) where
  id := .other 0
  name := asciis "osd_show_text"
  nargs := 1
  args := [⟨.string, .string none⟩, ⟨.int, .int (-1)⟩, ⟨.int, .int 0⟩, ⟨.last, .int 0⟩]
  pausing := 0

/-- A quote without an end. -/
theorem not_parses_completely :
    ¬ ParsesCompletely decimals [osdShowText] 0 (asciis "osd_show_text \"hi") := by
  intro h
  obtain ⟨d, hd, hcomplete⟩ := h _ rfl
  cases hd
  exact hcomplete.terminated (.here rfl rfl rfl)

end MPlayer
