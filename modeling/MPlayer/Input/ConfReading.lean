import MPlayer.Input.ConfLines

/-!
# Reading input.conf

*A round.*  A state leads to the bindings of its text (`ConfFile.Leads`).  A round keeps that and
makes the text shorter, unless the window is cut off: it begins with a name or a command and doesn't
have its end (`confKeys_spec`, `confCommand_spec`).  Then the loop gives up.

*A run.*  So the file's lines are bound if and only if no round finds its window cut off, however
the file is read (`config_exact_iff`).  When each `read` fills the window and the last line has its
newline, none does (`neverCutOff_of_full`).
-/

namespace MPlayer

open Lib

variable {keyNames : List (Int × List UInt8)}

/-! ## A round -/

/-- The window begins with a name or a command that doesn't end in it. -/
def ConfFile.CutOff (s : ConfFile) : Prop :=
  s.buffer ≠ [] ∧ s.comments = false ∧
    if s.keys = [] then
      (∀ c ∈ s.buffer, isSpaceChar c = false) ∧ s.buffer.head? ≠ some (ascii '#')
    else
      (∀ c ∈ s.buffer, isConfLineEnd c = false) ∧ s.buffer.head? ≠ some (ascii ' ') ∧
        s.buffer.head? ≠ some 9

/-- What is still to be read. -/
def ConfFile.text (s : ConfFile) : List UInt8 := s.buffer ++ s.rest

/-- The text of a state is one that leads to `final`. -/
def ConfFile.Leads (keyNames : List (Int × List UInt8)) (s : ConfFile) (final : CmdBinds) : Prop :=
  Awaits keyNames s.comments s.keys s.text s.binds final

/-- Falls in each round. -/
def ConfFile.measure (s : ConfFile) : Nat :=
  2 * s.text.length + if s.comments then 0 else 1

/-- A round that goes on: something has been read, and nothing else of the file is touched. -/
structure ConfFile.Passes (s s' : ConfFile) : Prop where
  rest : s'.rest = s.rest
  eof : s'.eof = s.eof
  text : s'.buffer <:+ s.buffer
  measure : s'.measure < s.measure

variable {s t : ConfFile} {final : CmdBinds} {sizes : Nat → Nat}

theorem ConfFile.Passes.of_drop {s' : ConfFile} (hrest : s'.rest = s.rest) (heof : s'.eof = s.eof)
    (hbuffer : s'.buffer <:+ s.buffer) (hlt : s'.buffer.length < s.buffer.length) :
    s.Passes s' := by
  refine ⟨hrest, heof, hbuffer, ?_⟩
  rw [ConfFile.measure, ConfFile.measure, ConfFile.text, ConfFile.text, hrest, List.length_append,
    List.length_append]
  split <;> split <;> omega

/-- A round in a comment. -/
theorem confComment_spec (h : s.Leads keyNames final) (hcomments : s.comments = true)
    (hkeys : s.keys = []) (hne : s.buffer ≠ []) :
    ∃ s', confComment s = .next s' ∧ s'.Leads keyNames final ∧ s.Passes s' := by
  rw [ConfFile.Leads, hcomments, hkeys] at h
  have hdrop := Awaits.drop_comments s.buffer s.rest h
  rw [confComment]
  cases hbuffer : s.buffer.dropWhile (· ≠ 10) with
  | nil =>
    rw [hbuffer] at hdrop
    refine ⟨_, rfl, ?_, .of_drop rfl rfl (List.nil_suffix) (List.length_pos_iff.mpr hne)⟩
    rw [ConfFile.Leads, ConfFile.moveTo, hcomments, hkeys]
    exact hdrop
  | cons c text =>
    rw [hbuffer] at hdrop
    have hc : c = 10 := by simpa using dropWhile_cons_head hbuffer
    subst hc
    refine ⟨_, rfl, ?_, .of_drop rfl rfl (dropWhile_cons_suffix hbuffer)
      (dropWhile_cons_length hbuffer)⟩
    rw [ConfFile.Leads, hkeys]
    exact hdrop.end_comment

/-- What a round does to a state that leads to `final`. -/
def ConfFile.Looks (keyNames : List (Int × List UInt8)) (s : ConfFile) (final : CmdBinds)
    (look : ConfRound) : Prop :=
  (s.CutOff ∧ look = .done 0 s.binds) ∨
    (¬s.CutOff ∧ ∃ s', look = .next s' ∧ s'.Leads keyNames final ∧ s.Passes s')

theorem length_lt_of_suffix {a b : List UInt8} (h : a <:+ b) (hne : b ≠ a) :
    a.length < b.length :=
  Nat.lt_of_le_of_ne h.length_le fun hlength => hne (h.eq_of_length hlength).symm

theorem cutOff_keys (hcomments : s.comments = false) (hkeys : s.keys = []) (hne : s.buffer ≠ []) :
    s.CutOff ↔ (∀ c ∈ s.buffer, isSpaceChar c = false) ∧ s.buffer.head? ≠ some (ascii '#') := by
  rw [ConfFile.CutOff, if_pos hkeys]
  exact ⟨fun h => h.2.2, fun h => ⟨hne, hcomments, h⟩⟩

theorem cutOff_command (hcomments : s.comments = false) (hkeys : s.keys ≠ [])
    (hne : s.buffer ≠ []) :
    s.CutOff ↔ (∀ c ∈ s.buffer, isConfLineEnd c = false) ∧ s.buffer.head? ≠ some (ascii ' ') ∧
      s.buffer.head? ≠ some 9 := by
  rw [ConfFile.CutOff, if_neg hkeys]
  exact ⟨fun h => h.2.2, fun h => ⟨hne, hcomments, h⟩⟩

theorem dropWhile_eq_self {p : UInt8 → Bool} {s : List UInt8} (h : ∀ c ∈ s, p c = false) :
    s.dropWhile p = s := by
  cases s with
  | nil => rfl
  | cons c s => rw [List.dropWhile_cons_of_neg (by simp [h c List.mem_cons_self])]

/-- A round where a key combination may begin. -/
theorem confKeys_spec (h : s.Leads keyNames final) (hcomments : s.comments = false)
    (hkeys : s.keys = []) (hne : s.buffer ≠ []) : s.Looks keyNames final (confKeys keyNames s) := by
  have hcut := cutOff_keys hcomments hkeys hne
  rw [ConfFile.Leads, hcomments, hkeys] at h
  have hdrop := Awaits.drop_blanks s.buffer s.rest h
  rw [confKeys]
  cases hiter : s.buffer.dropWhile isSpaceChar with
  | nil =>
    rw [hiter] at hdrop
    refine .inr ⟨fun h => ?_, _, rfl, ?_,
      .of_drop rfl rfl List.nil_suffix (List.length_pos_iff.mpr hne)⟩
    · exact hne ((dropWhile_eq_self (hcut.mp h).1).symm.trans hiter)
    · rw [ConfFile.Leads, ConfFile.moveTo, hcomments, hkeys]
      exact hdrop
  | cons c iter =>
    rw [hiter] at hdrop
    have hc := dropWhile_cons_head hiter
    dsimp only
    by_cases hhash : c = ascii '#'
    · rw [if_pos hhash]
      refine .inr ⟨fun h => (hcut.mp h).2 ?_, _, rfl, ?_, rfl, rfl, List.suffix_rfl, ?_⟩
      · rw [← dropWhile_eq_self (hcut.mp h).1, hiter, hhash]
        rfl
      · rw [ConfFile.Leads, hkeys]
        refine h.hash ?_
        rw [ConfFile.text, dropWhile_window (by rw [hiter]; exact List.cons_ne_nil c iter), hiter,
          hhash]
        rfl
      · simp [ConfFile.measure, ConfFile.text, hcomments]
    · rw [if_neg hhash]
      obtain ⟨name, keys, d, text, htext, hname, hd, -, hknown, hkeysne, hawaits⟩ :=
        hdrop.key_name hc hhash
      cases hend : (c :: iter).dropWhile (!isSpaceChar ·) with
      | nil =>
        by_cases hbuffer : s.buffer = c :: iter
        · rw [if_pos hbuffer]
          refine .inl ⟨hcut.mpr ⟨fun a ha => ?_, ?_⟩, rfl⟩
          · rw [hbuffer] at ha
            simpa using List.dropWhile_eq_nil_iff.mp hend a ha
          · rw [hbuffer]
            exact fun h => hhash (Option.some.inj h)
        · rw [if_neg hbuffer]
          refine .inr ⟨fun h => ?_, _, rfl, ?_, .of_drop rfl rfl ?_ ?_⟩
          · exact hbuffer ((dropWhile_eq_self (hcut.mp h).1).symm.trans hiter)
          · rw [ConfFile.Leads, ConfFile.moveTo, hcomments, hkeys]
            exact hdrop
          · exact hiter ▸ List.dropWhile_suffix _
          · exact length_lt_of_suffix (hiter ▸ List.dropWhile_suffix _) hbuffer
      | cons d' text' =>
        obtain ⟨hcut', htext'⟩ := window_item hend htext hname (by rw [hd]; rfl)
        have hsuffix : c :: iter <:+ s.buffer := hiter ▸ List.dropWhile_suffix _
        rw [hcut', hknown]
        refine .inr ⟨fun h => ?_, _, rfl, ?_, .of_drop rfl rfl ?_ ?_⟩
        · have hspace := dropWhile_cons_head hend
          rw [(hcut.mp h).1 d'] at hspace
          · cases hspace
          · exact hsuffix.subset ((hend ▸ List.dropWhile_suffix _ :
              d' :: text' <:+ c :: iter).subset List.mem_cons_self)
        · rw [ConfFile.Leads, ConfFile.text, hcomments]
          rw [htext']
          exact hawaits
        · exact (dropWhile_cons_suffix hend).trans hsuffix
        · exact Nat.lt_of_lt_of_le (dropWhile_cons_length hend) hsuffix.length_le

/-- A round for a command. -/
theorem confCommand_spec (h : s.Leads keyNames final) (hcomments : s.comments = false)
    (hkeys : s.keys ≠ []) (hne : s.buffer ≠ []) : s.Looks keyNames final (confCommand s) := by
  have hcut := cutOff_command hcomments hkeys hne
  rw [ConfFile.Leads, hcomments] at h
  have hdrop := Awaits.drop_seps s.buffer s.rest h hkeys
  rw [confCommand]
  generalize hiter : (s.buffer.dropWhile fun c => c = ascii ' ' || c = 9) = iter at hdrop
  have hsuffix : iter <:+ s.buffer := hiter ▸ List.dropWhile_suffix _
  have hhead : s.CutOff → s.buffer = iter := by
    intro h
    obtain ⟨-, hspace, htab⟩ := hcut.mp h
    rw [← hiter]
    cases hbuffer : s.buffer with
    | nil => rfl
    | cons c buffer =>
      rw [hbuffer] at hspace htab
      rw [List.dropWhile_cons_of_neg]
      simpa using And.intro (fun h => hspace (congrArg some h)) fun h => htab (congrArg some h)
  cases hend : iter.dropWhile (!isConfLineEnd ·) with
  | nil =>
    by_cases hbuffer : iter = s.buffer
    · rw [if_pos hbuffer]
      refine .inl ⟨hcut.mpr ⟨fun a ha => ?_, ?_⟩, rfl⟩
      · rw [← hbuffer] at ha
        simpa using List.dropWhile_eq_nil_iff.mp hend a ha
      · rw [hbuffer] at hiter
        cases hs : s.buffer with
        | nil => exact absurd hs hne
        | cons c buffer =>
          rw [hs] at hiter
          have hc := dropWhile_cons_head hiter
          simpa using hc
    · rw [if_neg hbuffer]
      refine .inr ⟨fun h => hbuffer (hhead h).symm, _, rfl, ?_, .of_drop rfl rfl hsuffix
        (length_lt_of_suffix hsuffix (Ne.symm hbuffer))⟩
      rw [ConfFile.Leads, ConfFile.moveTo, hcomments]
      exact hdrop
  | cons d' text' =>
    have hd' : d' ∈ s.buffer :=
      hsuffix.subset ((hend ▸ List.dropWhile_suffix _ : d' :: text' <:+ iter).subset
        List.mem_cons_self)
    have hline := dropWhile_cons_head hend
    cases hs : iter with
    | nil =>
      rw [hs] at hend
      cases hend
    | cons c it =>
      rw [hs] at hdrop hiter
      have hc : ¬(c = ascii ' ' ∨ c = 9) := by simpa using dropWhile_cons_head hiter
      obtain ⟨cmd, text, htext, hcmd, hcmdne, -, hrest⟩ := hdrop.cmd_text hkeys hc
      subst hs
      cases hrest with
      | inl hrest =>
        rw [hrest, List.append_nil] at htext
        have hmem : d' ∈ cmd := by
          rw [← htext]
          exact List.mem_append_left _ ((hend ▸ List.dropWhile_suffix _ :
            d' :: text' <:+ c :: it).subset List.mem_cons_self)
        have hnot := hcmd d' hmem
        rw [hline] at hnot
        cases hnot
      | inr hrest =>
        obtain ⟨d, text'', rfl, hd, hawaits⟩ := hrest
        obtain ⟨hcut', htext'⟩ := window_item hend htext hcmd (by rw [hd]; rfl)
        rw [hcut']
        dsimp only
        rw [if_neg hcmdne]
        refine .inr ⟨fun h => ?_, _, rfl, ?_, .of_drop rfl rfl
          ((dropWhile_cons_suffix hend).trans hsuffix)
          (Nat.lt_of_lt_of_le (dropWhile_cons_length hend) hsuffix.length_le)⟩
        · rw [(hcut.mp h).1 d' hd'] at hline
          cases hline
        · rw [ConfFile.Leads, ConfFile.text, hcomments, htext']
          exact hawaits

/-! ## What is read -/

/-- The state behind the `read` of a round. -/
def ConfFile.atLook (sizes : Nat → Nat) (s : ConfFile) : ConfFile :=
  if s.eof = true ∨ bsMax - 1 ≤ s.buffer.length then s else s.fill (s.readLength (sizes s.reads))

theorem confRound_sizes (keyNames : List (Int × List UInt8)) (sizes : Nat → Nat) (s : ConfFile) :
    confRound keyNames (fun k => .size (sizes k)) s = confLook keyNames (s.atLook sizes) := by
  rw [confRound, ConfFile.atLook]
  split <;> rfl

/-- A state in the middle of a file of lines. -/
structure ConfFile.Reads (keyNames : List (Int × List UInt8)) (s : ConfFile) (final : CmdBinds) :
    Prop where
  leads : s.Leads keyNames final
  zero : 0 ∉ s.text
  eof : s.eof = true → s.rest = []

theorem readSize_eq_zero {n count left : Nat} (h : readSize n count left = 0) : left = 0 := by
  rw [readSize] at h
  split at h
  case isTrue h' => exact h'
  case isFalse => omega

/-- A `read` moves text into the window. -/
theorem ConfFile.fill_text (hzero : 0 ∉ s.text) (r : Nat) :
    (s.fill r).text = s.text ∧ (s.fill r).buffer = s.buffer ++ s.rest.take r := by
  have hbuffer : (s.fill r).buffer = s.buffer ++ s.rest.take r := by
    refine cstr_eq_self fun h => hzero ?_
    cases List.mem_append.mp h with
    | inl h => exact List.mem_append_left _ h
    | inr h => exact List.mem_append_right _ (List.mem_of_mem_take h)
  refine ⟨?_, hbuffer⟩
  rw [ConfFile.text, hbuffer, List.append_assoc]
  exact congrArg (s.buffer ++ ·) (List.take_append_drop r s.rest)

/-- The `read` of a round changes nothing of what is to come. -/
structure ConfFile.Refills (s s' : ConfFile) : Prop where
  text : s'.text = s.text
  comments : s'.comments = s.comments
  keys : s'.keys = s.keys
  binds : s'.binds = s.binds
  eof : s'.eof = true → s'.rest = []
  empty : s'.buffer = [] → s'.rest = []

theorem ConfFile.atLook_spec (h : s.Reads keyNames final) (sizes : Nat → Nat) :
    s.Refills (s.atLook sizes) := by
  rw [ConfFile.atLook]
  split
  case isTrue hstay =>
      refine ⟨rfl, rfl, rfl, rfl, h.eof, fun hempty => ?_⟩
      cases hstay with
      | inl heof => exact h.eof heof
      | inr hfull =>
        rw [hempty] at hfull
        exact absurd hfull (by decide)
  case isFalse =>
      obtain ⟨htext, hbuffer⟩ := ConfFile.fill_text h.zero (s.readLength (sizes s.reads))
      have hend : s.readLength (sizes s.reads) = 0 → s.rest = [] :=
        fun hr => List.length_eq_zero_iff.mp (readSize_eq_zero hr)
      refine ⟨htext, rfl, rfl, rfl, fun heof => ?_, fun hempty => ?_⟩
      · have hr : s.readLength (sizes s.reads) = 0 := by simpa [ConfFile.fill] using heof
        simp [ConfFile.fill, hend hr]
      · rw [hbuffer] at hempty
        have htake := (List.append_eq_nil_iff.mp hempty).2
        cases List.take_eq_nil_iff.mp htake with
        | inl hr => simp [ConfFile.fill, hend hr]
        | inr hr => simp [ConfFile.fill, hr]

theorem Awaits.comment_keys {keys : List Int} {text : List UInt8} {binds : CmdBinds}
    (h : Awaits keyNames true keys text binds final) : keys = [] := by
  cases h <;> rfl

/-- What a round leads to. -/
inductive RoundSpec (keyNames : List (Int × List UInt8)) (s t : ConfFile) (final : CmdBinds) :
    ConfRound → Prop where
  | cutOff (h : t.CutOff) : RoundSpec keyNames s t final (.done 0 s.binds)
  | done (h : ¬t.CutOff) : RoundSpec keyNames s t final (.done 1 final)
  | next {s' : ConfFile} (h : ¬t.CutOff) (hreads : s'.Reads keyNames final)
      (htext : s'.text <:+ s.text) (hlt : s'.measure < s.measure) :
        RoundSpec keyNames s t final (.next s')

theorem confRound_spec (h : s.Reads keyNames final) (sizes : Nat → Nat) :
    RoundSpec keyNames s (s.atLook sizes) final
      (confRound keyNames (fun k => .size (sizes k)) s) := by
  have hfill := ConfFile.atLook_spec h sizes
  rw [confRound_sizes]
  generalize s.atLook sizes = t at hfill
  have hleads : t.Leads keyNames final := by
    rw [ConfFile.Leads, hfill.comments, hfill.keys, hfill.text, hfill.binds]
    exact h.leads
  have hmeasure : t.measure = s.measure := by
    rw [ConfFile.measure, ConfFile.measure, hfill.text, hfill.comments]
  have hnext : ∀ {look : ConfRound}, t.Looks keyNames final look →
      RoundSpec keyNames s t final look := by
    rintro look (⟨hcut, rfl⟩ | ⟨hcut, s', rfl, hs', hpass⟩)
    · rw [hfill.binds]
      exact .cutOff hcut
    · have htext : s'.text <:+ s.text := by
        rw [← hfill.text, ConfFile.text, ConfFile.text, hpass.rest]
        obtain ⟨front, hfront⟩ := hpass.text
        exact ⟨front, by rw [← hfront, List.append_assoc]⟩
      refine .next hcut ⟨hs', fun hzero => h.zero (htext.subset hzero), ?_⟩ htext
        (hmeasure ▸ hpass.measure)
      · rw [hpass.rest, hpass.eof]
        exact hfill.eof
  rw [confLook]
  by_cases hempty : t.buffer = []
  · rw [if_pos hempty]
    have hbinds : t.binds = final := by
      rw [ConfFile.Leads, ConfFile.text, hempty, hfill.empty hempty] at hleads
      exact hleads.nil
    rw [hbinds]
    exact .done fun hcut => hcut.1 hempty
  · rw [if_neg hempty]
    cases hcomments : t.comments with
    | true =>
      have hkeys : t.keys = [] := by
        rw [ConfFile.Leads, hcomments] at hleads
        exact hleads.comment_keys
      refine hnext (.inr ⟨fun hcut => ?_, confComment_spec hleads hcomments hkeys hempty⟩)
      have hfalse := hcut.2.1
      rw [hcomments] at hfalse
      cases hfalse
    | false =>
      rw [if_neg Bool.false_ne_true]
      by_cases hkeys : t.keys = []
      · rw [if_pos hkeys]
        exact hnext (confKeys_spec hleads hcomments hkeys hempty)
      · rw [if_neg hkeys]
        exact hnext (confCommand_spec hleads hcomments hkeys hempty)

/-! ## A run -/

/-- The rounds of the loop lead from a state to another one. -/
inductive ConfSteps (keyNames : List (Int × List UInt8)) (sizes : Nat → Nat) :
    ConfFile → ConfFile → Prop where
  | refl (s : ConfFile) : ConfSteps keyNames sizes s s
  | next {s s' t : ConfFile} (h : confRound keyNames (fun k => .size (sizes k)) s = .next s')
      (ht : ConfSteps keyNames sizes s' t) : ConfSteps keyNames sizes s t

/-- No round finds its window cut off. -/
def NeverCutOff (keyNames : List (Int × List UInt8)) (sizes : Nat → Nat) (s : ConfFile) : Prop :=
  ∀ t, ConfSteps keyNames sizes s t → ¬(t.atLook sizes).CutOff

theorem confLoop_next {read : Nat → ReadTry} {s' : ConfFile} {res : Int × CmdBinds}
    (h : confRound keyNames read s = .next s')
    (hres : Returns (fun fuel => confLoop keyNames read fuel s') res) :
    Returns (fun fuel => confLoop keyNames read fuel s) res := by
  obtain ⟨n, hn⟩ := hres
  refine ⟨n + 1, fun m hm => ?_⟩
  obtain ⟨m, rfl⟩ : ∃ k, m = k + 1 := ⟨m - 1, by omega⟩
  simp only [confLoop, h]
  exact hn m (by omega)

theorem confLoop_done {read : Nat → ReadTry} {res : Int} {binds : CmdBinds}
    (h : confRound keyNames read s = .done res binds) :
    Returns (fun fuel => confLoop keyNames read fuel s) (res, binds) := by
  refine ⟨1, fun m hm => ?_⟩
  obtain ⟨m, rfl⟩ : ∃ k, m = k + 1 := ⟨m - 1, by omega⟩
  simp only [confLoop, h]

/-- Where no window is cut off, the loop binds what it leads to. -/
theorem ConfFile.Reads.returns {sizes : Nat → Nat} {final : CmdBinds} {s : ConfFile}
    (h : s.Reads keyNames final) (hnever : NeverCutOff keyNames sizes s) :
    Returns (fun fuel => confLoop keyNames (fun k => .size (sizes k)) fuel s) (1, final) := by
  have hspec := confRound_spec h sizes
  have hcut := hnever s (.refl s)
  generalize hround : confRound keyNames (fun k => .size (sizes k)) s = round at hspec
  cases hspec with
  | cutOff h => exact absurd h hcut
  | done => exact confLoop_done hround
  | @next s' _ hreads _ hlt =>
    exact confLoop_next hround (returns hreads fun t ht => hnever t (.next hround ht))
termination_by s.measure

/-- Where one is, it gives up. -/
theorem ConfSteps.gives_up (hsteps : ConfSteps keyNames sizes s t) (h : s.Reads keyNames final)
    (hcut : (t.atLook sizes).CutOff) :
    ∃ binds, Returns (fun fuel => confLoop keyNames (fun k => .size (sizes k)) fuel s)
      (0, binds) := by
  induction hsteps with
  | refl s =>
    have hspec := confRound_spec h sizes
    generalize hround : confRound keyNames (fun k => .size (sizes k)) s = round at hspec
    cases hspec with
    | cutOff => exact ⟨_, confLoop_done hround⟩
    | done h => exact absurd hcut h
    | next h => exact absurd hcut h
  | @next s s' t hround ht ih =>
    have hspec := confRound_spec h sizes
    rw [hround] at hspec
    cases hspec with
    | next _ hreads _ _ =>
      obtain ⟨binds, hbinds⟩ := ih hreads hcut
      exact ⟨binds, confLoop_next hround hbinds⟩

/-- The start of `mp_input_parse_config`. -/
def ConfFile.start (file : List UInt8) (binds : CmdBinds) : ConfFile :=
  ⟨file, 0, false, false, [], [], binds⟩

theorem ConfLine.Ok.zero {l : ConfLine} (h : l.Ok keyNames) : 0 ∉ l.text := by
  have hblank : ∀ {bs : List UInt8}, LineBlanks bs → 0 ∉ bs := fun hbs h0 => by
    cases (hbs 0 h0).1
  cases l with
  | blank bs => exact hblank h
  | comment bs text =>
    obtain ⟨hbs, -, hzero⟩ := h
    intro h0
    cases List.mem_append.mp h0 with
    | inl h0 => exact hblank hbs h0
    | inr h0 => exact hzero ((List.mem_cons.mp h0).resolve_left (by decide))
  | bind bs name sep cmd tail =>
    obtain ⟨hbs, hname, -, hsep, hcmd, htail⟩ := h
    simp only [ConfLine.text, List.mem_append, not_or]
    exact ⟨hblank hbs, fun h0 => (hname.chars 0 h0).2 rfl,
      fun h0 => by cases hsep 0 h0 <;> contradiction,
      fun h0 => (hcmd.chars 0 h0).2 rfl, hblank htail.1⟩

theorem zero_fileText (ended : Bool) : ∀ {lines : List ConfLine}, LinesOk keyNames lines →
    0 ∉ fileText ended lines
  | [], _ => List.not_mem_nil
  | l :: ls, h => by
    intro h0
    rw [fileText_cons] at h0
    cases List.mem_append.mp h0 with
    | inl h0 => exact (h l List.mem_cons_self).1.zero h0
    | inr h0 =>
      cases lineEnd_cases ended ls with
      | inl hend =>
        rw [hend.2] at h0
        cases h0
      | inr hend =>
        rw [hend] at h0
        exact zero_fileText ended h.tail ((List.mem_cons.mp h0).resolve_left (by decide))

theorem start_reads {lines : List ConfLine} (hlines : LinesOk keyNames lines) (ended : Bool)
    (binds : CmdBinds) :
    (ConfFile.start (fileText ended lines) binds).Reads keyNames
      (bindLines keyNames lines binds) where
  leads := .keys no_blanks hlines
  zero := zero_fileText ended hlines
  eof := fun h => by cases h

/-- The file is read to its end, and its keys have the commands of their last lines. -/
def ConfigExact (keyNames : List (Int × List UInt8)) (sizes : Nat → Nat) (lines : List ConfLine)
    (ended : Bool) (binds : CmdBinds) : Prop :=
  ∃ binds', Returns (mpInputParseConfig keyNames (fun k => .size (sizes k)) (fileText ended lines)
      binds) (1, binds') ∧
    ∀ section' keys, findBind binds' section' keys =
      (lastCommand keyNames lines section' keys).or (findBind binds section' keys)

/-- The lines of input.conf are bound if and only if no round of the loop finds a window that
begins with a name or a command and doesn't have its end. -/
theorem config_exact_iff (keyNames : List (Int × List UInt8)) (sizes : Nat → Nat)
    (lines : List ConfLine) (ended : Bool) (binds : CmdBinds) (hlines : LinesOk keyNames lines) :
    ConfigExact keyNames sizes lines ended binds ↔
      NeverCutOff keyNames sizes (.start (fileText ended lines) binds) := by
  have hreads := start_reads hlines ended binds
  constructor
  · rintro ⟨binds', hreturns, -⟩ t hsteps hcut
    obtain ⟨binds'', hgives⟩ := hsteps.gives_up hreads hcut
    have hres : (1 : Int) = 0 := congrArg Prod.fst (hreturns.unique hgives)
    cases hres
  · intro hnever
    exact ⟨_, hreads.returns hnever, findBind_bindLines keyNames lines binds⟩

/-! ## Full windows -/

/-- Each `read` fills the window or comes to the end of the file. -/
theorem ConfFile.atLook_full (h : s.Reads keyNames final) (hsizes : ∀ k, bsMax - 1 ≤ sizes k) :
    bsMax - 1 ≤ (s.atLook sizes).buffer.length ∨ (s.atLook sizes).rest = [] := by
  rw [ConfFile.atLook]
  split
  case isTrue hstay => exact hstay.elim (fun heof => .inr (h.eof heof)) .inl
  case isFalse hread =>
      rw [(ConfFile.fill_text h.zero _).2, List.length_append, List.length_take]
      have hn := hsizes s.reads
      by_cases hall : s.readLength (sizes s.reads) = s.rest.length
      · exact .inr (List.drop_eq_nil_of_le (Nat.le_of_eq hall.symm))
      · rw [ConfFile.readLength, readSize] at hall ⊢
        split
        case isTrue hleft => simp [hleft] at hall
        case isFalse hleft =>
            rw [if_neg hleft] at hall
            omega

theorem ConfSteps.reads (hsteps : ConfSteps keyNames sizes s t) (h : s.Reads keyNames final) :
    t.Reads keyNames final ∧ t.text <:+ s.text := by
  induction hsteps with
  | refl s => exact ⟨h, List.suffix_rfl⟩
  | @next s s' t hround ht ih =>
    have hspec := confRound_spec h sizes
    rw [hround] at hspec
    cases hspec with
    | next _ hreads htext _ =>
      obtain ⟨hreads', htext'⟩ := ih hreads
      exact ⟨hreads', htext'.trans htext⟩

/-- A wide window with the end of each line isn't cut off. -/
theorem ConfFile.Leads.not_cutOff (h : t.Leads keyNames final)
    (hwide : bsMax - 1 ≤ t.buffer.length ∨ t.rest = [])
    (hlast : ∀ front c, t.text = front ++ [c] → isConfLineEnd c = true) : ¬t.CutOff := by
  rintro ⟨hne, hcomments, hcut⟩
  have hin : ∀ {front text : List UInt8} {c : UInt8}, t.text = front ++ c :: text →
      front.length ≤ 250 → c ∈ t.buffer := by
    intro front text c heq hfront
    refine mem_window heq ?_
    cases hwide with
    | inl hwide =>
      rw [bsMax] at hwide
      omega
    | inr hrest =>
      rw [ConfFile.text, hrest, List.append_nil] at heq
      rw [heq, List.length_append, List.length_cons]
      omega
  cases hbuffer : t.buffer with
  | nil => exact hne hbuffer
  | cons c buffer =>
    rw [ConfFile.Leads, ConfFile.text, hcomments, hbuffer] at h
    split at hcut
    case isTrue hkeys =>
        obtain ⟨hspaces, hhash⟩ := hcut
        rw [hbuffer] at hhash
        rw [hkeys] at h
        obtain ⟨name, -, d, text, htext, -, hd, hlength, -⟩ := h.key_name
          (hspaces c (hbuffer ▸ List.mem_cons_self)) (fun h => hhash (congrArg some h))
        have hmem := hin (by rw [ConfFile.text, hbuffer]; exact htext) (Nat.le_of_lt hlength)
        rw [hspaces d hmem] at hd
        cases hd
    case isFalse hkeys =>
        obtain ⟨hends, hspace, htab⟩ := hcut
        rw [hbuffer] at hspace htab
        obtain ⟨cmd, text, htext, hcmd, hcmdne, hlength, hrest⟩ := h.cmd_text hkeys
          (not_or.mpr ⟨fun h => hspace (congrArg some h), fun h => htab (congrArg some h)⟩)
        have heq : t.text = cmd ++ text := by
          rw [ConfFile.text, hbuffer]
          exact htext
        cases hrest with
        | inl hnil =>
          have hend := hlast cmd.dropLast (cmd.getLast hcmdne) (by
            rw [heq, hnil, List.append_nil, List.dropLast_concat_getLast])
          have hnot := hcmd _ (List.getLast_mem hcmdne)
          rw [hend] at hnot
          cases hnot
        | inr hrest =>
          obtain ⟨d, text', rfl, hd, -⟩ := hrest
          rw [hends d (hin heq hlength)] at hd
          cases hd

/-- When each `read` fills the window and the file ends with a newline, no window is cut off. -/
theorem neverCutOff_of_full {lines : List ConfLine} {ended : Bool}
    (hlines : LinesOk keyNames lines) (hsizes : ∀ k, bsMax - 1 ≤ sizes k)
    (hlast : ∀ front c, fileText ended lines = front ++ [c] → c = 10) (binds : CmdBinds) :
    NeverCutOff keyNames sizes (.start (fileText ended lines) binds) := by
  intro t hsteps
  obtain ⟨hreads, hsuffix⟩ := hsteps.reads (start_reads hlines ended binds)
  have hfill := ConfFile.atLook_spec hreads sizes
  have hleads : (t.atLook sizes).Leads keyNames (bindLines keyNames lines binds) := by
    rw [ConfFile.Leads, hfill.comments, hfill.keys, hfill.text, hfill.binds]
    exact hreads.leads
  refine hleads.not_cutOff (ConfFile.atLook_full hreads hsizes) fun front c htext => ?_
  rw [hfill.text] at htext
  obtain ⟨front', hfront'⟩ := hsuffix
  have hfile : fileText ended lines = front' ++ front ++ [c] := by
    rw [List.append_assoc, ← htext]
    exact hfront'.symm
  rw [hlast _ c hfile]
  rfl

/-- The line `q quit`. -/
def quitLine : ConfLine := .bind [] (asciis "q") (asciis " ") (asciis "quit") []

theorem quitLine_ok : LinesOk [] [quitLine] := by
  intro l hl
  rw [List.mem_singleton.mp hl]
  refine ⟨⟨fun c hc => (List.not_mem_nil hc).elim,
    ⟨by decide +kernel, by decide +kernel, by decide +kernel, ?_⟩,
    by decide +kernel, by decide +kernel, ⟨by decide +kernel, ?_, by decide +kernel⟩,
    ⟨fun c hc => (List.not_mem_nil hc).elim, .inl rfl⟩⟩, by decide⟩
  · exact ⟨[113], rfl, List.cons_ne_nil 113 []⟩
  · intro c hc
    cases hc
    decide

/-- A file with the line is read as it should be in one piece. -/
theorem config_exact_iff_quit : ConfigExact [] (fun _ => 255) [quitLine] true [] :=
  (config_exact_iff [] (fun _ => 255) [quitLine] true [] quitLine_ok).mpr
    (neverCutOff_of_full quitLine_ok (fun _ => Nat.le_refl 255) (fun front c h => by
      have hlast := congrArg List.getLast? h
      rw [List.getLast?_concat] at hlast
      exact (Option.some.inj hlast).symm) [])

/-- Byte by byte it isn't, and in one piece without its newline neither. -/
theorem config_not_exact : LinesOk [] [quitLine] ∧ ¬ConfigExact [] (fun _ => 1) [quitLine] true [] ∧
    ¬ConfigExact [] (fun _ => 255) [quitLine] false [] := by
  refine ⟨quitLine_ok, ?_, ?_⟩
  · rintro ⟨binds, hreturns, -⟩
    have hdone : Returns (mpInputParseConfig [] (fun _ => .size 1) (fileText true [quitLine]) [])
        (0, []) := confLoop_done rfl
    cases hreturns.unique hdone
  · rintro ⟨binds, hreturns, -⟩
    have hdone : Returns (mpInputParseConfig [] (fun _ => .size 255) (fileText false [quitLine]) [])
        (0, []) := confLoop_next rfl (confLoop_done rfl)
    cases hreturns.unique hdone

end MPlayer
