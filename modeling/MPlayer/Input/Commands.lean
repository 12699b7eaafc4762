import MPlayer.Input.Splitting

/-!
# No command is lost

A run delivers a stream to a command fd, in pieces and with calls that bring nothing
between them, and takes a command at most at each call.  The commands taken and those
complete in the buffer are the lines of the bytes delivered.  When `read_events`
removes the fd, none is left in the buffer.
-/

namespace MPlayer

open Lib

variable {fd fd' : MpInputFd} {lost buf delivered : List UInt8} {commands : List (List UInt8)}
  {reads rest : List CmdRead}

/-! ## Reading -/

/-- The bytes of an answer. -/
def CmdRead.bytes : CmdRead → List UInt8
  | data bytes => bytes
  | _ => []

/-- An answer that brings as many bytes as there is room for, at most, and no NUL. -/
def CmdRead.Allowed (room : Nat) : CmdRead → Prop
  | data bytes => bytes ≠ [] ∧ bytes.length ≤ room ∧ 0 ∉ bytes
  | _ => True

/-- The bytes that the answers bring. -/
def cmdData (reads : List CmdRead) : List UInt8 := reads.flatMap CmdRead.bytes

/-- What the first loop does with the answers `used`. -/
inductive ReadsData (fd : MpInputFd) (buf : List UInt8) (used : List CmdRead) :
    Option CmdResult → MpInputFd → Prop where
  | skip : fd.gotCmd = true ∨ fd.eof = true → used = [] → ReadsData fd buf used none fd
  | early {result : CmdResult} : fd.gotCmd = false → result.text = [] → cmdData used = [] →
      ReadsData fd buf used (some result) fd
  | eof : fd.gotCmd = false → cmdData used = [] →
      ReadsData fd buf used none { fd with eof := true }
  | data : fd.gotCmd = false → fd.eof = false → (buf ++ cmdData used).length ≤ mpCmdMaxSize - 1 →
      0 ∉ cmdData used →
      ReadsData fd buf used none { fd with buffer := some (buf ++ cmdData used) }

theorem ReadsData.retry {used : List CmdRead} {early : Option CmdResult}
    (hread : fd.gotCmd = false ∧ fd.eof = false) (h : ReadsData fd buf used early fd') :
    ReadsData fd buf (.retry :: used) early fd' := by
  cases h with
  | skip hskip _ =>
    rw [hread.1, hread.2] at hskip
    cases hskip with
    | inl h => cases h
    | inr h => cases h
  | early hgot htext hdata => exact .early hgot htext hdata
  | eof hgot hdata => exact .eof hgot hdata
  | data hgot heof hlen h0 =>
    have hdata : ReadsData fd buf (.retry :: used) none
        { fd with buffer := some (buf ++ cmdData (.retry :: used)) } := .data hgot heof hlen h0
    exact hdata

theorem wantsData_iff (hsize : fd.size = mpCmdMaxSize)
    (hshort : buf.length + 1 ≤ mpCmdMaxSize - 1) :
    fd.wantsData buf = true ↔ fd.gotCmd = false ∧ fd.eof = false := by
  have hroom : fd.size - buf.length > 1 := by omega
  simp [MpInputFd.wantsData, hroom]

theorem readData_reads {early : Option CmdResult} (hsize : fd.size = mpCmdMaxSize)
    (hshort : buf.length + 1 ≤ mpCmdMaxSize - 1) : ∀ {reads rest : List CmdRead},
    (∀ read ∈ reads, read.Allowed (mpCmdMaxSize - 1 - buf.length)) →
    mpInputReadData fd buf reads = some (early, fd', rest) →
    ∃ used, reads = used ++ rest ∧ ReadsData fd buf used early fd' := by
  intro reads rest hallowed hread
  by_cases hwants : fd.wantsData buf = true
  · obtain ⟨hgot, heof⟩ := (wantsData_iff hsize hshort).mp hwants
    induction reads with
    | nil =>
      rw [mpInputReadData.eq_def, if_pos hwants] at hread
      cases hread
    | cons read reads ih =>
      rw [mpInputReadData.eq_def, if_pos hwants] at hread
      cases read with
      | error =>
        cases hread
        exact ⟨[.error], rfl, .early hgot rfl rfl⟩
      | dead =>
        cases hread
        exact ⟨[.dead], rfl, .early hgot rfl rfl⟩
      | nothing =>
        cases hread
        exact ⟨[.nothing], rfl, .early hgot rfl rfl⟩
      | eof =>
        cases hread
        exact ⟨[.eof], rfl, .eof hgot rfl⟩
      | retry =>
        obtain ⟨used, hused, hreads⟩ :=
          ih (fun r hr => hallowed r (List.mem_cons_of_mem _ hr)) hread
        exact ⟨.retry :: used, by rw [hused, List.cons_append], hreads.retry ⟨hgot, heof⟩⟩
      | data bytes =>
        cases hread
        obtain ⟨-, hlen, h0⟩ := hallowed (.data bytes) List.mem_cons_self
        have hbytes : cmdData [.data bytes] = bytes := List.append_nil bytes
        have hdata : ReadsData fd buf [.data bytes] none
            { fd with buffer := some (buf ++ cmdData [.data bytes]) } := by
          refine .data hgot heof ?_ ?_
          · rw [hbytes, List.length_append]
            omega
          · rwa [hbytes]
        rw [hbytes] at hdata
        exact ⟨[.data bytes], rfl, hdata⟩
  · rw [mpInputReadData.eq_def, if_neg hwants] at hread
    cases hread
    refine ⟨[], rfl, .skip ?_ rfl⟩
    rw [wantsData_iff hsize hshort, not_and_or, Bool.not_eq_false, Bool.not_eq_false] at hwants
    exact hwants

/-- If an answer is not to try again, the loop ends. -/
theorem readData_returns (fd : MpInputFd) (buf : List UInt8) :
    ∀ {reads : List CmdRead}, (∃ read ∈ reads, read ≠ .retry) →
    ∃ r, mpInputReadData fd buf reads = some r := by
  intro reads
  induction reads with
  | nil => exact fun ⟨_, hr, _⟩ => absurd hr List.not_mem_nil
  | cons read reads ih =>
    intro hend
    rw [mpInputReadData.eq_def]
    split
    · cases read with
      | retry =>
        obtain ⟨r, hr, hne⟩ := hend
        rcases List.mem_cons.mp hr with rfl | hr
        · exact absurd rfl hne
        · exact ih ⟨r, hr, hne⟩
      | _ => exact ⟨_, rfl⟩
    · exact ⟨_, rfl⟩

/-! ## The invariant -/

/-- The commands taken and the lines in the buffer are those of the bytes delivered. -/
def CmdFdInv (delivered : List UInt8) (commands : List (List UInt8)) (fd : MpInputFd) : Prop :=
  (fd.isRemoved = true → fd.gotCmd = false) ∧
    ∃ lost buf, Carries fd lost buf ∧ cmdLines delivered = commands ++ cmdLinesFrom lost buf ∧
      openLine isCmdEnd [] delivered = openLine isCmdEnd lost buf

theorem NoCmdEnd.nil : NoCmdEnd [] := fun _ hb => absurd hb List.not_mem_nil

theorem CmdFdInv.added (select : Bool) : CmdFdInv [] [] (mpInputAddCmdFd select) := by
  have hnot : (mpInputAddCmdFd select).gotCmd ≠ true := Bool.false_ne_true
  have hdrop : (mpInputAddCmdFd select).drop ≠ true := Bool.false_ne_true
  refine ⟨fun _ => rfl, [], [], ⟨rfl, Or.inl rfl, fun _ => rfl, fun h => absurd h hdrop, ?_,
    fun _ => rfl, by decide, List.not_mem_nil⟩, rfl, rfl⟩
  exact ⟨fun h => absurd h hnot, fun h => absurd NoCmdEnd.nil h⟩

/-- Whether there is a buffer makes no difference. -/
theorem Carries.alloc (h : Carries fd lost buf) :
    Carries (mpInputAlloc fd) lost buf ∧ (mpInputAlloc fd).buffer = some buf ∧
      (mpInputAlloc fd).size = mpCmdMaxSize := by
  have hbuffer := h.buffer
  have hsize := h.size
  rw [mpInputAlloc]
  cases hfd : fd.buffer with
  | none =>
    rw [hfd] at hbuffer
    cases hbuffer
    exact ⟨⟨rfl, Or.inr rfl, h.kept, h.dropped, h.got, h.whole, h.short, h.clean⟩, rfl, rfl⟩
  | some b =>
    rw [hfd] at hbuffer hsize
    cases hbuffer
    exact ⟨h, hfd, hsize.resolve_left fun hnone => by cases hnone⟩

theorem mpInputAlloc_flags (fd : MpInputFd) : (mpInputAlloc fd).eof = fd.eof ∧
    (mpInputAlloc fd).dead = fd.dead ∧ (mpInputAlloc fd).gotCmd = fd.gotCmd := by
  rw [mpInputAlloc]
  split <;> exact ⟨rfl, rfl, rfl⟩

theorem Carries.noCmdEnd (h : Carries fd lost buf) (hgot : fd.gotCmd = false) : NoCmdEnd buf := by
  by_contra hend
  exact absurd (hgot.symm.trans (h.got.mpr hend)) Bool.false_ne_true

/-- The lines after more bytes were put into the buffer. -/
theorem cmdLines_deliver (bytes : List UInt8)
    (hlines : cmdLines delivered = commands ++ cmdLinesFrom lost buf)
    (hopen : openLine isCmdEnd [] delivered = openLine isCmdEnd lost buf) :
    cmdLines (delivered ++ bytes) = commands ++ cmdLinesFrom lost (buf ++ bytes) ∧
      openLine isCmdEnd [] (delivered ++ bytes) = openLine isCmdEnd lost (buf ++ bytes) := by
  constructor
  · rw [cmdLines, cmdLinesFrom_append, hopen, cmdLinesFrom_append, ← List.append_assoc, ← hlines]
    rfl
  · rw [openLine_append, openLine_append, hopen]

/-- `bytes` were put into the buffer of a fd that is not dead. -/
structure Loaded (lost buf bytes : List UInt8) (fd : MpInputFd) : Prop where
  buffer : fd.buffer = some (buf ++ bytes)
  size : fd.size = mpCmdMaxSize
  dead : fd.dead = false
  kept : fd.drop = false → lost = []
  dropped : fd.drop = true → mpCmdMaxSize - 1 ≤ lost.length
  len : (buf ++ bytes).length ≤ mpCmdMaxSize - 1
  clean : 0 ∉ buf ++ bytes
  quiet : fd.eof = true → NoCmdEnd (buf ++ bytes)

/-- The first loop loads the buffer, or the call returns. -/
theorem ReadsData.loaded {used : List CmdRead} (h : ReadsData fd buf used none fd')
    (hcarries : Carries fd lost buf) (hbuffer : fd.buffer = some buf)
    (hsize : fd.size = mpCmdMaxSize) (hdead : fd.dead = false)
    (heof : fd.eof = true → fd.gotCmd = false) : Loaded lost buf (cmdData used) fd' := by
  have hlen : buf.length ≤ mpCmdMaxSize - 1 := Nat.le_of_succ_le hcarries.short
  cases h with
  | skip hskip hnone =>
    subst hnone
    rw [cmdData, List.flatMap_nil]
    refine ⟨?_, hsize, hdead, hcarries.kept, hcarries.dropped, ?_, ?_, ?_⟩
    all_goals rw [List.append_nil]
    · exact hbuffer
    · exact hlen
    · exact hcarries.clean
    · exact fun h => hcarries.noCmdEnd (heof h)
  | eof hgot hnone =>
    rw [hnone]
    refine ⟨?_, hsize, hdead, hcarries.kept, hcarries.dropped, ?_, ?_, ?_⟩
    all_goals rw [List.append_nil]
    · exact hbuffer
    · exact hlen
    · exact hcarries.clean
    · exact fun _ => hcarries.noCmdEnd hgot
  | data hgot hfalse hlen' h0 =>
    refine ⟨rfl, hsize, hdead, hcarries.kept, hcarries.dropped, hlen', ?_, fun h => ?_⟩
    · exact fun hmem => (List.mem_append.mp hmem).elim hcarries.clean h0
    · exact absurd (hfalse.symm.trans h) Bool.false_ne_true

variable {n : Nat} {result : CmdResult}

theorem mpInputNextCmd_eq {ret : Option (List UInt8)} (hbuffer : fd.buffer = some buf)
    (htake : mpInputTakeCmd n { fd with gotCmd := false } buf none = some (fd', ret)) :
    mpInputNextCmd n fd = some (.ofRet ret, fd') := by
  have hget : fd.buffer.getD [] = buf := by rw [hbuffer, Option.getD_some]
  rw [mpInputNextCmd, hget, htake, Option.map_some]

theorem mpInputReadCmd_eq {fd₁ : MpInputFd} (hbuffer : (mpInputAlloc fd).buffer = some buf)
    (hdata : mpInputReadData (mpInputAlloc fd) buf reads = some (none, fd₁, rest))
    (hnext : mpInputNextCmd n fd₁ = some (result, fd')) :
    mpInputReadCmd n reads fd = some (result, fd', rest) := by
  have hget : (mpInputAlloc fd).buffer.getD [] = buf := by rw [hbuffer, Option.getD_some]
  rw [mpInputReadCmd, hget, hdata]
  simp only [Option.bind_some, hnext, Option.map_some]

theorem mpInputReadCmd_early {fd₁ : MpInputFd} (hbuffer : (mpInputAlloc fd).buffer = some buf)
    (hdata : mpInputReadData (mpInputAlloc fd) buf reads = some (some result, fd₁, rest)) :
    mpInputReadCmd n reads fd = some (result, fd₁, rest) := by
  have hget : (mpInputAlloc fd).buffer.getD [] = buf := by rw [hbuffer, Option.getD_some]
  rw [mpInputReadCmd, hget, hdata]
  rfl

/-- A command is taken out of the loaded buffer. -/
theorem Loaded.next {bytes : List UInt8} (h : Loaded lost buf bytes fd)
    (hlines : cmdLines delivered = commands ++ cmdLinesFrom lost buf)
    (hopen : openLine isCmdEnd [] delivered = openLine isCmdEnd lost buf) :
    ∃ result fd', (∀ n, mpInputNextCmd (n + 3) fd = some (result, fd')) ∧ result ≠ .dead ∧
      CmdFdInv (delivered ++ bytes) (commands ++ result.text) fd' := by
  obtain ⟨hlines', hopen'⟩ := cmdLines_deliver bytes hlines hopen
  obtain ⟨fd', ret, htake, htakes⟩ :=
    takeCmd { fd with gotCmd := false } h.size rfl h.kept h.dropped h.clean h.len
  obtain ⟨lost', buf', hcarries, hout, hline⟩ := htakes.carries
  have hinv : CmdFdInv (delivered ++ bytes) (commands ++ ret.toList) fd' := by
    refine ⟨fun hremoved => htakes.quiet ?_, lost', buf', hcarries, ?_, ?_⟩
    · rw [MpInputFd.isRemoved, htakes.dead, htakes.eof] at hremoved
      simp only [h.dead, Bool.false_or] at hremoved
      exact h.quiet hremoved
    · rw [hlines', hout, List.append_assoc]
    · rw [hopen', hline]
  refine ⟨.ofRet ret, fd', fun n => mpInputNextCmd_eq h.buffer (htake n), ?_, ?_⟩
  · cases ret with
    | none => exact fun h => by cases h
    | some text => exact fun h => by cases h
  · cases ret with
    | none => exact hinv
    | some text => exact hinv

/-! ## One call -/

/-- A fd that turns out to be dead. -/
theorem CmdFdInv.die (h : CmdFdInv delivered commands fd) (hgot : fd.gotCmd = false) :
    CmdFdInv delivered commands { fd with dead := true } := by
  obtain ⟨-, lost, buf, hc, hlines, hopen⟩ := h
  exact ⟨fun _ => hgot, lost, buf, ⟨hc.buffer, hc.size, hc.kept, hc.dropped, hc.got, hc.whole,
    hc.short, hc.clean⟩, hlines, hopen⟩

theorem CmdFdInv.readCmd (h : CmdFdInv delivered commands fd) (hdead : fd.dead = false)
    (hallowed : ∀ read ∈ reads, read.Allowed (mpCmdMaxSize - 1 - (fd.buffer.getD []).length))
    (hread : mpInputReadCmd (n + 3) reads fd = some (result, fd', rest)) :
    ∃ used, reads = used ++ rest ∧
      CmdFdInv (delivered ++ cmdData used) (commands ++ result.text) fd' ∧
      (result = .dead → fd'.gotCmd = false) := by
  obtain ⟨hremoved, lost, buf, hcarries, hlines, hopen⟩ := h
  rw [hcarries.buffer] at hallowed
  obtain ⟨hcarries₁, hbuffer₁, hsize₁⟩ := hcarries.alloc
  obtain ⟨heof₁, hdead₁, hgot₁⟩ := mpInputAlloc_flags fd
  have hquiet : (mpInputAlloc fd).eof = true → (mpInputAlloc fd).gotCmd = false := by
    rw [heof₁, hgot₁]
    intro heof
    exact hremoved (by rw [MpInputFd.isRemoved, heof, Bool.or_true])
  obtain ⟨⟨early, fd₂, reads₂⟩, hdata, hnext⟩ := Option.bind_eq_some_iff.mp hread
  rw [hbuffer₁] at hdata
  obtain ⟨used, hused, hreads⟩ := readData_reads hsize₁ hcarries.short hallowed hdata
  cases early with
  | some e =>
    cases hnext
    cases hreads with
    | early hgot htext hnone =>
      refine ⟨used, hused, ?_, fun _ => hgot⟩
      rw [hnone, htext, List.append_nil, List.append_nil]
      exact ⟨fun _ => hgot, lost, buf, hcarries₁, hlines, hopen⟩
  | none =>
    have hloaded := hreads.loaded hcarries₁ hbuffer₁ hsize₁ (hdead₁.trans hdead) hquiet
    obtain ⟨result', fd₃, hcmd, hne, hinv⟩ := hloaded.next hlines hopen
    simp only [hcmd n, Option.map_some, Option.some.injEq, Prod.mk.injEq] at hnext
    obtain ⟨rfl, rfl, rfl⟩ := hnext
    exact ⟨used, hused, hinv, fun h => absurd h hne⟩

theorem CmdFdInv.readEvents {isset : Bool} {out : List (List UInt8)}
    (h : CmdFdInv delivered commands fd) (hdead : fd.dead = false)
    (hallowed : ∀ read ∈ reads, read.Allowed (mpCmdMaxSize - 1 - (fd.buffer.getD []).length))
    (hread : readEventsCmdFd (n + 3) isset reads fd = some (out, fd', rest)) :
    ∃ used, reads = used ++ rest ∧ CmdFdInv (delivered ++ cmdData used) (commands ++ out) fd' := by
  rw [readEventsCmdFd] at hread
  split at hread
  · cases hread
    exact ⟨[], rfl, by rwa [cmdData, List.flatMap_nil, List.append_nil, List.append_nil]⟩
  · obtain ⟨⟨result, fd₁, rest₁⟩, hcmd, heq⟩ := Option.map_eq_some_iff.mp hread
    obtain ⟨used, hused, hinv, hgot⟩ := h.readCmd hdead hallowed hcmd
    cases heq
    refine ⟨used, hused, ?_⟩
    split
    · rename_i hresult
      exact hinv.die (hgot hresult)
    · exact hinv

/-! ## Runs -/

/-- A command fd in use, unless it is removed: the bytes delivered to it, and the
commands taken from it. -/
structure CmdFdRun where
  fd : Option MpInputFd
  delivered : List UInt8
  commands : List (List UInt8)

/-- What `read_events` does with the fd: read from it, with the answers of `select` and
of the `read_func`, or remove it. -/
inductive CmdFdCall where
  | read (isset : Bool) (reads : List CmdRead)
  | remove

/-- The answers that a call on `fd` may get. -/
def MpInputFd.MayGet (fd : MpInputFd) (reads : List CmdRead) : Prop :=
  ∀ read ∈ reads, read.Allowed (mpCmdMaxSize - 1 - (fd.buffer.getD []).length)

/-- A call that returns, and asks for as many answers as it is given, or the removal of
a fd that is at its end. -/
inductive CmdFdStep : CmdFdRun → CmdFdCall → CmdFdRun → Prop where
  | read {fd fd' : MpInputFd} {isset : Bool} {reads : List CmdRead} {delivered : List UInt8}
      {commands out : List (List UInt8)} : fd.dead = false → fd.MayGet reads →
      Returns (fun fuel => readEventsCmdFd fuel isset reads fd) (out, fd', []) →
      CmdFdStep ⟨some fd, delivered, commands⟩ (.read isset reads)
        ⟨some fd', delivered ++ cmdData reads, commands ++ out⟩
  | remove {fd : MpInputFd} {delivered : List UInt8} {commands : List (List UInt8)} :
      fd.isRemoved = true →
      CmdFdStep ⟨some fd, delivered, commands⟩ .remove ⟨none, delivered, commands⟩

/-- A fd just added. -/
def CmdFdRun.start (select : Bool) : CmdFdRun := ⟨some (mpInputAddCmdFd select), [], []⟩

/-- The invariant of a run. -/
def CmdFdRun.Inv : CmdFdRun → Prop
  | ⟨some fd, delivered, commands⟩ => CmdFdInv delivered commands fd
  | ⟨none, delivered, commands⟩ => commands = cmdLines delivered

/-- With one end in the buffer at most, `got_cmd` tells whether a command is left. -/
theorem CmdFdInv.pending (h : CmdFdInv delivered commands fd) :
    commands ++ cmdLines (fd.buffer.getD []) = cmdLines delivered ∧
      (fd.gotCmd = false → commands = cmdLines delivered) := by
  obtain ⟨-, lost, buf, hcarries, hlines, -⟩ := h
  rw [hcarries.buffer]
  cases hgot : fd.gotCmd with
  | false =>
    have hend := hcarries.noCmdEnd hgot
    rw [hend.cmdLines, List.append_nil] at hlines
    refine ⟨?_, fun _ => hlines.symm⟩
    rw [cmdLines, hend.cmdLines, List.append_nil, ← hlines]
  | true =>
    rw [hcarries.kept (hcarries.whole hgot)] at hlines
    exact ⟨hlines.symm, fun h => absurd h.symm Bool.false_ne_true⟩

theorem CmdFdRun.Inv.step {r r' : CmdFdRun} {call : CmdFdCall} (h : r.Inv)
    (hstep : CmdFdStep r call r') : r'.Inv := by
  cases hstep with
  | read hdead hallowed hreturns =>
    obtain ⟨n, hn⟩ := hreturns
    obtain ⟨used, hused, hinv⟩ :=
      CmdFdInv.readEvents h hdead hallowed (hn (n + 3) (Nat.le_add_right n 3))
    rw [List.append_nil] at hused
    rw [hused]
    exact hinv
  | remove hremoved => exact (CmdFdInv.pending h).2 (h.1 hremoved)

/-- A call returns, if one of the answers is not to try again, with a command at
most. -/
theorem CmdFdInv.returns (h : CmdFdInv delivered commands fd) (hdead : fd.dead = false)
    (isset : Bool) (hallowed : fd.MayGet reads) (hend : ∃ read ∈ reads, read ≠ .retry) :
    ∃ out fd' rest, Returns (fun fuel => readEventsCmdFd fuel isset reads fd) (out, fd', rest) ∧
      out.length ≤ 1 := by
  obtain ⟨hremoved, lost, buf, hcarries, hlines, hopen⟩ := h
  rw [MpInputFd.MayGet, hcarries.buffer] at hallowed
  obtain ⟨hcarries₁, hbuffer₁, hsize₁⟩ := hcarries.alloc
  obtain ⟨heof₁, hdead₁, hgot₁⟩ := mpInputAlloc_flags fd
  have hquiet : (mpInputAlloc fd).eof = true → (mpInputAlloc fd).gotCmd = false := by
    rw [heof₁, hgot₁]
    intro heof
    exact hremoved (by rw [MpInputFd.isRemoved, heof, Bool.or_true])
  obtain ⟨⟨early, fd₁, rest⟩, hdata⟩ := readData_returns (mpInputAlloc fd) buf hend
  obtain ⟨used, -, hreads⟩ := readData_reads hsize₁ hcarries.short hallowed hdata
  have hread : ∃ result fd', ∀ n, mpInputReadCmd (n + 3) reads fd = some (result, fd', rest) := by
    cases early with
    | some result => exact ⟨result, fd₁, fun n => mpInputReadCmd_early hbuffer₁ hdata⟩
    | none =>
      obtain ⟨result, fd', hnext, -⟩ := (hreads.loaded hcarries₁ hbuffer₁ hsize₁
        (hdead₁.trans hdead) hquiet).next hlines hopen
      exact ⟨result, fd', fun n => mpInputReadCmd_eq hbuffer₁ hdata (hnext n)⟩
  obtain ⟨result, fd', hread⟩ := hread
  by_cases hskip : (!fd.noSelect && !isset && !fd.gotCmd) = true
  · refine ⟨[], fd, reads, .of_forall 0 fun m _ => ?_, Nat.zero_le 1⟩
    rw [readEventsCmdFd, if_pos hskip]
  · refine ⟨result.text, if result = .dead then { fd' with dead := true } else fd', rest,
      .of_forall 3 fun m hm => ?_, ?_⟩
    · obtain ⟨n, rfl⟩ := Nat.exists_eq_add_of_le' hm
      rw [readEventsCmdFd, if_neg hskip, hread n, Option.map_some]
    · cases result with
      | cmd text => exact Nat.le_refl 1
      | nothing => exact Nat.zero_le 1
      | error => exact Nat.zero_le 1
      | dead => exact Nat.zero_le 1

/-! ## Commands -/

end MPlayer
