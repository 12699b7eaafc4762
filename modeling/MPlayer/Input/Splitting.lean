import MPlayer.Input.CmdFd
import MPlayer.Lib.Fuel
import MPlayer.Lib.Run
import Mathlib.Data.List.TakeWhile

/-!
# Commands are the lines of the stream

`cmdLines` are the lines of a stream that fit into the buffer with their ends.  The
commands that `mp_input_read_cmd` returns are those of the bytes delivered, but for
the ones complete in the buffer, however the bytes arrive.

The buffer holds the end of the line in progress: all of it, or, when `drop` is set,
what came after the bytes dropped.  `lost` are the bytes dropped.
-/

namespace MPlayer

open Lib

/-! ## Specification -/

/-- `'\r'` or `'\n'`. -/
def isCmdEnd (b : UInt8) : Bool := b = 13 || b = 10

/-- The line and its end fit into the buffer, with a NUL behind them. -/
def cmdFits (line : List UInt8) : Bool := line.length + 1 ≤ mpCmdMaxSize - 1

/-- The lines that end in `bs`, the first one begun with `line`, without those that do
not fit. -/
def cmdLinesFrom (line bs : List UInt8) : List (List UInt8) :=
  (endedLines isCmdEnd line bs).filter cmdFits

/-- The commands in a stream. -/
def cmdLines (bs : List UInt8) : List (List UInt8) := cmdLinesFrom [] bs

theorem cmdLinesFrom_append (line as bs : List UInt8) :
    cmdLinesFrom line (as ++ bs) =
      cmdLinesFrom line as ++ cmdLinesFrom (openLine isCmdEnd line as) bs := by
  rw [cmdLinesFrom, endedLines_append, List.filter_append]
  rfl

/-- No end in `bs`. -/
def NoCmdEnd (bs : List UInt8) : Prop := ∀ b ∈ bs, isCmdEnd b = false

variable {line bs as : List UInt8} {e : UInt8}

theorem NoCmdEnd.cmdLines (h : NoCmdEnd bs) : cmdLinesFrom line bs = [] := by
  rw [cmdLinesFrom, endedLines_eq_nil.mpr h]
  rfl

theorem cmdLinesFrom_fits (has : NoCmdEnd as) (he : isCmdEnd e = true)
    (hfits : (line ++ as).length + 1 ≤ mpCmdMaxSize - 1) :
    cmdLinesFrom line (as ++ e :: bs) = (line ++ as) :: cmdLinesFrom [] bs := by
  rw [cmdLinesFrom, endedLines_split has he,
    List.filter_cons_of_pos (by simpa [cmdFits] using hfits)]
  rfl

theorem cmdLinesFrom_long (has : NoCmdEnd as) (he : isCmdEnd e = true)
    (hlong : mpCmdMaxSize - 1 ≤ line.length) :
    cmdLinesFrom line (as ++ e :: bs) = cmdLinesFrom [] bs := by
  have hnot : ¬ cmdFits (line ++ as) = true := by
    rw [cmdFits, decide_eq_true_iff, List.length_append]
    omega
  rw [cmdLinesFrom, endedLines_split has he, List.filter_cons_of_neg hnot]
  rfl

/-! ## The end of a command -/

variable {s : List UInt8}

theorem strchr_eq (h : 0 ∉ s) (c : UInt8) : strchr s c = s.findIdx? fun b => b = c := by
  have hall : (s.takeWhile fun b => b ≠ 0) = s := by
    rw [List.takeWhile_eq_self_iff]
    intro b hb
    simpa using fun h0 : b = 0 => h (h0 ▸ hb)
  rw [strchr, hall]

theorem findIdx?_eq_none {c : UInt8} (h : ∀ b ∈ s, b ≠ c) :
    (s.findIdx? fun b => b = c) = none := by
  rw [List.findIdx?_eq_none_iff]
  intro b hb
  exact decide_eq_false (h b hb)

theorem NoCmdEnd.ne_cr (h : NoCmdEnd s) : ∀ b ∈ s, b ≠ 13 := by
  rintro b hb rfl
  cases h 13 hb

theorem NoCmdEnd.ne_lf (h : NoCmdEnd s) : ∀ b ∈ s, b ≠ 10 := by
  rintro b hb rfl
  cases h 10 hb

/-- Without an end, nothing is found and nothing changed. -/
theorem NoCmdEnd.find (h : NoCmdEnd s) (h0 : 0 ∉ s) : crToLf s = s ∧ strchr s 10 = none := by
  rw [crToLf, strchr_eq h0, strchr_eq h0, findIdx?_eq_none h.ne_cr]
  exact ⟨rfl, findIdx?_eq_none h.ne_lf⟩

/-- A CR made an LF. -/
theorem set_sameEnd : ∀ {s : List UInt8} {i : Nat}, (s.findIdx? fun b => b = 13) = some i →
    List.Forall₂ (SameEnd isCmdEnd) (s.set i 10) s
  | [], i, h => by cases h
  | b :: s, i, h => by
    rw [List.findIdx?_cons] at h
    split at h
    · rename_i hb
      cases h
      cases of_decide_eq_true hb
      exact .cons (Or.inr ⟨rfl, rfl⟩) (SameEnd.refl_list s)
    · obtain ⟨j, hj, rfl⟩ := Option.map_eq_some_iff.mp h
      exact .cons (Or.inl rfl) (set_sameEnd hj)

/-- The first end is found, and what follows it changed in an end at most. -/
theorem crToLf_split (has : NoCmdEnd as) (he : isCmdEnd e = true) (h0 : 0 ∉ as ++ e :: bs) :
    ∃ bs', crToLf (as ++ e :: bs) = as ++ 10 :: bs' ∧
      strchr (as ++ 10 :: bs') 10 = some as.length ∧ 0 ∉ bs' ∧
      List.Forall₂ (SameEnd isCmdEnd) bs' bs := by
  have hbs : 0 ∉ bs := fun hb => h0 (by simp [hb])
  have has0 : 0 ∉ as := fun ha => h0 (by simp [ha])
  have hfind : ∀ bs', 0 ∉ bs' → strchr (as ++ 10 :: bs') 10 = some as.length := by
    intro bs' hbs'
    rw [strchr_eq (by simp [has0, hbs']), List.findIdx?_append, findIdx?_eq_none has.ne_lf,
      List.findIdx?_cons]
    simp
  rw [crToLf, strchr_eq h0, List.findIdx?_append, findIdx?_eq_none has.ne_cr, List.findIdx?_cons]
  by_cases hcr : e = 13
  · refine ⟨bs, ?_, hfind bs hbs, hbs, SameEnd.refl_list bs⟩
    simp [hcr, List.set_append_right]
  · have hlf : e = 10 := by simpa [isCmdEnd, hcr] using he
    subst hlf
    cases hidx : bs.findIdx? fun b => b = 13 with
    | none => exact ⟨bs, by simp [hcr], hfind bs hbs, hbs, SameEnd.refl_list bs⟩
    | some i =>
      have hset : 0 ∉ bs.set i 10 := by
        intro hmem
        rcases List.mem_or_eq_of_mem_set hmem with hmem | hmem
        · exact hbs hmem
        · cases hmem
      refine ⟨bs.set i 10, ?_, hfind _ hset, hset, set_sameEnd hidx⟩
      simp [hcr, List.set_append_right]

/-! ## Taking a command -/

/-- The buffer `buf` of `fd`, in the middle of a line of which `lost` was dropped. -/
structure Carries (fd : MpInputFd) (lost buf : List UInt8) : Prop where
  buffer : fd.buffer.getD [] = buf
  size : fd.buffer = none ∨ fd.size = mpCmdMaxSize
  kept : fd.drop = false → lost = []
  dropped : fd.drop = true → mpCmdMaxSize - 1 ≤ lost.length
  got : fd.gotCmd = true ↔ ¬ NoCmdEnd buf
  whole : fd.gotCmd = true → fd.drop = false
  short : buf.length + 1 ≤ mpCmdMaxSize - 1
  clean : 0 ∉ buf

/-- The second loop led from `lost` and `buf` to those of `fd'`, with `out` the command
found. -/
structure Takes (fd : MpInputFd) (lost buf : List UInt8) (out : List (List UInt8))
    (fd' : MpInputFd) : Prop where
  carries : ∃ lost' buf', Carries fd' lost' buf' ∧
    cmdLinesFrom lost buf = out ++ cmdLinesFrom lost' buf' ∧
    openLine isCmdEnd lost buf = openLine isCmdEnd lost' buf'
  quiet : NoCmdEnd buf → fd'.gotCmd = false
  eof : fd'.eof = fd.eof
  dead : fd'.dead = fd.dead

variable {fd fd' : MpInputFd} {lost buf : List UInt8} {ret : Option (List UInt8)}

/-- A buffer with no end in it stays as it is. -/
theorem Carries.stored (hsize : fd.size = mpCmdMaxSize) (hgot : fd.gotCmd = false)
    (hkept : fd.drop = false → lost = [])
    (hdropped : fd.drop = true → mpCmdMaxSize - 1 ≤ lost.length)
    (hend : NoCmdEnd buf) (hshort : buf.length + 1 ≤ mpCmdMaxSize - 1) (h0 : 0 ∉ buf) :
    Carries { fd with buffer := some buf } lost buf := by
  have hnot : fd.gotCmd ≠ true := by rw [hgot]; exact Bool.false_ne_true
  exact ⟨rfl, Or.inr hsize, hkept, hdropped, ⟨fun h => absurd h hnot, fun h => absurd hend h⟩,
    fun h => absurd h hnot, hshort, h0⟩

/-- A full buffer is emptied, and what was in it dropped. -/
theorem Carries.emptied (hsize : fd.size = mpCmdMaxSize) (hgot : fd.gotCmd = false)
    (hdropped : mpCmdMaxSize - 1 ≤ lost.length) :
    Carries { fd with buffer := some [], drop := true } lost [] := by
  have hnot : fd.gotCmd ≠ true := by rw [hgot]; exact Bool.false_ne_true
  have hend : NoCmdEnd [] := fun b hb => absurd hb List.not_mem_nil
  exact ⟨rfl, Or.inr hsize, fun h => absurd h.symm Bool.false_ne_true, fun _ => hdropped,
    ⟨fun h => absurd h hnot, fun h => absurd hend h⟩, fun h => absurd h hnot, by decide,
    List.not_mem_nil⟩

/-- One command has been found: see whether there is another one. -/
theorem takeCmd_second (fd : MpInputFd) (text : List UInt8) (hsize : fd.size = mpCmdMaxSize)
    (hgot : fd.gotCmd = false) (hdrop : fd.drop = false) (h0 : 0 ∉ buf)
    (hshort : buf.length + 1 ≤ mpCmdMaxSize - 1) :
    ∃ fd', (∀ n, mpInputTakeCmd (n + 1) fd buf (some text) = some (fd', some text)) ∧
      Takes fd [] buf [] fd' := by
  have hroom : ¬ fd.size - buf.length ≤ 1 := by omega
  by_cases hend : NoCmdEnd buf
  · obtain ⟨hcr, hlf⟩ := hend.find h0
    refine ⟨{ fd with buffer := some buf }, ?_, ⟨⟨[], buf, ?_, rfl, rfl⟩, fun _ => hgot, rfl, rfl⟩⟩
    · intro n
      simp only [mpInputTakeCmd, hcr, hlf, if_neg hroom]
    · exact .stored hsize hgot (fun _ => rfl)
        (fun h => absurd (hdrop.symm.trans h) Bool.false_ne_true) hend hshort h0
  · obtain ⟨as, e, bs, rfl, he, has⟩ := exists_first_end hend
    obtain ⟨bs', hcr, hlf, h0', hsame⟩ := crToLf_split has he h0
    have hsame' : List.Forall₂ (SameEnd isCmdEnd) (as ++ 10 :: bs') (as ++ e :: bs) :=
      List.rel_append (SameEnd.refl_list as) (.cons (Or.inr ⟨rfl, he⟩) hsame)
    refine ⟨{ fd with buffer := some (as ++ 10 :: bs'), gotCmd := true }, ?_,
      ⟨⟨[], as ++ 10 :: bs', ?_, ?_, ?_⟩, fun h => absurd h hend, rfl, rfl⟩⟩
    · intro n
      simp only [mpInputTakeCmd, hcr, hlf, Option.isSome_some, if_true]
    · refine ⟨rfl, Or.inr hsize, fun _ => rfl,
        fun h => absurd (hdrop.symm.trans h) Bool.false_ne_true,
        ⟨fun _ h => ?_, fun _ => rfl⟩, fun _ => hdrop, ?_, ?_⟩
      · cases h 10 (by simp)
      · rw [hsame'.length_eq]
        exact hshort
      · simp only [List.mem_append, List.mem_cons, not_or] at h0 ⊢
        exact ⟨h0.1, by decide, h0'⟩
    · rw [List.nil_append, cmdLinesFrom, cmdLinesFrom, endedLines_congr hsame']
    · exact (openLine_congr hsame' []).symm

/-- No command has been found and there is none: the bytes are kept, or dropped if the buffer is
full. -/
theorem takeCmd_open (hsize : fd.size = mpCmdMaxSize) (hgot : fd.gotCmd = false)
    (hkept : fd.drop = false → lost = [])
    (hdropped : fd.drop = true → mpCmdMaxSize - 1 ≤ lost.length)
    (h0 : 0 ∉ buf) (hend : NoCmdEnd buf) :
    ∃ fd', (∀ n, mpInputTakeCmd (n + 1) fd buf none = some (fd', none)) ∧
      Takes fd lost buf [] fd' := by
  obtain ⟨hcr, hlf⟩ := hend.find h0
  by_cases hfull : fd.size - buf.length ≤ 1
  · refine ⟨{ fd with buffer := some [], drop := true }, ?_,
      ⟨⟨lost ++ buf, [], ?_, ?_, ?_⟩, fun _ => hgot, rfl, rfl⟩⟩
    · intro n
      simp only [mpInputTakeCmd, hcr, hlf, if_pos hfull]
    · refine .emptied hsize hgot ?_
      rw [List.length_append]
      omega
    · rw [hend.cmdLines]
      rfl
    · exact openLine_of_none hend
  · refine ⟨{ fd with buffer := some buf }, ?_,
      ⟨⟨lost, buf, ?_, rfl, rfl⟩, fun _ => hgot, rfl, rfl⟩⟩
    · intro n
      simp only [mpInputTakeCmd, hcr, hlf, if_neg hfull]
    · exact .stored hsize hgot hkept hdropped hend (by omega) h0

/-- Nothing was dropped: the first line in the buffer is a command. -/
theorem takeCmd_first (fd : MpInputFd) (hsize : fd.size = mpCmdMaxSize) (hgot : fd.gotCmd = false)
    (hdrop : fd.drop = false) (h0 : 0 ∉ buf) (hlen : buf.length ≤ mpCmdMaxSize - 1) :
    ∃ fd' ret, (∀ n, mpInputTakeCmd (n + 2) fd buf none = some (fd', ret)) ∧
      Takes fd [] buf ret.toList fd' ∧ (NoCmdEnd buf ∨ ret.isSome = true) := by
  by_cases hend : NoCmdEnd buf
  · obtain ⟨fd', htake, htakes⟩ := takeCmd_open hsize hgot (fun _ => rfl)
      (fun h => absurd (hdrop.symm.trans h) Bool.false_ne_true) h0 hend
    exact ⟨fd', none, fun n => htake (n + 1), htakes, Or.inl hend⟩
  · obtain ⟨as, e, bs, rfl, he, has⟩ := exists_first_end hend
    obtain ⟨bs', hcr, hlf, h0', hsame⟩ := crToLf_split has he h0
    rw [List.length_append, List.length_cons] at hlen
    have hlen' : bs'.length + 1 ≤ mpCmdMaxSize - 1 := by
      rw [hsame.length_eq]
      omega
    obtain ⟨fd', hsecond, ⟨⟨lost', buf', hcarries, hlines, hopen⟩, -, heof, hdead⟩⟩ :=
      takeCmd_second fd as hsize hgot hdrop h0' hlen'
    refine ⟨fd', some as, ?_,
      ⟨⟨lost', buf', hcarries, ?_, ?_⟩, fun h => absurd h hend, heof, hdead⟩,
      Or.inr rfl⟩
    · intro n
      rw [← hsecond n]
      simp [mpInputTakeCmd, hcr, hlf, hdrop]
    · rw [cmdLinesFrom_fits has he (by rw [List.nil_append]; omega),
        ← List.nil_append (cmdLinesFrom lost' _),
        ← hlines, cmdLinesFrom, cmdLinesFrom, endedLines_congr hsame]
      rfl
    · rw [openLine_split he, ← hopen, openLine_congr hsame]

/-- Some of the line was dropped: so is the rest. -/
theorem takeCmd_dropped (hsize : fd.size = mpCmdMaxSize) (hgot : fd.gotCmd = false)
    (hdrop : fd.drop = true) (hlost : mpCmdMaxSize - 1 ≤ lost.length) (h0 : 0 ∉ buf)
    (hlen : buf.length ≤ mpCmdMaxSize - 1) :
    ∃ fd' ret, (∀ n, mpInputTakeCmd (n + 3) fd buf none = some (fd', ret)) ∧
      Takes fd lost buf ret.toList fd' := by
  by_cases hend : NoCmdEnd buf
  · obtain ⟨fd', htake, htakes⟩ := takeCmd_open hsize hgot
      (fun h => absurd (h.symm.trans hdrop) Bool.false_ne_true) (fun _ => hlost) h0 hend
    exact ⟨fd', none, fun n => htake (n + 2), htakes⟩
  · obtain ⟨as, e, bs, rfl, he, has⟩ := exists_first_end hend
    obtain ⟨bs', hcr, hlf, h0', hsame⟩ := crToLf_split has he h0
    rw [List.length_append, List.length_cons] at hlen
    have hlen' : bs'.length ≤ mpCmdMaxSize - 1 := by
      rw [hsame.length_eq]
      omega
    obtain ⟨fd', ret, hfirst, ⟨⟨lost', buf', hcarries, hlines, hopen⟩, -, heof, hdead⟩, -⟩ :=
      takeCmd_first { fd with drop := false } hsize hgot rfl h0' hlen'
    refine ⟨fd', ret, ?_, ⟨⟨lost', buf', hcarries, ?_, ?_⟩, fun h => absurd h hend, heof, hdead⟩⟩
    · intro n
      rw [← hfirst n]
      simp [mpInputTakeCmd, hcr, hlf, hdrop]
    · rw [cmdLinesFrom_long has he hlost, ← hlines, cmdLinesFrom, cmdLinesFrom,
        endedLines_congr hsame]
    · rw [openLine_split he, ← hopen, openLine_congr hsame]

theorem takeCmd (fd : MpInputFd) (hsize : fd.size = mpCmdMaxSize) (hgot : fd.gotCmd = false)
    (hkept : fd.drop = false → lost = [])
    (hdropped : fd.drop = true → mpCmdMaxSize - 1 ≤ lost.length)
    (h0 : 0 ∉ buf) (hlen : buf.length ≤ mpCmdMaxSize - 1) :
    ∃ fd' ret, (∀ n, mpInputTakeCmd (n + 3) fd buf none = some (fd', ret)) ∧
      Takes fd lost buf ret.toList fd' := by
  cases hdrop : fd.drop with
  | false =>
    obtain ⟨fd', ret, htake, htakes, -⟩ := takeCmd_first fd hsize hgot hdrop h0 hlen
    rw [hkept hdrop]
    exact ⟨fd', ret, fun n => htake (n + 1), htakes⟩
  | true => exact takeCmd_dropped hsize hgot hdrop (hdropped hdrop) h0 hlen

end MPlayer
