import MPlayer.Sub.ClosedCaptions
import Mathlib.Data.List.Basic

/-!
# Lines of closed captions

The back buffer never has more lines than there is room for, and the cursor is behind the text of
the last one (`Sound`).  In roll-up mode a carriage return scrolls the buffer, but not if it is
full, which it is if it was filled in roll-on mode (`captions_steady_iff`).
-/

namespace MPlayer

/-! ## Lines -/

/-- The text of a line ends behind `n` characters. -/
def LineWritten (line : List UInt8) (n : Nat) : Prop :=
  ∃ text : List UInt8, text.length = n ∧ (∀ c ∈ text, c ≠ 0) ∧
    line = text ++ List.replicate (ccMaxLineLength - n) 0

variable {line : List UInt8} {n : Nat}

theorem LineWritten.length (h : LineWritten line n) : (line.takeWhile (· ≠ 0)).length = n := by
  obtain ⟨text, rfl, hne, rfl⟩ := h
  have hall : ∀ c ∈ text, decide (c ≠ 0) = true := fun c hc => decide_eq_true (hne c hc)
  have hzeros : (List.replicate (ccMaxLineLength - text.length) (0 : UInt8)).takeWhile (· ≠ 0) =
    [] := by
    rw [List.takeWhile_replicate]
    rfl
  rw [List.takeWhile_append_of_pos hall, hzeros, List.append_nil]

theorem lineWritten_empty : LineWritten ClosedCaptions.emptyLine 0 :=
  ⟨[], rfl, fun _ hc => absurd hc List.not_mem_nil, rfl⟩

/-- A character behind the text. -/
theorem LineWritten.set (h : LineWritten line n) (hn : n < ccMaxLineLength) {c : UInt8}
    (hc : c ≠ 0) :
    LineWritten (line.set n c) (n + 1) := by
  obtain ⟨text, rfl, hne, rfl⟩ := h
  obtain ⟨room, hroom⟩ := Nat.exists_eq_add_of_lt hn
  refine ⟨text ++ [c], by rw [List.length_append, List.length_singleton], ?_, ?_⟩
  · intro b hb
    rcases List.mem_append.mp hb with hold | hnew
    · exact hne b hold
    · rwa [List.mem_singleton.mp hnew]
  · rw [show ccMaxLineLength - text.length = room + 1 by omega,
      show ccMaxLineLength - (text.length + 1) = room by omega, List.replicate_succ,
      List.set_append_right _ _ (Nat.le_refl _), Nat.sub_self, List.set_cons_zero,
        List.append_assoc,
      List.singleton_append]

/-! ## Buffers -/

namespace CcBuffer

/-- There is nothing behind the last line, and the cursor is behind its text. -/
structure Holds (buf : CcBuffer) (cursor : Nat) : Prop where
  lines : buf.lines ≤ subMaxText
  free : ∀ i, buf.lines ≤ i → i < subMaxText → buf.text i = none
  room : cursor < ccMaxLineLength
  last : 0 < buf.lines → ∀ line, buf.text (buf.lines - 1) = some line → LineWritten line cursor
  fresh : 0 < buf.lines → buf.text (buf.lines - 1) = none → cursor = 0

variable {buf : CcBuffer} {cursor : Nat}

theorem Holds.lastLength (h : buf.Holds cursor) (hpos : 0 < buf.lines) :
    buf.lastLength = cursor := by
  rw [CcBuffer.lastLength]
  split
  · next line hline => exact (h.last hpos line hline).length
  · next hnone => exact (h.fresh hpos hnone).symm

theorem Holds.lastLength_zero (h : buf.Holds cursor) (hzero : buf.lines = 0) :
    buf.lastLength = 0 := by
  have hnone : buf.text (buf.lines - 1) = none := h.free _ (by omega) (by rw [hzero]; decide)
  rw [CcBuffer.lastLength, hnone]

theorem Holds.cleared (hroom : cursor < ccMaxLineLength) (buf : CcBuffer) :
    buf.clear.Holds cursor where
  lines := Nat.zero_le _
  free := fun _ _ hi => if_pos hi
  room := hroom
  last := fun hpos => absurd hpos (Nat.lt_irrefl 0)
  fresh := fun hpos => absurd hpos (Nat.lt_irrefl 0)

theorem setLast_text (buf : CcBuffer) (line : List UInt8) :
    (buf.setLast line).text ((buf.setLast line).lines - 1) = some line :=
  Function.update_self _ _ _

/-- Another text for the last line. -/
theorem Holds.setLast (h : buf.Holds cursor) (hpos : 0 < buf.lines) (hn : n < ccMaxLineLength)
    (hline : LineWritten line n) : (buf.setLast line).Holds n where
  lines := h.lines
  free := by
    intro i hi hmax
    have hne : i ≠ buf.lines - 1 := by
      change buf.lines ≤ i at hi
      omega
    exact (Function.update_of_ne hne _ _).trans (h.free i hi hmax)
  room := hn
  last := by
    intro _ line' hline'
    rw [setLast_text] at hline'
    cases hline'
    exact hline
  fresh := by
    intro _ hnone
    rw [setLast_text] at hnone
    cases hnone

/-- A buffer whose last line is empty. -/
structure Emptied (buf : CcBuffer) : Prop where
  holds : buf.Holds 0
  pos : 0 < buf.lines
  last : buf.text (buf.lines - 1) = some ClosedCaptions.emptyLine

theorem Emptied.scrollOnce (h : buf.Emptied) (hmore : 1 < buf.lines) : buf.scrollOnce.Emptied := by
  have hlast : buf.scrollOnce.text (buf.scrollOnce.lines - 1) = some ClosedCaptions.emptyLine := by
    have hlt : buf.lines - 1 - 1 < buf.lines - 1 := by omega
    have hnext : buf.lines - 1 - 1 + 1 = buf.lines - 1 := by omega
    simp only [CcBuffer.scrollOnce, if_pos hlt, hnext]
    exact h.last
  have hlines := h.holds.lines
  refine ⟨⟨?_, ?_, h.holds.room, ?_, ?_⟩, ?_, hlast⟩
  · simp only [CcBuffer.scrollOnce]
    omega
  · intro i hi hmax
    simp only [CcBuffer.scrollOnce] at hi ⊢
    rw [if_neg (by omega)]
    split
    · rfl
    · exact h.holds.free i (by omega) hmax
  · intro _ line hline
    cases hlast.symm.trans hline
    exact lineWritten_empty
  · intro _ hnone
    cases hlast.symm.trans hnone
  · simp only [CcBuffer.scrollOnce]
    omega

/-- Scrolling leaves no more lines than are visible. -/
theorem Emptied.scrollLoop {ccLines : Nat} (hvisible : 0 < ccLines) (turns : Nat) (h : buf.Emptied)
    (hturns : buf.lines ≤ turns + ccLines) :
    (CcBuffer.scrollLoop ccLines turns buf).Emptied ∧
      (CcBuffer.scrollLoop ccLines turns buf).lines ≤ ccLines := by
  induction turns generalizing buf with
  | zero => exact ⟨h, by rw [CcBuffer.scrollLoop]; omega⟩
  | succ turns ih =>
    rw [CcBuffer.scrollLoop]
    split
    · next hmore =>
      refine ih (h.scrollOnce (by omega)) ?_
      simp only [CcBuffer.scrollOnce]
      omega
    · next hfew => exact ⟨h, Nat.not_lt.mp hfew⟩

end CcBuffer

namespace ClosedCaptions

variable {s : ClosedCaptions}

/-! ## Characters -/

/-- The back buffer holds what it should, and some rows are visible. -/
structure Fine (s : ClosedCaptions) : Prop where
  holds : s.bb.Holds s.cursorPos
  visible : 0 < s.ccLines
  few : s.ccLines < subMaxText

theorem firstLine_fine (h : s.Fine) : s.firstLine.Fine ∧ 0 < s.firstLine.bb.lines := by
  rw [firstLine]
  split
  · next hzero =>
    have hnone : s.bb.text 0 = none := h.holds.free 0 (Nat.le_of_eq hzero) (by decide)
    refine ⟨⟨⟨?_, ?_, ?_, ?_, fun _ _ => rfl⟩, h.visible, h.few⟩, Nat.one_pos⟩
    · exact Nat.one_le_iff_ne_zero.mpr (by decide)
    · exact fun i _ hmax => h.holds.free i (by rw [hzero]; exact Nat.zero_le i) hmax
    · exact Nat.zero_lt_succ _
    · intro _ line hline
      cases hnone.symm.trans hline
  · next hsome => exact ⟨h, Nat.pos_of_ne_zero hsome⟩

/-- The last line has memory. -/
structure Open (s : ClosedCaptions) : Prop where
  fine : s.Fine
  pos : 0 < s.bb.lines
  memory : ∃ line, s.bb.text (s.bb.lines - 1) = some line

theorem allocLine_open (h : s.Fine) (hpos : 0 < s.bb.lines) : s.allocLine.Open := by
  rw [allocLine]
  split
  · next line hline => exact ⟨h, hpos, line, hline⟩
  · have hroom : 0 < ccMaxLineLength := by decide
    exact ⟨⟨h.holds.setLast hpos hroom lineWritten_empty, h.visible, h.few⟩, hpos, _,
      CcBuffer.setLast_text _ _⟩

theorem Fine.opened (h : s.Fine) : s.firstLine.allocLine.Open :=
  allocLine_open (firstLine_fine h).1 (firstLine_fine h).2

/-- An open line is there already. -/
theorem Open.eq (h : s.Open) : s.firstLine.allocLine = s := by
  obtain ⟨line, hline⟩ := h.memory
  rw [firstLine, if_neg (Nat.ne_of_gt h.pos), allocLine, hline]

variable {c : UInt8} {data : UInt16}

theorem putChar_fine (h : s.Open) (hc : c ≠ 0) : (s.putChar c).Fine := by
  obtain ⟨line, hline⟩ := h.memory
  rw [putChar]
  split
  · exact h.fine
  · next hroom =>
    have hlt : s.cursorPos + 1 < ccMaxLineLength := by
      have hle := h.fine.holds.room
      omega
    have hwritten := (h.fine.holds.last h.pos line hline).set h.fine.holds.room hc
    rw [hline]
    exact ⟨h.fine.holds.setLast h.pos hlt hwritten, h.fine.visible, h.fine.few⟩

/-- A character of the text: neither the end of a line nor `'\n'`. -/
def IsChar (c : UInt8) : Prop := c ≠ 0 ∧ c ≠ newline

theorem IsChar.ite {p : Prop} [Decidable p] {c' : UInt8} (h : IsChar c) (h' : IsChar c') :
    IsChar (if p then c else c') := by
  split
  · exact h
  · exact h'

theorem chartbl_char (hc : c &&& 0x60 ≠ 0) : IsChar (chartbl c) := by
  have hchar : IsChar c := by
    constructor
    · rintro rfl
      exact hc (by decide)
    · rintro rfl
      exact hc (by decide)
  rw [chartbl]
  iterate 10 refine IsChar.ite ⟨by decide, by decide⟩ ?_
  exact hchar

theorem appendChar_fine (h : s.Fine) (hc : c &&& 0x60 ≠ 0) : (s.appendChar (chartbl c)).Fine := by
  obtain ⟨hzero, hnewline⟩ := chartbl_char hc
  rw [appendChar, if_neg hnewline]
  exact putChar_fine h.opened hzero

/-! ## Carriage returns -/

/-- A carriage return that does what it should. -/
structure Returned (s : ClosedCaptions) : Prop where
  pos : 0 < s.bb.lines
  few : s.ccMode = .rollUp → s.bb.lines ≤ s.ccLines
  empty : s.bb.lastLength = 0

/-- A new line, if there is room for it. -/
theorem newLine_returned (h : s.Open) (hcursor : 0 < s.cursorPos)
    (hroom : s.bb.lines < subMaxText) :
    s.newLine.Fine ∧ s.newLine.Returned := by
  have hnone : s.bb.text s.bb.lines = none := h.fine.holds.free _ (Nat.le_refl _) hroom
  have hnext : ({ s.bb with lines := s.bb.lines + 1 } : CcBuffer).Holds 0 := by
    refine ⟨hroom, ?_, by decide, ?_, fun _ _ => rfl⟩
    · exact fun i hi hmax => h.fine.holds.free i (Nat.le_of_succ_le hi) hmax
    · intro _ line hline
      cases hnone.symm.trans hline
  rw [newLine, if_pos ⟨hcursor, hroom⟩]
  dsimp only
  split
  · next hmode =>
    refine ⟨⟨hnext, h.fine.visible, h.fine.few⟩, Nat.succ_pos _, fun hup => ?_,
      hnext.lastLength (Nat.succ_pos _)⟩
    cases hmode.symm.trans hup
  · have hemptied : (({ s.bb with lines := s.bb.lines + 1 } :
      CcBuffer).setLast emptyLine).Emptied :=
      ⟨hnext.setLast (Nat.succ_pos _) (by decide) lineWritten_empty, Nat.succ_pos _,
        CcBuffer.setLast_text _ _⟩
    obtain ⟨hscrolled, hfew⟩ := hemptied.scrollLoop h.fine.visible _ (Nat.le_add_right _ _)
    exact ⟨⟨hscrolled.holds, h.fine.visible, h.fine.few⟩, hscrolled.pos, fun _ => hfew,
      hscrolled.holds.lastLength hscrolled.pos⟩

theorem newLine_same (h : ¬(0 < s.cursorPos ∧ s.bb.lines < subMaxText)) : s.newLine = s := if_neg h

/-- Behind a carriage return the last line is empty, or the buffer is full. -/
theorem appendNewline (h : s.Fine) : (s.appendChar newline).Fine ∧
    ((s.appendChar newline).bb.lines = subMaxText ∨ (s.appendChar newline).bb.lastLength = 0) := by
  have hopen := h.opened
  rw [appendChar, if_pos rfl]
  by_cases hnew : 0 < s.firstLine.allocLine.cursorPos ∧ s.firstLine.allocLine.bb.lines < subMaxText
  · obtain ⟨hfine, hreturned⟩ := newLine_returned hopen hnew.1 hnew.2
    exact ⟨hfine, .inr hreturned.empty⟩
  · rw [newLine_same hnew]
    refine ⟨hopen.fine, ?_⟩
    have hlength := hopen.fine.holds.lastLength hopen.pos
    have hlines := hopen.fine.holds.lines
    by_cases hfull : s.firstLine.allocLine.bb.lines < subMaxText
    · have hzero := not_and'.mp hnew hfull
      exact .inr (by omega)
    · exact .inl (by omega)

theorem newLine_same_mode (s : ClosedCaptions) :
    s.newLine.ccMode = s.ccMode ∧ s.newLine.ccLines = s.ccLines := by
  rw [newLine]
  split
  · dsimp only
    split
    · exact ⟨rfl, rfl⟩
    · exact ⟨rfl, rfl⟩
  · exact ⟨rfl, rfl⟩

/-- What a carriage return should leave. -/
def Scrolled (s : ClosedCaptions) : Prop :=
  s.bb.lines ≤ s.ccLines ∧ 0 < s.bb.lines ∧ s.bb.lastLength = 0

/-- Behind a text a carriage return does what it should, unless the buffer is full. -/
theorem appendNewline_iff (h : s.Fine) (htext : 0 < s.bb.lastLength) (hup : s.ccMode = .rollUp) :
    (s.appendChar newline).Scrolled ↔ s.bb.lines < subMaxText := by
  have hpos : 0 < s.bb.lines := by
    refine Nat.pos_of_ne_zero fun hzero => ?_
    have hnone := h.holds.lastLength_zero hzero
    omega
  have hcursor := h.holds.lastLength hpos
  have hopen : s.Open := by
    refine ⟨h, hpos, ?_⟩
    cases hline : s.bb.text (s.bb.lines - 1) with
    | some line => exact ⟨line, rfl⟩
    | none =>
      have hfresh := h.holds.fresh hpos hline
      omega
  rw [appendChar, if_pos rfl, hopen.eq]
  constructor
  · intro hscrolled
    refine Nat.not_le.mp fun hfull => ?_
    rw [newLine_same fun hnew => Nat.not_lt.mpr hfull hnew.2] at hscrolled
    have hfew := h.few
    have hscrolled := hscrolled.1
    omega
  · intro hroom
    obtain ⟨-, hreturned⟩ := newLine_returned hopen (by omega) hroom
    obtain ⟨hmode, -⟩ := newLine_same_mode s
    exact ⟨hreturned.few (hmode.trans hup), hreturned.pos, hreturned.empty⟩

/-! ## Codes -/

/-- A carriage return for some channel. -/
structure IsReturn (data : UInt16) : Prop where
  first : c1 data &&& 0xf7 = 0x14
  second : c2 data = 0x2d

instance (data : UInt16) : Decidable (IsReturn data) :=
  decidable_of_iff (c1 data &&& 0xf7 = 0x14 ∧ c2 data = 0x2d)
    ⟨fun h => ⟨h.1, h.2⟩, fun h => ⟨h.first, h.second⟩⟩

theorem IsReturn.not_char (h : IsReturn data) : c1 data &&& 0x60 = 0 := by
  calc c1 data &&& 0x60
      = c1 data &&& 0xf7 &&& 0x60 := by rw [UInt8.and_assoc]; rfl
    _ = 0 := by rw [h.first]; rfl

theorem IsReturn.control (h : IsReturn data) : c1 data &&& 0x10 ≠ 0 := by
  have hbit : c1 data &&& 0x10 = 0x10 := by
    calc c1 data &&& 0x10
        = c1 data &&& 0xf7 &&& 0x10 := by rw [UInt8.and_assoc]; rfl
      _ = 0x10 := by rw [h.first]; rfl
  rw [hbit]
  decide

theorem IsReturn.eq_append (h : IsReturn data) (s : ClosedCaptions) :
    s.control (c1 data &&& 0xf7) (c2 data) = s.appendChar newline := by
  rw [h.first, h.second]
  rfl

theorem command_fine (h : s.Fine) (c : UInt8) : (s.command c).Fine := by
  rw [command]
  split_ifs with hon hup
  · exact ⟨h.holds, h.visible, h.few⟩
  · have hrows : 0 < (c - 0x23).toNat ∧ (c - 0x23).toNat < subMaxText := by
      rcases hup with rfl | rfl | rfl
      all_goals decide
    exact ⟨h.holds, hrows.1, hrows.2⟩
  · exact ⟨h.holds, h.visible, h.few⟩
  · exact (appendNewline h).1
  · exact ⟨CcBuffer.Holds.cleared h.holds.room _, h.visible, h.few⟩
  · exact ⟨CcBuffer.Holds.cleared h.holds.room _, h.visible, h.few⟩
  · exact h

theorem control_fine (h : s.Fine) (c c' : UInt8) : (s.control c c').Fine := by
  rw [control]
  split_ifs
  · exact (appendNewline h).1
  · exact command_fine h c'
  · exact h

/-- Behind a carriage return the last line is empty, or the buffer is full, until
another code comes. -/
structure Good (s : ClosedCaptions) : Prop where
  fine : s.Fine
  returned : IsReturn s.lastcode → s.bb.lines = subMaxText ∨ s.bb.lastLength = 0

theorem init_good : init.Good where
  fine := ⟨⟨Nat.zero_le _, fun _ _ _ => rfl, by decide, fun hpos => absurd hpos (Nat.lt_irrefl 0),
    fun hpos => absurd hpos (Nat.lt_irrefl 0)⟩, by decide, by decide⟩
  returned := fun h => absurd h (by decide)

theorem Fine.coded (h : s.Fine) (hdata : ¬IsReturn data) :
    ({ s with lastcode := data } : ClosedCaptions).Good :=
  ⟨⟨h.holds, h.visible, h.few⟩, fun hreturn => absurd hreturn hdata⟩

/-- Each code keeps the buffer right. -/
theorem decode_good (h : s.Good) (selected : Int) (data : UInt16) :
    (s.decode selected data).Good := by
  rw [decode]
  split
  · next hchar =>
    have hdata : ¬IsReturn data := fun hreturn => hchar hreturn.not_char
    split
    · exact h
    · have hfirst := appendChar_fine h.fine hchar
      dsimp only
      split
      · next hsecond => exact (appendChar_fine hfirst hsecond).coded hdata
      · exact hfirst.coded hdata
  · split
    · dsimp only
      have hset : ({ s with channel := channelOf data } : ClosedCaptions).Fine :=
        ⟨h.fine.holds, h.fine.visible, h.fine.few⟩
      split
      · exact ⟨hset, h.returned⟩
      · by_cases hreturn : IsReturn data
        · split
          · rw [hreturn.eq_append]
            obtain ⟨hfine, hdone⟩ := appendNewline hset
            exact ⟨⟨hfine.holds, hfine.visible, hfine.few⟩, fun _ => hdone⟩
          · next hsame =>
            have heq : data = s.lastcode := not_not.mp hsame
            exact ⟨⟨h.fine.holds, h.fine.visible, h.fine.few⟩, fun _ => h.returned (heq ▸ hreturn)⟩
        · split
          · exact (control_fine hset _ _).coded hreturn
          · exact hset.coded hreturn
    · next hchar hcontrol => exact h.fine.coded fun hreturn => hcontrol hreturn.control

/-- What a carriage return of the selected channel does. -/
theorem decode_return (h : s.Good) {selected : Int} (hreturn : IsReturn data)
    (hchannel : channelOf data = selected % 2) (htext : 0 < s.bb.lastLength)
    (hup : s.ccMode = .rollUp) : (s.decode selected data).Scrolled ↔ s.bb.lines < subMaxText := by
  have hset : ({ s with channel := channelOf data } : ClosedCaptions).Fine :=
    ⟨h.fine.holds, h.fine.visible, h.fine.few⟩
  have hdecode : s.decode selected data = { (if data ≠ s.lastcode
      then ({ s with channel := channelOf data } : ClosedCaptions).appendChar newline
      else { s with channel := channelOf data }) with lastcode := data } := by
    rw [decode, if_neg (not_not.mpr hreturn.not_char), if_pos hreturn.control]
    dsimp only
    rw [if_neg (not_not.mpr hchannel), hreturn.eq_append]
  rw [hdecode]
  split
  · exact appendNewline_iff hset htext hup
  · next hsame =>
    have heq : data = s.lastcode := not_not.mp hsame
    have hfull : s.bb.lines = subMaxText :=
      (h.returned (heq ▸ hreturn)).resolve_right (Nat.ne_of_gt htext)
    have hfew := h.fine.few
    constructor
    · intro hscrolled
      have hle : s.bb.lines ≤ s.ccLines := hscrolled.1
      omega
    · intro hlt
      omega

/-! ## Runs -/

/-- The back buffer has no more lines than there is room for, and the cursor is behind the text of
the last one. -/
structure Sound (s : ClosedCaptions) : Prop where
  lines : s.bb.lines ≤ subMaxText
  cursor : 0 < s.bb.lines → s.cursorPos = s.bb.lastLength
  room : s.cursorPos ≤ ccMaxLineLength - 1

theorem Fine.sound (h : s.Fine) : s.Sound where
  lines := h.holds.lines
  cursor := fun hpos => (h.holds.lastLength hpos).symm
  room := Nat.le_sub_one_of_lt h.holds.room

/-- In roll-up mode a carriage return comes behind a text. -/
structure ReturnsUp (selected : Int) (data : UInt16) (s : ClosedCaptions) : Prop where
  code : IsReturn data
  channel : channelOf data = selected % 2
  text : 0 < s.bb.lastLength
  mode : s.ccMode = .rollUp

/-- The back buffer is sound all the time, and carriage returns in roll-up mode scroll it. -/
def Steady : List (Int × UInt16) → ClosedCaptions → Prop
  | [], s => s.Sound
  | (selected, data) :: codes, s =>
    s.Sound ∧ (ReturnsUp selected data s → (s.decode selected data).Scrolled) ∧
      Steady codes (s.decode selected data)

/-- In roll-up mode no carriage return comes when the back buffer is full. -/
def NeverFull : List (Int × UInt16) → ClosedCaptions → Prop
  | [], _ => True
  | (selected, data) :: codes, s =>
    (ReturnsUp selected data s → s.bb.lines < subMaxText) ∧ NeverFull codes (s.decode selected data)

instance (selected : Int) (data : UInt16) (s : ClosedCaptions) :
    Decidable (ReturnsUp selected data s) :=
  decidable_of_iff (IsReturn data ∧ channelOf data = selected % 2 ∧ 0 < s.bb.lastLength ∧
      s.ccMode = .rollUp)
    ⟨fun h => ⟨h.1, h.2.1, h.2.2.1, h.2.2.2⟩, fun h => ⟨h.code, h.channel, h.text, h.mode⟩⟩

instance decidableNeverFull : (codes : List (Int × UInt16)) → (s : ClosedCaptions) →
    Decidable (NeverFull codes s)
  | [], _ => inferInstanceAs (Decidable True)
  | (_, _) :: codes, _ =>
    have := decidableNeverFull codes
    inferInstanceAs (Decidable (_ ∧ _))

theorem steady_iff (codes : List (Int × UInt16)) (h : s.Good) :
    Steady codes s ↔ NeverFull codes s := by
  induction codes generalizing s with
  | nil => exact ⟨fun _ => trivial, fun _ => h.fine.sound⟩
  | cons code codes ih =>
    obtain ⟨selected, data⟩ := code
    have hrest := ih (decode_good h selected data)
    have hreturn : (ReturnsUp selected data s → (s.decode selected data).Scrolled) ↔
        (ReturnsUp selected data s → s.bb.lines < subMaxText) :=
      forall_congr' fun hup => decode_return h hup.code hup.channel hup.text hup.mode
    constructor
    · rintro ⟨-, hscrolls, hsteady⟩
      exact ⟨hreturn.mp hscrolls, hrest.mp hsteady⟩
    · rintro ⟨hroom, hfits⟩
      exact ⟨h.fine.sound, hreturn.mpr hroom, hrest.mpr hfits⟩

/-- The buffer is always sound, and carriage returns scroll it exactly if it isn't full
when they come. -/
theorem captions_steady_iff (codes : List (Int × UInt16)) :
    Steady codes init ↔ NeverFull codes init :=
  steady_iff codes init_good

/-- Twelve lines in roll-on mode, and then a carriage return in roll-up mode with two rows. -/
def fullCodes : List (Int × UInt16) :=
  (0, 0x2d14) :: (List.replicate 11 [(0, 0x0061), (0, 0x2d14)]).flatten ++
    [(0, 0x0061), (0, 0x2514), (0, 0x2d14)]

theorem captions_not_steady : ¬Steady fullCodes init := by
  have hfull : ¬NeverFull fullCodes init := by decide
  exact fun hsteady => hfull ((steady_iff fullCodes init_good).mp hsteady)

end ClosedCaptions

end MPlayer
