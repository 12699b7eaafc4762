import MPlayer.Input.ConfFile
import MPlayer.Lib.Window

/-!
# The lines of input.conf

A line is blank, a comment, or a key combination with a command.  What a file should do is to set
the command of each line in turn, so that a key combination has the command of its last line
(`findBind_bindLines`).

*The text to come.*  `Awaits` says what is still to be read, in the window and behind it: blanks and
lines, the rest of a comment, or the rest of a command.  What a reader may pass over leads from one
such text to another, and so does a whole key combination (`Awaits.key_name`) or command
(`Awaits.cmd_text`).
-/

namespace MPlayer

open Lib

/-! ## Lines -/

/-- A line without its newline. -/
inductive ConfLine where
  | blank (blanks : List UInt8)
  | comment (blanks text : List UInt8)
  | bind (blanks name sep cmd tail : List UInt8)

def ConfLine.text : ConfLine → List UInt8
  | .blank blanks => blanks
  | .comment blanks text => blanks ++ ascii '#' :: text
  | .bind blanks name sep cmd tail => blanks ++ (name ++ (sep ++ (cmd ++ tail)))

/-- Blanks of a line. -/
def LineBlanks (s : List UInt8) : Prop := ∀ c ∈ s, isSpaceChar c = true ∧ c ≠ 10

/-- A key combination of known keys. -/
structure KeyName (keyNames : List (Int × List UInt8)) (name : List UInt8) : Prop where
  chars : ∀ c ∈ name, isSpaceChar c = false ∧ c ≠ 0
  front : name.head? ≠ some (ascii '#')
  nonempty : name ≠ []
  known : ∃ keys, mpInputGetInputFromName keyNames name = some keys ∧ keys ≠ []

/-- A command. -/
structure CmdText (cmd : List UInt8) : Prop where
  chars : ∀ c ∈ cmd, isConfLineEnd c = false ∧ c ≠ 0
  front : ∀ c, cmd.head? = some c → c ≠ ascii ' ' ∧ c ≠ 9
  nonempty : cmd ≠ []

/-- What may stand behind a command: nothing, or a carriage return and blanks. -/
def LineTail (tail : List UInt8) : Prop := LineBlanks tail ∧ (tail = [] ∨ tail.head? = some 13)

/-- The parts of a line are what their names say. -/
def ConfLine.Ok (keyNames : List (Int × List UInt8)) : ConfLine → Prop
  | .blank blanks => LineBlanks blanks
  | .comment blanks text => LineBlanks blanks ∧ 10 ∉ text ∧ 0 ∉ text
  | .bind blanks name sep cmd tail =>
    LineBlanks blanks ∧ KeyName keyNames name ∧ sep ≠ [] ∧
      (∀ c ∈ sep, c = ascii ' ' ∨ c = 9) ∧ CmdText cmd ∧ LineTail tail

/-- A file's lines, none of them longer than 250 characters. -/
def LinesOk (keyNames : List (Int × List UInt8)) (lines : List ConfLine) : Prop :=
  ∀ l ∈ lines, l.Ok keyNames ∧ l.text.length ≤ 250

/-- A file of lines.  The last one is ended by a newline or not. -/
def fileText (ended : Bool) : List ConfLine → List UInt8
  | [] => []
  | l :: ls => l.text ++ if ls = [] ∧ ended = false then [] else 10 :: fileText ended ls

/-- What stands behind the text of a line. -/
def linesEnd (ended : Bool) (ls : List ConfLine) : List UInt8 :=
  if ls = [] ∧ ended = false then [] else 10 :: fileText ended ls

theorem fileText_cons (ended : Bool) (l : ConfLine) (ls : List ConfLine) :
    fileText ended (l :: ls) = l.text ++ linesEnd ended ls := rfl

/-- The keys and the command of a line. -/
def ConfLine.binding (keyNames : List (Int × List UInt8)) : ConfLine →
    Option (List Int × List UInt8)
  | .bind _ name _ cmd _ => (mpInputGetInputFromName keyNames name).map (·, cmd)
  | _ => none

/-- The command of keys in a section. -/
def findBind (binds : CmdBinds) (section' : List UInt8) (keys : List Int) : Option (List UInt8) :=
  ((binds.find? fun s => s.1 = section').bind fun s => s.2.find? fun b => b.1 = keys).map Prod.snd

/-- The command that the last line for keys in a section gives. -/
def lastCommand (keyNames : List (Int × List UInt8)) (lines : List ConfLine)
    (section' : List UInt8) (keys : List Int) : Option (List UInt8) :=
  ((lines.filterMap (ConfLine.binding keyNames)).reverse.find? fun b =>
    (splitSection b.2).1 = section' ∧ b.1 = keys).map fun b => (splitSection b.2).2

/-- The bindings when the commands of the lines have been set in turn. -/
def bindLines (keyNames : List (Int × List UInt8)) (lines : List ConfLine) (binds : CmdBinds) :
    CmdBinds :=
  (lines.filterMap (ConfLine.binding keyNames)).foldl (fun binds b => mpInputBindKeys b.1 b.2 binds)
    binds

/-! ## The bindings -/

theorem find_setBind (keys keys' : List Int) (cmd : List UInt8)
    (bs : List (List Int × List UInt8)) :
    (setBind keys cmd bs).find? (fun b => b.1 = keys') =
      if keys = keys' then some (keys, cmd) else bs.find? fun b => b.1 = keys' := by
  induction bs with
  | nil => by_cases h : keys = keys' <;> simp [setBind, h]
  | cons b bs ih =>
    by_cases hb : b.1 = keys
    · by_cases h : keys = keys'
      · simp [setBind, hb, h]
      · simp [setBind, hb, h]
    · by_cases h : keys = keys'
      · subst h
        simp [setBind, hb, ih]
      · by_cases hb' : b.1 = keys'
        · simp only [setBind, if_neg hb, if_neg h]
          rw [List.find?_cons_of_pos (by simpa using hb'),
            List.find?_cons_of_pos (by simpa using hb')]
        · simp [setBind, hb, h, hb', ih]

theorem findBind_inSection (name section' : List UInt8)
    (f : List (List Int × List UInt8) → List (List Int × List UInt8)) (binds : CmdBinds)
    (keys : List Int) :
    findBind (inSection name f binds) section' keys =
      if name = section' then
        ((f (((binds.find? fun s => s.1 = name).map Prod.snd).getD [])).find?
          fun b => b.1 = keys).map Prod.snd
      else findBind binds section' keys := by
  induction binds with
  | nil =>
    by_cases h : name = section'
    · simp [inSection, findBind, h]
    · simp [inSection, findBind, h]
  | cons s ss ih =>
    by_cases hs : s.1 = name
    · by_cases h : name = section'
      · simp [inSection, findBind, hs, h]
      · simp [inSection, findBind, hs, h]
    · by_cases hs' : s.1 = section'
      · have h : name ≠ section' := fun h => hs (hs'.trans h.symm)
        simp only [inSection, if_neg hs, if_neg h, findBind]
        rw [List.find?_cons_of_pos (by simpa using hs'),
          List.find?_cons_of_pos (by simpa using hs')]
      · simp only [inSection, if_neg hs]
        rw [findBind, List.find?_cons_of_neg (by simpa using hs'), ← findBind, ih,
          List.find?_cons_of_neg (by simpa using hs)]
        rw [findBind, findBind, List.find?_cons_of_neg (by simpa using hs')]

/-- A bound command is found under its keys in its section, and nothing else changes. -/
theorem findBind_bindKeys (keys keys' : List Int) (cmd section' : List UInt8) (binds : CmdBinds) :
    findBind (mpInputBindKeys keys cmd binds) section' keys' =
      if (splitSection cmd).1 = section' ∧ keys = keys' then some (splitSection cmd).2
      else findBind binds section' keys' := by
  rw [mpInputBindKeys, findBind_inSection]
  by_cases hsection : (splitSection cmd).1 = section'
  · rw [if_pos hsection, find_setBind]
    by_cases hkeys : keys = keys'
    · simp [hsection, hkeys]
    · rw [if_neg hkeys, if_neg fun h => hkeys h.2, findBind, hsection]
      cases binds.find? fun s => s.1 = section' with
      | none => rfl
      | some s => rfl
  · rw [if_neg hsection, if_neg fun h => hsection h.1]

/-- Keys have the command of their last line. -/
theorem findBind_bindLines (keyNames : List (Int × List UInt8)) (lines : List ConfLine)
    (binds : CmdBinds) (section' : List UInt8) (keys : List Int) :
    findBind (bindLines keyNames lines binds) section' keys =
      (lastCommand keyNames lines section' keys).or (findBind binds section' keys) := by
  rw [bindLines, lastCommand]
  generalize lines.filterMap (ConfLine.binding keyNames) = bs
  induction bs generalizing binds with
  | nil => simp
  | cons b bs ih =>
    rw [List.foldl_cons, ih, findBind_bindKeys, List.reverse_cons, List.find?_append]
    cases hfind : bs.reverse.find? fun b =>
        decide ((splitSection b.2).1 = section' ∧ b.1 = keys) with
    | some c => simp
    | none =>
      by_cases h : (splitSection b.2).1 = section' ∧ b.1 = keys
      · simp [h.1, h.2]
      · simp [h]

/-! ## The text to come -/

variable {keyNames : List (Int × List UInt8)}

/-- What is still to be read of a file, and the bindings there will be at its end. -/
inductive Awaits (keyNames : List (Int × List UInt8)) :
    Bool → List Int → List UInt8 → CmdBinds → CmdBinds → Prop where
  | keys {blanks : List UInt8} {lines : List ConfLine} {ended : Bool} {binds : CmdBinds}
      (hblanks : ∀ c ∈ blanks, isSpaceChar c = true) (hlines : LinesOk keyNames lines) :
      Awaits keyNames false [] (blanks ++ fileText ended lines) binds
        (bindLines keyNames lines binds)
  | comment {text blanks : List UInt8} {lines : List ConfLine} {ended : Bool} {binds : CmdBinds}
      (htext : 10 ∉ text) (hzero : 0 ∉ text) (hblanks : ∀ c ∈ blanks, isSpaceChar c = true)
      (hlines : LinesOk keyNames lines) :
      Awaits keyNames true [] (text ++ 10 :: (blanks ++ fileText ended lines)) binds
        (bindLines keyNames lines binds)
  | lastComment {text : List UInt8} {binds : CmdBinds} (htext : 10 ∉ text) (hzero : 0 ∉ text) :
      Awaits keyNames true [] text binds binds
  | command {keys : List Int} {sep cmd tail : List UInt8} {lines : List ConfLine} {ended : Bool}
      {binds : CmdBinds} (hkeys : keys ≠ []) (hsep : ∀ c ∈ sep, c = ascii ' ' ∨ c = 9)
      (hcmd : CmdText cmd) (htail : LineTail tail)
      (hlength : (sep ++ (cmd ++ tail)).length ≤ 250) (hlines : LinesOk keyNames lines) :
      Awaits keyNames false keys (sep ++ (cmd ++ (tail ++ linesEnd ended lines))) binds
        (bindLines keyNames lines (mpInputBindKeys keys cmd binds))

theorem no_blanks : ∀ c ∈ ([] : List UInt8), isSpaceChar c = true :=
  fun _ hc => (List.not_mem_nil hc).elim

theorem LinesOk.tail {l : ConfLine} {ls : List ConfLine} (h : LinesOk keyNames (l :: ls)) :
    LinesOk keyNames ls := fun l' hl' => h l' (List.mem_cons_of_mem l hl')

theorem lineEnd_cases (ended : Bool) (ls : List ConfLine) :
    (ls = [] ∧ linesEnd ended ls = []) ∨ linesEnd ended ls = 10 :: fileText ended ls := by
  rw [linesEnd]
  split
  case isTrue h => exact .inl ⟨h.1, rfl⟩
  case isFalse => exact .inr rfl

/-- A file that doesn't begin with blanks. -/
inductive Flush : List ConfLine → Prop where
  | nil : Flush []
  | comment (text : List UInt8) (ls : List ConfLine) : Flush (.comment [] text :: ls)
  | bind (name sep cmd tail : List UInt8) (ls : List ConfLine) :
      Flush (.bind [] name sep cmd tail :: ls)

/-- Blanks and lines are blanks and lines that don't begin with more of them. -/
theorem exists_flush (ended : Bool) (binds : CmdBinds) : ∀ {lines : List ConfLine}
    {blanks : List UInt8}, (∀ c ∈ blanks, isSpaceChar c = true) → LinesOk keyNames lines →
    ∃ blanks' lines', Flush lines' ∧ LinesOk keyNames lines' ∧
      (∀ c ∈ blanks', isSpaceChar c = true) ∧
      blanks ++ fileText ended lines = blanks' ++ fileText ended lines' ∧
      bindLines keyNames lines' binds = bindLines keyNames lines binds
  | [], blanks, hblanks, hlines => ⟨blanks, [], .nil, hlines, hblanks, rfl, rfl⟩
  | .blank b :: ls, blanks, hblanks, hlines => by
    have hb : ∀ c ∈ blanks ++ b, isSpaceChar c = true := fun c hc =>
      (List.mem_append.mp hc).elim (hblanks c) fun hc => ((hlines _ List.mem_cons_self).1 c hc).1
    cases lineEnd_cases ended ls with
    | inl h =>
      refine ⟨blanks ++ b, [], .nil, fun l hl => (List.not_mem_nil hl).elim, hb, ?_, ?_⟩
      · rw [fileText_cons, h.2, List.append_nil]
        exact (List.append_nil _).symm
      · rw [h.1]
        rfl
    | inr h =>
      obtain ⟨blanks', lines', hflush, hlines', hblanks', heq, hbind⟩ :=
        exists_flush ended binds (show ∀ c ∈ blanks ++ b ++ [10], isSpaceChar c = true by
          intro c hc
          cases List.mem_append.mp hc with
          | inl hc => exact hb c hc
          | inr hc => rw [List.mem_singleton.mp hc]; rfl) hlines.tail
      refine ⟨blanks', lines', hflush, hlines', hblanks', ?_, hbind⟩
      rw [fileText_cons, h, ← heq]
      simp [ConfLine.text]
  | .comment b text :: ls, blanks, hblanks, hlines => by
    obtain ⟨⟨hb, htext⟩, hlength⟩ := hlines _ List.mem_cons_self
    refine ⟨blanks ++ b, .comment [] text :: ls, .comment text ls, fun l hl => ?_,
      fun c hc => ?_, ?_, rfl⟩
    · cases List.mem_cons.mp hl with
      | inl hl =>
        rw [hl]
        refine ⟨⟨fun c hc => (List.not_mem_nil hc).elim, htext⟩, ?_⟩
        exact Nat.le_trans (List.sublist_append_right b _).length_le hlength
      | inr hl => exact hlines.tail l hl
    · exact (List.mem_append.mp hc).elim (hblanks c) fun hc => (hb c hc).1
    · simp [fileText_cons, ConfLine.text]
  | .bind b name sep cmd tail :: ls, blanks, hblanks, hlines => by
    obtain ⟨⟨hb, hline⟩, hlength⟩ := hlines _ List.mem_cons_self
    refine ⟨blanks ++ b, .bind [] name sep cmd tail :: ls, .bind name sep cmd tail ls,
      fun l hl => ?_, fun c hc => ?_, ?_, rfl⟩
    · cases List.mem_cons.mp hl with
      | inl hl =>
        rw [hl]
        refine ⟨⟨fun c hc => (List.not_mem_nil hc).elim, hline⟩, ?_⟩
        exact Nat.le_trans (List.sublist_append_right b _).length_le hlength
      | inr hl => exact hlines.tail l hl
    · exact (List.mem_append.mp hc).elim (hblanks c) fun hc => (hb c hc).1
    · simp [fileText_cons, ConfLine.text]

variable {text : List UInt8} {binds final : CmdBinds} {c : UInt8} {keys : List Int}

/-- Where a key combination may begin, the text is blanks and lines that don't begin with more. -/
theorem Awaits.front (h : Awaits keyNames false [] text binds final) :
    ∃ blanks lines ended, Flush lines ∧ LinesOk keyNames lines ∧
      (∀ c ∈ blanks, isSpaceChar c = true) ∧ text = blanks ++ fileText ended lines ∧
      bindLines keyNames lines binds = final := by
  cases h with
  | @keys blanks lines ended _ hblanks hlines =>
    obtain ⟨blanks', lines', hflush, hlines', hblanks', heq, hbind⟩ :=
      exists_flush ended binds hblanks hlines
    exact ⟨blanks', lines', ended, hflush, hlines', hblanks', heq, hbind⟩
  | command hkeys => exact absurd rfl hkeys

/-- A line's text that isn't blank begins with no blank. -/
theorem Flush.head {lines : List ConfLine} (h : Flush lines) (hlines : LinesOk keyNames lines)
    (ended : Bool) : ∀ c, (fileText ended lines).head? = some c → isSpaceChar c = false := by
  intro c hc
  cases h with
  | nil => cases hc
  | comment text ls =>
    cases hc
    rfl
  | bind name sep cmd tail ls =>
    obtain ⟨⟨-, hname, -⟩, -⟩ := hlines _ List.mem_cons_self
    cases name with
    | nil => exact absurd rfl hname.nonempty
    | cons n ns =>
      cases hc
      exact (hname.chars c List.mem_cons_self).1

/-- Behind blanks of a line the next lines are awaited. -/
theorem Awaits.blanks_lineEnd {blanks : List UInt8} {lines : List ConfLine}
    (hblanks : ∀ c ∈ blanks, isSpaceChar c = true) (hlines : LinesOk keyNames lines)
    (ended : Bool) (binds : CmdBinds) :
    Awaits keyNames false [] (blanks ++ linesEnd ended lines) binds
      (bindLines keyNames lines binds) := by
  cases lineEnd_cases ended lines with
  | inl h =>
    obtain ⟨rfl, h⟩ := h
    rw [h]
    exact @Awaits.keys _ blanks [] true binds hblanks hlines
  | inr h =>
    rw [h, List.append_cons]
    refine .keys (fun c hc => ?_) hlines
    cases List.mem_append.mp hc with
    | inl hc => exact hblanks c hc
    | inr hc => rw [List.mem_singleton.mp hc]; rfl

/-- Behind a text without a newline the rest of a comment is awaited. -/
theorem Awaits.comment_lineEnd {lines : List ConfLine} (htext : 10 ∉ text) (hzero : 0 ∉ text)
    (hlines : LinesOk keyNames lines) (ended : Bool) (binds : CmdBinds) :
    Awaits keyNames true [] (text ++ linesEnd ended lines) binds
      (bindLines keyNames lines binds) := by
  cases lineEnd_cases ended lines with
  | inl h =>
    obtain ⟨rfl, h⟩ := h
    rw [h, List.append_nil]
    exact .lastComment htext hzero
  | inr h =>
    rw [h]
    exact .comment htext hzero no_blanks hlines

/-- A blank may be passed over where a key combination may begin. -/
theorem Awaits.drop_blank (h : Awaits keyNames false [] (c :: text) binds final)
    (hc : isSpaceChar c = true) : Awaits keyNames false [] text binds final := by
  obtain ⟨blanks, lines, ended, hflush, hlines, hblanks, heq, rfl⟩ := h.front
  cases blanks with
  | nil =>
    rw [List.nil_append] at heq
    have hhead := hflush.head hlines ended c (heq ▸ rfl)
    rw [hc] at hhead
    cases hhead
  | cons b bs =>
    have htext : text = bs ++ fileText ended lines := (List.cons.inj heq).2
    rw [htext]
    exact .keys (fun c hc => hblanks c (List.mem_cons_of_mem _ hc)) hlines

theorem Awaits.drop_blanks (window text : List UInt8)
    (h : Awaits keyNames false [] (window ++ text) binds final) :
    Awaits keyNames false [] (window.dropWhile isSpaceChar ++ text) binds final :=
  window_drop (P := (Awaits keyNames false [] · binds final)) (fun _ _ hc h => h.drop_blank hc)
    text window h

/-- What stands in a comment is passed over. -/
theorem Awaits.drop_comment (h : Awaits keyNames true [] (c :: text) binds final) (hc : c ≠ 10) :
    Awaits keyNames true [] text binds final := by
  generalize htext : c :: text = text' at h
  cases h with
  | @comment front blanks lines ended _ hend hzero hblanks hlines =>
    cases front with
    | nil => exact absurd (List.cons.inj htext).1 hc
    | cons d front =>
      rw [(List.cons.inj htext).2]
      exact .comment (fun h => hend (List.mem_cons_of_mem _ h))
        (fun h => hzero (List.mem_cons_of_mem _ h)) hblanks hlines
  | lastComment hend hzero =>
    subst htext
    exact .lastComment (fun h => hend (List.mem_cons_of_mem _ h))
      (fun h => hzero (List.mem_cons_of_mem _ h))

theorem Awaits.drop_comments (window text : List UInt8)
    (h : Awaits keyNames true [] (window ++ text) binds final) :
    Awaits keyNames true [] (window.dropWhile (· ≠ 10) ++ text) binds final :=
  window_drop (P := (Awaits keyNames true [] · binds final))
    (fun _ _ hc h => h.drop_comment (by simpa using hc)) text window h

/-- A comment ends at a newline. -/
theorem Awaits.end_comment (h : Awaits keyNames true [] (10 :: text) binds final) :
    Awaits keyNames false [] text binds final := by
  generalize htext : 10 :: text = text' at h
  cases h with
  | @comment front blanks lines ended _ hend hzero hblanks hlines =>
    cases front with
    | nil =>
      rw [(List.cons.inj htext).2]
      exact .keys hblanks hlines
    | cons d front => exact absurd ((List.cons.inj htext).1 ▸ List.mem_cons_self) hend
  | lastComment hend hzero => exact absurd (htext ▸ List.mem_cons_self) hend

/-- A blank in front of a command may be passed over. -/
theorem Awaits.drop_sep (h : Awaits keyNames false keys (c :: text) binds final)
    (hkeys : keys ≠ []) (hc : c = ascii ' ' ∨ c = 9) :
    Awaits keyNames false keys text binds final := by
  generalize htext : c :: text = text' at h
  cases h with
  | keys => exact absurd rfl hkeys
  | @command _ sep cmd tail lines ended _ _ hsep hcmd htail hlength hlines =>
    cases sep with
    | nil =>
      cases cmd with
      | nil => exact absurd rfl hcmd.nonempty
      | cons d cmd =>
        obtain ⟨rfl, -⟩ := List.cons.inj htext
        have hfront := hcmd.front c rfl
        exact absurd hc (not_or.mpr hfront)
    | cons d sep =>
      rw [(List.cons.inj htext).2]
      refine .command hkeys (fun c hc =>
        hsep c (List.mem_cons_of_mem _ hc)) hcmd htail ?_ hlines
      rw [List.cons_append, List.length_cons] at hlength
      omega

theorem Awaits.drop_seps (window text : List UInt8)
    (h : Awaits keyNames false keys (window ++ text) binds final) (hkeys : keys ≠ []) :
    Awaits keyNames false keys
      ((window.dropWhile fun c => c = ascii ' ' || c = 9) ++ text) binds final :=
  window_drop (P := (Awaits keyNames false keys · binds final))
    (fun _ _ hc h => h.drop_sep hkeys (by simpa using hc)) text window h

/-- Where a line begins with `#`, the rest of a comment is awaited. -/
theorem Awaits.hash (h : Awaits keyNames false [] text binds final)
    (hhash : (text.dropWhile isSpaceChar).head? = some (ascii '#')) :
    Awaits keyNames true [] text binds final := by
  obtain ⟨blanks, lines, ended, hflush, hlines, hblanks, rfl, rfl⟩ := h.front
  have hdrop : (blanks ++ fileText ended lines).dropWhile isSpaceChar = fileText ended lines := by
    rw [List.dropWhile_append_of_pos hblanks]
    cases htext : fileText ended lines with
    | nil => rfl
    | cons c cs =>
      rw [List.dropWhile_cons_of_neg]
      simpa using hflush.head hlines ended c (by rw [htext]; rfl)
  rw [hdrop] at hhash
  cases hflush with
  | nil => cases hhash
  | bind name sep cmd tail ls =>
    obtain ⟨⟨-, hname, -⟩, -⟩ := hlines _ List.mem_cons_self
    refine absurd ?_ hname.front
    cases name with
    | nil => exact absurd rfl hname.nonempty
    | cons n ns => exact hhash
  | comment text ls =>
    obtain ⟨⟨-, htext, hzero⟩, -⟩ := hlines _ List.mem_cons_self
    have hfree : ∀ {bs : List UInt8}, (∀ c ∈ bs, isSpaceChar c = true) → 0 ∉ bs :=
      fun hbs h0 => by cases hbs 0 h0
    by_cases hend : 10 ∈ blanks
    · -- the comment seems to end at a newline in front of it
      obtain ⟨as, bs, rfl, has⟩ := List.eq_append_cons_of_mem hend
      rw [List.append_assoc]
      exact .comment has (hfree fun c hc => hblanks c (List.mem_append_left _ hc))
        (fun c hc => hblanks c (List.mem_append_right _ (List.mem_cons_of_mem _ hc))) hlines
    · rw [fileText_cons, ← List.append_assoc]
      refine .comment_lineEnd (fun h10 => ?_) (fun h0 => ?_) hlines.tail ended binds
      · cases List.mem_append.mp h10 with
        | inl h10 => exact hend h10
        | inr h10 => exact htext ((List.mem_cons.mp h10).resolve_left (by decide))
      · cases List.mem_append.mp h0 with
        | inl h0 => exact hfree hblanks h0
        | inr h0 => exact hzero ((List.mem_cons.mp h0).resolve_left (by decide))

/-- The command of a line is set when its turn comes. -/
theorem bindLines_bind {name : List UInt8}
    (hname : mpInputGetInputFromName keyNames name = some keys) (blanks sep cmd tail : List UInt8)
    (ls : List ConfLine) (binds : CmdBinds) :
    bindLines keyNames (.bind blanks name sep cmd tail :: ls) binds =
      bindLines keyNames ls (mpInputBindKeys keys cmd binds) := by
  simp [bindLines, ConfLine.binding, hname]

/-- A key combination with a blank behind it, and then its command. -/
theorem Awaits.key_name (h : Awaits keyNames false [] (c :: text) binds final)
    (hc : isSpaceChar c = false) (hhash : c ≠ ascii '#') :
    ∃ name keys d text', c :: text = name ++ d :: text' ∧
      (∀ a ∈ name, (!isSpaceChar a) = true) ∧ isSpaceChar d = true ∧ name.length < 250 ∧
      mpInputGetInputFromName keyNames name = some keys ∧ keys ≠ [] ∧
      Awaits keyNames false keys text' binds final := by
  obtain ⟨blanks, lines, ended, hflush, hlines, hblanks, htext, rfl⟩ := h.front
  cases blanks with
  | cons b bs =>
    have hb := hblanks b List.mem_cons_self
    rw [← (List.cons.inj htext).1, hc] at hb
    cases hb
  | nil =>
    rw [List.nil_append] at htext
    cases hflush with
    | nil => cases htext
    | comment text' ls => exact absurd (List.cons.inj htext).1 hhash
    | bind name sep cmd tail ls =>
      obtain ⟨⟨-, hname, hsepne, hsep, hcmd, htail⟩, hlength⟩ := hlines _ List.mem_cons_self
      obtain ⟨keys, hknown, hkeys⟩ := hname.known
      cases sep with
      | nil => exact absurd rfl hsepne
      | cons d sep =>
        rw [ConfLine.text, List.nil_append, List.length_append, List.cons_append,
          List.length_cons] at hlength
        refine ⟨name, keys, d, sep ++ (cmd ++ (tail ++ linesEnd ended ls)), ?_, fun a ha => ?_,
          ?_, by omega, hknown, hkeys, ?_⟩
        · rw [htext, fileText_cons]
          simp [ConfLine.text]
        · rw [(hname.chars a ha).1]
          rfl
        · cases hsep d List.mem_cons_self with
          | inl hd => rw [hd]; rfl
          | inr hd => rw [hd]; rfl
        · rw [bindLines_bind hknown]
          exact .command hkeys (fun a ha => hsep a (List.mem_cons_of_mem _ ha)) hcmd htail
            (by omega) hlines.tail

/-- A command, with the end of its line or of the file behind it. -/
theorem Awaits.cmd_text (h : Awaits keyNames false keys (c :: text) binds final)
    (hkeys : keys ≠ []) (hc : ¬(c = ascii ' ' ∨ c = 9)) :
    ∃ cmd text', c :: text = cmd ++ text' ∧ (∀ a ∈ cmd, (!isConfLineEnd a) = true) ∧ cmd ≠ [] ∧
      cmd.length ≤ 250 ∧ (text' = [] ∨ ∃ d text'', text' = d :: text'' ∧ isConfLineEnd d = true ∧
        Awaits keyNames false [] text'' (mpInputBindKeys keys cmd binds) final) := by
  generalize htext : c :: text = text' at h
  cases h with
  | keys => exact absurd rfl hkeys
  | @command _ sep cmd tail lines ended _ _ hsep hcmd htail hlength hlines =>
    cases sep with
    | cons d sep =>
      rw [(List.cons.inj htext).1] at hc
      exact absurd (hsep d List.mem_cons_self) hc
    | nil =>
      rw [List.nil_append, List.length_append] at hlength
      refine ⟨cmd, tail ++ linesEnd ended lines, rfl, fun a ha => ?_, hcmd.nonempty, by omega,
        ?_⟩
      · rw [(hcmd.chars a ha).1]
        rfl
      · cases tail with
        | nil =>
          cases lineEnd_cases ended lines with
          | inl h => exact .inl h.2
          | inr h =>
            rw [List.nil_append, h]
            exact .inr ⟨10, _, rfl, rfl, .keys no_blanks hlines⟩
        | cons d tail =>
          have hd : d = 13 := Option.some.inj (htail.2.resolve_left (List.cons_ne_nil d tail))
          subst hd
          exact .inr ⟨13, tail ++ linesEnd ended lines, rfl, rfl, .blanks_lineEnd
            (fun c hc => (htail.1 c (List.mem_cons_of_mem _ hc)).1) hlines ended _⟩

/-- Where nothing is left, everything has been bound. -/
theorem Awaits.nil {comments : Bool} (h : Awaits keyNames comments keys [] binds final) :
    binds = final := by
  generalize htext : ([] : List UInt8) = text at h
  cases h with
  | @keys blanks lines ended _ hblanks hlines =>
    obtain ⟨blanks', lines', hflush, hlines', -, heq, hbind⟩ :=
      exists_flush ended binds hblanks hlines
    rw [← htext] at heq
    have hempty := (List.append_eq_nil_iff.mp heq.symm).2
    rw [← hbind]
    cases hflush with
    | nil => rfl
    | comment text ls => cases hempty
    | bind name sep cmd tail ls =>
      obtain ⟨⟨-, hname, -⟩, -⟩ := hlines' _ List.mem_cons_self
      simp [fileText_cons, ConfLine.text, hname.nonempty] at hempty
  | comment => simp at htext
  | lastComment => rfl
  | command hkeys hsep hcmd => simp [hcmd.nonempty] at htext

end MPlayer
