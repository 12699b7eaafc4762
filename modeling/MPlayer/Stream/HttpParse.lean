import MPlayer.Stream.HttpFields

/-!
# Parsing a response

`http_response_parse` looks for the blank line behind the header, preferring line ends with a
carriage return, and then goes through the header line by line.  A line that has no colon ends the
header too, and then the body starts with it.

A pointer into the buffer is a place in it, and a string in the buffer ends at its first NUL.

*Lines.*  What stands behind the lines of a header doesn't matter to what is done with them
(`fieldLoop_lines`).

*Responses.*  The header lines are stored as they are, but for a name that a broken server sends,
and the body is what is behind the blank line (`http_parse_exact`).  This needs a protocol that
the code accepts, no line end at the place of the reason phrase, and, if the lines end without a
carriage return, a body without a blank line that has them.
-/

namespace MPlayer

/-! ## The code -/

/-- The value an `unsigned int` takes. -/
def toUnsigned (n : Int) : Nat := (toInt32 n % 0x100000000).toNat

/-- `sscanf(s, "1.%d", &n)`. -/
def scanMinorVersion (s : List UInt8) : Option Nat :=
  if asciis "1." <+: s then (strtolDecimal (s.drop 2)).map fun r => toUnsigned r.1 else none

/-- The minor version, which only protocols that begin with `HTTP` have.  A protocol that is
nothing else is read behind its end. -/
def httpMinorVersion (protocol : List UInt8) (old : Nat) : Option (Option Nat) :=
  if avStrncaseeq protocol (asciis "HTTP") 4 then
    if protocol.length < 5 then none else some (scanMinorVersion (protocol.drop 5))
  else some (some old)

def isLineEnd (c : UInt8) : Bool := c = 13 || c = 10

/-- The position of the header separator, and its length. -/
def headerSeparator (text : List UInt8) : Option (Nat × Nat) :=
  match Lib.findSub [13, 10, 13, 10] text with
  | some pos => some (pos, 4)
  | none => (Lib.findSub [10, 10] text).map fun pos => (pos, 2)

/-- A field without what a broken server puts in front of its name. -/
def fixField (line : List UInt8) : List UInt8 :=
  if 16 < line.length ∧ avStrncaseeq (line.drop 4) (asciis "icy-metaint:") 12 then line.drop 4
  else line

/-- The loop over the lines of the header from a place on: the header with its fields, and the
position of the separator with its length.  No result is a line without an end. -/
def fieldLoop (posHdrSep hdrSepLen : Nat) (hdrPtr : Nat) (h : HttpHeader) :
    Option (HttpHeader × Nat × Nat) :=
  let rest := h.buffer.drop hdrPtr
  let line := rest.takeWhile (!isLineEnd ·)
  match rest.drop line.length with
  | [] => none
  | c :: _ =>
    if line = [] ∨ ascii ':' ∉ line then some (h, hdrPtr + line.length, 0)
    else
      let h := httpSetField h (cstr (fixField line))
      let next := hdrPtr + line.length + (if c = 13 then 2 else 1)
      if next < posHdrSep then fieldLoop posHdrSep hdrSepLen next h
      else some (h, posHdrSep, hdrSepLen)
termination_by posHdrSep - hdrPtr
decreasing_by
  split at *
  · omega
  · omega

/-- The reason phrase from a place on, if there is a line end.  It is an access out of bounds if
the place is behind the text, or the line end is there. -/
def reasonPhrase (text : List UInt8) (hdrPtr : Nat) : Option (Option (List UInt8)) :=
  if text.length < hdrPtr then none
  else
    match Lib.findSub [10] (text.drop hdrPtr) with
    | none => some none
    | some 0 => none
    | some (len + 1) =>
      let reason := (text.drop hdrPtr).take (len + 1)
      some (some (if reason.getLast? = some 13 then reason.take len else reason))

/-- The body, if there is something behind the separator. -/
def setBody (h : HttpHeader) (pos : Nat) : HttpHeader :=
  if pos < h.buffer.length then
    { h with body := some pos, bodySize := h.buffer.length - pos, isParsed := true }
  else { h with isParsed := true }

/-- The header behind the status line. -/
def parseHeader (text : List UInt8) (h : HttpHeader) : Option (Int × HttpHeader) := do
  let sep ← headerSeparator text
  let start ← Lib.findSub [10] text
  let r ← fieldLoop sep.1 sep.2 (start + 1) h
  return (0, setBody r.1 (r.2.1 + r.2.2))

/-- `http_response_parse`.  No result is an access out of bounds. -/
def httpResponseParse (h : HttpHeader) : Option (Int × HttpHeader) :=
  let text := cstr h.buffer
  if h.isParsed then some (0, h)
  else
    match Lib.findSub [ascii ' '] text with
    | none => some (-1, h)
    | some len =>
      let h := { h with protocol := some (text.take len) }
      match httpMinorVersion (text.take len) h.httpMinorVersion with
      | none => none
      | some none => some (-1, h)
      | some (some minor) =>
        let h := { h with httpMinorVersion := minor }
        match strtolDecimal (text.drop (len + 1)) with
        | none => some (-1, h)
        | some code =>
          let h := { h with statusCode := toUnsigned code.1 }
          match reasonPhrase text (len + 5) with
          | none => none
          | some none => some (-1, h)
          | some (some reason) => parseHeader text { h with reasonPhrase := some reason }

/-! ## Responses -/

/-- A response: the words of the status line, the lines of the header and the body, with the kind
of line ends. -/
structure HttpResponse where
  proto : List UInt8
  code : List UInt8
  reason : List UInt8
  lines : List (List UInt8)
  crlf : Bool
  body : List UInt8
  proto_chars : ∀ c ∈ proto, c ≠ 0 ∧ isLineEnd c = false ∧ c ≠ ascii ' '
  code_nonempty : code ≠ []
  code_digits : ∀ c ∈ code, isDigit c = true
  reason_chars : ∀ c ∈ reason, c ≠ 0 ∧ isLineEnd c = false
  lines_nonempty : lines ≠ []
  lines_colon : ∀ l ∈ lines, ascii ':' ∈ l
  lines_chars : ∀ l ∈ lines, ∀ c ∈ l, c ≠ 0 ∧ isLineEnd c = false

def lineEnd (crlf : Bool) : List UInt8 := if crlf then [13, 10] else [10]

/-- The lines of a header with their ends. -/
def linesText (crlf : Bool) (lines : List (List UInt8)) : List UInt8 :=
  lines.flatMap (· ++ lineEnd crlf)

/-- The status line behind the protocol. -/
def HttpResponse.statusRest (r : HttpResponse) : List UInt8 :=
  r.code ++ ascii ' ' :: r.reason

/-- A response up to the header lines. -/
def HttpResponse.status (r : HttpResponse) : List UInt8 :=
  r.proto ++ ascii ' ' :: r.statusRest

/-- A response up to its body. -/
def HttpResponse.head (r : HttpResponse) : List UInt8 :=
  r.status ++ lineEnd r.crlf ++ linesText r.crlf r.lines ++ lineEnd r.crlf

def HttpResponse.text (r : HttpResponse) : List UInt8 := r.head ++ r.body

/-- The body that a header has. -/
def HttpHeader.bodyBytes (h : HttpHeader) : List UInt8 :=
  match h.body with
  | none => []
  | some pos => (h.buffer.drop pos).take h.bodySize

/-- The response is accepted with these fields, and its body is found. -/
def ParsesTo (r : HttpResponse) (fields : List (List UInt8)) : Prop :=
  ∃ h, httpResponseParse { buffer := r.text } = some (0, h) ∧ h.fields = fields ∧
    h.bodyBytes = r.body ∧ h.bodySize = r.body.length

/-- The protocols that the code accepts: HTTP with a version `1.`, or something else. -/
def AcceptedProto (proto : List UInt8) : Prop :=
  avStrncaseeq proto (asciis "HTTP") 4 = true →
    5 ≤ proto.length ∧ (scanMinorVersion (proto.drop 5)).isSome = true

instance (proto : List UInt8) : Decidable (AcceptedProto proto) :=
  inferInstanceAs (Decidable (_ → _))

theorem AcceptedProto.minor {proto : List UInt8} (h : AcceptedProto proto) (old : Nat) :
    ∃ minor, httpMinorVersion proto old = some (some minor) := by
  rw [httpMinorVersion]
  split
  · rename_i hh
    obtain ⟨hlen, hsome⟩ := h hh
    obtain ⟨minor, hm⟩ := Option.isSome_iff_exists.mp hsome
    exact ⟨minor, by rw [if_neg (Nat.not_lt.mpr hlen), hm]⟩
  · exact ⟨old, rfl⟩

/-! ## Lines -/

/-- What stands on a line: something, and no line end. -/
def OnLine (line : List UInt8) : Prop := line ≠ [] ∧ ∀ c ∈ line, isLineEnd c = false

theorem OnLine.cons {line : List UInt8} (h : OnLine line) :
    ∃ c s, line = c :: s ∧ isLineEnd c = false := by
  obtain ⟨hne, hc⟩ := h
  cases line with
  | nil => exact absurd rfl hne
  | cons c s => exact ⟨c, s, rfl, hc c List.mem_cons_self⟩

theorem OnLine.not_mem {line : List UInt8} (h : OnLine line) {c : UInt8}
    (hc : isLineEnd c = true) : c ∉ line := fun hm => by
  have hno := h.2 c hm
  rw [hc] at hno
  cases hno

theorem linesText_cons (crlf : Bool) (l : List UInt8) (ls : List (List UInt8)) :
    linesText crlf (l :: ls) = l ++ (lineEnd crlf ++ linesText crlf ls) := by
  rw [linesText, List.flatMap_cons, List.append_assoc]
  rfl

/-- A blank line doesn't begin in front of a line. -/
theorem findSub_lineEnd (crlf : Bool) {c : UInt8} (hc : isLineEnd c = false) (s : List UInt8) :
    Lib.findSub (lineEnd crlf ++ lineEnd crlf) (lineEnd crlf ++ c :: s) =
      (Lib.findSub (lineEnd crlf ++ lineEnd crlf) (c :: s)).map (· + (lineEnd crlf).length) := by
  have h13 : c ≠ 13 := fun h => by rw [h] at hc; cases hc
  have h10 : c ≠ 10 := fun h => by rw [h] at hc; cases hc
  cases crlf with
  | true =>
    show Lib.findSub [13, 10, 13, 10] (13 :: 10 :: c :: s) = _
    rw [Lib.findSub_cons (by simp [Ne.symm h13]), Lib.findSub_cons (by simp), Option.map_map]
    rfl
  | false =>
    show Lib.findSub [10, 10] (10 :: c :: s) = _
    rw [Lib.findSub_cons (by simp [Ne.symm h10])]
    rfl

theorem findSub_onLine (crlf : Bool) {l : List UInt8} (hl : OnLine l) (s : List UInt8) :
    Lib.findSub (lineEnd crlf ++ lineEnd crlf) (l ++ s) =
      (Lib.findSub (lineEnd crlf ++ lineEnd crlf) s).map (· + l.length) := by
  cases crlf with
  | true => exact Lib.findSub_append s (hl.not_mem rfl)
  | false => exact Lib.findSub_append s (hl.not_mem rfl)

/-- The blank line is found behind the lines. -/
theorem findSub_lines (crlf : Bool) (rest : List UInt8) : ∀ {l : List UInt8}
    {ls : List (List UInt8)}, (∀ k ∈ l :: ls, OnLine k) →
    ∃ n, Lib.findSub (lineEnd crlf ++ lineEnd crlf)
        (linesText crlf (l :: ls) ++ (lineEnd crlf ++ rest)) = some n ∧
      n + (lineEnd crlf).length = (linesText crlf (l :: ls)).length
  | l, [], h => by
    refine ⟨l.length, ?_, ?_⟩
    · rw [linesText_cons, List.append_assoc, findSub_onLine crlf (h l List.mem_cons_self),
        show linesText crlf [] = [] from rfl, List.append_nil, ← List.append_assoc,
        Lib.findSub_at_front (List.prefix_append _ _)]
      exact congrArg some (Nat.zero_add _)
    · rw [linesText_cons, List.length_append, List.length_append]
      rfl
  | l, k :: ls, h => by
    obtain ⟨n, hn, hlen⟩ := findSub_lines crlf rest fun j hj => h j (List.mem_cons_of_mem l hj)
    obtain ⟨c, s, hcs, hc⟩ := OnLine.cons (h k (List.mem_cons_of_mem l List.mem_cons_self))
    have hfront : ∃ t, linesText crlf (k :: ls) ++ (lineEnd crlf ++ rest) = c :: t := by
      rw [linesText_cons, hcs]
      exact ⟨_, rfl⟩
    obtain ⟨t, ht⟩ := hfront
    refine ⟨n + (lineEnd crlf).length + l.length, ?_, ?_⟩
    · rw [linesText_cons, List.append_assoc, findSub_onLine crlf (h l List.mem_cons_self),
        List.append_assoc, ht, findSub_lineEnd crlf hc, ← ht, hn]
      rfl
    · rw [linesText_cons, List.length_append, List.length_append]
      omega

/-! ## Going through the lines -/

theorem fixField_subset (line : List UInt8) : ∀ c ∈ fixField line, c ∈ line := fun c hc => by
  rw [fixField] at hc
  split at hc
  · exact List.mem_of_mem_drop hc
  · exact hc

/-- One line of the header. -/
theorem fieldLoop_line (posHdrSep hdrSepLen : Nat) (crlf : Bool) {pre l suf : List UInt8}
    {h : HttpHeader} (hbuf : h.buffer = pre ++ (l ++ (lineEnd crlf ++ suf))) (hl : OnLine l)
    (hcolon : ascii ':' ∈ l) (hzero : 0 ∉ l) :
    fieldLoop posHdrSep hdrSepLen pre.length h =
      if pre.length + l.length + (lineEnd crlf).length < posHdrSep then
        fieldLoop posHdrSep hdrSepLen (pre.length + l.length + (lineEnd crlf).length)
          (httpSetField h (fixField l))
      else some (httpSetField h (fixField l), posHdrSep, hdrSepLen) := by
  have hall : ∀ c ∈ l, (!isLineEnd c) = true := fun c hc => by
    rw [hl.2 c hc]
    rfl
  have hrest : h.buffer.drop pre.length = l ++ (lineEnd crlf ++ suf) := by
    rw [hbuf, List.drop_left]
  have htake : (l ++ (lineEnd crlf ++ suf)).takeWhile (!isLineEnd ·) = l := by
    rw [List.takeWhile_append_of_pos hall]
    cases crlf with
    | true => exact List.append_nil l
    | false => exact List.append_nil l
  have hfix : cstr (fixField l) = fixField l :=
    cstr_eq_self fun h0 => hzero (fixField_subset l 0 h0)
  rw [fieldLoop]
  simp only [hrest, htake, List.drop_left, hl.1, hcolon, not_true_eq_false, or_self, if_false, hfix]
  cases crlf with
  | true => rfl
  | false => rfl

/-- The loop stores the lines, whatever stands behind them. -/
theorem fieldLoop_lines (crlf : Bool) (hdrSepLen : Nat) (suf : List UInt8) :
    ∀ (ls : List (List UInt8)) {l pre : List UInt8} {h : HttpHeader} {posHdrSep : Nat},
    (∀ k ∈ l :: ls, OnLine k ∧ ascii ':' ∈ k ∧ 0 ∉ k) →
    h.buffer = pre ++ (linesText crlf (l :: ls) ++ suf) →
    posHdrSep + (lineEnd crlf).length = pre.length + (linesText crlf (l :: ls)).length →
    fieldLoop posHdrSep hdrSepLen pre.length h =
      some (((l :: ls).map fixField).foldl httpSetField h, posHdrSep, hdrSepLen)
  | [], l, pre, h, posHdrSep, hk, hbuf, hpos => by
    obtain ⟨hl, hcolon, hzero⟩ := hk l List.mem_cons_self
    rw [linesText_cons, List.append_assoc, List.append_assoc] at hbuf
    rw [linesText_cons, List.length_append, List.length_append] at hpos
    have hnil : (linesText crlf []).length = 0 := rfl
    rw [fieldLoop_line posHdrSep hdrSepLen crlf hbuf hl hcolon hzero, if_neg (by omega)]
    rfl
  | k :: ls, l, pre, h, posHdrSep, hk, hbuf, hpos => by
    obtain ⟨hl, hcolon, hzero⟩ := hk l List.mem_cons_self
    have hkpos : 0 < k.length :=
      List.length_pos_iff.mpr (hk k (List.mem_cons_of_mem l List.mem_cons_self)).1.1
    rw [linesText_cons, List.append_assoc, List.append_assoc] at hbuf
    rw [linesText_cons, List.length_append, List.length_append] at hpos
    have hnext : (linesText crlf (k :: ls)).length =
        k.length + ((lineEnd crlf).length + (linesText crlf ls).length) := by
      rw [linesText_cons, List.length_append, List.length_append]
    have hpre : (pre ++ (l ++ lineEnd crlf)).length =
        pre.length + l.length + (lineEnd crlf).length := by
      rw [List.length_append, List.length_append, Nat.add_assoc]
    rw [fieldLoop_line posHdrSep hdrSepLen crlf hbuf hl hcolon hzero, if_pos (by omega), ← hpre,
      fieldLoop_lines crlf hdrSepLen suf ls (fun j hj => hk j (List.mem_cons_of_mem l hj))]
    · rfl
    · show h.buffer = _
      rw [hbuf, List.append_assoc, List.append_assoc]
    · omega

theorem foldl_httpSetField : ∀ (fs : List (List UInt8)) (h : HttpHeader),
    fs.foldl httpSetField h =
      { h with fields := h.fields ++ fs, fieldNb := h.fieldNb + fs.length }
  | [], h => by rw [List.foldl_nil, List.append_nil]; rfl
  | f :: fs, h => by
    rw [List.foldl_cons, foldl_httpSetField fs]
    simp only [httpSetField, List.append_assoc, List.cons_append, List.nil_append,
      List.length_cons, Nat.add_assoc, Nat.add_comm 1]

/-- What is behind the separator becomes the body. -/
theorem setBody_behind {h : HttpHeader} {head body : List UInt8} (hbuf : h.buffer = head ++ body)
    (hbody : h.body = none) (hsize : h.bodySize = 0) :
    (setBody h head.length).fields = h.fields ∧ (setBody h head.length).bodyBytes = body ∧
      (setBody h head.length).bodySize = body.length := by
  have hlen : h.buffer.length = head.length + body.length := by rw [hbuf, List.length_append]
  rw [setBody]
  split
  · refine ⟨rfl, ?_, ?_⟩
    · show (h.buffer.drop head.length).take (h.buffer.length - head.length) = body
      rw [hlen, Nat.add_sub_cancel_left, hbuf, List.drop_left, List.take_length]
    · show h.buffer.length - head.length = body.length
      rw [hlen, Nat.add_sub_cancel_left]
  · have hnil : body = [] := List.eq_nil_of_length_eq_zero (by omega)
    refine ⟨rfl, ?_, ?_⟩
    · show HttpHeader.bodyBytes { h with isParsed := true } = body
      rw [HttpHeader.bodyBytes, hnil]
      dsimp only
      rw [hbody]
    · rw [hnil]
      exact hsize

/-! ## Responses are parsed -/

theorem not_mem_lineEnd {crlf : Bool} {c : UInt8} (h : isLineEnd c = false) :
    c ∉ lineEnd crlf := fun hm => by
  cases crlf with
  | true =>
    rcases List.mem_cons.mp hm with rfl | hm
    · cases h
    · rw [List.mem_singleton.mp hm] at h
      cases h
  | false =>
    rw [List.mem_singleton.mp hm] at h
    cases h

namespace HttpResponse

/-- The response is not read out of bounds: behind the place of the code, there are four
characters in front of the end of a line. -/
def ReasonInside (r : HttpResponse) : Prop :=
  (r.text.drop (r.proto.length + 5)).head? ≠ some 10

instance (r : HttpResponse) : Decidable r.ReasonInside := inferInstanceAs (Decidable (_ ≠ _))

/-- No blank line with carriage returns stands in the body where the lines end without. -/
def OneLineEnd (r : HttpResponse) : Prop :=
  r.crlf = false → Lib.findSub [13, 10, 13, 10] (cstr r.body) = none

instance (r : HttpResponse) : Decidable r.OneLineEnd := inferInstanceAs (Decidable (_ → _))

theorem onLine_status (r : HttpResponse) : OnLine r.status := by
  refine ⟨fun h => List.cons_ne_nil _ _ (List.append_eq_nil_iff.mp h).2, fun c hc => ?_⟩
  rcases List.mem_append.mp hc with hc | hc
  · exact (r.proto_chars c hc).2.1
  rcases List.mem_cons.mp hc with rfl | hc
  · rfl
  rcases List.mem_append.mp hc with hc | hc
  · exact forall_byte (P := fun c => isDigit c = true → isLineEnd c = false)
      (by decide +kernel) c (r.code_digits c hc)
  rcases List.mem_cons.mp hc with rfl | hc
  · rfl
  · exact (r.reason_chars c hc).2

theorem onLine_lines (r : HttpResponse) : ∀ l ∈ r.lines, OnLine l := fun l hl =>
  ⟨List.ne_nil_of_mem (r.lines_colon l hl), fun c hc => (r.lines_chars l hl c hc).2⟩

theorem zero_not_mem_status (r : HttpResponse) : 0 ∉ r.status := fun hc => by
  rcases List.mem_append.mp hc with hc | hc
  · exact (r.proto_chars 0 hc).1 rfl
  rcases List.mem_cons.mp hc with hc | hc
  · cases hc
  rcases List.mem_append.mp hc with hc | hc
  · exact absurd (r.code_digits 0 hc) (by decide)
  rcases List.mem_cons.mp hc with hc | hc
  · cases hc
  · exact (r.reason_chars 0 hc).1 rfl

theorem head_eq (r : HttpResponse) :
    r.head = linesText r.crlf (r.status :: r.lines) ++ lineEnd r.crlf := by
  rw [linesText_cons, head, List.append_assoc r.status]

theorem not_mem_linesText {crlf : Bool} {c : UInt8} (hc : c ∉ lineEnd crlf)
    {ls : List (List UInt8)} (h : ∀ l ∈ ls, c ∉ l) : c ∉ linesText crlf ls := fun hm => by
  obtain ⟨l, hl, hm⟩ := List.mem_flatMap.mp hm
  rcases List.mem_append.mp hm with hm | hm
  · exact h l hl hm
  · exact hc hm

theorem not_mem_head (r : HttpResponse) {c : UInt8} (hc : c ∉ lineEnd r.crlf)
    (hs : c ∉ r.status) (hl : ∀ l ∈ r.lines, c ∉ l) : c ∉ r.head := by
  rw [head_eq, List.mem_append]
  rintro (h | h)
  · refine not_mem_linesText hc (fun l hm => ?_) h
    rcases List.mem_cons.mp hm with rfl | hm
    · exact hs
    · exact hl l hm
  · exact hc h

theorem cstr_text (r : HttpResponse) : cstr r.text = r.head ++ cstr r.body :=
  cstr_append (r.not_mem_head (not_mem_lineEnd rfl) r.zero_not_mem_status fun l hl h0 =>
    (r.lines_chars l hl 0 h0).1 rfl) r.body

/-- The separator is the last line end of the header and the blank line. -/
theorem headerSeparator_eq (r : HttpResponse) (h : r.OneLineEnd) :
    ∃ pos len, headerSeparator (cstr r.text) = some (pos, len) ∧ pos + len = r.head.length ∧
      pos + (lineEnd r.crlf).length = (linesText r.crlf (r.status :: r.lines)).length := by
  have hlines : ∀ k ∈ r.status :: r.lines, OnLine k := fun k hk => by
    rcases List.mem_cons.mp hk with rfl | hk
    · exact r.onLine_status
    · exact r.onLine_lines k hk
  obtain ⟨n, hn, hlen⟩ := findSub_lines r.crlf (cstr r.body) hlines
  rw [← List.append_assoc, ← head_eq, ← cstr_text] at hn
  have hhead : r.head.length =
      (linesText r.crlf (r.status :: r.lines)).length + (lineEnd r.crlf).length := by
    rw [head_eq, List.length_append]
  obtain ⟨crlf, hcrlf⟩ : ∃ b, r.crlf = b := ⟨_, rfl⟩
  cases crlf with
  | true =>
    have hend : (lineEnd r.crlf).length = 2 := by rw [hcrlf]; rfl
    rw [hcrlf] at hn
    refine ⟨n, 4, ?_, by omega, hlen⟩
    rw [headerSeparator, show Lib.findSub [13, 10, 13, 10] (cstr r.text) = some n from hn]
  | false =>
    have hend : (lineEnd r.crlf).length = 1 := by rw [hcrlf]; rfl
    have hcr : (13 : UInt8) ∉ r.head :=
      r.not_mem_head (by rw [hcrlf]; decide) (r.onLine_status.not_mem rfl)
        fun l hl => (r.onLine_lines l hl).not_mem rfl
    have hnone : Lib.findSub [13, 10, 13, 10] (cstr r.text) = none := by
      rw [cstr_text, Lib.findSub_append _ hcr, h hcrlf]
      rfl
    rw [hcrlf] at hn
    refine ⟨n, 2, ?_, by omega, hlen⟩
    rw [headerSeparator, hnone, show Lib.findSub [10, 10] (cstr r.text) = some n from hn]
    rfl

theorem buffer_eq (r : HttpResponse) : r.text =
    (r.status ++ lineEnd r.crlf) ++ (linesText r.crlf r.lines ++ (lineEnd r.crlf ++ r.body)) := by
  rw [text, head]
  simp only [List.append_assoc]

/-- The lines begin behind the first line end. -/
theorem firstLine_eq (r : HttpResponse) :
    ∃ start, Lib.findSub [10] (cstr r.text) = some start ∧
      start + 1 = (r.status ++ lineEnd r.crlf).length := by
  have hno := r.onLine_status.not_mem (c := 10) rfl
  rw [cstr_text, head, List.append_assoc, List.append_assoc, List.append_assoc]
  cases r.crlf with
  | true =>
    have hno' : (10 : UInt8) ∉ r.status ++ [13] := fun h => by
      rcases List.mem_append.mp h with h | h
      · exact hno h
      · rw [List.mem_singleton] at h
        cases h
    refine ⟨(r.status ++ [13]).length, ?_, ?_⟩
    · rw [← Lib.findSub_letter _ hno', List.append_assoc]
      rfl
    · rw [List.length_append, List.length_append]
      rfl
  | false =>
    refine ⟨r.status.length, Lib.findSub_letter _ hno, ?_⟩
    rw [List.length_append]
    rfl

/-- The header behind the status line is stored, and the body found. -/
theorem parseHeader_eq (r : HttpResponse) (hend : r.OneLineEnd) {h : HttpHeader}
    (hbuf : h.buffer = r.text) (hbody : h.body = none) (hsize : h.bodySize = 0) :
    ∃ h', parseHeader (cstr r.text) h = some (0, h') ∧
      h'.fields = h.fields ++ r.lines.map fixField ∧ h'.bodyBytes = r.body ∧
      h'.bodySize = r.body.length := by
  obtain ⟨pos, len, hsep, hpos, hlines⟩ := r.headerSeparator_eq hend
  obtain ⟨start, hstart, hpre⟩ := r.firstLine_eq
  have hk : ∀ k ∈ r.lines, OnLine k ∧ ascii ':' ∈ k ∧ 0 ∉ k := fun k hk =>
    ⟨r.onLine_lines k hk, r.lines_colon k hk, fun h0 => (r.lines_chars k hk 0 h0).1 rfl⟩
  have hloop : fieldLoop pos len (start + 1) h =
      some ((r.lines.map fixField).foldl httpSetField h, pos, len) := by
    obtain ⟨l, ls, hls⟩ := List.exists_cons_of_ne_nil r.lines_nonempty
    rw [buffer_eq, hls] at hbuf
    rw [linesText_cons, hls, ← List.append_assoc, List.length_append] at hlines
    rw [hls] at hk ⊢
    rw [hpre]
    exact fieldLoop_lines r.crlf len _ ls hk hbuf hlines
  have hfields := foldl_httpSetField (r.lines.map fixField) h
  have hset := setBody_behind (h := (r.lines.map fixField).foldl httpSetField h)
    (show _ = r.head ++ r.body by rw [hfields, hbuf, text]) (by rw [hfields, hbody])
    (by rw [hfields, hsize])
  refine ⟨setBody ((r.lines.map fixField).foldl httpSetField h) r.head.length, ?_, ?_, hset.2⟩
  · simp only [parseHeader, hsep, hstart, hloop, hpos, Option.bind_eq_bind, Option.bind_some,
      Option.pure_def]
  · rw [hset.1, hfields]

/-- The header ends with the end of a line, and four characters stand behind the code's place. -/
theorem head_split (r : HttpResponse) :
    ∃ s, r.head = s ++ [10] ∧ r.proto.length + 5 ≤ s.length := by
  obtain ⟨e, he⟩ : ∃ e, lineEnd r.crlf = e ++ [10] := by
    cases r.crlf with
    | true => exact ⟨[13], rfl⟩
    | false => exact ⟨[], rfl⟩
  obtain ⟨l, ls, hls⟩ := List.exists_cons_of_ne_nil r.lines_nonempty
  have hl : 0 < l.length := List.length_pos_iff.mpr
    (r.onLine_lines l (by rw [hls]; exact List.mem_cons_self)).1
  have hcode : 0 < r.code.length := List.length_pos_iff.mpr r.code_nonempty
  refine ⟨r.status ++ lineEnd r.crlf ++ linesText r.crlf r.lines ++ e, ?_, ?_⟩
  · rw [head, he]
    simp only [List.append_assoc]
  · rw [hls, linesText_cons, he, status, statusRest]
    simp only [List.length_append, List.length_cons, List.length_nil]
    omega

/-- A line end is found behind the place of the reason phrase. -/
theorem reasonPhrase_isSome (r : HttpResponse) (hin : r.ReasonInside) :
    ∃ reason, reasonPhrase (cstr r.text) (r.proto.length + 5) = some (some reason) := by
  obtain ⟨s, hs, hlen⟩ := r.head_split
  have hcstr : (cstr r.text).drop (r.proto.length + 5) =
      s.drop (r.proto.length + 5) ++ 10 :: cstr r.body := by
    rw [cstr_text, hs, List.append_assoc, List.drop_append_of_le_length hlen]
    rfl
  have htext : r.text.drop (r.proto.length + 5) = s.drop (r.proto.length + 5) ++ 10 :: r.body := by
    rw [text, hs, List.append_assoc, List.drop_append_of_le_length hlen]
    rfl
  have hle : ¬ (cstr r.text).length < r.proto.length + 5 := by
    rw [cstr_text, hs, List.length_append, List.length_append]
    omega
  rw [ReasonInside, htext] at hin
  rw [reasonPhrase, if_neg hle, hcstr]
  obtain ⟨i, hi⟩ : ∃ i,
      Lib.findSub [10] (s.drop (r.proto.length + 5) ++ 10 :: cstr r.body) = some i := by
    refine Option.ne_none_iff_exists'.mp fun hnone => ?_
    exact Lib.findSub_letter_none_iff.mp hnone (List.mem_append_right _ List.mem_cons_self)
  rw [hi]
  cases i with
  | zero =>
    obtain ⟨pre, suf, hsplit, -, hpre⟩ := Lib.findSub_letter_split hi
    rw [List.eq_nil_of_length_eq_zero hpre] at hsplit
    refine absurd ?_ hin
    cases hd : s.drop (r.proto.length + 5) with
    | nil => rfl
    | cons c t =>
      rw [hd] at hsplit
      rw [(List.cons.inj hsplit).1]
      rfl
  | succ k => exact ⟨_, rfl⟩

end HttpResponse

/-- The place of the code, which begins behind the first space. -/
theorem HttpResponse.text_split (r : HttpResponse) :
    ∃ t, cstr r.text = r.proto ++ ascii ' ' :: (r.code ++ ascii ' ' :: t) := by
  rw [r.cstr_text, head, status, statusRest]
  refine ⟨r.reason ++ lineEnd r.crlf ++ linesText r.crlf r.lines ++ lineEnd r.crlf ++
    cstr r.body, ?_⟩
  simp only [List.append_assoc, List.cons_append]

theorem HttpResponse.space_not_mem (r : HttpResponse) : ascii ' ' ∉ r.proto :=
  fun h => (r.proto_chars _ h).2.2 rfl

/-- A response is accepted, its lines are stored, and its body is found. -/
theorem httpResponseParse_response (r : HttpResponse) (hproto : AcceptedProto r.proto)
    (hin : r.ReasonInside) (hend : r.OneLineEnd) : ParsesTo r (r.lines.map fixField) := by
  obtain ⟨t, ht⟩ := r.text_split
  have hlen : Lib.findSub [ascii ' '] (cstr r.text) = some r.proto.length := by
    rw [ht]
    exact Lib.findSub_letter _ r.space_not_mem
  have htake : (cstr r.text).take r.proto.length = r.proto := by rw [ht, List.take_left]
  have hdrop : (cstr r.text).drop (r.proto.length + 1) = r.code ++ ascii ' ' :: t := by
    rw [ht, ← List.drop_drop, List.drop_left]
    rfl
  obtain ⟨minor, hminor⟩ := hproto.minor 0
  have hcode : strtolDecimal (r.code ++ ascii ' ' :: t) =
      some (min (decimalValue r.code : Int) llongMax, ascii ' ' :: t) :=
    strtolDecimal_digits r.code_nonempty r.code_digits fun c hc => by cases hc; rfl
  obtain ⟨reason, hreason⟩ := r.reasonPhrase_isSome hin
  obtain ⟨h, hh, hfields, hbody, hsize⟩ := r.parseHeader_eq hend (h := {
    buffer := r.text, protocol := some r.proto, httpMinorVersion := minor,
    statusCode := toUnsigned (min (decimalValue r.code : Int) llongMax),
    reasonPhrase := some reason }) rfl rfl rfl
  refine ⟨h, ?_, hfields, hbody, hsize⟩
  rw [httpResponseParse]
  simp only [hlen, htake, hdrop, hminor, hcode, hreason, hh, Bool.false_eq_true, if_false]

/-- A version that is no version `1.` is refused. -/
theorem httpResponseParse_refused (r : HttpResponse) (hlen : 5 ≤ r.proto.length)
    (hproto : ¬ AcceptedProto r.proto) :
    ∃ h, httpResponseParse { buffer := r.text } = some (-1, h) := by
  obtain ⟨t, ht⟩ := r.text_split
  have hfind : Lib.findSub [ascii ' '] (cstr r.text) = some r.proto.length := by
    rw [ht]
    exact Lib.findSub_letter _ r.space_not_mem
  have htake : (cstr r.text).take r.proto.length = r.proto := by rw [ht, List.take_left]
  have hminor : httpMinorVersion r.proto 0 = some none := by
    rw [httpMinorVersion]
    split
    · rename_i hh
      rw [if_neg (Nat.not_lt.mpr hlen)]
      cases hm : scanMinorVersion (r.proto.drop 5) with
      | none => rfl
      | some minor => exact absurd (fun _ => ⟨hlen, by rw [hm]; rfl⟩) hproto
    · rename_i hh
      exact absurd (fun h => absurd h hh) hproto
  refine ⟨{ buffer := r.text, protocol := some r.proto }, ?_⟩
  rw [httpResponseParse]
  simp only [hfind, htake, hminor, Bool.false_eq_true, if_false]

/-- Parsing is exact for the protocols that are accepted, but for the name that a broken server
sends; another version of HTTP is refused. -/
theorem http_parse_exact (r : HttpResponse) :
    (AcceptedProto r.proto → r.ReasonInside → r.OneLineEnd → ParsesTo r (r.lines.map fixField)) ∧
    (5 ≤ r.proto.length → ¬ AcceptedProto r.proto →
      ∃ h, httpResponseParse { buffer := r.text } = some (-1, h)) :=
  ⟨httpResponseParse_response r, httpResponseParse_refused r⟩

/-- A response of a server, with a body. -/
def sampleResponse : HttpResponse where
  proto := asciis "HTTP/1.1"
  code := asciis "200"
  reason := asciis "OK"
  lines := [asciis "Server: x"]
  crlf := true
  body := [13, 10, 13, 10, 0, 1]
  proto_chars := by decide +kernel
  code_nonempty := by decide
  code_digits := by decide +kernel
  reason_chars := by decide +kernel
  lines_nonempty := by decide
  lines_colon := by decide
  lines_chars := by decide +kernel

theorem http_parse_exact_sample : ParsesTo sampleResponse [asciis "Server: x"] :=
  (http_parse_exact sampleResponse).1 (by decide) (by decide) (by decide)

/-- A response of another version. -/
def otherVersion : HttpResponse :=
  { sampleResponse with proto := asciis "HTTP/2", proto_chars := by decide +kernel }

/-- A response of a broken server. -/
def brokenName : HttpResponse :=
  { sampleResponse with
    lines := [asciis "xxxxicy-metaint: 8192"]
    lines_nonempty := by decide
    lines_colon := by decide
    lines_chars := by decide +kernel }

/-- Another version is refused, and the name that a broken server sends is repaired. -/
theorem http_parse_not_exact :
    (∃ r : HttpResponse, r.lines.map fixField = r.lines ∧ ¬ ParsesTo r r.lines) ∧
    (∃ r : HttpResponse, AcceptedProto r.proto ∧ r.ReasonInside ∧ r.OneLineEnd ∧
      ¬ ParsesTo r r.lines) := by
  constructor
  · refine ⟨otherVersion, by decide, ?_⟩
    rintro ⟨h, hh, -⟩
    obtain ⟨h', hh'⟩ := httpResponseParse_refused otherVersion (by decide) (by decide)
    rw [hh'] at hh
    cases hh
  · have hproto : AcceptedProto brokenName.proto := by decide
    have hin : brokenName.ReasonInside := by decide
    have hend : brokenName.OneLineEnd := by decide
    refine ⟨brokenName, hproto, hin, hend, ?_⟩
    rintro ⟨h, hh, hfields, -⟩
    obtain ⟨h', hh', hfields', -⟩ := httpResponseParse_response brokenName hproto hin hend
    rw [hh'] at hh
    cases hh
    rw [hfields'] at hfields
    have hne : brokenName.lines.map fixField ≠ brokenName.lines := by decide
    exact hne hfields

end MPlayer
