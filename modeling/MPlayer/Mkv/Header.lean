import MPlayer.Config.Options
import MPlayer.Mkv.Elements

/-!
# The EBML header

`ebml_read_header` counts down the bytes of the header while it reads its children.  It takes
two bytes off for every id, whatever the id's width, and what the child has reported for the
rest.  So it stops where the header ends exactly if the ids take two bytes each on average.
-/

namespace MPlayer

open Lib

/-! ## Reading -/

/-- `EBML_ID_HEADER`. -/
def ebmlIdHeader : Nat := 0x1A45DFA3

/-- `EBML_ID_EBMLREADVERSION`. -/
def ebmlIdReadVersion : Nat := 0x42F7

/-- `EBML_ID_EBMLMAXIDLENGTH`. -/
def ebmlIdMaxIdLength : Nat := 0x42F2

/-- `EBML_ID_EBMLMAXSIZELENGTH`. -/
def ebmlIdMaxSizeLength : Nat := 0x42F3

/-- `EBML_ID_DOCTYPE`. -/
def ebmlIdDocType : Nat := 0x4282

/-- `EBML_ID_DOCTYPEREADVERSION`. -/
def ebmlIdDocTypeReadVersion : Nat := 0x4285

/-- `INT_MAX`. -/
def intMax : Nat := 0x7FFFFFFF

/-- `ebml_read_ascii`: the string without its final zero, and the value of `*length`. -/
def ebmlReadAscii (r : Reader) : (Option (List UInt8) × Option Nat) × Reader :=
  let ((len, l), r) := ebmlReadLength r
  match l with
  | none => ((none, none), r)
  | some l =>
    if len = ebmlUintInvalid then ((none, none), r)
    else if intMax ≤ len then ((none, none), r)
    else
      let (str, r) := r.read len
      ((if str.length = len then some str else none, some (len + l)), r)

/-- `ebml_read_master`. -/
def ebmlReadMaster (r : Reader) : (Nat × Option Nat) × Reader :=
  let ((id, _), r) := ebmlReadId r
  if id = ebmlIdInvalid then ((id, none), r)
  else
    let ((len, _), r) := ebmlReadLength r
    if len = ebmlUintInvalid then ((ebmlIdInvalid, none), r) else ((id, some len), r)

/-- The variables `str` and `*version` of `ebml_read_header`; the latter is `none` if
`version` is `NULL`. -/
structure HeaderState where
  str : Option (List UInt8)
  version : Option Int
deriving DecidableEq

/-- A child that is a number, which is accepted or makes the header be refused. -/
def headerUint (accept : Nat → Bool) (set : Nat → HeaderState) (r : Reader) :
    Except Reader (HeaderState × Nat × Reader) :=
  match ebmlReadUint r with
  | ((num, some l), r) => if accept num then .ok (set num, l, r) else .error r
  | ((_, none), r) => .error r

/-- The `switch` of `ebml_read_header`, with the reader where it goes to `err_out`.  `none`
stands for a skip backwards. -/
def ebmlHeaderChild (id : Nat) (st : HeaderState) (r : Reader) :
    Option (Except Reader (HeaderState × Nat × Reader)) :=
  if id = ebmlIdReadVersion then some (headerUint (fun num => num = 1) (fun _ => st) r)
  else if id = ebmlIdMaxSizeLength then some (headerUint (fun num => num = 8) (fun _ => st) r)
  else if id = ebmlIdMaxIdLength then some (headerUint (fun num => num = 4) (fun _ => st) r)
  else if id = ebmlIdDocType then
    match ebmlReadAscii r with
    | ((some str, some l), r) => some (.ok ({ st with str := some str }, l, r))
    | (_, r) => some (.error r)
  else if id = ebmlIdDocTypeReadVersion then
    some (headerUint (fun num => num ≠ ebmlUintInvalid)
      (fun num => { st with version := st.version.map fun _ => toInt32 num }) r)
  else
    match ebmlReadSkip r with
    | none => none
    | some (some l, r) => some (.ok (st, l, r))
    | some (none, r) => some (.error r)

/-- The loop of `ebml_read_header` with `length` bytes left.  The fuel is more than the bytes
in the stream, of which every turn but the last takes one. -/
def ebmlHeaderLoop : Nat → Nat → HeaderState → Reader → Option (HeaderState × Reader)
  | _, 0, st, r => some (st, r)
  | 0, _ + 1, _, _ => none
  | fuel + 1, length + 1, st, r =>
    let ((id, _), r) := ebmlReadId r
    if id = ebmlIdInvalid then some ({ st with str := none }, r)
    else
      match ebmlHeaderChild id st r with
      | none => none
      | some (.error r) => some ({ st with str := none }, r)
      | some (.ok (st, l, r)) =>
        ebmlHeaderLoop fuel ((length + 1 + 2 ^ 65 - (2 + l)) % 2 ^ 64) st r

/-- `ebml_read_header`: the string it returns with `*version`, and the stream after it. -/
def ebmlReadHeader (version : Option Int) (r : Reader) : Option (HeaderState × Reader) :=
  match ebmlReadMaster r with
  | ((id, some length), r) =>
    if id ≠ ebmlIdHeader then some (⟨none, version⟩, r)
    else ebmlHeaderLoop (r.rest.length + 1) length ⟨none, version.map fun _ => 1⟩ r
  | ((_, none), r) => some (⟨none, version⟩, r)

/-! ## Headers -/

/-- The contents of a number. -/
structure NumberContent (content : List UInt8) (accept : Nat → Prop) : Prop where
  ne_nil : content ≠ []
  le : content.length ≤ 8
  accepted : accept (beValue 0 content)

/-- The children that `ebml_read_header` has nothing against. -/
structure Acceptable (id : Nat) (content : List UInt8) : Prop where
  readVersion : id = ebmlIdReadVersion → NumberContent content (· = 1)
  maxSizeLength : id = ebmlIdMaxSizeLength → NumberContent content (· = 8)
  maxIdLength : id = ebmlIdMaxIdLength → NumberContent content (· = 4)
  docTypeReadVersion : id = ebmlIdDocTypeReadVersion → NumberContent content (· ≠ ebmlUintInvalid)

/-- A child of a header, with its id in `iw` bytes and its length in `lw`. -/
structure HeaderChild where
  iw : Nat
  id : Nat
  lw : Nat
  content : List UInt8
  isId : IsId iw id
  coded : Coded lw content.length
  acceptable : Acceptable id content

/-- The bytes of a child. -/
def HeaderChild.bytes (c : HeaderChild) : List UInt8 := elementBytes c.iw c.id c.lw c.content

/-- The bytes of the children. -/
def childrenBytes : List HeaderChild → List UInt8
  | [] => []
  | c :: cs => c.bytes ++ childrenBytes cs

/-- The bytes of a header, with its length in `w` bytes. -/
def headerBytes (w : Nat) (cs : List HeaderChild) : List UInt8 :=
  elementBytes 4 ebmlIdHeader w (childrenBytes cs)

/-- The last `DocType`, and `str` if there is none. -/
def docTypeOf (str : Option (List UInt8)) : List HeaderChild → Option (List UInt8)
  | [] => str
  | c :: cs => docTypeOf (if c.id = ebmlIdDocType then some c.content else str) cs

/-- The last `DocTypeReadVersion`, and `version` if there is none. -/
def readVersionOf (version : Nat) : List HeaderChild → Nat
  | [] => version
  | c :: cs =>
    readVersionOf (if c.id = ebmlIdDocTypeReadVersion then beValue 0 c.content else version) cs

/-! ## One child -/

variable {w : Nat} {content rest : List UInt8}

theorem ebmlReadAscii_content (hw : Coded w content.length) (hlt : content.length < intMax)
    {r : Reader} (hr : r.rest = vlen w content.length ++ content ++ rest) :
    ebmlReadAscii r = ((some content, some (content.length + w)),
      r.advance (vlen w content.length ++ content) rest) := by
  rw [List.append_assoc] at hr
  have hne : content.length ≠ ebmlUintInvalid := by
    simp only [intMax, ebmlUintInvalid] at hlt ⊢
    omega
  rw [ebmlReadAscii, ebmlReadLength_vlen hw hr]
  simp only [if_neg hne, if_neg (Nat.not_le.mpr hlt),
    Reader.read_append (Reader.advance_rest _ _ _), Reader.advance_advance, if_pos]

/-- A string that is too long is left where it is. -/
theorem ebmlReadAscii_long (hw : Coded w content.length) (hle : intMax ≤ content.length)
    {r : Reader} (hr : r.rest = vlen w content.length ++ content ++ rest) :
    ebmlReadAscii r = ((none, none), r.advance (vlen w content.length) (content ++ rest)) := by
  rw [List.append_assoc] at hr
  rw [ebmlReadAscii, ebmlReadLength_vlen hw hr]
  simp only [if_pos hle]
  split <;> rfl

theorem headerUint_content {accept : Nat → Bool} {set : Nat → HeaderState}
    (hw : Coded w content.length) (h : NumberContent content fun num => accept num = true)
    {r : Reader} (hr : r.rest = vlen w content.length ++ content ++ rest) :
    headerUint accept set r = .ok (set (beValue 0 content), content.length + w,
      r.advance (vlen w content.length ++ content) rest) := by
  rw [headerUint, ebmlReadUint_content hw h.ne_nil h.le hr]
  simp only [h.accepted, if_true]

theorem NumberContent.imp {accept accept' : Nat → Prop} (h : NumberContent content accept)
    (hacc : ∀ num, accept num → accept' num) :
    NumberContent content accept' := ⟨h.ne_nil, h.le, hacc _ h.accepted⟩

/-- The variables after a child. -/
def HeaderChild.next (c : HeaderChild) (st : HeaderState) : HeaderState where
  str := if c.id = ebmlIdDocType then some c.content else st.str
  version :=
    if c.id = ebmlIdDocTypeReadVersion then
      st.version.map fun _ => toInt32 (beValue 0 c.content)
    else st.version

/-- A `DocType` is short enough. -/
def HeaderChild.Short (c : HeaderChild) : Prop :=
  c.id = ebmlIdDocType → c.content.length < intMax

theorem ebmlHeaderChild_short (c : HeaderChild) (hshort : c.Short) (st : HeaderState) {r : Reader}
    (hr : r.rest = vlen c.lw c.content.length ++ c.content ++ rest) :
    ebmlHeaderChild c.id st r = some (.ok (c.next st, c.content.length + c.lw,
      r.advance (vlen c.lw c.content.length ++ c.content) rest)) := by
  have hacc := c.acceptable
  rw [ebmlHeaderChild]
  by_cases h1 : c.id = ebmlIdReadVersion
  · rw [if_pos h1, headerUint_content c.coded ((hacc.readVersion h1).imp (by simp)) hr]
    simp [HeaderChild.next, h1, ebmlIdReadVersion, ebmlIdDocType, ebmlIdDocTypeReadVersion]
  rw [if_neg h1]
  by_cases h2 : c.id = ebmlIdMaxSizeLength
  · rw [if_pos h2, headerUint_content c.coded ((hacc.maxSizeLength h2).imp (by simp)) hr]
    simp [HeaderChild.next, h2, ebmlIdMaxSizeLength, ebmlIdDocType, ebmlIdDocTypeReadVersion]
  rw [if_neg h2]
  by_cases h3 : c.id = ebmlIdMaxIdLength
  · rw [if_pos h3, headerUint_content c.coded ((hacc.maxIdLength h3).imp (by simp)) hr]
    simp [HeaderChild.next, h3, ebmlIdMaxIdLength, ebmlIdDocType, ebmlIdDocTypeReadVersion]
  rw [if_neg h3]
  by_cases h4 : c.id = ebmlIdDocType
  · rw [if_pos h4, ebmlReadAscii_content c.coded (hshort h4) hr]
    simp [HeaderChild.next, h4, ebmlIdDocType, ebmlIdDocTypeReadVersion]
  rw [if_neg h4]
  by_cases h5 : c.id = ebmlIdDocTypeReadVersion
  · rw [if_pos h5, headerUint_content c.coded ((hacc.docTypeReadVersion h5).imp (by simp)) hr]
    simp [HeaderChild.next, h5, ebmlIdDocType, ebmlIdDocTypeReadVersion]
  rw [if_neg h5, ebmlReadSkip_content c.coded hr]
  simp [HeaderChild.next, h4, h5]

theorem ebmlHeaderChild_long (c : HeaderChild) (hlong : ¬ c.Short) (st : HeaderState) {r : Reader}
    (hr : r.rest = vlen c.lw c.content.length ++ c.content ++ rest) :
    c.content ≠ [] ∧ ebmlHeaderChild c.id st r =
      some (.error (r.advance (vlen c.lw c.content.length) (c.content ++ rest))) := by
  obtain ⟨hid, hlen⟩ := Classical.not_imp.mp hlong
  have hlen := Nat.not_lt.mp hlen
  refine ⟨fun h => ?_, ?_⟩
  · rw [h] at hlen
    exact absurd hlen (by decide)
  · rw [ebmlHeaderChild, hid, if_neg (by decide), if_neg (by decide), if_neg (by decide),
      if_pos rfl, ebmlReadAscii_long c.coded hlen hr]

/-! ## The loop -/

/-- What the loop takes off for the children. -/
def takenOff : List HeaderChild → Nat
  | [] => 0
  | c :: cs => 2 + (c.content.length + c.lw) + takenOff cs

/-- The bytes of the ids. -/
def idBytes : List HeaderChild → Nat
  | [] => 0
  | c :: cs => c.iw + idBytes cs

theorem HeaderChild.length_bytes (c : HeaderChild) :
    c.bytes.length = c.iw + (c.lw + c.content.length) := by
  rw [HeaderChild.bytes, elementBytes, List.length_append, List.length_append, length_beBytes,
    length_vlen]

theorem length_childrenBytes : ∀ cs : List HeaderChild,
    (childrenBytes cs).length + 2 * cs.length = takenOff cs + idBytes cs
  | [] => rfl
  | c :: cs => by
    have ih := length_childrenBytes cs
    rw [childrenBytes, List.length_append, c.length_bytes, takenOff, idBytes, List.length_cons]
    omega

theorem length_le_childrenBytes : ∀ cs : List HeaderChild, cs.length ≤ (childrenBytes cs).length
  | [] => Nat.le_refl _
  | c :: cs => by
    have ih := length_le_childrenBytes cs
    have hpos := c.isId.pos
    rw [childrenBytes, List.length_append, c.length_bytes, List.length_cons]
    omega

/-- The variables after the children. -/
def nextAll (st : HeaderState) : List HeaderChild → HeaderState
  | [] => st
  | c :: cs => nextAll (c.next st) cs

variable {c : HeaderChild} {fuel length : Nat} {st : HeaderState} {r : Reader} {rest : List UInt8}

theorem HeaderChild.read_id (hr : r.rest = c.bytes ++ rest) :
    ebmlReadId r = ((c.id, some c.iw), r.advance (beBytes c.iw c.id)
      (vlen c.lw c.content.length ++ c.content ++ rest)) ∧ c.id ≠ ebmlIdInvalid := by
  have hr' : r.rest = beBytes c.iw c.id ++ (vlen c.lw c.content.length ++ c.content ++ rest) := by
    rw [hr, HeaderChild.bytes, elementBytes, List.append_assoc]
  refine ⟨ebmlReadId_id c.isId hr', ?_⟩
  have hpow : 2 ^ (7 * c.iw) ≤ 2 ^ 28 :=
    Nat.pow_le_pow_right (by decide) (by have := c.isId.le; omega)
  have hhi := c.isId.hi
  simp only [ebmlIdInvalid]
  omega

/-- A turn of the loop. -/
theorem HeaderChild.turn (hshort : c.Short) (hr : r.rest = c.bytes ++ rest) :
    ebmlHeaderLoop (fuel + 1) (length + 1) st r =
      ebmlHeaderLoop fuel
        ((length + 1 + 2 ^ 65 - (2 + (c.content.length + c.lw))) % 2 ^ 64) (c.next st)
        (r.advance c.bytes rest) := by
  obtain ⟨hid, hne⟩ := HeaderChild.read_id hr
  rw [ebmlHeaderLoop, hid]
  simp only [if_neg hne, ebmlHeaderChild_short c hshort st (Reader.advance_rest _ _ _),
    Reader.advance_advance]
  rfl

/-- The turn that meets a string that is too long. -/
theorem HeaderChild.turn_long (hlong : ¬ c.Short) (hr : r.rest = c.bytes ++ rest) :
    ∃ r', ebmlHeaderLoop (fuel + 1) (length + 1) st r = some ({ st with str := none }, r') ∧
      r'.pos < r.pos + c.bytes.length := by
  obtain ⟨hid, hne⟩ := HeaderChild.read_id hr
  obtain ⟨hcontent, hchild⟩ := ebmlHeaderChild_long c hlong st
    (Reader.advance_rest r (beBytes c.iw c.id) (vlen c.lw c.content.length ++ c.content ++ rest))
  rw [ebmlHeaderLoop, hid]
  simp only [if_neg hne, hchild]
  refine ⟨_, rfl, ?_⟩
  have hpos := List.length_pos_iff.mpr hcontent
  rw [c.length_bytes, Reader.advance_pos, Reader.advance_pos, length_beBytes, length_vlen]
  omega

/-- With the right number to count down from, the loop reads the children and nothing else. -/
theorem ebmlHeaderLoop_children : ∀ (cs : List HeaderChild) {fuel : Nat} {st : HeaderState}
    {r : Reader}, r.rest = childrenBytes cs ++ rest → r.rest.length < fuel →
      (∀ c ∈ cs, c.Short) → takenOff cs < 2 ^ 64 →
      ebmlHeaderLoop fuel (takenOff cs) st r =
        some (nextAll st cs, r.advance (childrenBytes cs) rest)
  | [], fuel, st, r, hr, _, _, _ => by
    rw [childrenBytes, List.nil_append] at hr
    rw [takenOff, ebmlHeaderLoop, childrenBytes, ← hr, Reader.advance_nil]
    rfl
  | c :: cs, fuel, st, r, hr, hfuel, hshort, hlt => by
    have hlw := c.coded.pos
    rw [childrenBytes, List.append_assoc] at hr
    rw [hr, List.length_append, c.length_bytes] at hfuel
    obtain ⟨fuel, rfl⟩ : ∃ k, fuel = k + 1 := ⟨fuel - 1, by omega⟩
    rw [takenOff] at hlt ⊢
    obtain ⟨n, hn⟩ : ∃ n, 2 + (c.content.length + c.lw) + takenOff cs = n + 1 :=
      ⟨_, (Nat.sub_add_cancel (by omega)).symm⟩
    have hleft : (n + 1 + 2 ^ 65 - (2 + (c.content.length + c.lw))) % 2 ^ 64 = takenOff cs := by
      omega
    rw [hn, HeaderChild.turn (hshort c List.mem_cons_self) hr, hleft,
      ebmlHeaderLoop_children cs (Reader.advance_rest _ _ _) (by
        rw [Reader.advance_rest]
        omega) (fun c hc => hshort c (List.mem_cons_of_mem _ hc)) (by omega),
      Reader.advance_advance]
    rfl

/-- With another number, or a string that is too long, the loop ends elsewhere when a byte
follows that is no id. -/
theorem ebmlHeaderLoop_elsewhere : ∀ (cs : List HeaderChild) {fuel length : Nat}
    {st : HeaderState} {r : Reader}, r.rest = childrenBytes cs ++ [0] → r.rest.length < fuel →
      length < 2 ^ 64 → takenOff cs < 2 ^ 64 →
      ¬(length = takenOff cs ∧ ∀ c ∈ cs, c.Short) →
      ∃ st' r', ebmlHeaderLoop fuel length st r = some (st', r') ∧
        r'.pos ≠ r.pos + (childrenBytes cs).length
  | [], fuel, length, st, r, hr, hfuel, _, _, hbad => by
    have hne : length ≠ 0 := fun h => hbad ⟨h, fun _ hc => nomatch hc⟩
    obtain ⟨fuel, rfl⟩ : ∃ k, fuel = k + 1 := ⟨fuel - 1, by omega⟩
    obtain ⟨length, rfl⟩ : ∃ k, length = k + 1 := ⟨length - 1, by omega⟩
    have hid : ebmlReadId r = ((ebmlIdInvalid, none), r.skip 1) := by
      rw [ebmlReadId, hr]
      rfl
    refine ⟨{ st with str := none }, r.skip 1, ?_, ?_⟩
    · rw [ebmlHeaderLoop, hid]
      simp only [if_pos]
    · rw [Reader.skip, Reader.read, hr]
      simp [childrenBytes]
  | c :: cs, fuel, length, st, r, hr, hfuel, hlength, hlt, hbad => by
    have hlw := c.coded.pos
    have hiw := c.isId.pos
    rw [childrenBytes, List.append_assoc] at hr
    rw [hr, List.length_append, c.length_bytes] at hfuel
    obtain ⟨fuel, rfl⟩ : ∃ k, fuel = k + 1 := ⟨fuel - 1, by omega⟩
    rw [takenOff] at hlt hbad
    rw [childrenBytes, List.length_append]
    cases length with
    | zero =>
      refine ⟨st, r, rfl, ?_⟩
      rw [c.length_bytes]
      omega
    | succ length =>
      by_cases hshort : c.Short
      · have hbad' : ¬((length + 1 + 2 ^ 65 - (2 + (c.content.length + c.lw))) % 2 ^ 64 =
            takenOff cs ∧ ∀ c ∈ cs, c.Short) := by
          rintro ⟨hleft, hall⟩
          refine hbad ⟨by omega, fun x hx => ?_⟩
          obtain rfl | hx := List.mem_cons.mp hx
          · exact hshort
          · exact hall x hx
        have hfuel' : (r.advance c.bytes (childrenBytes cs ++ [0])).rest.length < fuel := by
          rw [Reader.advance_rest]
          omega
        rw [HeaderChild.turn hshort hr, ← Nat.add_assoc r.pos]
        exact ebmlHeaderLoop_elsewhere cs rfl hfuel' (Nat.mod_lt _ (by decide)) (by omega)
          hbad'
      · obtain ⟨r', hloop, hpos⟩ : ∃ r', ebmlHeaderLoop (fuel + 1) (length + 1) st r =
            some ({ st with str := none }, r') ∧ r'.pos < r.pos + c.bytes.length :=
          HeaderChild.turn_long hshort hr
        refine ⟨_, r', hloop, ?_⟩
        omega

/-! ## The whole header -/

theorem nextAll_eq (version : Option Int) : ∀ (cs : List HeaderChild) (str : Option (List UInt8))
    (n : Nat), nextAll ⟨str, version.map fun _ => toInt32 n⟩ cs =
      ⟨docTypeOf str cs, version.map fun _ => toInt32 (readVersionOf n cs)⟩
  | [], _, _ => rfl
  | c :: cs, str, n => by
    have hversion : (if c.id = ebmlIdDocTypeReadVersion then
        (version.map fun _ => toInt32 n).map fun _ => toInt32 (beValue 0 c.content)
        else version.map fun _ => toInt32 n) =
        version.map fun _ => toInt32
          (if c.id = ebmlIdDocTypeReadVersion then beValue 0 c.content else n : Nat) := by
      by_cases hid : c.id = ebmlIdDocTypeReadVersion
      · cases version <;> simp only [if_pos hid, Option.map_none, Option.map_some]
      · simp only [if_neg hid]
    rw [nextAll, HeaderChild.next, hversion, nextAll_eq, docTypeOf, readVersionOf]

/-- The first lines of `ebml_read_header`. -/
theorem ebmlReadHeader_eq {cs : List HeaderChild} (version : Option Int)
    (hw : Coded w (childrenBytes cs).length) (hr : r.rest = headerBytes w cs ++ rest) :
    ebmlReadHeader version r =
      ebmlHeaderLoop ((childrenBytes cs ++ rest).length + 1) (childrenBytes cs).length
        ⟨none, version.map fun _ => 1⟩
        (r.advance (beBytes 4 ebmlIdHeader ++ vlen w (childrenBytes cs).length)
          (childrenBytes cs ++ rest)) := by
  have hid : IsId 4 ebmlIdHeader := ⟨by decide, by decide, by decide, by decide⟩
  have hr' : r.rest = beBytes 4 ebmlIdHeader ++ (vlen w (childrenBytes cs).length ++
      (childrenBytes cs ++ rest)) := by
    rw [hr, headerBytes, elementBytes, List.append_assoc, List.append_assoc]
  have hne : (childrenBytes cs).length ≠ ebmlUintInvalid := by
    have hpow : 2 ^ (7 * w) ≤ 2 ^ 56 := Nat.pow_le_pow_right (by decide) (by have := hw.le; omega)
    have hlt := hw.lt
    simp only [ebmlUintInvalid]
    omega
  have hmaster : ebmlReadMaster r = ((ebmlIdHeader, some (childrenBytes cs).length),
      r.advance (beBytes 4 ebmlIdHeader ++ vlen w (childrenBytes cs).length)
        (childrenBytes cs ++ rest)) := by
    rw [ebmlReadMaster, ebmlReadId_id hid hr']
    simp only [if_neg (show ebmlIdHeader ≠ ebmlIdInvalid by decide),
      ebmlReadLength_vlen hw (Reader.advance_rest _ _ _), if_neg hne, Reader.advance_advance]
  rw [ebmlReadHeader, hmaster]
  simp only [ne_eq, not_true, if_false, Reader.advance_rest]

/-- A header is read as it should, whatever follows it: the string is the `DocType`, the
version the `DocTypeReadVersion`, and the stream goes on behind the header. -/
def ReadsHeader (version : Option Int) (w : Nat) (cs : List HeaderChild) : Prop :=
  ∀ (r : Reader) (rest : List UInt8), r.rest = headerBytes w cs ++ rest →
    ebmlReadHeader version r =
      some (⟨docTypeOf none cs, version.map fun _ => (readVersionOf 1 cs : Int)⟩,
        r.advance (headerBytes w cs) rest)

theorem toInt32_eq_iff (n : Nat) : toInt32 n = n ↔ n < 0x80000000 := by
  simp only [toInt32]
  omega

theorem readsHeader_iff (version : Option Int) (w : Nat) (cs : List HeaderChild)
    (hw : Coded w (childrenBytes cs).length) :
    ReadsHeader version w cs ↔
      idBytes cs = 2 * cs.length ∧ (∀ c ∈ cs, c.Short) ∧
        (version.isSome → readVersionOf 1 cs < 0x80000000) := by
  have hlength := length_childrenBytes cs
  have hcount := length_le_childrenBytes cs
  have hpow : 2 ^ (7 * w) ≤ 2 ^ 56 := Nat.pow_le_pow_right (by decide) (by have := hw.le; omega)
  have hwlt := hw.lt
  have hheader : beBytes 4 ebmlIdHeader ++ vlen w (childrenBytes cs).length ++ childrenBytes cs =
      headerBytes w cs := by rw [headerBytes, elementBytes, List.append_assoc]
  -- What the loop gives when it counts down right.
  have hgood : ∀ (r : Reader) (rest : List UInt8), r.rest = headerBytes w cs ++ rest →
      idBytes cs = 2 * cs.length → (∀ c ∈ cs, c.Short) → ebmlReadHeader version r =
        some (⟨docTypeOf none cs, version.map fun _ => toInt32 (readVersionOf 1 cs)⟩,
          r.advance (headerBytes w cs) rest) := by
    intro r rest hr hids hshort
    have hoff : (childrenBytes cs).length = takenOff cs := by omega
    have hone : (1 : Int) = toInt32 (1 : Nat) := by decide
    rw [ebmlReadHeader_eq version hw hr, hoff]
    rw [ebmlHeaderLoop_children cs (Reader.advance_rest _ _ _) (by
      rw [Reader.advance_rest]
      exact Nat.lt_succ_self _) hshort (by omega), hone, nextAll_eq, Reader.advance_advance,
      ← hoff, hheader]
  constructor
  · intro h
    have hcounted : idBytes cs = 2 * cs.length ∧ ∀ c ∈ cs, c.Short := by
      refine Classical.byContradiction fun hbad => ?_
      have hbad' : ¬((childrenBytes cs).length = takenOff cs ∧ ∀ c ∈ cs, c.Short) :=
        fun hall => hbad ⟨by have := hall.1; omega, hall.2⟩
      have hr : (Reader.start (headerBytes w cs ++ [0])).rest = headerBytes w cs ++ [0] := rfl
      have hread := h _ _ hr
      rw [ebmlReadHeader_eq version hw hr] at hread
      have hfuel : (childrenBytes cs ++ [0]).length < (childrenBytes cs ++ [0]).length + 1 :=
        Nat.lt_succ_self _
      obtain ⟨st', r', hloop, hpos⟩ : ∃ st' r',
          ebmlHeaderLoop ((childrenBytes cs ++ [0]).length + 1) (childrenBytes cs).length
            ⟨none, version.map fun _ => 1⟩ ((Reader.start (headerBytes w cs ++ [0])).advance
              (beBytes 4 ebmlIdHeader ++ vlen w (childrenBytes cs).length)
              (childrenBytes cs ++ [0])) = some (st', r') ∧ r'.pos ≠ _ :=
        ebmlHeaderLoop_elsewhere cs rfl hfuel (by omega) (by omega) hbad'
      rw [hread] at hloop
      cases hloop
      refine hpos ?_
      rw [Reader.advance_pos, Reader.advance_pos, Nat.add_assoc, ← List.length_append, hheader]
    refine ⟨hcounted.1, hcounted.2, fun hsome => ?_⟩
    have hr : (Reader.start (headerBytes w cs ++ [])).rest = headerBytes w cs ++ [] := rfl
    have hboth := (hgood _ _ hr hcounted.1 hcounted.2).symm.trans (h _ _ hr)
    obtain ⟨v, rfl⟩ := Option.isSome_iff_exists.mp hsome
    have hstate := (Prod.mk.inj (Option.some.inj hboth)).1
    have hversion := congrArg HeaderState.version hstate
    exact (toInt32_eq_iff _).mp (Option.some.inj hversion)
  · rintro ⟨hids, hshort, hfits⟩ r rest hr
    rw [hgood r rest hr hids hshort]
    cases version with
    | none => simp only [Option.map_none]
    | some v =>
      simp only [Option.map_some, (toInt32_eq_iff _).mpr (hfits rfl)]

/-- A header is read as it should exactly if the ids of its children take two bytes on
average, no `DocType` has `INT_MAX` bytes, and an `int` can hold the version that is stored. -/
theorem ebml_header_exact (version : Option Int) (w : Nat) (cs : List HeaderChild)
    (hw : Coded w (childrenBytes cs).length) :
    ReadsHeader version w cs ↔
      idBytes cs = 2 * cs.length ∧ (∀ c ∈ cs, c.id = ebmlIdDocType → c.content.length < intMax) ∧
        (version.isSome → readVersionOf 1 cs < 0x80000000) :=
  readsHeader_iff version w cs hw

/-- A `DocType`. -/
def matroskaChild : HeaderChild where
  iw := 2
  id := ebmlIdDocType
  lw := 1
  content := [109, 97, 116, 114, 111, 115, 107, 97]
  isId := ⟨by decide, by decide, by decide, by decide⟩
  coded := ⟨by decide, by decide, by decide⟩
  acceptable := ⟨fun h => absurd h (by decide), fun h => absurd h (by decide),
    fun h => absurd h (by decide), fun h => absurd h (by decide)⟩

/-- An `EBMLVoid` without content. -/
def voidChild : HeaderChild where
  iw := 1
  id := 0xEC
  lw := 1
  content := []
  isId := ⟨by decide, by decide, by decide, by decide⟩
  coded := ⟨by decide, by decide, by decide⟩
  acceptable := ⟨fun h => absurd h (by decide), fun h => absurd h (by decide),
    fun h => absurd h (by decide), fun h => absurd h (by decide)⟩

theorem ebml_header_exact_matroska :
    Coded 1 (childrenBytes [matroskaChild]).length ∧ ReadsHeader (some 0) 1 [matroskaChild] := by
  have hw : Coded 1 (childrenBytes [matroskaChild]).length :=
    ⟨by decide, by decide, by decide⟩
  refine ⟨hw, (ebml_header_exact (some 0) 1 [matroskaChild] hw).mpr ⟨rfl, ?_, fun _ => ?_⟩⟩
  · intro c hc _
    rw [List.mem_singleton.mp hc]
    decide
  · decide

/-- A header that ends with an `EBMLVoid`. -/
theorem void_in_header :
    ¬ ∀ (version : Option Int) (w : Nat) (cs : List HeaderChild),
      Coded w (childrenBytes cs).length → ReadsHeader version w cs := by
  intro h
  have hw : Coded 1 (childrenBytes [matroskaChild, voidChild]).length :=
    ⟨by decide, by decide, by decide⟩
  have hids := ((readsHeader_iff (some 0) 1 _ hw).mp (h _ _ _ hw)).1
  exact absurd hids (by decide)

end MPlayer
