import MPlayer.Stream.Text

/-!
# Header fields

`http_get_field` looks for the fields with a name, one after the other, and keeps in the header
where it goes on.  It compares as many bytes as the name of the field has, so that a field also
matches if its name is only what the searched name begins with, and it stops for good at a field
without a colon.

*Searching.*  The calls give the fields that the code takes for a match (`fieldCalls_eq`).

*Exactness.*  These are the fields with the searched name exactly if no other field matches and
none is behind one without a colon (`http_fields_exact`).
-/

namespace MPlayer

/-! ## The code -/

/-- `HTTP_header_t`.  The fields are the list that `first_field` and `last_field` are the ends of,
and a place in it is `none` if the pointer is NULL.  The body is a place in the buffer. -/
structure HttpHeader where
  protocol : Option (List UInt8) := none
  statusCode : Nat := 0
  reasonPhrase : Option (List UInt8) := none
  httpMinorVersion : Nat := 0
  fields : List (List UInt8) := []
  fieldNb : Nat := 0
  fieldSearch : List UInt8 := []
  fieldSearchPos : Option Nat := none
  body : Option Nat := none
  bodySize : Nat := 0
  buffer : List UInt8 := []
  isParsed : Bool := false
deriving DecidableEq

def httpSetField (h : HttpHeader) (fieldName : List UInt8) : HttpHeader :=
  { h with fields := h.fields ++ [fieldName], fieldNb := h.fieldNb + 1 }

/-- A pointer into a field: which field, and the string it points to. -/
structure FieldValue where
  field : Nat
  text : List UInt8
deriving DecidableEq

/-- The pointer to the field at this place. -/
def fieldPos (fields : List (List UInt8)) (i : Nat) : Option Nat :=
  if i < fields.length then some i else none

/-- What is behind the colon at a place, and the spaces. -/
def skipColon (field : List UInt8) (n : Nat) : List UInt8 :=
  (field.drop (n + 1)).dropWhile (· = ascii ' ')

/-- The loop of `http_get_next_field`, from the `i`-th field on. -/
def findField (search : List UInt8) (i : Nat) : List (List UInt8) → Option FieldValue
  | [] => none
  | field :: rest =>
    match Lib.findSub [ascii ':'] field with
    | none => none
    | some n =>
      if avStrncaseeq field search n then some ⟨i, skipColon field n⟩
      else findField search (i + 1) rest

def httpGetNextField (h : HttpHeader) : Option FieldValue × HttpHeader :=
  match h.fieldSearchPos with
  | none => (none, h)
  | some i =>
    match findField h.fieldSearch i (h.fields.drop i) with
    | none => (none, h)
    | some v => (some v, { h with fieldSearchPos := fieldPos h.fields (v.field + 1) })

def httpGetField (h : HttpHeader) (fieldName : List UInt8) : Option FieldValue × HttpHeader :=
  httpGetNextField { h with fieldSearchPos := fieldPos h.fields 0, fieldSearch := fieldName }

/-- A call of `http_get_field` and calls of `http_get_next_field` behind it. -/
def fieldCalls (h : HttpHeader) (fieldName : List UInt8) : Nat → Option FieldValue × HttpHeader
  | 0 => httpGetField h fieldName
  | k + 1 => httpGetNextField (fieldCalls h fieldName k).2

/-! ## Names -/

/-- The name of a field, if it has a colon. -/
def nameOf (field : List UInt8) : List UInt8 := field.takeWhile (· ≠ ascii ':')

/-- The value of a field. -/
def valueOf (field : List UInt8) : List UInt8 :=
  ((field.dropWhile (· ≠ ascii ':')).drop 1).dropWhile (· = ascii ' ')

def HasColon (field : List UInt8) : Prop := ascii ':' ∈ field

instance (field : List UInt8) : Decidable (HasColon field) :=
  inferInstanceAs (Decidable (_ ∈ _))

/-- The field has this name, ignoring case. -/
def Named (name field : List UInt8) : Prop :=
  HasColon field ∧ (nameOf field).map avTolower = name.map avTolower

instance (name field : List UInt8) : Decidable (Named name field) :=
  inferInstanceAs (Decidable (_ ∧ _))

/-- The field's name is what this name begins with, ignoring case. -/
def BeginsName (name field : List UInt8) : Prop :=
  (nameOf field).map avTolower <+: name.map avTolower

instance (name field : List UInt8) : Decidable (BeginsName name field) :=
  inferInstanceAs (Decidable (_ <+: _))

/-- The values of the fields with this name, counted from a place on. -/
def namedFrom (name : List UInt8) (i : Nat) (fields : List (List UInt8)) : List FieldValue :=
  ((fields.zipIdx i).filter fun p => Named name p.1).map fun p => ⟨p.2, valueOf p.1⟩

/-- What the code takes for them: fields in front of one without a colon. -/
def fieldsFound (name : List UInt8) (i : Nat) : List (List UInt8) → List FieldValue
  | [] => []
  | field :: rest =>
    if HasColon field then
      if BeginsName name field then ⟨i, valueOf field⟩ :: fieldsFound name (i + 1) rest
      else fieldsFound name (i + 1) rest
    else []

variable {field name : List UInt8}

/-- A field with a colon, split at its first one. -/
theorem HasColon.split (h : HasColon field) :
    ∃ n, Lib.findSub [ascii ':'] field = some n ∧ (field.take n = nameOf field) ∧
      n = (nameOf field).length ∧ skipColon field n = valueOf field := by
  obtain ⟨pre, suf, rfl, hpre⟩ := List.eq_append_cons_of_mem h
  have hall : ∀ c ∈ pre, decide (c ≠ ascii ':') = true := fun c hc =>
    decide_eq_true fun e => hpre (e ▸ hc)
  have hname : nameOf (pre ++ ascii ':' :: suf) = pre := by
    rw [nameOf, List.takeWhile_append_of_pos hall, List.takeWhile_cons_of_neg (by decide),
      List.append_nil]
  have hvalue : valueOf (pre ++ ascii ':' :: suf) = suf.dropWhile (· = ascii ' ') := by
    rw [valueOf, List.dropWhile_append_of_pos hall, List.dropWhile_cons_of_neg (by decide)]
    rfl
  refine ⟨pre.length, Lib.findSub_letter suf hpre, ?_, ?_, ?_⟩
  · rw [hname, List.take_left]
  · rw [hname]
  · rw [hvalue, skipColon, ← List.drop_drop, List.drop_left]
    rfl

/-- The comparison finds the fields whose name the searched one begins with. -/
theorem avStrncaseeq_name (name : List UInt8) {n : Nat} (htake : field.take n = nameOf field)
    (hn : n = (nameOf field).length) :
    avStrncaseeq field name n = true ↔ BeginsName name field := by
  rw [avStrncaseeq_iff, htake, BeginsName, List.prefix_iff_eq_take, List.length_map, ← hn,
    List.map_take]

/-! ## Searching -/

/-- The search finds the first of the fields. -/
theorem findField_eq (name : List UInt8) : ∀ (i : Nat) (fields : List (List UInt8)),
    findField name i fields = (fieldsFound name i fields).head?
  | _, [] => rfl
  | i, field :: rest => by
    rw [findField, fieldsFound]
    by_cases hc : HasColon field
    · obtain ⟨n, hn, htake, hlen, hvalue⟩ := hc.split
      have hiff := avStrncaseeq_name name htake hlen
      rw [if_pos hc, hn, ← hvalue]
      by_cases hb : BeginsName name field
      · rw [if_pos hb]
        exact if_pos (hiff.mpr hb)
      · rw [if_neg hb, ← findField_eq name (i + 1) rest]
        exact if_neg fun h => hb (hiff.mp h)
    · rw [if_neg hc, Lib.findSub_none_of_not_mem hc]
      rfl

/-- Behind a field that is found, the search finds the others. -/
theorem fieldsFound_tail (name : List UInt8) : ∀ (i : Nat) {fields : List (List UInt8)}
    {v : FieldValue}, (fieldsFound name i fields).head? = some v →
    i ≤ v.field ∧ v.field < i + fields.length ∧
      fieldsFound name (v.field + 1) (fields.drop (v.field + 1 - i)) =
        (fieldsFound name i fields).tail
  | _, [], _, h => by cases h
  | i, field :: rest, v, h => by
    rw [fieldsFound] at h ⊢
    by_cases hc : HasColon field
    · rw [if_pos hc] at h ⊢
      by_cases hb : BeginsName name field
      · rw [if_pos hb] at h ⊢
        cases h
        refine ⟨Nat.le_refl i, Nat.lt_add_of_pos_right (Nat.succ_pos _), ?_⟩
        rw [Nat.add_sub_cancel_left]
        rfl
      · rw [if_neg hb] at h ⊢
        obtain ⟨hle, hlt, htail⟩ := fieldsFound_tail name (i + 1) h
        have hsub : v.field + 1 - i = v.field + 1 - (i + 1) + 1 := by omega
        rw [List.length_cons, hsub]
        exact ⟨by omega, by omega, htail⟩
    · rw [if_neg hc] at h
      cases h

/-- What is still to be found from a state of the header on. -/
def HttpHeader.toFind (h : HttpHeader) : List FieldValue :=
  match h.fieldSearchPos with
  | none => []
  | some i => fieldsFound h.fieldSearch i (h.fields.drop i)

theorem toFind_fieldPos (h : HttpHeader) (i : Nat) :
    HttpHeader.toFind { h with fieldSearchPos := fieldPos h.fields i } =
      fieldsFound h.fieldSearch i (h.fields.drop i) := by
  by_cases hi : i < h.fields.length
  · rw [fieldPos, if_pos hi]
    rfl
  · rw [fieldPos, if_neg hi, List.drop_of_length_le (Nat.le_of_not_lt hi)]
    rfl

/-- A call gives what is found next, and the rest is still to be found. -/
theorem httpGetNextField_eq (h : HttpHeader) :
    (httpGetNextField h).1 = h.toFind.head? ∧ (httpGetNextField h).2.toFind = h.toFind.tail ∧
      (httpGetNextField h).2.fields = h.fields := by
  obtain ⟨pos, hpos⟩ : ∃ p, h.fieldSearchPos = p := ⟨_, rfl⟩
  rw [httpGetNextField, hpos]
  cases pos with
  | none =>
    have hnone : h.toFind = [] := by rw [HttpHeader.toFind, hpos]
    rw [hnone]
    exact ⟨rfl, rfl, rfl⟩
  | some i =>
    have hsome : h.toFind = fieldsFound h.fieldSearch i (h.fields.drop i) := by
      rw [HttpHeader.toFind, hpos]
    have hfind := findField_eq h.fieldSearch i (h.fields.drop i)
    rw [← hsome] at hfind
    obtain ⟨r, hr⟩ : ∃ r, findField h.fieldSearch i (h.fields.drop i) = r := ⟨_, rfl⟩
    rw [hr] at hfind
    dsimp only
    rw [hr]
    cases r with
    | none =>
      rw [List.head?_eq_none_iff.mp hfind.symm]
      exact ⟨rfl, rfl, rfl⟩
    | some v =>
      rw [hsome] at hfind
      obtain ⟨hle, -, htail⟩ := fieldsFound_tail h.fieldSearch i hfind.symm
      have hsum : i + (v.field + 1 - i) = v.field + 1 := by omega
      rw [List.drop_drop, hsum, ← hsome] at htail
      refine ⟨?_, (toFind_fieldPos h (v.field + 1)).trans htail, rfl⟩
      rw [hsome]
      exact hfind

/-- The calls give the fields that the code takes for a match. -/
theorem fieldCalls_eq (h : HttpHeader) (name : List UInt8) (k : Nat) :
    (fieldCalls h name k).1 = (fieldsFound name 0 h.fields)[k]? ∧
      (fieldCalls h name k).2.toFind = (fieldsFound name 0 h.fields).drop (k + 1) := by
  induction k with
  | zero =>
    have hstart : HttpHeader.toFind
        { h with fieldSearchPos := fieldPos h.fields 0, fieldSearch := name } = _ :=
      toFind_fieldPos { h with fieldSearch := name } 0
    obtain ⟨hfst, hrest, -⟩ := httpGetNextField_eq
      { h with fieldSearchPos := fieldPos h.fields 0, fieldSearch := name }
    rw [hstart] at hfst hrest
    exact ⟨hfst.trans List.head?_eq_getElem?, hrest.trans List.drop_one.symm⟩
  | succ k ih =>
    obtain ⟨hfst, hrest, -⟩ := httpGetNextField_eq (fieldCalls h name k).2
    rw [ih.2] at hfst hrest
    exact ⟨hfst.trans List.head?_drop, hrest.trans List.tail_drop⟩

/-! ## Exactness -/

/-- The calls give the values of the fields with the name, and then NULL. -/
def FieldsExact (h : HttpHeader) (name : List UInt8) : Prop :=
  ∀ k, (fieldCalls h name k).1 = (namedFrom name 0 h.fields)[k]?

/-- In front of a field without a colon only fields with the name match, and behind it there is
none. -/
structure NamesApart (name : List UInt8) (fields : List (List UInt8)) : Prop where
  front : ∀ f ∈ fields.takeWhile (HasColon ·), BeginsName name f → Named name f
  behind : ∀ f ∈ fields.dropWhile (HasColon ·), ¬ Named name f

theorem Named.begins (h : Named name field) : BeginsName name field :=
  (congrArg (· <+: name.map avTolower) h.2).mpr (List.prefix_refl _)

theorem namedFrom_cons (name : List UInt8) (i : Nat) (field : List UInt8)
    (rest : List (List UInt8)) :
    namedFrom name i (field :: rest) =
      if Named name field then ⟨i, valueOf field⟩ :: namedFrom name (i + 1) rest
      else namedFrom name (i + 1) rest := by
  rw [namedFrom, List.zipIdx_cons, List.filter_cons]
  split
  · rename_i h
    rw [if_pos (of_decide_eq_true h)]
    rfl
  · rename_i h
    rw [if_neg fun hn => h (decide_eq_true hn)]
    rfl

/-- The counting has reached the fields that follow. -/
theorem le_of_mem_namedFrom {v : FieldValue} :
    ∀ {i : Nat} {fields : List (List UInt8)}, v ∈ namedFrom name i fields → i ≤ v.field
  | _, [], h => absurd h List.not_mem_nil
  | i, field :: rest, h => by
    rw [namedFrom_cons] at h
    split at h
    · rcases List.mem_cons.mp h with rfl | h
      · exact Nat.le_refl i
      · exact Nat.le_of_succ_le (le_of_mem_namedFrom h)
    · exact Nat.le_of_succ_le (le_of_mem_namedFrom h)

theorem namedFrom_eq_nil_iff (name : List UInt8) : ∀ (i : Nat) (fields : List (List UInt8)),
    namedFrom name i fields = [] ↔ ∀ f ∈ fields, ¬ Named name f
  | _, [] => ⟨fun _ _ h => absurd h List.not_mem_nil, fun _ => rfl⟩
  | i, field :: rest => by
    rw [namedFrom_cons, List.forall_mem_cons]
    split
    · rename_i h
      exact ⟨fun e => absurd e (List.cons_ne_nil _ _), fun e => absurd h e.1⟩
    · rename_i h
      rw [namedFrom_eq_nil_iff name (i + 1) rest]
      exact ⟨fun e => ⟨h, e⟩, fun e => e.2⟩

theorem NamesApart.cons_iff {rest : List (List UInt8)} (hc : HasColon field) :
    NamesApart name (field :: rest) ↔
      (BeginsName name field → Named name field) ∧ NamesApart name rest := by
  have htake : (field :: rest).takeWhile (HasColon ·) = field :: rest.takeWhile (HasColon ·) :=
    List.takeWhile_cons_of_pos (decide_eq_true hc)
  have hdrop : (field :: rest).dropWhile (HasColon ·) = rest.dropWhile (HasColon ·) :=
    List.dropWhile_cons_of_pos (decide_eq_true hc)
  constructor
  · rintro ⟨hfront, hbehind⟩
    rw [htake, List.forall_mem_cons] at hfront
    rw [hdrop] at hbehind
    exact ⟨hfront.1, hfront.2, hbehind⟩
  · rintro ⟨hfield, hfront, hbehind⟩
    constructor
    · rw [htake, List.forall_mem_cons]
      exact ⟨hfield, hfront⟩
    · rw [hdrop]
      exact hbehind

theorem NamesApart.colonless_iff {rest : List (List UInt8)} (hc : ¬ HasColon field) :
    NamesApart name (field :: rest) ↔ ∀ f ∈ rest, ¬ Named name f := by
  have hd : decide (HasColon field) ≠ true := fun h => hc (of_decide_eq_true h)
  have htake : (field :: rest).takeWhile (HasColon ·) = [] := List.takeWhile_cons_of_neg hd
  have hdrop : (field :: rest).dropWhile (HasColon ·) = field :: rest :=
    List.dropWhile_cons_of_neg hd
  constructor
  · rintro ⟨-, hbehind⟩
    rw [hdrop] at hbehind
    exact fun f hf => hbehind f (List.mem_cons_of_mem field hf)
  · intro h
    constructor
    · rw [htake]
      exact fun f hf => absurd hf List.not_mem_nil
    · rw [hdrop, List.forall_mem_cons]
      exact ⟨fun hn => hc hn.1, h⟩

theorem fieldsFound_eq_iff (name : List UInt8) : ∀ (i : Nat) (fields : List (List UInt8)),
    fieldsFound name i fields = namedFrom name i fields ↔ NamesApart name fields
  | _, [] => by
    refine ⟨fun _ => ⟨?_, ?_⟩, fun _ => rfl⟩
    · exact fun _ h => absurd h List.not_mem_nil
    · exact fun _ h => absurd h List.not_mem_nil
  | i, field :: rest => by
    have ih := fieldsFound_eq_iff name (i + 1) rest
    rw [fieldsFound, namedFrom_cons]
    by_cases hc : HasColon field
    · rw [if_pos hc, NamesApart.cons_iff hc, ← ih]
      by_cases hn : Named name field
      · rw [if_pos hn, if_pos hn.begins, List.cons_eq_cons]
        exact ⟨fun h => ⟨fun _ => hn, h.2⟩, fun h => ⟨rfl, h.2⟩⟩
      · rw [if_neg hn]
        by_cases hb : BeginsName name field
        · rw [if_pos hb]
          constructor
          · intro h
            have hmem : (⟨i, valueOf field⟩ : FieldValue) ∈ namedFrom name (i + 1) rest :=
              h ▸ List.mem_cons_self
            exact absurd (le_of_mem_namedFrom hmem) (Nat.not_succ_le_self i)
          · intro h
            exact absurd (h.1 hb) hn
        · rw [if_neg hb]
          exact ⟨fun h => ⟨fun hb' => absurd hb' hb, h⟩, fun h => h.2⟩
    · rw [if_neg hc, NamesApart.colonless_iff hc, if_neg fun hn => hc hn.1,
        ← namedFrom_eq_nil_iff name (i + 1) rest]
      exact eq_comm

/-- Exactly when the search is exact. -/
theorem http_fields_exact (h : HttpHeader) (name : List UInt8) :
    FieldsExact h name ↔ NamesApart name h.fields := by
  rw [← fieldsFound_eq_iff name 0 h.fields]
  constructor
  · intro hex
    exact List.ext_getElem? fun k => ((fieldCalls_eq h name k).1).symm.trans (hex k)
  · intro heq k
    rw [(fieldCalls_eq h name k).1, heq]

/-- A field named `Content` is found in a search for `Content-Length`. -/
theorem http_fields_not_exact :
    ¬ FieldsExact { fields := [asciis "Content: 1", asciis "Content-Length: 2"] }
      (asciis "Content-Length") := by
  intro h
  exact absurd (h 0) (by decide)

end MPlayer
