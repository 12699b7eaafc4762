import MPlayer.Config.Scope

/-!
# The two passes of `parse_str_list`

One pass counts the fields of the parameter, the other cuts them out of a copy.  Both find the
separators with `get_nextsep`, the first on the string as it is and the second while it moves
the rest of the string over the backslashes.  Both find the same separators in every string,
and a list of strings whose separators are written with a backslash comes back as it was.
-/

namespace MPlayer

variable {F : Type}

/-! ## `get_nextsep` -/

/-- `strchr` from a position on, which gives a position. -/
def strchrAt (s : CStr) (c : Char) (ptr : Nat) : Option Nat :=
  ((s.drop ptr).idxOf? c).map (ptr + ·)

variable {s u v pre t raw field : CStr} {ptr p lastPtr : Nat} {modify : Bool} {sep : Char}

theorem strchrAt_bounds {c : Char} (h : strchrAt s c ptr = some p) : ptr ≤ p ∧ p < s.length := by
  obtain ⟨i, hi, rfl⟩ := Option.map_eq_some_iff.mp h
  have hlt : i < (s.drop ptr).length := by
    rw [List.idxOf?_eq_some_iff] at hi
    exact hi.1
  rw [List.length_drop] at hlt
  omega

/-- The loop of `get_nextsep`: the separator it finds, and the string as it leaves it. -/
@[grind =] def getNextsepLoop (modify : Bool) (sep : Char) (lastPtr ptr : Nat) (s : CStr) :
    Option Nat × CStr :=
  match h : strchrAt s sep ptr with
  | none => (none, s)
  | some p =>
    if lastPtr < p ∧ s[p - 1]? = some '\\' then
      if modify then getNextsepLoop modify sep lastPtr p (s.eraseIdx (p - 1))
      else getNextsepLoop modify sep lastPtr (p + 1) s
    else (some p, s)
termination_by s.length - ptr
decreasing_by
  · have := strchrAt_bounds h
    rw [List.length_eraseIdx_of_lt (by omega)]
    omega
  · have := strchrAt_bounds h
    omega

/-- `get_nextsep`. -/
def getNextsep (modify : Bool) (sep : Char) (ptr : Nat) (s : CStr) : Option Nat × CStr :=
  getNextsepLoop modify sep ptr ptr s

theorem getNextsepLoop_bounds (modify : Bool) (sep : Char) (lastPtr ptr : Nat) (s : CStr) :
    (getNextsepLoop modify sep lastPtr ptr s).2.length ≤ s.length ∧
      ∀ p, (getNextsepLoop modify sep lastPtr ptr s).1 = some p →
        ptr ≤ p ∧ p < (getNextsepLoop modify sep lastPtr ptr s).2.length := by
  fun_induction getNextsepLoop modify sep lastPtr ptr s with
  | case1 ptr s h => exact ⟨Nat.le_refl _, fun p hp => nomatch hp⟩
  | case2 ptr s p h hback hm ih =>
    have hp := strchrAt_bounds h
    rw [List.length_eraseIdx_of_lt (by omega)] at ih
    exact ⟨by omega, fun q hq => ⟨Nat.le_trans hp.1 (ih.2 q hq).1, (ih.2 q hq).2⟩⟩
  | case3 ptr s p h hback hm ih =>
    have hp := strchrAt_bounds h
    exact ⟨ih.1, fun q hq => ⟨by have := (ih.2 q hq).1; omega, (ih.2 q hq).2⟩⟩
  | case4 ptr s p h hback =>
    exact ⟨Nat.le_refl _, fun q hq => by cases hq; exact strchrAt_bounds h⟩

theorem getNextsep_bounds {s' : CStr} (h : getNextsep modify sep ptr s = (some p, s')) :
    ptr ≤ p ∧ p < s'.length ∧ s'.length ≤ s.length := by
  have hb := getNextsepLoop_bounds modify sep ptr ptr s
  rw [show getNextsepLoop modify sep ptr ptr s = _ from h] at hb
  exact ⟨(hb.2 p rfl).1, (hb.2 p rfl).2, hb.1⟩

/-! ## The passes -/

/-- The counting loop: the fields that it counts, and where it finds the separators. -/
@[grind =] def countPass (sep : Char) (s : CStr) (ptr n : Nat) : Nat × List Nat :=
  if ptr < s.length then
    match h : getNextsep false sep ptr s with
    | (none, _) => (n + 1, [])
    | (some p, _) =>
      let (n, seps) := countPass sep s (p + 1) (n + 1)
      (n, p :: seps)
  else (n, [])
termination_by s.length - ptr
decreasing_by
  have := getNextsep_bounds h
  omega

/-- A pointer of the list that `parse_str_list` allocates. -/
inductive ResCell where
  | garbage
  | null
  | str (s : CStr)
deriving DecidableEq

/-- Write a pointer of the list; `none` when it is beyond what is allocated. -/
def putCell (res : List ResCell) (n : Nat) (c : ResCell) : Option (List ResCell) :=
  if n < res.length then some (res.set n c) else none

/-- The filling loop: the number of fields, the list, and where the separators that it finds
are in the string as it was before `removed` characters were removed from it. -/
@[grind =] def fillPass (sep : Char) (s : CStr) (ptr n removed : Nat) (res : List ResCell) :
    Option (Nat × List ResCell × List Nat) :=
  match h : getNextsep true sep ptr s with
  | (none, s') => (putCell res n (.str (s'.drop ptr))).map fun res => (n + 1, res, [])
  | (some p, s') =>
    match putCell res n (.str ((s'.drop ptr).take (p - ptr))) with
    | none => none
    | some res =>
      let removed := removed + (s.length - s'.length)
      (fillPass sep s' (p + 1) (n + 1) removed res).map fun (n, res, seps) =>
        (n, res, (p + removed) :: seps)
termination_by s.length - ptr
decreasing_by
  have := getNextsep_bounds h
  omega

/-- What `parse_str_list` does to fill the list, with its last `NULL`: the list and the
separators found, unless something is written beyond what is allocated. -/
def fillList (sep : Char) (param : CStr) : Option (List ResCell × List Nat) :=
  let res := List.replicate ((countPass sep param 0 0).1 + 2) ResCell.garbage
  match fillPass sep param 0 0 0 res with
  | none => none
  | some (n, res, seps) => (putCell res n .null).map fun res => (res, seps)

/-! ## What a call finds -/

theorem strchrAt_append (pre : CStr) (hu : sep ∉ u) :
    strchrAt (pre ++ (u ++ sep :: v)) sep pre.length = some ((pre ++ u).length) := by
  have hfind : (u ++ sep :: v).idxOf? sep = some u.length := by
    rw [List.idxOf?_eq_some_iff]
    refine ⟨by simp, by simp, fun j hj => ?_⟩
    rw [List.getElem_append_left hj]
    exact fun h => hu (h ▸ List.getElem_mem hj)
  rw [strchrAt, List.drop_left, hfind, List.length_append]
  rfl

theorem strchrAt_of_not_mem (pre : CStr) (hu : sep ∉ u) :
    strchrAt (pre ++ u) sep pre.length = none := by
  rw [strchrAt, List.drop_left, List.idxOf?_eq_none_iff.mpr hu]
  rfl

theorem getNextsepLoop_none (h : strchrAt s sep ptr = none) :
    getNextsepLoop modify sep lastPtr ptr s = (none, s) := by
  rw [getNextsepLoop]
  split
  · rfl
  · next h' => rw [h] at h'; cases h'

theorem getNextsepLoop_some (h : strchrAt s sep ptr = some p) :
    getNextsepLoop modify sep lastPtr ptr s =
      if lastPtr < p ∧ s[p - 1]? = some '\\' then
        if modify then getNextsepLoop modify sep lastPtr p (s.eraseIdx (p - 1))
        else getNextsepLoop modify sep lastPtr (p + 1) s
      else (some p, s) := by
  rw [getNextsepLoop]
  split
  · next h' => rw [h] at h'; cases h'
  · next q h' => rw [h] at h'; cases h'; rfl

/-- The next field of a string: as it stands there, without the backslashes that are taken
out of it, and what follows its separator. -/
inductive NextField (sep : Char) : CStr → CStr → CStr → Option CStr → Prop where
  | last {u : CStr} : sep ∉ u → NextField sep u u u none
  | cut {u v : CStr} : sep ∉ u → u.getLast? ≠ some '\\' →
      NextField sep (u ++ sep :: v) u u (some v)
  | escaped {u v raw field : CStr} {rest : Option CStr} : sep ∉ u →
      NextField sep v raw field rest →
      NextField sep (u ++ '\\' :: sep :: v) (u ++ '\\' :: sep :: raw) (u ++ sep :: field) rest

/-- A separator and what follows it, if there is one. -/
def sepTail (sep : Char) : Option CStr → CStr
  | none => []
  | some v => sep :: v

theorem NextField.eq_append {sep : Char} {t raw field : CStr} {rest : Option CStr} :
    NextField sep t raw field rest → t = raw ++ sepTail sep rest
  | .last _ => (List.append_nil _).symm
  | .cut _ _ => rfl
  | .escaped _ h => by rw [h.eq_append, List.append_assoc]; rfl

theorem NextField.length_le {sep : Char} {t raw field : CStr} {rest : Option CStr} :
    NextField sep t raw field rest → field.length ≤ raw.length
  | .last _ => Nat.le_refl _
  | .cut _ _ => Nat.le_refl _
  | .escaped _ h => by
    have := h.length_le
    simp only [List.length_append, List.length_cons]
    omega

/-- Every string has a next field. -/
theorem exists_nextField (sep : Char) (t : CStr) :
    ∃ raw field rest, NextField sep t raw field rest := by
  by_cases hmem : sep ∈ t
  · obtain ⟨u, v, rfl, hu⟩ := List.eq_append_cons_of_mem hmem
    by_cases hlast : u.getLast? = some '\\'
    · obtain ⟨u', rfl⟩ := List.getLast?_eq_some_iff.mp hlast
      obtain ⟨raw, field, rest, h⟩ := exists_nextField sep v
      refine ⟨u' ++ '\\' :: sep :: raw, u' ++ sep :: field, rest, ?_⟩
      rw [List.append_assoc]
      exact .escaped (fun h => hu (List.mem_append_left _ h)) h
    · exact ⟨u, u, some v, .cut hu hlast⟩
  · exact ⟨t, t, none, .last hmem⟩
termination_by t.length
decreasing_by
  subst_vars
  simp only [List.length_append, List.length_cons]
  omega

/-- There is no backslash where the search goes on. -/
def FreshAt (lastPtr : Nat) (pre : CStr) : Prop :=
  lastPtr = pre.length ∨ lastPtr < pre.length ∧ pre.getLast? ≠ some '\\'

theorem FreshAt.not_escaped (h : FreshAt lastPtr pre) (hu : u.getLast? ≠ some '\\') :
    ¬(lastPtr < (pre ++ u).length ∧ (pre ++ (u ++ v))[(pre ++ u).length - 1]? = some '\\') := by
  rintro ⟨hlt, hback⟩
  rw [← List.append_assoc, List.getElem?_append_left (by omega), ← List.getLast?_eq_getElem?,
    List.getLast?_append] at hback
  cases hlast : u.getLast? with
  | some c =>
    rw [hlast] at hback
    exact hu (hlast.trans hback)
  | none =>
    rw [hlast] at hback
    rw [List.getLast?_eq_none_iff.mp hlast, List.append_nil] at hlt
    obtain rfl | ⟨-, hne⟩ := h
    · exact Nat.lt_irrefl _ hlt
    · exact hne hback

theorem FreshAt.snoc (h : lastPtr ≤ pre.length) (hsep : sep ≠ '\\') :
    FreshAt lastPtr (pre ++ [sep]) := by
  refine .inr ⟨by rw [List.length_append]; exact Nat.lt_succ_of_le h, ?_⟩
  rw [List.getLast?_concat]
  exact fun h => hsep (Option.some.inj h)

theorem FreshAt.le : FreshAt lastPtr pre → lastPtr ≤ pre.length
  | .inl h => Nat.le_of_eq h
  | .inr h => Nat.le_of_lt h.1

/-- The position that the backslash before an escaped separator has. -/
theorem strchrAt_escaped (pre : CStr) (hsep : sep ≠ '\\') (hu : sep ∉ u) :
    strchrAt (pre ++ (u ++ '\\' :: sep :: v)) sep pre.length = some ((pre ++ u).length + 1) := by
  have hu' : sep ∉ u ++ ['\\'] := by
    rw [List.mem_append, List.mem_singleton]
    exact fun h => h.elim hu hsep
  have h := strchrAt_append (v := v) pre hu'
  rw [List.append_assoc] at h
  rw [show '\\' :: sep :: v = ['\\'] ++ sep :: v from rfl, h]
  simp only [List.length_append, List.length_cons, List.length_nil, Nat.add_assoc]

theorem getElem?_backslash (w v : CStr) : (w ++ '\\' :: v)[w.length + 1 - 1]? = some '\\' := by
  rw [Nat.add_sub_cancel, List.getElem?_append_right (Nat.le_refl _), Nat.sub_self]
  rfl

/-- What a call finds in the counting pass, where the string stays as it is. -/
theorem NextField.count {sep : Char} {t raw field : CStr} {rest : Option CStr} {lastPtr : Nat}
    (hsep : sep ≠ '\\') :
    NextField sep t raw field rest → ∀ pre : CStr, FreshAt lastPtr pre →
      getNextsepLoop false sep lastPtr pre.length (pre ++ t) =
        (rest.map fun _ => (pre ++ raw).length, pre ++ t)
  | .last hu, pre, _ => getNextsepLoop_none (strchrAt_of_not_mem pre hu)
  | .cut hu hlast, pre, hfresh => by
    rw [getNextsepLoop_some (strchrAt_append pre hu), if_neg (hfresh.not_escaped hlast)]
    rfl
  | @NextField.escaped _ u v raw _ _ hu h, pre, hfresh => by
    have hle := hfresh.le
    have hpre : pre ++ (u ++ '\\' :: sep :: v) = (pre ++ u ++ ['\\'] ++ [sep]) ++ v := by
      simp only [List.append_assoc, List.cons_append, List.nil_append]
    have hlen : (pre ++ u).length + 1 + 1 = (pre ++ u ++ ['\\'] ++ [sep]).length := by
      simp only [List.length_append, List.length_cons, List.length_nil]
    have hnext : FreshAt lastPtr (pre ++ u ++ ['\\'] ++ [sep]) :=
      FreshAt.snoc (by simp only [List.length_append]; omega) hsep
    rw [getNextsepLoop_some (strchrAt_escaped pre hsep hu), if_pos, if_neg Bool.false_ne_true,
      hlen, hpre, h.count hsep _ hnext]
    · simp only [List.append_assoc, List.cons_append, List.nil_append]
    · refine ⟨by rw [List.length_append]; omega, ?_⟩
      rw [← List.append_assoc, getElem?_backslash]

/-- What a call finds in the filling pass, and what is left of the string. -/
theorem NextField.fill {sep : Char} {t raw field : CStr} {rest : Option CStr} {lastPtr : Nat}
    (hsep : sep ≠ '\\') :
    NextField sep t raw field rest → ∀ pre : CStr, FreshAt lastPtr pre →
      getNextsepLoop true sep lastPtr pre.length (pre ++ t) =
        (rest.map fun _ => (pre ++ field).length, pre ++ field ++ sepTail sep rest)
  | .last hu, pre, _ => by
    rw [getNextsepLoop_none (strchrAt_of_not_mem pre hu)]
    simp only [Option.map_none, sepTail, List.append_nil]
  | .cut hu hlast, pre, hfresh => by
    rw [getNextsepLoop_some (strchrAt_append pre hu), if_neg (hfresh.not_escaped hlast)]
    simp only [Option.map_some, sepTail, List.append_assoc]
  | @NextField.escaped _ u v _ field _ hu h, pre, hfresh => by
    have hle := hfresh.le
    have hremove : (pre ++ (u ++ '\\' :: sep :: v)).eraseIdx ((pre ++ u).length + 1 - 1) =
        (pre ++ u ++ [sep]) ++ v := by
      rw [Nat.add_sub_cancel, ← List.append_assoc,
        List.eraseIdx_append_of_length_le (Nat.le_refl _), Nat.sub_self]
      simp only [List.eraseIdx_cons_zero, List.append_assoc, List.cons_append, List.nil_append]
    have hlen : (pre ++ u).length + 1 = (pre ++ u ++ [sep]).length := by
      simp only [List.length_append, List.length_cons, List.length_nil]
    have hnext : FreshAt lastPtr (pre ++ u ++ [sep]) :=
      FreshAt.snoc (by simp only [List.length_append]; omega) hsep
    rw [getNextsepLoop_some (strchrAt_escaped pre hsep hu), if_pos, if_pos rfl, hremove, hlen,
      h.fill hsep _ hnext]
    · simp only [List.append_assoc, List.cons_append, List.nil_append]
    · refine ⟨by rw [List.length_append]; omega, ?_⟩
      rw [← List.append_assoc, getElem?_backslash]

/-! ## The fields -/

/-- A string with a backslash before every separator. -/
@[grind =] def escapeSep (sep : Char) : CStr → CStr
  | [] => []
  | c :: s => if c = sep then '\\' :: sep :: escapeSep sep s else c :: escapeSep sep s

theorem escapeSep_of_not_mem : ∀ {u : CStr}, sep ∉ u → escapeSep sep u = u
  | [], _ => rfl
  | c :: u, h => by
    have hc : c ≠ sep := fun hc => h (hc ▸ List.mem_cons_self)
    rw [escapeSep, if_neg hc, escapeSep_of_not_mem fun hm => h (List.mem_cons_of_mem _ hm)]

theorem foldr_consField (f : CStr) (fields : List CStr) :
    ∀ u : CStr, u.foldr consField (f :: fields) = (u ++ f) :: fields
  | [] => rfl
  | c :: u => by rw [List.foldr_cons, foldr_consField f fields u]; rfl

theorem splitFields_sep (hsep : sep ≠ '\\') (s : CStr) :
    splitFields sep (sep :: s) = [] :: splitFields sep s := by
  rw [splitFields, if_pos rfl]
  exact fun _ _ h _ => hsep h

theorem splitFields_escaped (sep : Char) (s : CStr) :
    splitFields sep ('\\' :: sep :: s) = consField sep (splitFields sep s) := by
  rw [splitFields, if_pos rfl]

theorem splitFields_cons {c : Char} (hc : c ≠ sep) (hback : c = '\\' → s.head? ≠ some sep) :
    splitFields sep (c :: s) = consField c (splitFields sep s) := by
  by_cases hslash : c = '\\'
  · subst hslash
    cases s with
    | nil => simp only [splitFields, if_neg hc]
    | cons d s =>
      have hd : d ≠ sep := fun hd => hback rfl (hd ▸ rfl)
      rw [splitFields, if_neg hd]
  · rw [splitFields, if_neg hc]
    exact fun _ _ h _ => hslash h

/-- A string in front of another, with backslashes before its separators. -/
theorem splitFields_escapeSep (hsep : sep ≠ '\\') :
    ∀ s : CStr, (s.getLast? = some '\\' → t.head? ≠ some sep) →
      splitFields sep (escapeSep sep s ++ t) = s.foldr consField (splitFields sep t)
  | [], _ => rfl
  | [c], h => by
    by_cases hc : c = sep
    · subst hc
      rw [escapeSep, if_pos rfl]
      exact splitFields_escaped c t
    · rw [escapeSep, if_neg hc]
      exact splitFields_cons hc fun hslash => h (hslash ▸ rfl)
  | c :: d :: s, h => by
    rw [List.getLast?_cons_cons] at h
    have ih := splitFields_escapeSep hsep (d :: s) h
    rw [List.foldr_cons, ← ih]
    by_cases hc : c = sep
    · subst hc
      rw [escapeSep, if_pos rfl]
      exact splitFields_escaped c _
    · rw [escapeSep, if_neg hc]
      refine splitFields_cons hc fun _ => ?_
      rw [escapeSep]
      split
      · exact fun h => hsep (Option.some.inj h).symm
      · next hd => exact fun h => hd (Option.some.inj h)

/-- The fields after the separator, if there is one. -/
def restFields (sep : Char) : Option CStr → List CStr
  | none => []
  | some v => splitFields sep v

/-- The next field is the first of all. -/
theorem NextField.splitFields {sep : Char} {t raw field : CStr} {rest : Option CStr}
    (hsep : sep ≠ '\\') :
    NextField sep t raw field rest → splitFields sep t = field :: restFields sep rest
  | .last (u := u) hu => by
    have h := splitFields_escapeSep (t := []) hsep u fun _ h => nomatch h
    rw [escapeSep_of_not_mem hu, List.append_nil] at h
    rw [h, MPlayer.splitFields, foldr_consField, List.append_nil]
    rfl
  | .cut (u := u) (v := v) hu hlast => by
    have h := splitFields_escapeSep (t := sep :: v) hsep u fun h => absurd h hlast
    rw [escapeSep_of_not_mem hu] at h
    rw [h, splitFields_sep hsep, foldr_consField, List.append_nil]
    rfl
  | .escaped (u := u) (v := v) hu hv => by
    have h := splitFields_escapeSep (t := '\\' :: sep :: v) hsep u
      fun _ h => hsep (Option.some.inj h).symm
    rw [escapeSep_of_not_mem hu] at h
    rw [h, splitFields_escaped, hv.splitFields hsep, consField, foldr_consField]

theorem splitFields_ne_nil (hsep : sep ≠ '\\') (t : CStr) : splitFields sep t ≠ [] := by
  obtain ⟨raw, field, rest, h⟩ := exists_nextField sep t
  rw [h.splitFields hsep]
  exact List.cons_ne_nil _ _

/-- The counting loop sees the fields one after the other. -/
theorem NextField.loopFields_some (hsep : sep ≠ '\\') (h : NextField sep t raw field (some v)) :
    loopFields sep t = field :: loopFields sep v := by
  obtain ⟨f, fields, hv⟩ := List.exists_cons_of_ne_nil (splitFields_ne_nil hsep v)
  simp only [loopFields, h.splitFields hsep, restFields, hv, List.getLast?_cons_cons,
    List.dropLast_cons_cons]
  split <;> rfl

theorem NextField.loopFields_none (hsep : sep ≠ '\\') (hne : t ≠ [])
    (h : NextField sep t raw field none) : loopFields sep t = [field] := by
  have hfield : field ≠ [] := by
    cases h with
    | last hu => exact hne
    | escaped hu h => exact fun h => by simp at h
  simp only [loopFields, h.splitFields hsep, restFields, List.getLast?_singleton]
  rw [if_neg fun h => hfield (Option.some.inj h)]

/-! ## Both passes -/

theorem putCell_append (cells : List ResCell) (c d : ResCell) (rest : List ResCell) :
    putCell (cells ++ d :: rest) cells.length c = some (cells ++ c :: rest) := by
  rw [putCell, if_pos (by rw [List.length_append, List.length_cons]; omega),
    List.set_append_right _ _ (Nat.le_refl _), Nat.sub_self, List.set_cons_zero]

/-- The list when some fields are filled in. -/
def cellsOf (fields : List CStr) (k : Nat) : List ResCell :=
  fields.map ResCell.str ++ List.replicate k ResCell.garbage

theorem putCell_field (fields : List CStr) (k : Nat) (s : CStr) :
    putCell (cellsOf fields (k + 1)) fields.length (.str s) = some (cellsOf (fields ++ [s]) k) := by
  have h := putCell_append (fields.map .str) (.str s) .garbage (List.replicate k .garbage)
  rw [List.length_map] at h
  rw [cellsOf, cellsOf, List.replicate_succ, h, List.map_append, List.append_assoc]
  rfl

theorem countPass_end (sep : Char) (s : CStr) (n : Nat) : countPass sep s s.length n = (n, []) := by
  rw [countPass, if_neg (Nat.lt_irrefl _)]

/-- The last turn of the counting loop. -/
theorem NextField.countPass_none (hsep : sep ≠ '\\') (h : NextField sep t raw field none)
    (hne : t ≠ []) (pre : CStr) (n : Nat) :
    countPass sep (pre ++ t) pre.length n = (n + 1, []) := by
  have hlt : pre.length < (pre ++ t).length := by
    have := List.length_pos_iff.mpr hne
    rw [List.length_append]
    omega
  have hcall : getNextsep false sep pre.length (pre ++ t) = _ := h.count hsep pre (.inl rfl)
  rw [countPass, if_pos hlt]
  split
  · rfl
  · next h' => rw [hcall] at h'; cases h'

/-- Another turn of the counting loop. -/
theorem NextField.countPass_some (hsep : sep ≠ '\\') (h : NextField sep t raw field (some v))
    (pre : CStr) (n : Nat) :
    countPass sep (pre ++ t) pre.length n =
      let (m, seps) := countPass sep (pre ++ raw ++ [sep] ++ v) (pre ++ raw ++ [sep]).length (n + 1)
      (m, (pre ++ raw).length :: seps) := by
  have ht : pre ++ t = pre ++ raw ++ [sep] ++ v := by
    rw [h.eq_append, sepTail, List.append_assoc, List.append_assoc]
    rfl
  have hlen : (pre ++ raw).length + 1 = (pre ++ raw ++ [sep]).length := by
    simp only [List.length_append, List.length_cons, List.length_nil]
  have hlt : pre.length < (pre ++ t).length := by
    rw [ht]
    simp only [List.length_append, List.length_cons]
    omega
  have hcall : getNextsep false sep pre.length (pre ++ t) = _ := h.count hsep pre (.inl rfl)
  rw [countPass, if_pos hlt]
  split
  · next h' => rw [hcall] at h'; cases h'
  · next h' =>
    rw [hcall] at h'
    cases h'
    rw [hlen, ht]

/-- The last turn of the filling loop. -/
theorem NextField.fillPass_none (hsep : sep ≠ '\\') (h : NextField sep t raw field none)
    (pre : CStr) (n removed : Nat) (res : List ResCell) :
    fillPass sep (pre ++ t) pre.length n removed res =
      (putCell res n (.str field)).map fun res => (n + 1, res, []) := by
  have hcall : getNextsep true sep pre.length (pre ++ t) = _ := h.fill hsep pre (.inl rfl)
  rw [fillPass]
  split
  · next h' =>
    rw [hcall] at h'
    cases h'
    rw [sepTail, List.append_nil, List.drop_left]
  · next h' => rw [hcall] at h'; cases h'

/-- Another turn of the filling loop. -/
theorem NextField.fillPass_some (hsep : sep ≠ '\\') (h : NextField sep t raw field (some v))
    (pre : CStr) (n removed : Nat) (res : List ResCell) :
    fillPass sep (pre ++ t) pre.length n removed res =
      match putCell res n (.str field) with
      | none => none
      | some res =>
        let removed := removed + (raw.length - field.length)
        (fillPass sep (pre ++ field ++ [sep] ++ v) (pre ++ field ++ [sep]).length (n + 1) removed
          res).map fun (n, res, seps) => (n, res, ((pre ++ field).length + removed) :: seps) := by
  have hcall : getNextsep true sep pre.length (pre ++ t) = _ := h.fill hsep pre (.inl rfl)
  have ht : pre ++ field ++ sepTail sep (some v) = pre ++ field ++ [sep] ++ v := by
    rw [sepTail, List.append_assoc (pre ++ field)]
    rfl
  have hlen : (pre ++ field).length + 1 = (pre ++ field ++ [sep]).length := by
    simp only [List.length_append, List.length_cons, List.length_nil]
  have hgone : (pre ++ t).length - (pre ++ field ++ [sep] ++ v).length =
      raw.length - field.length := by
    rw [h.eq_append, ← ht]
    simp only [List.length_append]
    omega
  have htake : List.take ((pre ++ field).length - pre.length)
      (List.drop pre.length (pre ++ field ++ [sep] ++ v)) = field := by
    rw [List.append_assoc, List.append_assoc, List.drop_left, List.length_append,
      Nat.add_sub_cancel_left, List.take_left]
  rw [fillPass]
  split
  · next h' => rw [hcall] at h'; cases h'
  · next h' =>
    rw [hcall, ht] at h'
    cases h'
    rw [htake, hgone, hlen]

/-- Both passes find the same separators, in every string and from every place on, and the
list has room for what the filling loop writes. -/
theorem passes_agree (hsep : sep ≠ '\\') (t pre pre' : CStr) (n removed k : Nat)
    (done : List CStr) (hpre : pre.length = pre'.length + removed) :
    ∃ seps, countPass sep (pre ++ t) pre.length n = (n + (loopFields sep t).length, seps) ∧
      fillPass sep (pre' ++ t) pre'.length done.length removed
          (cellsOf done ((splitFields sep t).length + k)) =
        some ((done ++ splitFields sep t).length, cellsOf (done ++ splitFields sep t) k, seps) := by
  obtain ⟨raw, field, rest, h⟩ := exists_nextField sep t
  have hsplit := h.splitFields hsep
  cases rest with
  | none =>
    rw [restFields] at hsplit
    refine ⟨[], ?_, ?_⟩
    · by_cases hne : t = []
      · subst hne
        rw [List.append_nil]
        exact countPass_end sep pre n
      · rw [h.countPass_none hsep hne, h.loopFields_none hsep hne]
        rfl
    · rw [h.fillPass_none hsep, hsplit, List.length_singleton, Nat.add_comm 1 k, putCell_field,
        List.length_append]
      rfl
  | some v =>
    rw [restFields] at hsplit
    have hle := h.length_le
    have hlen : (pre ++ raw ++ [sep]).length =
        (pre' ++ field ++ [sep]).length + (removed + (raw.length - field.length)) := by
      simp only [List.length_append]
      omega
    obtain ⟨seps, hcount, hrest⟩ := passes_agree hsep v (pre ++ raw ++ [sep])
      (pre' ++ field ++ [sep]) (n + 1) (removed + (raw.length - field.length)) k
      (done ++ [field]) hlen
    have hpos : (pre' ++ field).length + (removed + (raw.length - field.length)) =
        (pre ++ raw).length := by
      simp only [List.length_append]
      omega
    have hdone : done ++ [field] ++ splitFields sep v = done ++ field :: splitFields sep v :=
      List.append_assoc ..
    refine ⟨(pre ++ raw).length :: seps, ?_, ?_⟩
    · rw [h.countPass_some hsep]
      simp only [hcount, h.loopFields_some hsep, List.length_cons]
      rw [Nat.add_assoc, Nat.add_comm 1]
    · have hn : (done ++ [field]).length = done.length + 1 := List.length_append
      rw [hn] at hrest
      rw [h.fillPass_some hsep, hsplit, List.length_cons, Nat.add_right_comm, putCell_field]
      simp only [hrest, Option.map_some, hpos, hdone]
termination_by t.length
decreasing_by
  rw [h.eq_append, sepTail, List.length_append, List.length_cons]
  omega

theorem loopFields_length (sep : Char) (t : CStr) :
    (splitFields sep t).length ≤ (loopFields sep t).length + 1 := by
  simp only [loopFields]
  split
  · rw [List.length_dropLast]
    omega
  · omega

/-- What the filling pass leaves in a list of `n + 2` pointers. -/
theorem fillList_eq (hsep : sep ≠ '\\') (param : CStr) :
    fillList sep param =
      some ((splitFields sep param).map .str ++ .null ::
          List.replicate ((loopFields sep param).length + 1 - (splitFields sep param).length)
            .garbage,
        (countPass sep param 0 0).2) := by
  have hle := loopFields_length sep param
  obtain ⟨seps, hcount, hfill⟩ := passes_agree hsep param [] [] 0 0
    ((loopFields sep param).length + 2 - (splitFields sep param).length) [] rfl
  rw [Nat.zero_add] at hcount
  rw [show (splitFields sep param).length +
      ((loopFields sep param).length + 2 - (splitFields sep param).length) =
        (loopFields sep param).length + 2 by omega] at hfill
  have hcount : countPass sep param 0 0 = _ := hcount
  have hfill : fillPass sep param 0 0 0
      (List.replicate ((loopFields sep param).length + 2) .garbage) = _ := hfill
  rw [fillList, hcount]
  simp only [hfill, List.nil_append, cellsOf]
  have hput := putCell_append ((splitFields sep param).map .str) .null .garbage
    (List.replicate ((loopFields sep param).length + 1 - (splitFields sep param).length) .garbage)
  rw [List.length_map] at hput
  rw [show (loopFields sep param).length + 2 - (splitFields sep param).length =
      (loopFields sep param).length + 1 - (splitFields sep param).length + 1 by omega,
    List.replicate_succ, hput]
  rfl

/-! ## Strings joined into one -/

/-- Strings in one string, with backslashes before the separators inside them. -/
@[grind =] def joinEscaped (sep : Char) : List CStr → CStr
  | [] => []
  | [s] => escapeSep sep s
  | s :: strs => escapeSep sep s ++ sep :: joinEscaped sep strs

theorem splitFields_joinEscaped (hsep : sep ≠ '\\') :
    ∀ strs : List CStr, strs ≠ [] → (∀ s ∈ strs.dropLast, s.getLast? ≠ some '\\') →
      splitFields sep (joinEscaped sep strs) = strs
  | [], hne, _ => absurd rfl hne
  | [s], _, _ => by
    have h := splitFields_escapeSep (t := []) hsep s fun _ h => nomatch h
    rw [List.append_nil] at h
    rw [joinEscaped, h, splitFields, foldr_consField, List.append_nil]
  | s :: s' :: strs, _, hback => by
    have ih := splitFields_joinEscaped hsep (s' :: strs) (List.cons_ne_nil _ _)
      fun x hx => hback x (List.mem_cons_of_mem _ hx)
    have hs := hback s List.mem_cons_self
    rw [joinEscaped, splitFields_escapeSep hsep s fun h => absurd h hs, splitFields_sep hsep,
      foldr_consField, List.append_nil, ih]
    exact fun h => nomatch h

theorem joinEscaped_ne_nil {strs : List CStr} (hne : strs ≠ []) (hone : strs ≠ [[]]) :
    joinEscaped sep strs ≠ [] := by
  obtain ⟨s, rest, rfl⟩ := List.exists_cons_of_ne_nil hne
  cases rest with
  | nil =>
    obtain ⟨c, s, rfl⟩ := List.exists_cons_of_ne_nil (l := s) fun h => hone (h ▸ rfl)
    rw [joinEscaped, escapeSep]
    split <;> exact List.cons_ne_nil _ _
  | cons s' rest =>
    rw [joinEscaped]
    · exact List.append_ne_nil_of_right_ne_nil _ (List.cons_ne_nil _ _)
    · exact fun h => nomatch h

theorem countPass_fst (hsep : sep ≠ '\\') (param : CStr) :
    (countPass sep param 0 0).1 = (loopFields sep param).length := by
  obtain ⟨seps, hcount, -⟩ := passes_agree hsep param [] [] 0 0 0 [] rfl
  rw [List.nil_append] at hcount
  rw [show countPass sep param 0 0 = _ from hcount, Nat.zero_add]

/-- There is always a field to count. -/
theorem loopFields_ne_nil (hsep : sep ≠ '\\') (hne : t ≠ []) : loopFields sep t ≠ [] := by
  obtain ⟨raw, field, rest, h⟩ := exists_nextField sep t
  cases rest with
  | none => rw [h.loopFields_none hsep hne]; exact List.cons_ne_nil _ _
  | some v => rw [h.loopFields_some hsep]; exact List.cons_ne_nil _ _

/-- `parse_str_list` in terms of its two passes. -/
theorem parseStrList_eq (fl : Doubles F) (range : OptRange F) {optName name param : CStr}
    {op : ListOp} (dst : Option (OptVal F)) (hop : listOp optName name = some op)
    (hclr : op ≠ .clr) (hne : param ≠ []) :
    parseStrList fl range optName name (some param) dst =
      if range.outside fl (fl.ofInt (countPass ',' param 0 0).1) then (mOptOutOfRange, none)
      else (1, dst.map fun _ =>
        .strList (strListResult op (splitFields ',' param) (dst.bind OptVal.toStrList))) := by
  have hcomma : ',' ≠ '\\' := by decide
  have hn : (loopFields ',' param).length ≠ 0 :=
    fun h => loopFields_ne_nil hcomma hne (List.length_eq_zero_iff.mp h)
  rw [countPass_fst hcomma, parseStrList, checkStrList, hop]
  cases op with
  | clr => exact absurd rfl hclr
  | none | add | pre | del =>
    cases param with
    | nil => exact absurd rfl hne
    | cons c s =>
      simp only [if_neg hn]
      split <;> rfl

/-- A list of strings comes back from `parse_str_list` as it was before it was joined.  The
counting pass and the filling pass find the same separators, and the pointers that the
filling pass writes are among those that are allocated. -/
theorem str_list_parsed_back (fl : Doubles F) (range : OptRange F) (optName name : CStr)
    (op : ListOp) (strs : List CStr) (dst : Option (OptVal F))
    (hop : listOp optName name = some op) (hclr : op ≠ .clr) (hne : strs ≠ [])
    (hone : strs ≠ [[]]) (hback : ∀ s ∈ strs.dropLast, s.getLast? ≠ some '\\') :
    let param := joinEscaped ',' strs
    let (n, seps) := countPass ',' param 0 0
    parseStrList fl range optName name (some param) dst =
        (if range.outside fl (fl.ofInt n) then (mOptOutOfRange, none)
        else (1, dst.map fun _ =>
          .strList (strListResult op strs (dst.bind OptVal.toStrList)))) ∧
      strs.length ≤ n + 1 ∧
      fillList ',' param =
        some (strs.map .str ++ .null :: List.replicate (n + 1 - strs.length) .garbage, seps) := by
  have hcomma : ',' ≠ '\\' := by decide
  have hparam : joinEscaped ',' strs ≠ [] := joinEscaped_ne_nil hne hone
  have hsplit := splitFields_joinEscaped hcomma strs hne hback
  have hparse := parseStrList_eq fl range dst hop hclr hparam
  have hfill := fillList_eq hcomma (joinEscaped ',' strs)
  have hlen := loopFields_length ',' (joinEscaped ',' strs)
  rw [hsplit] at hparse hfill hlen
  rw [← countPass_fst hcomma] at hfill hlen
  exact ⟨hparse, hlen, hfill⟩

theorem str_list_parsed_back_three :
    parseStrList intDoubles (anyRange intDoubles) "ss".toList "ss".toList
        (some "a\\,,,b\\".toList) (some (.strList none)) =
      (1, some (.strList (some ["a,".toList, [], "b\\".toList]))) :=
  (str_list_parsed_back intDoubles (anyRange intDoubles) "ss".toList "ss".toList .none
    ["a,".toList, [], "b\\".toList] (some (.strList none)) (by decide) (by decide) (by decide)
    (by decide) (by decide)).1

end MPlayer
