import Mathlib.Data.List.Nodup
import Mathlib.Data.List.Pairwise
import MPlayer.Config.ListPasses

/-!
# Objects removed by their indices

`obj_settings_list_del` on the entries as they lie in memory.  The first loop frees the
entries that are named and puts the address of a string literal in their names, the second
moves the rest of the list over them.  An index that names an entry which is already removed
frees the literal, and an index is cut to an `int` before it's compared with the length.
-/

namespace MPlayer

variable {F : Type}

/-! ## Entries in memory -/

/-- The pointer `name` of an entry: `NULL`, the address of `rem_id`, or a string on the
heap. -/
inductive ObjName where
  | null
  | marker
  | str (s : CStr)
deriving DecidableEq

/-- An `m_obj_settings_t` in memory. -/
structure ObjCell where
  name : ObjName
  attribs : Option (List (Option CStr))
deriving DecidableEq

/-- The entry that ends a list. -/
def nullCell : ObjCell := ⟨.null, none⟩

/-- An entry that is freed and to be removed. -/
def markedCell : ObjCell := ⟨.marker, none⟩

/-- The entry of an object. -/
def objCell (o : ObjSettings) : ObjCell := ⟨.str o.name, o.attribs⟩

/-- A list in memory. -/
def objCells (objs : List ObjSettings) : List ObjCell := objs.map objCell ++ [nullCell]

/-! ## `obj_settings_list_del` -/

/-- The loop that marks entries.  It gives the entries and the places of those it has freed,
and whether it ends well.  `none` stands for a `free` of the string literal. -/
def markEntries (idxMax : Nat) :
    List CStr → List ObjCell → List Nat → Option (Bool × List ObjCell × List Nat)
  | [], cells, freed => some (true, cells, freed)
  | str :: strs, cells, freed =>
    let (id, ep) := strtoll 0 str
    let id := toInt32 id
    if ep = str then some (false, cells, freed)
    else if (idxMax : Int) ≤ id ∨ id < -idxMax then markEntries idxMax strs cells freed
    else
      let id := (if id < 0 then idxMax + id else id).toNat
      match cells[id]? with
      | none => none
      | some c =>
        if c.name = .marker then none
        else markEntries idxMax strs (cells.set id markedCell) (id :: freed)

/-- `memmove(&obj_list[i],&obj_list[i+1],sizeof(m_obj_settings_t)*(idx_max - i))`, unless it
goes beyond the list. -/
def moveDown (i idxMax : Nat) (cells : List ObjCell) : Option (List ObjCell) :=
  if i ≤ idxMax ∧ idxMax < cells.length then
    some (cells.take i ++ ((cells.drop (i + 1)).take (idxMax - i) ++ cells.drop idxMax))
  else none

/-- The inner loop that moves entries over the marked ones at `i`, with the new `idx_max`. -/
def compactAt (i : Nat) : Nat → List ObjCell → Option (Nat × List ObjCell)
  | 0, cells =>
    match cells[i]? with
    | none => none
    | some c => if c.name = .marker then none else some (0, cells)
  | idxMax + 1, cells =>
    match cells[i]? with
    | none => none
    | some c =>
      if c.name = .marker then (moveDown i (idxMax + 1) cells).bind (compactAt i idxMax)
      else some (idxMax + 1, cells)

theorem moveDown_length {i idxMax : Nat} {cells cells' : List ObjCell}
    (h : moveDown i idxMax cells = some cells') : cells'.length = cells.length := by
  rw [moveDown] at h
  split at h
  · cases h
    simp only [List.length_append, List.length_take, List.length_drop]
    omega
  · cases h

theorem compactAt_length {i : Nat} : ∀ {idxMax : Nat} {cells : List ObjCell}
    {r : Nat × List ObjCell}, compactAt i idxMax cells = some r → r.2.length = cells.length
  | 0, cells, r, h => by
    simp only [compactAt] at h
    split at h
    · cases h
    · split at h <;> cases h
      rfl
  | idxMax + 1, cells, r, h => by
    simp only [compactAt] at h
    split at h
    · cases h
    · split at h
      · obtain ⟨cells', hmove, hrest⟩ := Option.bind_eq_some_iff.mp h
        exact (compactAt_length hrest).trans (moveDown_length hmove)
      · cases h
        rfl

/-- The outer loop. -/
def compactLoop (i idxMax : Nat) (cells : List ObjCell) : Option (Nat × List ObjCell) :=
  match hcell : cells[i]? with
  | none => none
  | some c =>
    if c.name = .null then some (idxMax, cells)
    else
      match h : compactAt i idxMax cells with
      | none => none
      | some (idxMax, cells) => compactLoop (i + 1) idxMax cells
termination_by cells.length - i
decreasing_by
  have hlt := (List.getElem?_eq_some_iff.mp hcell).1
  have hlen := compactAt_length h
  simp only at hlen
  omega

/-- `obj_settings_list_del` on a list in memory, which is `NULL` or has entries up to one
without a name: what it returns, the list it leaves, and the places of the entries it has
freed. -/
def objListDel (fl : Doubles F) (optName param : CStr) (objs : Option (List ObjSettings)) :
    Option (Int × Option (List ObjCell) × List Nat) :=
  match objs with
  | none => some (1, none, [])
  | some objs =>
    match checkStrList fl (anyRange fl) optName optName (some param) none with
    | .error r => some (r, some (objCells objs), [])
    | .ok (r, none) => some (r, some (objCells objs), [])
    | .ok (_, some strList) =>
      match markEntries objs.length strList (objCells objs) [] with
      | none => none
      | some (false, cells, freed) => some (mOptInvalid, some cells, freed)
      | some (true, cells, freed) =>
        match compactLoop 0 objs.length cells with
        | none => none
        | some (idxMax, cells) => some (1, some (cells.take (idxMax + 1)), freed)

/-! ## The loop that moves entries -/

/-- The entries that come next, and `k` more names that are `NULL` after the end. -/
def ended (todo : List ObjCell) (k : Nat) : List ObjCell :=
  todo ++ nullCell :: List.replicate k nullCell

theorem moveDown_append (done todo : List ObjCell) (c : ObjCell) (k : Nat) :
    moveDown done.length (done.length + todo.length + 1) (done ++ ended (c :: todo) k) =
      some (done ++ ended todo (k + 1)) := by
  have hdrop : (done ++ ended (c :: todo) k).drop (done.length + 1) =
      todo ++ [nullCell] ++ List.replicate k nullCell := by
    rw [← List.drop_drop, List.drop_left, List.append_assoc]
    rfl
  have hlast : (done ++ ended (c :: todo) k).drop (done.length + todo.length + 1) =
      nullCell :: List.replicate k nullCell := by
    rw [Nat.add_assoc, ← List.drop_drop, List.drop_left, ended, List.drop_left' (List.length_cons)]
  have htake : (todo ++ [nullCell] ++ List.replicate k nullCell).take
      (done.length + todo.length + 1 - done.length) = todo ++ [nullCell] := by
    refine List.take_left' ?_
    rw [List.length_append, List.length_singleton]
    omega
  rw [moveDown, if_pos, hdrop, hlast, htake, List.take_left, List.append_assoc todo]
  · rfl
  · simp only [ended, List.length_append, List.length_cons, List.length_replicate]
    omega

theorem getElem?_ended (done todo : List ObjCell) (c : ObjCell) (k : Nat) :
    (done ++ ended (c :: todo) k)[done.length]? = some c := by
  rw [List.getElem?_append_right (Nat.le_refl _), Nat.sub_self]
  rfl

theorem getElem?_ended_nil (done : List ObjCell) (k : Nat) :
    (done ++ ended [] k)[done.length]? = some nullCell := by
  rw [List.getElem?_append_right (Nat.le_refl _), Nat.sub_self]
  rfl

theorem compactAt_stop {i idxMax : Nat} {cells : List ObjCell} {c : ObjCell}
    (hget : cells[i]? = some c) (hc : c.name ≠ .marker) :
    compactAt i idxMax cells = some (idxMax, cells) := by
  cases idxMax with
  | zero => simp only [compactAt, hget, if_neg hc]
  | succ idxMax => simp only [compactAt, hget, if_neg hc]

/-- The inner loop takes away the marked entries in front. -/
theorem compactAt_append (done : List ObjCell) : ∀ (todo : List ObjCell) (k : Nat),
    ∃ gone todo', todo = gone ++ todo' ∧ (∀ c ∈ gone, c.name = .marker) ∧
      (∀ c ∈ todo'.head?, c.name ≠ .marker) ∧
      compactAt done.length (done.length + todo.length) (done ++ ended todo k) =
        some (done.length + todo'.length, done ++ ended todo' (k + gone.length))
  | [], k => by
    refine ⟨[], [], rfl, (fun _ h => nomatch h), (fun _ h => nomatch h), ?_⟩
    exact compactAt_stop (getElem?_ended_nil done k) (by decide)
  | c :: todo, k => by
    have hget := getElem?_ended done todo c k
    by_cases hc : c.name = .marker
    · obtain ⟨gone, todo', rfl, hgone, hhead, hrest⟩ := compactAt_append done todo (k + 1)
      refine ⟨c :: gone, todo', rfl, fun x hx => ?_, hhead, ?_⟩
      · obtain rfl | hx := List.mem_cons.mp hx
        · exact hc
        · exact hgone x hx
      · rw [List.length_cons, ← Nat.add_assoc, compactAt]
        simp only [hget, if_pos hc, moveDown_append, Option.bind_some, hrest, List.length_cons]
        rw [Nat.add_assoc k, Nat.add_comm 1]
    · refine ⟨[], c :: todo, rfl, (fun _ h => nomatch h), fun x hx => ?_, ?_⟩
      · cases hx
        exact hc
      · exact compactAt_stop hget hc

theorem compactLoop_null {i idxMax : Nat} {cells : List ObjCell} {c : ObjCell}
    (hget : cells[i]? = some c) (hc : c.name = .null) :
    compactLoop i idxMax cells = some (idxMax, cells) := by
  rw [compactLoop]
  split
  · next h => rw [hget] at h; cases h
  · next h =>
    rw [hget] at h
    cases h
    rw [if_pos hc]

theorem compactLoop_next {i idxMax idxMax' : Nat} {cells cells' : List ObjCell} {c : ObjCell}
    (hget : cells[i]? = some c) (hc : c.name ≠ .null)
    (hat : compactAt i idxMax cells = some (idxMax', cells')) :
    compactLoop i idxMax cells = compactLoop (i + 1) idxMax' cells' := by
  rw [compactLoop]
  split
  · next h => rw [hget] at h; cases h
  · next h =>
    rw [hget] at h
    cases h
    rw [if_neg hc]
    split
    · next h => rw [hat] at h; cases h
    · next h =>
      rw [hat] at h
      cases h
      rfl

/-- The entries that aren't marked. -/
def unmarked (cells : List ObjCell) : List ObjCell := cells.filter fun c => c.name ≠ .marker

theorem unmarked_append_of_marked {gone todo : List ObjCell}
    (hgone : ∀ c ∈ gone, c.name = .marker) : unmarked (gone ++ todo) = unmarked todo := by
  have hnone : gone.filter (fun c => c.name ≠ .marker) = [] :=
    List.filter_eq_nil_iff.mpr fun c hc => by rw [hgone c hc]; decide
  rw [unmarked, List.filter_append, hnone]
  rfl

/-- The loops take away the marked entries and keep the others in their order. -/
theorem compactLoop_append (done todo : List ObjCell) (k : Nat)
    (hnull : ∀ c ∈ todo, c.name ≠ .null) :
    ∃ k', compactLoop done.length (done.length + todo.length) (done ++ ended todo k) =
      some ((done ++ unmarked todo).length, done ++ ended (unmarked todo) k') := by
  cases todo with
  | nil =>
    refine ⟨k, ?_⟩
    rw [compactLoop_null (getElem?_ended_nil done k) rfl, List.length_append]
    rfl
  | cons c todo =>
    obtain ⟨gone, todo', heq, hgone, hhead, hat⟩ := compactAt_append done (c :: todo) k
    rw [compactLoop_next (getElem?_ended done todo c k) (hnull c List.mem_cons_self) hat, heq,
      unmarked_append_of_marked hgone]
    cases todo' with
    | nil =>
      have hget : (done ++ ended [] (k + gone.length))[done.length + 1]? = some nullCell := by
        have hone : done.length + 1 - done.length = 1 := Nat.add_sub_cancel_left ..
        rw [List.append_nil] at heq
        rw [List.getElem?_append_right (by omega), hone, ← heq]
        rfl
      refine ⟨k + gone.length, ?_⟩
      rw [compactLoop_null hget rfl, List.length_append]
      rfl
    | cons d todo' =>
      have hd : d.name ≠ .marker := hhead d rfl
      have hrest : ∀ c ∈ todo', c.name ≠ .null := fun c hc =>
        hnull c (heq ▸ List.mem_append_right _ (List.mem_cons_of_mem _ hc))
      obtain ⟨k', ih⟩ := compactLoop_append (done ++ [d]) todo' (k + gone.length) hrest
      have hkept : unmarked (d :: todo') = d :: unmarked todo' :=
        List.filter_cons_of_pos (decide_eq_true hd)
      have hcells : ∀ todo k, done ++ ended (d :: todo) k = done ++ [d] ++ ended todo k :=
        fun todo k => by rw [List.append_assoc]; rfl
      have hlen : done.length + (d :: todo').length = (done ++ [d]).length + todo'.length := by
        simp only [List.length_append, List.length_cons, List.length_nil]
        omega
      have hkeep : (done ++ d :: unmarked todo').length =
          (done ++ [d] ++ unmarked todo').length := by rw [← List.append_cons]
      refine ⟨k', ?_⟩
      have hsnoc : (done ++ [d]).length = done.length + 1 := List.length_append
      rw [hsnoc] at hlen ih
      rw [hkept, hlen, hcells, hcells, hkeep]
      exact ih
termination_by todo.length
decreasing_by
  have := congrArg List.length heq
  subst_vars
  simp only [List.length_append, List.length_cons] at this ⊢
  omega

/-! ## The loop that marks entries -/

/-- The place of the entry that an index names in a list of `n`. -/
def named (n : Nat) (id : Int) : Option Nat :=
  if (n : Int) ≤ id ∨ id < -n then none else some (if id < 0 then n + id else id).toNat

theorem named_lt {n p : Nat} {id : Int} (h : named n id = some p) : p < n := by
  rw [named] at h
  split at h
  · cases h
  · cases h
    split <;> omega

/-- The entry in a place when some of the objects are freed. -/
def cellAt (freed : List Nat) : ObjSettings × Nat → ObjCell
  | (o, p) => if p ∈ freed then markedCell else objCell o

/-- The list when some of the objects are freed. -/
def markedCells (objs : List ObjSettings) (freed : List Nat) : List ObjCell :=
  objs.zipIdx.map (cellAt freed) ++ [nullCell]

theorem markedCells_nil (objs : List ObjSettings) : markedCells objs [] = objCells objs := by
  have hcell : cellAt [] = objCell ∘ Prod.fst := rfl
  rw [markedCells, objCells, hcell, ← List.map_map, List.zipIdx_map_fst]

theorem markedCells_getElem? {objs : List ObjSettings} {p : Nat} (freed : List Nat)
    (hp : p < objs.length) :
    (markedCells objs freed)[p]? = some (cellAt freed (objs[p], p)) := by
  rw [markedCells, List.getElem?_append_left (by simpa using hp), List.getElem?_map,
    List.getElem?_zipIdx, List.getElem?_eq_getElem hp]
  simp only [Option.map_some, Nat.zero_add]

theorem markedCells_set {objs : List ObjSettings} {p : Nat} (freed : List Nat)
    (hp : p < objs.length) :
    (markedCells objs freed).set p markedCell = markedCells objs (p :: freed) := by
  rw [markedCells, markedCells, List.set_append_left _ _ (by simpa using hp)]
  congr 1
  refine List.ext_getElem? fun q => ?_
  rw [List.getElem?_set, List.getElem?_map, List.getElem?_map, List.length_map, List.length_zipIdx]
  by_cases hq : p = q
  · subst hq
    rw [if_pos rfl, if_pos hp, List.getElem?_zipIdx, List.getElem?_eq_getElem hp]
    simp [cellAt]
  · rw [if_neg hq, List.getElem?_zipIdx]
    cases objs[q]? with
    | none => rfl
    | some o => simp [cellAt, List.mem_cons, Ne.symm hq]

/-- A turn of the loop for an index that names an entry, and for another. -/
theorem markEntries_cons {n : Nat} {str : CStr} (strs : List CStr) (cells : List ObjCell)
    (freed : List Nat) (hep : (strtoll 0 str).2 ≠ str) :
    markEntries n (str :: strs) cells freed =
      match named n (toInt32 (strtoll 0 str).1) with
      | none => markEntries n strs cells freed
      | some p =>
        match cells[p]? with
        | none => none
        | some c =>
          if c.name = .marker then none
          else markEntries n strs (cells.set p markedCell) (p :: freed) := by
  simp only [markEntries, if_neg hep, named]
  split <;> rfl

/-- The loop frees the entries that are named, unless it frees one a second time. -/
theorem markEntries_eq (objs : List ObjSettings) : ∀ (strs : List CStr) (freed : List Nat),
    (∀ str ∈ strs, (strtoll 0 str).2 ≠ str) → freed.Nodup →
      markEntries objs.length strs (markedCells objs freed) freed =
        let freed' := (strs.filterMap fun str =>
          named objs.length (toInt32 (strtoll 0 str).1)).reverse ++ freed
        if freed'.Nodup then some (true, markedCells objs freed', freed') else none
  | [], freed, _, hnodup => (if_pos hnodup).symm
  | str :: strs, freed, hep, hnodup => by
    have hrest : ∀ str ∈ strs, (strtoll 0 str).2 ≠ str :=
      fun s hs => hep s (List.mem_cons_of_mem _ hs)
    rw [markEntries_cons strs _ freed (hep str List.mem_cons_self)]
    cases hname : named objs.length (toInt32 (strtoll 0 str).1) with
    | none =>
      simp only [List.filterMap_cons, hname]
      exact markEntries_eq objs strs freed hrest hnodup
    | some p =>
      have hp := named_lt hname
      simp only [List.filterMap_cons, hname, markedCells_getElem? freed hp,
        List.reverse_cons, List.append_assoc, List.singleton_append]
      by_cases hmem : p ∈ freed
      · rw [if_pos (by simp [cellAt, hmem, markedCell]), if_neg]
        intro hall
        exact (List.nodup_cons.mp (List.nodup_append.mp hall).2.1).1 hmem
      · rw [if_neg (by simp [cellAt, hmem, objCell]), markedCells_set freed hp]
        exact markEntries_eq objs strs (p :: freed) hrest (List.nodup_cons.mpr ⟨hmem, hnodup⟩)

/-! ## Indices -/

/-- The integer that a string is the text of, however large, as `strtol` takes it with
base 0. -/
def intText (s : CStr) : Option Int :=
  let body := s.dropWhile isSpace
  let (neg, body) :=
    match body with
    | '-' :: t => (true, t)
    | '+' :: t => (false, t)
    | t => (false, t)
  let (base, body) := detectBase 0 body
  let (ds, rest) := digits base body
  if ds = [] ∨ rest ≠ [] then none
  else
    let n : Int := ofDigits base ds
    some (if neg then -n else n)

/-- The `int` that comes of an integer: `strtol` keeps it in the range of a `long`, and the
assignment cuts that. -/
def cutIndex (id : Int) : Int := toInt32 (max (min id llongMax) (-llongMax - 1))

/-- `strtol` and the text of an integer, by the sign, the digits and what follows them. -/
theorem strtoll_parts (s : CStr) : ∃ (neg : Bool) (n : Nat) (ds : List Nat) (rest : CStr),
    strtoll 0 s = (if ds = [] then (0, s)
      else (if neg then max (-(n : Int)) (-llongMax - 1) else min (n : Int) llongMax, rest)) ∧
    intText s = (if ds = [] ∨ rest ≠ [] then none else some (if neg then -(n : Int) else n)) := by
  simp only [strtoll, intText]
  exact ⟨_, _, _, _, rfl, rfl⟩

theorem strtoll_intText {s : CStr} {id : Int} (h : intText s = some id) :
    (strtoll 0 s).2 ≠ s ∧ toInt32 (strtoll 0 s).1 = cutIndex id := by
  have hs : s ≠ [] := by
    intro hs
    rw [hs, show intText [] = none by decide] at h
    cases h
  obtain ⟨neg, n, ds, rest, hlong, htext⟩ := strtoll_parts s
  rw [h] at htext
  split at htext
  · cases htext
  · next hok =>
    obtain ⟨hds, hrest⟩ := not_or.mp hok
    have hrest := Decidable.not_not.mp hrest
    cases htext
    rw [hlong, if_neg hds, hrest]
    refine ⟨fun h => hs h.symm, congrArg toInt32 ?_⟩
    cases neg with
    | true =>
      simp only [llongMax, if_true]
      omega
    | false =>
      simp only [llongMax, Bool.false_eq_true, if_false]
      omega

/-! ## The objects that are left -/

/-- The places that indices name. -/
def namedBy (n : Nat) (ids : List Int) : List Nat := ids.filterMap (named n)

/-- The objects in other places. -/
def keepUnnamed (objs : List ObjSettings) (places : List Nat) : List ObjSettings :=
  (objs.zipIdx.filter fun x => x.2 ∉ places).map Prod.fst

/-- The call returns success, leaves the objects that no index names in their order and
ended by a `NULL`, and has freed each of the others once. -/
def DeletesNamed (objs : Option (List ObjSettings)) (ids : List Int)
    (r : Option (Int × Option (List ObjCell) × List Nat)) : Prop :=
  let places := namedBy (objs.getD []).length ids
  ∃ freed, r = some (1, objs.map fun os => objCells (keepUnnamed os places), freed) ∧
    freed.Nodup ∧ ∀ p, p ∈ freed ↔ p ∈ places

theorem unmarked_markedCells (objs : List ObjSettings) (freed : List Nat) :
    unmarked (objs.zipIdx.map (cellAt freed)) = (keepUnnamed objs freed).map objCell := by
  rw [unmarked, keepUnnamed, List.filter_map, List.map_map]
  have hkept : ((fun c : ObjCell => decide (c.name ≠ .marker)) ∘ cellAt freed) =
      fun x => decide (x.2 ∉ freed) := by
    funext ⟨o, p⟩
    by_cases hp : p ∈ freed <;> simp [cellAt, hp, markedCell, objCell]
  rw [hkept]
  refine List.map_congr_left fun x hx => ?_
  have hx := of_decide_eq_true (List.mem_filter.mp hx).2
  exact if_neg hx

/-! ## The parameter -/

theorem suffixOp_del {s : CStr} (h : suffixOp s = some .del) : strcaseeq s "-del".toList := by
  rw [suffixOp] at h
  split at h
  · cases h
  · split at h
    · cases h
    · split at h
      · assumption
      · split at h <;> cases h

/-- The name that an index list is given with isn't that of a list option itself. -/
theorem listOp_of_del {optName name : CStr} (h : listOp optName name = some .del) :
    listOp name name = some .none := by
  rw [listOp] at h
  split at h
  · have hcase := of_decide_eq_true (suffixOp_del h)
    obtain ⟨pre, s, hname, hs⟩ : ∃ pre s, name = pre ++ s ∧
        s.map Char.toLower = "-del".toList.map Char.toLower :=
      ⟨name.take (optName.length - 1), _, (List.take_append_drop _ _).symm, hcase⟩
    have hlast : (s.map Char.toLower).getLast? = some 'l' := hs ▸ rfl
    rw [List.getLast?_map] at hlast
    obtain ⟨c, hc, hlower⟩ := Option.map_eq_some_iff.mp hlast
    have hstar : c ≠ '*' := by
      rintro rfl
      exact absurd hlower (by decide)
    rw [listOp, if_neg]
    rintro ⟨hget, -⟩
    rw [hname, List.getLast?_append, hc] at hget
    exact hstar (Option.some.inj hget)
  · cases h

theorem checkStrList_fields (fl : Doubles F) {name param : CStr}
    (hname : listOp name name = some .none) (hne : param ≠ []) :
    checkStrList fl (anyRange fl) name name (some param) none =
      .ok (1, some (splitFields ',' param)) := by
  have hn : (loopFields ',' param).length ≠ 0 :=
    fun h => loopFields_ne_nil (by decide) hne (List.length_eq_zero_iff.mp h)
  rw [checkStrList, hname]
  cases param with
  | nil => exact absurd rfl hne
  | cons c s =>
    simp only [if_neg hn]
    rfl

/-- Strings that are the texts of integers. -/
theorem codeNamed_eq (n : Nat) : ∀ {strs : List CStr} {ids : List Int},
    strs.map intText = ids.map some →
      (∀ str ∈ strs, (strtoll 0 str).2 ≠ str) ∧
        strs.filterMap (fun str => named n (toInt32 (strtoll 0 str).1)) =
          namedBy n (ids.map cutIndex)
  | [], [], _ => ⟨(fun _ h => nomatch h), rfl⟩
  | str :: strs, id :: ids, h => by
    obtain ⟨hid, hrest⟩ := List.cons_eq_cons.mp h
    obtain ⟨hep, hcut⟩ := strtoll_intText hid
    obtain ⟨hall, hnamed⟩ := codeNamed_eq n hrest
    refine ⟨fun s hs => ?_, ?_⟩
    · obtain rfl | hs := List.mem_cons.mp hs
      · exact hep
      · exact hall s hs
    · simp only [namedBy, List.filterMap_cons, List.map_cons, hcut] at hnamed ⊢
      rw [hnamed]

/-- The second loop on a list in which some entries are marked. -/
theorem compactLoop_markedCells (objs : List ObjSettings) (freed : List Nat) :
    ∃ k, compactLoop 0 objs.length (markedCells objs freed) =
      some ((keepUnnamed objs freed).length, ended ((keepUnnamed objs freed).map objCell) k) := by
  have hnull : ∀ c ∈ objs.zipIdx.map (cellAt freed), c.name ≠ .null := by
    intro c hc
    obtain ⟨⟨o, p⟩, -, rfl⟩ := List.mem_map.mp hc
    rw [cellAt]
    split <;> exact ObjName.noConfusion
  obtain ⟨k, hloop⟩ := compactLoop_append [] _ 0 hnull
  rw [unmarked_markedCells] at hloop
  simp only [List.length_nil, List.nil_append, List.length_map, List.length_zipIdx,
    Nat.zero_add] at hloop
  exact ⟨k, hloop⟩

theorem ended_take (objs : List ObjSettings) (k : Nat) :
    (ended (objs.map objCell) k).take (objs.length + 1) = objCells objs := by
  rw [ended, objCells, List.append_cons]
  refine List.take_left' ?_
  rw [List.length_append, List.length_map, List.length_singleton]

/-- What `obj_settings_list_del` does with a list that isn't `NULL`. -/
theorem objListDel_eq (fl : Doubles F) {name param : CStr} (objs : List ObjSettings)
    {ids : List Int} (hname : listOp name name = some .none)
    (hids : (splitFields ',' param).map intText = ids.map some) :
    objListDel fl name param (some objs) =
      let freed := (namedBy objs.length (ids.map cutIndex)).reverse
      if freed.Nodup then some (1, some (objCells (keepUnnamed objs freed)), freed) else none := by
  have hne : param ≠ [] := by
    rintro rfl
    cases ids with
    | nil => cases hids
    | cons id ids =>
      have hnone : intText [] = none := by decide
      exact nomatch hnone.symm.trans (List.cons_eq_cons.mp hids).1
  obtain ⟨hep, hcode⟩ := codeNamed_eq objs.length hids
  have hmark := markEntries_eq objs (splitFields ',' param) [] hep List.nodup_nil
  rw [hcode, List.append_nil, markedCells_nil] at hmark
  simp only [objListDel, checkStrList_fields fl hname hne, hmark]
  by_cases hnodup : (namedBy objs.length (ids.map cutIndex)).reverse.Nodup
  · rw [if_pos hnodup, if_pos hnodup]
    have hloop := compactLoop_markedCells objs (namedBy objs.length (ids.map cutIndex)).reverse
    obtain ⟨k, hloop⟩ := hloop
    simp only [hloop]
    rw [ended_take]
  · rw [if_neg hnodup, if_neg hnodup]

theorem keepUnnamed_congr (objs : List ObjSettings) {places places' : List Nat}
    (h : ∀ p, p ∈ places ↔ p ∈ places') : keepUnnamed objs places = keepUnnamed objs places' := by
  simp only [keepUnnamed, h]

/-! ## When it removes what it should -/

/-- No two of the indices, cut to an `int`, name the same entry, and they name the entries
that the indices name before they are cut. -/
def IndicesApart (n : Nat) (ids : List Int) : Prop :=
  (namedBy n (ids.map cutIndex)).Nodup ∧ ∀ p, p ∈ namedBy n (ids.map cutIndex) ↔ p ∈ namedBy n ids

theorem namedBy_zero (ids : List Int) : namedBy 0 ids = [] := by
  rw [namedBy, List.filterMap_eq_nil_iff]
  intro id _
  rw [named, if_pos]
  omega

theorem objListDel_iff (fl : Doubles F) {optName name param : CStr}
    {objs : Option (List ObjSettings)} {ids : List Int}
    (hop : listOp optName name = some .del)
    (hids : (splitFields ',' param).map intText = ids.map some) :
    DeletesNamed objs ids (objListDel fl name param objs) ↔
      IndicesApart (objs.getD []).length ids := by
  cases objs with
  | none =>
    simp only [DeletesNamed, IndicesApart, Option.getD_none, List.length_nil, namedBy_zero]
    exact ⟨fun _ => ⟨List.nodup_nil, fun _ => trivial⟩,
      fun _ => ⟨[], rfl, List.nodup_nil, fun _ => Iff.rfl⟩⟩
  | some objs =>
    rw [objListDel_eq fl objs (listOp_of_del hop) hids]
    simp only [DeletesNamed, IndicesApart, Option.getD_some, Option.map_some]
    constructor
    · rintro ⟨freed, heq, hnodup, hmem⟩
      split at heq
      · next hapart =>
        obtain ⟨-, rfl⟩ := Prod.mk.inj (Prod.mk.inj (Option.some.inj heq)).2
        exact ⟨List.nodup_reverse.mp hapart, fun p => List.mem_reverse.symm.trans (hmem p)⟩
      · cases heq
    · rintro ⟨hapart, hmem⟩
      have hmem' : ∀ p, p ∈ (namedBy objs.length (ids.map cutIndex)).reverse ↔
          p ∈ namedBy objs.length ids := fun p => List.mem_reverse.trans (hmem p)
      rw [if_pos (List.nodup_reverse.mpr hapart), keepUnnamed_congr objs hmem']
      exact ⟨_, rfl, List.nodup_reverse.mpr hapart, hmem'⟩

theorem named_cutIndex {n p : Nat} {id : Int} (hn : n ≤ 0x80000000) (h : named n id = some p) :
    named n (cutIndex id) = some p := by
  have hcut : cutIndex id = id := by
    rw [named] at h
    split at h
    · cases h
    · simp only [cutIndex, toInt32, llongMax]
      omega
  rw [hcut, h]

theorem namedBy_cutIndex {n : Nat} (hn : n ≤ 0x80000000) {ids : List Int}
    (hout : ∀ id ∈ ids, named n id = none → named n (cutIndex id) = none) :
    namedBy n (ids.map cutIndex) = namedBy n ids := by
  rw [namedBy, List.filterMap_map]
  refine List.filterMap_congr fun id hid => ?_
  cases hname : named n id with
  | none => exact hout id hid hname
  | some p => exact named_cutIndex hn hname

/-- The indices that do no harm in a list no longer than an `int` can tell: no two name the
same entry, and none that names no entry is cut to one that does. -/
theorem indicesApart_iff {n : Nat} (hn : n ≤ 0x80000000) (ids : List Int) :
    IndicesApart n ids ↔
      (namedBy n ids).Nodup ∧ ∀ id ∈ ids, named n id = none → named n (cutIndex id) = none := by
  constructor
  · rintro ⟨hnodup, hmem⟩
    have hout : ∀ id ∈ ids, named n id = none → named n (cutIndex id) = none := by
      intro id hid hnone
      cases hcut : named n (cutIndex id) with
      | none => rfl
      | some p =>
        have hp : p ∈ namedBy n (ids.map cutIndex) :=
          List.mem_filterMap.mpr ⟨_, List.mem_map_of_mem hid, hcut⟩
        obtain ⟨id', hid', hname⟩ := List.mem_filterMap.mp ((hmem p).mp hp)
        have hne : id ≠ id' := by
          rintro rfl
          cases hnone.symm.trans hname
        rw [namedBy, List.filterMap_map, List.Nodup, List.pairwise_filterMap] at hnodup
        have hsymm : Std.Symm fun a a' => ∀ b, (named n ∘ cutIndex) a = some b →
            ∀ b', (named n ∘ cutIndex) a' = some b' → b ≠ b' :=
          ⟨fun _ _ h b hb b' hb' heq => h b' hb' b hb heq.symm⟩
        exact absurd rfl (hnodup.forall hid hid' hne p hcut p (named_cutIndex hn hname))
    rw [namedBy_cutIndex hn hout] at hnodup
    exact ⟨hnodup, hout⟩
  · rintro ⟨hnodup, hout⟩
    rw [IndicesApart, namedBy_cutIndex hn hout]
    exact ⟨hnodup, fun _ => Iff.rfl⟩

/-- A list of indices given with `-del` removes the entries that they name and frees each of
them once exactly when no two of them, cut to an `int`, name the same entry and they name no
other entries than before. -/
theorem obj_settings_list_del_exact (fl : Doubles F) (optName name param : CStr)
    (objs : Option (List ObjSettings)) (ids : List Int) (hop : listOp optName name = some .del)
    (hids : (splitFields ',' param).map intText = ids.map some) :
    DeletesNamed objs ids (objListDel fl name param objs) ↔
      IndicesApart (objs.getD []).length ids :=
  objListDel_iff fl hop hids

/-- Three objects, of which the first and the last are removed. -/
theorem obj_settings_list_del_exact_ends :
    listOp "vf*".toList "vf-del".toList = some .del ∧
      DeletesNamed (some [⟨['a'], none⟩, ⟨['b'], none⟩, ⟨['c'], none⟩]) [0, -1]
        (objListDel intDoubles "vf-del".toList "0,-1".toList
          (some [⟨['a'], none⟩, ⟨['b'], none⟩, ⟨['c'], none⟩])) := by
  have hop : listOp "vf*".toList "vf-del".toList = some .del := by decide
  refine ⟨hop, (obj_settings_list_del_exact intDoubles "vf*".toList "vf-del".toList "0,-1".toList
    _ [0, -1] hop (by decide)).mpr ?_⟩
  have hplaces : namedBy 3 ([0, -1].map cutIndex) = namedBy 3 [0, -1] := by decide
  exact ⟨by show (namedBy 3 ([0, -1].map cutIndex)).Nodup; decide,
    fun p => by show p ∈ namedBy 3 ([0, -1].map cutIndex) ↔ _; rw [hplaces]; rfl⟩

/-- A list of one object and two indices that both name it. -/
theorem removed_twice :
    ¬ ∀ (objs : List ObjSettings) (param : CStr) (ids : List Int),
      (splitFields ',' param).map intText = ids.map some →
        DeletesNamed (some objs) ids (objListDel intDoubles "vf-del".toList param (some objs)) := by
  intro hall
  have hids : (splitFields ',' "0,-1".toList).map intText = [0, -1].map some := by decide
  have hop : listOp "vf*".toList "vf-del".toList = some .del := by decide
  have hapart := (objListDel_iff intDoubles hop hids).mp
    (hall [⟨['a'], none⟩] "0,-1".toList [0, -1] hids)
  have htwice : ¬(namedBy 1 ([0, -1].map cutIndex)).Nodup := by decide
  exact htwice hapart.1

end MPlayer
