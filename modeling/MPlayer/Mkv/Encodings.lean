import MPlayer.Mkv.Elements
import Mathlib.Data.List.Sort
import Mathlib.Data.List.Pairwise

/-!
# Content encodings

The frames of a track may be compressed, by several encodings one after the other.
`demux_mkv_read_trackencodings` reads the list of the encodings and sorts it by their
order.
-/

namespace MPlayer

open Lib

/-! ## Encodings -/

/-- `mkv_content_encoding_t`. -/
structure ContentEncoding where
  order : Nat
  type : Nat
  scope : Nat
  compAlgo : Nat
  compSettings : List UInt8
deriving DecidableEq

/-- The encoding that an entry without children stands for. -/
def ContentEncoding.default : ContentEncoding := ⟨0, 0, 1, 0, []⟩

/-! ## `demux_mkv_read_trackencodings` -/

/-- The children of `ContentCompression`.  `stream_read` takes the length of the settings for
an `int`, and what it doesn't read of them stays undefined. -/
def compressionChild (id : Nat) (e : ContentEncoding) (r : Reader) :
    Except Fault (ContentEncoding × Nat × Reader) :=
  if id = 0x4254 then uintChild (fun num => { e with compAlgo := num % 2 ^ 32 }) r
  else if id = 0x4255 then
    match ebmlReadLength r with
    | ((_, none), _) => .error .undefined
    | ((l, some i), r) =>
      let (settings, r) := r.read l
      if 2 ^ 31 ≤ l ∨ settings.length < l then .error .undefined
      else .ok ({ e with compSettings := settings }, l + i, r)
  else skipChild e r

/-- The children of `ContentEncoding`. -/
def encodingChild (id : Nat) (e : ContentEncoding) (r : Reader) :
    Except Fault (ContentEncoding × Nat × Reader) :=
  if id = 0x5031 then uintChild (fun num => { e with order := num % 2 ^ 32 }) r
  else if id = 0x5032 then uintChild (fun num => { e with scope := num % 2 ^ 32 }) r
  else if id = 0x5033 then uintChild (fun num => { e with type := num % 2 ^ 32 }) r
  else if id = 0x5034 then masterChild compressionChild e r
  else skipChild e r

/-- The order in which the encodings are kept. -/
def orderLE (e e' : ContentEncoding) : Prop := e.order ≤ e'.order

instance : DecidableRel orderLE := fun e e' => inferInstanceAs (Decidable (e.order ≤ e'.order))

/-- Insert an encoding in front of the first one whose order is not smaller. -/
def insertEncoding (e : ContentEncoding) (ce : List ContentEncoding) : List ContentEncoding :=
  ce.orderedInsert orderLE e

/-- The children of `ContentEncodings`. -/
def encodingsChild (id : Nat) (ce : List ContentEncoding) (r : Reader) :
    Except Fault (List ContentEncoding × Nat × Reader) :=
  if id = 0x6240 then do
    let (e, l, r) ← masterChild encodingChild .default r
    .ok (insertEncoding e ce, l, r)
  else skipChild ce r

/-- `demux_mkv_read_trackencodings`: the encodings of the track, and the length of the
element. -/
def readTrackEncodings (r : Reader) : Except Fault (List ContentEncoding × Nat × Reader) :=
  masterChild encodingsChild [] r

/-! ## What is read -/

/-- The content of an element that holds a number of 32 bits. -/
structure IsUint (content : List UInt8) : Prop where
  ne_nil : content ≠ []
  le : content.length ≤ 8
  lt : beValue 0 content < 2 ^ 32

theorem IsUint.uintChild {σ : Type} {content : List UInt8} (h : IsUint content) (set : Nat → σ)
    {lw : Nat} {rest : List UInt8} {r : Reader} (hlen : Coded lw content.length)
    (hr : r.rest = vlen lw content.length ++ content ++ rest) :
    MPlayer.uintChild (fun num => set (num % 2 ^ 32)) r = .ok (set (beValue 0 content),
      content.length + lw, r.advance (vlen lw content.length ++ content) rest) := by
  have hlt := h.lt
  rw [uintChild_content _ hlen h.ne_nil h.le (by simp only [ebmlUintInvalid]; omega) hr,
    Nat.mod_eq_of_lt hlt]

/-- The elements of a `ContentCompression`. -/
inductive CompressionField : Nat → List UInt8 → ContentEncoding → ContentEncoding → Prop
  | algo {content : List UInt8} (h : IsUint content) (e : ContentEncoding) :
      CompressionField 0x4254 content e { e with compAlgo := beValue 0 content }
  | settings {content : List UInt8} (h : content.length < 2 ^ 31) (e : ContentEncoding) :
      CompressionField 0x4255 content e { e with compSettings := content }
  | other {id : Nat} (content : List UInt8) (e : ContentEncoding) (h : id ≠ 0x4254)
      (h' : id ≠ 0x4255) : CompressionField id content e e

/-- The elements of a `ContentEncoding`. -/
inductive EncodingField : Nat → List UInt8 → ContentEncoding → ContentEncoding → Prop
  | order {content : List UInt8} (h : IsUint content) (e : ContentEncoding) :
      EncodingField 0x5031 content e { e with order := beValue 0 content }
  | scope {content : List UInt8} (h : IsUint content) (e : ContentEncoding) :
      EncodingField 0x5032 content e { e with scope := beValue 0 content }
  | type {content : List UInt8} (h : IsUint content) (e : ContentEncoding) :
      EncodingField 0x5033 content e { e with type := beValue 0 content }
  | compression {content : List UInt8} {e e' : ContentEncoding}
      (h : Children CompressionField e content e') : EncodingField 0x5034 content e e'
  | other {id : Nat} (content : List UInt8) (e : ContentEncoding)
      (h : id ∉ [0x5031, 0x5032, 0x5033, 0x5034]) : EncodingField id content e e

/-- The elements of a `ContentEncodings`, behind the given encodings. -/
inductive EncodingsField : Nat → List UInt8 → List ContentEncoding → List ContentEncoding → Prop
  | encoding {content : List UInt8} {e : ContentEncoding}
      (h : Children EncodingField .default content e) (es : List ContentEncoding) :
      EncodingsField 0x6240 content es (es ++ [e])
  | other {id : Nat} (content : List UInt8) (es : List ContentEncoding) (h : id ≠ 0x6240) :
      EncodingsField id content es es

/-- The settings that are read are shorter than the largest `int`. -/
theorem EncodingsField.settings_lt {body : List UInt8} {es : List ContentEncoding}
    (h : Children EncodingsField [] body es) : ∀ e ∈ es, e.compSettings.length < 2 ^ 31 := by
  refine h.preserves (P := fun es => ∀ e ∈ es, e.compSettings.length < 2 ^ 31) ?_ (by simp)
  intro id content es es' hfield hes
  cases hfield with
  | other _ _ h => exact hes
  | @encoding _ e h _ =>
    have hnew : e.compSettings.length < 2 ^ 31 := by
      refine h.preserves (P := fun e => e.compSettings.length < 2 ^ 31) ?_ (by decide)
      intro id content e e' hfield he
      cases hfield with
      | order | scope | type | other => exact he
      | compression h =>
        refine h.preserves (P := fun e => e.compSettings.length < 2 ^ 31) ?_ he
        intro id content e e' hfield he
        cases hfield with
        | algo | other => exact he
        | settings h => exact h
    intro e' he'
    rcases List.mem_append.1 he' with hmem | hmem
    · exact hes e' hmem
    · rw [List.mem_singleton.1 hmem]
      exact hnew

theorem compressionChild_reads : ReadsChild compressionChild CompressionField := by
  constructor
  intro id lw content rest e e' r h hlen hr
  rw [compressionChild]
  cases h with
  | algo h => exact h.uintChild (fun num => { e with compAlgo := num }) hlen hr
  | settings h =>
    have hlt : ¬ (2 ^ 31 ≤ content.length ∨ content.length < content.length) := by omega
    rw [if_neg (by decide), if_pos rfl]
    rw [List.append_assoc] at hr
    rw [ebmlReadLength_vlen hlen hr]
    simp only [Reader.read_append (Reader.advance_rest _ _ _), if_neg hlt, Reader.advance_advance]
  | other _ _ h h' =>
    rw [if_neg h, if_neg h']
    exact skipChild_content _ hlen hr

theorem encodingChild_reads : ReadsChild encodingChild EncodingField := by
  constructor
  intro id lw content rest e e' r h hlen hr
  rw [encodingChild]
  cases h with
  | order h => exact h.uintChild (fun num => { e with order := num }) hlen hr
  | scope h => exact h.uintChild (fun num => { e with scope := num }) hlen hr
  | type h => exact h.uintChild (fun num => { e with type := num }) hlen hr
  | compression h => exact masterChild_content compressionChild_reads hlen h hr
  | other _ _ h =>
    simp only [List.mem_cons, List.not_mem_nil, or_false, not_or] at h
    obtain ⟨h1, h2, h3, h4⟩ := h
    rw [if_neg h1, if_neg h2, if_neg h3, if_neg h4]
    exact skipChild_content _ hlen hr

/-- The encodings in the order in which they are kept. -/
def sortEncodings (es : List ContentEncoding) : List ContentEncoding :=
  es.foldl (fun ce e => insertEncoding e ce) []

/-- What reading does to the encodings that were read before. -/
def SortedField (id : Nat) (content : List UInt8) (ce ce' : List ContentEncoding) : Prop :=
  ∃ es es', ce = sortEncodings es ∧ ce' = sortEncodings es' ∧ EncodingsField id content es es'

theorem encodingsChild_reads : ReadsChild encodingsChild SortedField := by
  constructor
  rintro id lw content rest ce ce' r ⟨es, es', rfl, rfl, h⟩ hlen hr
  rw [encodingsChild]
  cases h with
  | encoding h =>
    rw [if_pos rfl, masterChild_content encodingChild_reads hlen h hr, ok_bind]
    simp [sortEncodings]
  | other _ _ h =>
    rw [if_neg h]
    exact skipChild_content _ hlen hr

/-- The encodings of a track are read and sorted. -/
theorem readTrackEncodings_written {es : List ContentEncoding} {lw : Nat}
    {body rest : List UInt8} {r : Reader} (hlen : Coded lw body.length)
    (h : Children EncodingsField [] body es) (hr : r.rest = vlen lw body.length ++ body ++ rest) :
    readTrackEncodings r = .ok (sortEncodings es, body.length + lw,
      r.advance (vlen lw body.length ++ body) rest) :=
  masterChild_content encodingsChild_reads hlen
    (h.map sortEncodings fun hf => ⟨_, _, rfl, rfl, hf⟩) hr

/-! ## The order of the encodings -/

instance : Std.Total orderLE := ⟨fun e e' => Nat.le_total e.order e'.order⟩

instance : IsTrans ContentEncoding orderLE := ⟨fun _ _ _ h h' => Nat.le_trans h h'⟩

theorem foldl_insertEncoding (es ce : List ContentEncoding) (h : ce.Pairwise orderLE) :
    (es.foldl (fun ce e => insertEncoding e ce) ce).Perm (es ++ ce) ∧
      (es.foldl (fun ce e => insertEncoding e ce) ce).Pairwise orderLE := by
  induction es generalizing ce with
  | nil => exact ⟨List.Perm.refl _, h⟩
  | cons e es ih =>
    obtain ⟨hperm, hsorted⟩ := ih (insertEncoding e ce) (h.orderedInsert e ce)
    have hinsert : (insertEncoding e ce).Perm (e :: ce) := List.perm_orderedInsert orderLE e ce
    refine ⟨hperm.trans ?_, hsorted⟩
    exact (hinsert.append_left es).trans List.perm_middle

/-- Encodings with orders of their own are sorted whatever order they are read in. -/
theorem sortEncodings_eq {es chain : List ContentEncoding} (hperm : chain.Perm es)
    (hsorted : chain.Pairwise fun e e' => e.order < e'.order) : sortEncodings es = chain := by
  obtain ⟨hperm', hsorted'⟩ := foldl_insertEncoding es [] List.Pairwise.nil
  rw [List.append_nil] at hperm'
  have hone : ∀ a ∈ chain, ∀ b ∈ chain, a.order = b.order → a = b := by
    have : Std.Symm fun a b : ContentEncoding => a.order = b.order → a = b :=
      ⟨fun _ _ h heq => (h heq.symm).symm⟩
    exact List.Pairwise.forall_of_forall (fun _ _ _ => rfl)
      (hsorted.imp fun h heq => absurd heq (Nat.ne_of_lt h))
  refine List.Perm.eq_of_pairwise (fun a b ha hb hab hba => ?_) hsorted'
    (hsorted.imp Nat.le_of_lt) (hperm'.trans hperm.symm)
  exact hone a (hperm.symm.subset (hperm'.subset ha)) b hb (Nat.le_antisymm hab hba)

end MPlayer
