import MPlayer.Mkv.Ebml
import MPlayer.Lib.Except

/-!
# Elements with children

The loops of the demuxer over the children of an element, and what they make of children
that are well formed.
-/

namespace MPlayer

open Lib

/-! ## Reading -/

/-- The loop over the children of an element with `length` bytes left.  An id or a length
that can't be read makes the code go on with the lengths of the element before.  The fuel is
the number of bytes in the stream, of which every round takes one. -/
def ebmlChildren {σ : Type} (child : Nat → σ → Reader → Except Fault (σ × Nat × Reader)) :
    Nat → Nat → σ → Reader → Except Fault (σ × Reader)
  | _, 0, st, r => .ok (st, r)
  | 0, _ + 1, _, _ => .error .undefined
  | fuel + 1, length + 1, st, r =>
    match ebmlReadId r with
    | ((_, none), _) => .error .undefined
    | ((id, some il), r) => do
      let (st, l, r) ← child id st r
      ebmlChildren child fuel ((length + 1 + 2 ^ 64 - (l + il)) % 2 ^ 64) st r

/-- The default branch: skip the element. -/
def skipChild {σ : Type} (st : σ) (r : Reader) : Except Fault (σ × Nat × Reader) :=
  match ebmlReadSkip r with
  | some (some l, r) => .ok (st, l, r)
  | _ => .error .undefined

/-- A child that is a number. -/
def uintChild {σ : Type} (set : Nat → σ) (r : Reader) : Except Fault (σ × Nat × Reader) :=
  match ebmlReadUint r with
  | ((num, l), r) =>
    if num = ebmlUintInvalid then .error .refused
    else
      match l with
      | none => .error .undefined
      | some l => .ok (set num, l, r)

/-- A child that has children of its own. -/
def masterChild {σ : Type} (child : Nat → σ → Reader → Except Fault (σ × Nat × Reader)) (st : σ)
    (r : Reader) : Except Fault (σ × Nat × Reader) :=
  match ebmlReadLength r with
  | ((_, none), _) => .error .undefined
  | ((len, some i), r) => do
    let (st, r) ← ebmlChildren child r.rest.length len st r
    .ok (st, len + i, r)

/-! ## Writing -/

/-- An element with its id in `iw` bytes and its length in `lw`. -/
def elementBytes (iw id lw : Nat) (content : List UInt8) : List UInt8 :=
  beBytes iw id ++ (vlen lw content.length ++ content)

/-- A sequence of elements that takes `st` to the last state, where `R` tells what the
element with a given id and content does. -/
inductive Children {σ : Type} (R : Nat → List UInt8 → σ → σ → Prop) : σ → List UInt8 → σ → Prop
  | nil (st : σ) : Children R st [] st
  | cons {iw id lw : Nat} {content bytes : List UInt8} {st st' st'' : σ} (hid : IsId iw id)
      (hlen : Coded lw content.length) (h : R id content st st') (hs : Children R st' bytes st'') :
      Children R st (elementBytes iw id lw content ++ bytes) st''

variable {σ : Type} {bytes content rest : List UInt8} {lw : Nat} {r : Reader}

/-- The same elements take the images of the states to each other. -/
theorem Children.map {τ : Type} {R : Nat → List UInt8 → σ → σ → Prop}
    {R' : Nat → List UInt8 → τ → τ → Prop} (f : σ → τ)
    (hR : ∀ {id content st st'}, R id content st st' → R' id content (f st) (f st')) {st st' : σ}
    (h : Children R st bytes st') : Children R' (f st) bytes (f st') := by
  induction h with
  | nil st => exact .nil _
  | cons hid hlen h _ ih => exact .cons hid hlen (hR h) ih

/-- What every element keeps is kept by all of them. -/
theorem Children.preserves {R : Nat → List UInt8 → σ → σ → Prop} {P : σ → Prop}
    (hR : ∀ {id content st st'}, R id content st st' → P st → P st') {st st' : σ}
    (h : Children R st bytes st') (hst : P st) : P st' := by
  induction h with
  | nil st => exact hst
  | cons hid hlen h _ ih => exact ih (hR h hst)

/-- A function reads the elements of `R`. -/
structure ReadsChild {σ : Type} (child : Nat → σ → Reader → Except Fault (σ × Nat × Reader))
    (R : Nat → List UInt8 → σ → σ → Prop) : Prop where
  reads : ∀ {id lw : Nat} {content rest : List UInt8} {st st' : σ} {r : Reader},
    R id content st st' → Coded lw content.length →
    r.rest = vlen lw content.length ++ content ++ rest →
    child id st r =
      .ok (st', content.length + lw, r.advance (vlen lw content.length ++ content) rest)

theorem ebmlChildren_children {child : Nat → σ → Reader → Except Fault (σ × Nat × Reader)}
    {R : Nat → List UInt8 → σ → σ → Prop} (hchild : ReadsChild child R) {st st' : σ}
    (h : Children R st bytes st') :
    ∀ (fuel : Nat) (r : Reader) (rest : List UInt8), r.rest = bytes ++ rest →
      bytes.length ≤ fuel → bytes.length < 2 ^ 64 →
      ebmlChildren child fuel bytes.length st r = .ok (st', r.advance bytes rest) := by
  induction h with
  | nil st =>
    intro fuel r rest hr _ _
    rw [List.nil_append] at hr
    rw [List.length_nil, ebmlChildren, ← hr, Reader.advance_nil]
  | @cons iw id lw content bytes st st' st'' hid hlen hR hs ih =>
    intro fuel r rest hr hfuel hlt
    have hiw := hid.pos
    have htotal : (elementBytes iw id lw content ++ bytes).length =
        iw + (lw + content.length) + bytes.length := by
      simp [elementBytes, Nat.add_assoc]
    obtain ⟨fuel, rfl⟩ : ∃ k, fuel = k + 1 := ⟨fuel - 1, by omega⟩
    obtain ⟨n, hn⟩ : ∃ n, (elementBytes iw id lw content ++ bytes).length = n + 1 :=
      ⟨_, (Nat.sub_add_cancel (by omega)).symm⟩
    have hr' : r.rest =
        beBytes iw id ++ (vlen lw content.length ++ content ++ (bytes ++ rest)) := by
      simpa [elementBytes] using hr
    have hread := hchild.reads (r := r.advance (beBytes iw id)
      (vlen lw content.length ++ content ++ (bytes ++ rest))) hR hlen rfl
    have hleft : (n + 1 + 2 ^ 64 - (content.length + lw + iw)) % 2 ^ 64 = bytes.length := by omega
    have hrec := ih fuel ((r.advance (beBytes iw id)
      (vlen lw content.length ++ content ++ (bytes ++ rest))).advance
        (vlen lw content.length ++ content) (bytes ++ rest)) rest rfl (by omega) (by omega)
    rw [hn, ebmlChildren, ebmlReadId_id hid hr']
    simp only [hread, ok_bind, hleft, hrec]
    simp [elementBytes]

/-- An element that is skipped. -/
theorem skipChild_content (st : σ) (hlen : Coded lw content.length)
    (hr : r.rest = vlen lw content.length ++ content ++ rest) :
    skipChild st r =
      .ok (st, content.length + lw, r.advance (vlen lw content.length ++ content) rest) := by
  rw [skipChild, ebmlReadSkip_content hlen hr]

/-- An element that holds a number. -/
theorem uintChild_content (set : Nat → σ) (hlen : Coded lw content.length) (hpos : content ≠ [])
    (hle : content.length ≤ 8) (hvalue : beValue 0 content ≠ ebmlUintInvalid)
    (hr : r.rest = vlen lw content.length ++ content ++ rest) :
    uintChild set r = .ok (set (beValue 0 content), content.length + lw,
      r.advance (vlen lw content.length ++ content) rest) := by
  rw [uintChild, ebmlReadUint_content hlen hpos hle hr]
  simp only [if_neg hvalue]

/-- An element with children. -/
theorem masterChild_content {child : Nat → σ → Reader → Except Fault (σ × Nat × Reader)}
    {R : Nat → List UInt8 → σ → σ → Prop} (hchild : ReadsChild child R) {st st' : σ}
    (hlen : Coded lw content.length) (h : Children R st content st')
    (hr : r.rest = vlen lw content.length ++ content ++ rest) :
    masterChild child st r = .ok (st', content.length + lw,
      r.advance (vlen lw content.length ++ content) rest) := by
  have hpow : 2 ^ (7 * lw) ≤ 2 ^ 56 := Nat.pow_le_pow_right (by decide) (by have := hlen.le; omega)
  have hlt := hlen.lt
  rw [List.append_assoc] at hr
  rw [masterChild, ebmlReadLength_vlen hlen hr]
  simp only
  rw [ebmlChildren_children hchild h _ (r.advance (vlen lw content.length) (content ++ rest)) rest
    rfl (by simp) (by omega), ok_bind]
  simp only [Reader.advance_advance]

end MPlayer
