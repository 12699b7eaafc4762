import MPlayer.Ts.Mp4Descriptors
import Mathlib.Tactic.Set

/-!
# Nested descriptors

When is a sequence of descriptors read inside of its buffer, and each nested sequence inside of the
descriptor that it is nested in?  The bytes say where descriptors begin, how long they are and what
is nested in them (`mp4Items`, `ownReads`, `nested`).  All that is read must end in front of the
first end of the enclosing extents, and a descriptor that belongs into an ES descriptor or into a
decoder configuration must stand there (`Mp4Fits`).
-/

namespace MPlayer

/-! ## What the bytes say -/

/-- A descriptor: where it begins, how many bytes of its length are read, and its tag, its contents
and their length, unless it is too long for the sequence. -/
structure Mp4Item where
  pos : Nat
  lengthBytes : Nat
  contents : Option (UInt8 × Nat × Nat)

variable (mem : Nat → UInt8)

/-- The descriptors from `i` on of a sequence. -/
def mp4Items (buf len i : Nat) : List Mp4Item :=
  if hi : i < len then
    let d := getMp4DescLen mem (buf + i + 1) (len - i - 1)
    if d.size > len - d.len + 1 then [⟨buf + i, d.reads, none⟩]
    else
      ⟨buf + i, d.reads, some (mem (buf + i), buf + (i + d.len + 1), d.size)⟩ ::
        mp4Items buf len (i + d.len + 1 + d.size)
  else []
termination_by len - i

/-- What a descriptor is read of itself, as positions and numbers of bytes. -/
def ownReads (kind : Mp4ElemKind) (tag : UInt8) (buf len : Nat) : List (Nat × Nat) :=
  if tag = 0x1 ∨ tag = 0x2 then
    if mem (buf + 1) &&& 0x20 ≠ 0 then [(buf, 2), (buf + 2, 1)] else [(buf, 2)]
  else if tag = 0x3 then
    if len = 0 then []
    else (buf, 3) :: ((mp4EsHeader mem buf).1.map fun i => (buf + i, 1)).toList
  else if kind = .null then []
  else if tag = 0x4 then [(buf, 2)]
  else if tag = 0x5 then [(buf, len)]
  else if tag = 0x6 then [(buf, (mp4SlConfig mem buf .zero).2)]
  else []

/-- The sequence that is nested in a descriptor, and the kind of element that it gets. -/
def nested (kind : Mp4ElemKind) (tag : UInt8) (buf len : Nat) :
    Option (Mp4ElemKind × Nat × Nat) :=
  if tag = 0x1 then
    if mem (buf + 1) &&& 0x20 = 0 ∧ 2 < len then some (kind, buf + 2, len - 2) else none
  else if tag = 0x2 then
    if mem (buf + 1) &&& 0x20 = 0 ∧ 7 < len then some (kind, buf + 7, len - 7) else none
  else if tag = 0x3 then
    if len = 0 then none
    else some (.es, buf + (mp4EsHeader mem buf).2, len - (mp4EsHeader mem buf).2)
  else if tag = 0x4 ∧ kind ≠ .null ∧ 13 < len then some (.decoder, buf + 13, len - 13)
  else none

/-- The element is of the kind that a descriptor is stored into, or there is none. -/
def CastFits (kind : Mp4ElemKind) (tag : UInt8) : Prop :=
  (tag = 0x4 ∨ tag = 0x6 → kind ≠ .decoder) ∧ (tag = 0x5 → kind ≠ .es)

/-- The bytes end in front of `limit`, if there are any. -/
def EndsBy (limit pos n : Nat) : Prop := n = 0 ∨ pos + n ≤ limit

/-- A sequence of descriptors fits in front of `limit`. -/
inductive Mp4Fits : Nat → Mp4ElemKind → Nat → Nat → Prop where
  | intro {limit buf len : Nat} {kind : Mp4ElemKind}
      (hheader : ∀ item ∈ mp4Items mem buf len 0, item.pos + 1 + item.lengthBytes ≤ limit)
      (hown : ∀ item ∈ mp4Items mem buf len 0, ∀ tag b n, item.contents = some (tag, b, n) →
        ∀ own ∈ ownReads mem kind tag b n, EndsBy limit own.1 own.2)
      (hcast : ∀ item ∈ mp4Items mem buf len 0, ∀ tag b n, item.contents = some (tag, b, n) →
        CastFits kind tag)
      (hnested : ∀ item ∈ mp4Items mem buf len 0, ∀ tag b n, item.contents = some (tag, b, n) →
        ∀ kind' b' n', nested mem kind tag b n = some (kind', b', n') →
          Mp4Fits (min limit (b' + n')) kind' b' n') :
      Mp4Fits limit kind buf len

/-! ## What the code does -/

/-- The bytes that are read are in all extents, and an element has the kind that it is cast to. -/
def Mp4Event.Ok : Mp4Event → Prop
  | read extents pos n => ∀ e ∈ extents, ∀ i < n, e.1 ≤ pos + i ∧ pos + i < e.1 + e.2
  | cast kind given => given = kind

/-- Every access is one that the claimed lengths allow. -/
def Contained (log : List Mp4Event) : Prop := ∀ e ∈ log, e.Ok

/-- The extents begin in front of `buf`, and the first one of their ends is `limit`. -/
structure Encloses (extents : List Mp4Extent) (limit buf : Nat) : Prop where
  begin_le : ∀ e ∈ extents, e.1 ≤ buf
  end_iff : ∀ pos, pos < limit ↔ ∀ e ∈ extents, pos < e.1 + e.2

variable {mem} {extents : List Mp4Extent} {limit buf : Nat}

variable {pos : Nat} {kind : Mp4ElemKind} {tag : UInt8}

/-- Bytes up to the limit may be read. -/
theorem Encloses.read_ok (h : Encloses extents limit buf) (hpos : buf ≤ pos) (n : Nat) :
    (Mp4Event.read extents pos n).Ok ↔ EndsBy limit pos n := by
  constructor
  · intro hok
    by_cases hn : n = 0
    · exact .inl hn
    · have hlast : pos + (n - 1) < limit :=
        (h.end_iff _).2 fun e he => (hok e he (n - 1) (by omega)).2
      exact .inr (by omega)
  · rintro (rfl | hle) e he i hi
    · exact absurd hi (Nat.not_lt_zero i)
    · have hbegin := h.begin_le e he
      exact ⟨by omega, (h.end_iff (pos + i)).1 (by omega) e he⟩

/-- Inside of a descriptor the limit is its end, if that comes first. -/
theorem Encloses.push {b : Nat} (h : Encloses extents limit buf) (hb : buf ≤ b) (n : Nat) :
    Encloses ((b, n) :: extents) (min limit (b + n)) b := by
  constructor
  · intro e he
    obtain rfl | he := List.mem_cons.1 he
    · exact Nat.le_refl b
    · exact Nat.le_trans (h.begin_le e he) hb
  · intro pos
    rw [List.forall_mem_cons, Nat.lt_min, h.end_iff, and_comm]

theorem encloses_outermost (buf len : Nat) : Encloses [(buf, len)] (buf + len) buf := by
  constructor
  · intro e he
    exact Nat.le_of_eq (congrArg Prod.fst (List.mem_singleton.1 he))
  · intro pos
    simp

theorem contained_cons (e : Mp4Event) (log : List Mp4Event) :
    Contained (e :: log) ↔ Contained log ∧ e.Ok := by
  unfold Contained
  rw [List.forall_mem_cons, and_comm]

theorem Encloses.contained_read (h : Encloses extents limit buf) (hpos : buf ≤ pos) (n : Nat)
    (r : Mp4Run) : Contained (r.read extents pos n).log ↔ Contained r.log ∧ EndsBy limit pos n := by
  rw [Mp4Run.read, contained_cons, h.read_ok hpos]

theorem contained_cast (kind : Mp4ElemKind) (r : Mp4Run) :
    Contained (r.cast kind).log ↔ Contained r.log ∧ r.elem.kind = kind := by
  rw [Mp4Run.cast, contained_cons]
  rfl

/-! ## Handlers -/

/-- A descriptor that is not too long for its sequence fits. -/
structure ItemFits (mem : Nat → UInt8) (limit : Nat) (kind : Mp4ElemKind) (tag : UInt8)
    (b n : Nat) : Prop where
  own : ∀ own ∈ ownReads mem kind tag b n, EndsBy limit own.1 own.2
  cast : CastFits kind tag
  nested : ∀ kind' b' n', nested mem kind tag b n = some (kind', b', n') →
    Mp4Fits mem (min limit (b' + n')) kind' b' n'

/-- What a handler, or a call for what is nested in it, does to a run. -/
structure Contains (r r' : Mp4Run) (fits : Prop) : Prop where
  kind : r'.elem.kind = r.elem.kind
  contained : Contained r'.log ↔ Contained r.log ∧ fits

/-- Calls for shorter sequences keep nested ones inside of `limit`. -/
def ParseContains (mem : Nat → UInt8) (limit buf len : Nat)
    (parse : (b n : Nat) → n < len → Mp4Run → Mp4Run) : Prop :=
  ∀ b n hn r, buf ≤ b →
    Contains r (parse b n hn r) (Mp4Fits mem (min limit (b + n)) r.elem.kind b n)

variable {b n : Nat} {parse : (b' n' : Nat) → n' < n → Mp4Run → Mp4Run}

theorem od_contains {skip : Nat} (hskip : 0 < skip) (hext : Encloses extents limit buf)
    (hb : buf ≤ b) (hparse : ParseContains mem limit buf n parse) (r : Mp4Run) :
    Contains r (parseMp4Od mem extents skip hskip b n parse r)
      ((∀ own ∈ (if mem (b + 1) &&& 0x20 ≠ 0 then [(b, 2), (b + 2, 1)] else [(b, 2)]),
          EndsBy limit own.1 own.2) ∧
        (mem (b + 1) &&& 0x20 = 0 ∧ skip < n →
          Mp4Fits mem (min limit (b + skip + (n - skip))) r.elem.kind (b + skip) (n - skip))) := by
  have hread := hext.contained_read hb 2 r
  unfold parseMp4Od
  dsimp only
  by_cases hurl : mem (b + 1) &&& 0x20 ≠ 0
  · simp only [if_pos hurl]
    refine ⟨rfl, ?_⟩
    rw [hext.contained_read (by omega), hread]
    simp [hurl, and_assoc]
  · simp only [if_neg hurl]
    have hzero := not_not.1 hurl
    split
    · next hlt =>
      have hnested := hparse (b + skip) (n - skip) (by omega) (r.read extents b 2) (by omega)
      refine ⟨hnested.kind, ?_⟩
      rw [hnested.contained, hread]
      simp [hzero, hlt, and_assoc, Mp4Run.read]
    · next hlt =>
      refine ⟨rfl, ?_⟩
      rw [hread]
      simp [hlt]

theorem castFits_of_ne (hconfig : tag ≠ 4) (hspecific : tag ≠ 5) (hsl : tag ≠ 6) :
    CastFits kind tag := by
  constructor
  · rintro (h | h)
    · exact absurd h hconfig
    · exact absurd h hsl
  · exact fun h => absurd h hspecific

theorem itemFits_of_none (limit : Nat) (h : nested mem kind tag b n = none) :
    ItemFits mem limit kind tag b n ↔
      (∀ own ∈ ownReads mem kind tag b n, EndsBy limit own.1 own.2) ∧ CastFits kind tag := by
  constructor
  · rintro ⟨hown, hcast, -⟩
    exact ⟨hown, hcast⟩
  · rintro ⟨hown, hcast⟩
    refine ⟨hown, hcast, fun kind' b' n' hnested => ?_⟩
    rw [h] at hnested
    cases hnested

theorem itemFits_of_some (limit : Nat) {kind' : Mp4ElemKind} {b' n' : Nat}
    (h : nested mem kind tag b n = some (kind', b', n')) :
    ItemFits mem limit kind tag b n ↔
      (∀ own ∈ ownReads mem kind tag b n, EndsBy limit own.1 own.2) ∧ CastFits kind tag ∧
        Mp4Fits mem (min limit (b' + n')) kind' b' n' := by
  constructor
  · rintro ⟨hown, hcast, hnested⟩
    exact ⟨hown, hcast, hnested kind' b' n' h⟩
  · rintro ⟨hown, hcast, hfits⟩
    refine ⟨hown, hcast, fun kind'' b'' n'' hnested => ?_⟩
    rw [h] at hnested
    cases hnested
    exact hfits

/-- An object descriptor and an IOD, which have the descriptors in them behind `skip` bytes. -/
theorem contains_od {skip : Nat} (hskip : 0 < skip) (hext : Encloses extents limit buf)
    (hb : buf ≤ b) (hparse : ParseContains mem limit buf n parse) (r : Mp4Run)
    (hcast : CastFits r.elem.kind tag)
    (hown : ownReads mem r.elem.kind tag b n =
      if mem (b + 1) &&& 0x20 ≠ 0 then [(b, 2), (b + 2, 1)] else [(b, 2)])
    (hnested : nested mem r.elem.kind tag b n =
      if mem (b + 1) &&& 0x20 = 0 ∧ skip < n then some (r.elem.kind, b + skip, n - skip)
      else none) :
    Contains r (parseMp4Od mem extents skip hskip b n parse r)
      (ItemFits mem limit r.elem.kind tag b n) := by
  obtain ⟨hkind, hcontained⟩ := od_contains hskip hext hb hparse r
  refine ⟨hkind, hcontained.trans (and_congr_right fun _ => ?_)⟩
  by_cases hcond : mem (b + 1) &&& 0x20 = 0 ∧ skip < n
  · rw [if_pos hcond] at hnested
    rw [itemFits_of_some limit hnested, hown]
    exact and_congr_right fun _ => ⟨fun h => ⟨hcast, h hcond⟩, fun h _ => h.2⟩
  · rw [if_neg hcond] at hnested
    rw [itemFits_of_none limit hnested, hown]
    exact and_congr_right fun _ => ⟨fun _ => hcast, fun _ h => absurd h hcond⟩

theorem contains_object (hext : Encloses extents limit buf) (hb : buf ≤ b)
    (hparse : ParseContains mem limit buf n parse) (r : Mp4Run) :
    Contains r (parseMp4ObjectDescriptor mem extents b n parse r)
      (ItemFits mem limit r.elem.kind 1 b n) :=
  contains_od _ hext hb hparse r (castFits_of_ne (by decide) (by decide) (by decide)) rfl
    (by rw [nested, if_pos rfl])

theorem contains_iod (hext : Encloses extents limit buf) (hb : buf ≤ b)
    (hparse : ParseContains mem limit buf n parse) (r : Mp4Run) :
    Contains r (parseMp4Iod mem extents b n parse r) (ItemFits mem limit r.elem.kind 2 b n) :=
  contains_od _ hext hb hparse r (castFits_of_ne (by decide) (by decide) (by decide)) rfl
    (by rw [nested, if_neg (by decide), if_pos rfl])

theorem contained_esHeader (hext : Encloses extents limit buf) (hb : buf ≤ b) (r : Mp4Run) :
    Contained (readMp4EsHeader mem extents b r).log ↔ Contained r.log ∧
      ∀ own ∈ (b, 3) :: ((mp4EsHeader mem b).1.map fun i => (b + i, 1)).toList,
        EndsBy limit own.1 own.2 := by
  have hread := hext.contained_read hb 3 r
  unfold readMp4EsHeader
  cases (mp4EsHeader mem b).1 with
  | none =>
    dsimp only
    rw [hread]
    simp
  | some url =>
    dsimp only
    rw [hext.contained_read (by omega), hread]
    simp [and_assoc]

/-- An ES descriptor. -/
theorem contains_es (hext : Encloses extents limit buf) (hb : buf ≤ b)
    (hparse : ParseContains mem limit buf n parse) (r : Mp4Run) :
    Contains r (parseMp4EsDescriptor mem extents b n parse r)
      (ItemFits mem limit r.elem.kind 3 b n) := by
  have hcast : CastFits r.elem.kind 3 := castFits_of_ne (by decide) (by decide) (by decide)
  by_cases hn : 0 < n
  · have hnested : nested mem r.elem.kind 3 b n =
        some (.es, b + (mp4EsHeader mem b).2, n - (mp4EsHeader mem b).2) := by
      rw [nested, if_neg (by decide), if_neg (by decide), if_pos rfl, if_neg (by omega)]
    have hown : ownReads mem r.elem.kind 3 b n =
        (b, 3) :: ((mp4EsHeader mem b).1.map fun i => (b + i, 1)).toList := by
      rw [ownReads, if_neg (by decide), if_pos rfl, if_neg (by omega)]
    have hcall := hparse (b + (mp4EsHeader mem b).2) (n - (mp4EsHeader mem b).2)
      (by have hpos := mp4EsHeader_pos mem b; omega)
      { readMp4EsHeader mem extents b r with
        elem := .es (.zero ((mem b).toUInt16 <<< 8 ||| (mem (b + 1)).toUInt16)) } (by omega)
    have hlog := hcall.contained
    rw [contained_esHeader hext hb r, and_assoc] at hlog
    rw [itemFits_of_some limit hnested, hown, parseMp4EsDescriptor, dif_pos hn]
    dsimp only
    split
    all_goals
      refine ⟨rfl, hlog.trans ?_⟩
      exact and_congr_right fun _ => and_congr_right fun _ => ⟨fun h => ⟨hcast, h⟩, And.right⟩
  · have hzero : n = 0 := by omega
    have hnested : nested mem r.elem.kind 3 b n = none := by
      rw [nested, if_neg (by decide), if_neg (by decide), if_pos rfl, if_pos hzero]
    have hown : ownReads mem r.elem.kind 3 b n = [] := by
      rw [ownReads, if_neg (by decide), if_pos rfl, if_pos hzero]
    rw [itemFits_of_none limit hnested, hown, parseMp4EsDescriptor, dif_neg hn]
    exact ⟨rfl, fun h => ⟨h, fun _ h => absurd h List.not_mem_nil, hcast⟩, And.left⟩

/-- Without an element a handler that stores into it does nothing. -/
theorem itemFits_null (htag : tag = 4 ∨ tag = 5 ∨ tag = 6) : ItemFits mem limit .null tag b n := by
  have hnested : nested mem .null tag b n = none := by
    obtain rfl | rfl | rfl := htag <;> rfl
  have hown : ownReads mem .null tag b n = [] := by
    obtain rfl | rfl | rfl := htag <;> rfl
  rw [itemFits_of_none limit hnested, hown]
  exact ⟨fun _ h => absurd h List.not_mem_nil, fun _ => nofun, fun _ => nofun⟩

/-- What is read behind a cast. -/
theorem contained_cast_read (hext : Encloses extents limit buf) (hb : buf ≤ b)
    (kind : Mp4ElemKind) (n : Nat) (r : Mp4Run) :
    Contained ((r.cast kind).read extents b n).log ↔
      Contained r.log ∧ r.elem.kind = kind ∧ EndsBy limit b n := by
  rw [hext.contained_read hb, contained_cast, and_assoc]

/-- A decoder configuration. -/
theorem contains_config (hext : Encloses extents limit buf) (hb : buf ≤ b)
    (hparse : ParseContains mem limit buf n parse) (r : Mp4Run) :
    Contains r (parseMp4DecoderConfigDescriptor mem extents b n parse r)
      (ItemFits mem limit r.elem.kind 4 b n) := by
  have hread := contained_cast_read hext hb .es 2 r
  obtain ⟨pmt, elem, log⟩ := r
  cases elem with
  | null => exact ⟨rfl, fun h => ⟨h, itemFits_null (.inl rfl)⟩, And.left⟩
  | es es =>
    have hcast : CastFits .es 4 := ⟨fun _ => nofun, fun h => absurd h (by decide)⟩
    have hown : ownReads mem .es 4 b n = [(b, 2)] := rfl
    unfold parseMp4DecoderConfigDescriptor
    change Contains _ _ (ItemFits mem limit .es 4 b n)
    dsimp only
    by_cases hn : 13 < n
    · have hnested : nested mem .es 4 b n = some (.decoder, b + 13, n - 13) := by
        rw [nested, if_neg (by decide), if_neg (by decide), if_neg (by decide),
          if_pos ⟨rfl, nofun, hn⟩]
      have hcall := hparse (b + 13) (n - 13) (by omega)
        { (Mp4Run.cast .es ⟨pmt, .es es, log⟩).read extents b 2 with
          elem := .decoder (mp4DecoderConfig mem b es pmt).1
          pmt := (mp4DecoderConfig mem b es pmt).2 } (by omega)
      have hlog := hcall.contained
      rw [hread] at hlog
      have hiff := itemFits_of_some limit hnested
      rw [hown, List.forall_mem_singleton] at hiff
      simp only [dif_pos hn]
      split
      all_goals
        refine ⟨rfl, hlog.trans ?_⟩
        rw [hiff]
        exact ⟨fun ⟨⟨h, _, hends⟩, hfits⟩ => ⟨h, hends, hcast, hfits⟩,
          fun ⟨h, hends, _, hfits⟩ => ⟨⟨h, rfl, hends⟩, hfits⟩⟩
    · have hnested : nested mem .es 4 b n = none := by
        rw [nested, if_neg (by decide), if_neg (by decide), if_neg (by decide),
          if_neg fun h => hn h.2.2]
      have hiff := itemFits_of_none limit hnested
      rw [hown, List.forall_mem_singleton] at hiff
      simp only [dif_neg hn]
      refine ⟨rfl, hread.trans ?_⟩
      rw [hiff]
      exact ⟨fun ⟨h, _, hends⟩ => ⟨h, hends, hcast⟩, fun ⟨h, hends, _⟩ => ⟨h, rfl, hends⟩⟩
  | decoder dec =>
    have hnot : ¬ItemFits mem limit .decoder 4 b n := fun h => h.cast.1 (.inl rfl) rfl
    have hno : ¬Contained ((Mp4Run.cast .es ⟨pmt, .decoder dec, log⟩).read extents b 2).log := by
      rw [hread]
      exact fun h => absurd h.2.1 nofun
    refine ⟨rfl, fun h => absurd ?_ hno, fun h => absurd h.2 hnot⟩
    unfold parseMp4DecoderConfigDescriptor at h
    dsimp only at h
    by_cases hn : 13 < n
    · simp only [dif_pos hn] at h
      exact ((hparse (b + 13) (n - 13) (by omega) _ (by omega)).contained.1 h).1
    · simpa only [dif_neg hn] using h

/-- Decoder specific data. -/
theorem contains_specific (hext : Encloses extents limit buf) (hb : buf ≤ b) (r : Mp4Run) :
    Contains r (parseMp4DecoderSpecificDescriptor mem extents b n r)
      (ItemFits mem limit r.elem.kind 5 b n) := by
  have hread := contained_cast_read hext hb .decoder n r
  obtain ⟨pmt, elem, log⟩ := r
  cases elem with
  | null => exact ⟨rfl, fun h => ⟨h, itemFits_null (.inr (.inl rfl))⟩, And.left⟩
  | es es =>
    have hnot : ¬ItemFits mem limit .es 5 b n := fun h => h.cast.2 rfl rfl
    exact ⟨rfl, hread.trans ⟨fun h => absurd h.2.1 nofun, fun h => absurd h.2 hnot⟩⟩
  | decoder dec =>
    have hnested : nested mem .decoder 5 b n = none := rfl
    have hown : ownReads mem .decoder 5 b n = [(b, n)] := rfl
    have hcast : CastFits .decoder 5 := ⟨fun h => absurd h (by decide), fun _ => nofun⟩
    have hlog : Contained ((Mp4Run.cast .decoder ⟨pmt, .decoder dec, log⟩).read extents b n).log ↔
        Contained log ∧ ItemFits mem limit .decoder 5 b n := by
      rw [hread, itemFits_of_none limit hnested, hown, List.forall_mem_singleton]
      exact ⟨fun ⟨h, _, hends⟩ => ⟨h, hends, hcast⟩, fun ⟨h, hends, _⟩ => ⟨h, rfl, hends⟩⟩
    unfold parseMp4DecoderSpecificDescriptor
    dsimp only
    split
    · exact ⟨rfl, hlog⟩
    · exact ⟨rfl, hlog⟩

theorem mp4SlConfig_length (mem : Nat → UInt8) (buf : Nat) (sl : Mp4SlConfig) :
    (mp4SlConfig mem buf sl).2 = (mp4SlConfig mem buf .zero).2 := by
  unfold mp4SlConfig
  dsimp only
  by_cases h0 : mem buf = 0
  · simp only [if_pos h0]
  · by_cases h1 : mem buf = 1
    · simp only [if_neg h0, if_pos h1]
    · by_cases h2 : mem buf = 2
      · simp only [if_neg h0, if_neg h1, if_pos h2]
      · simp only [if_neg h0, if_neg h1, if_neg h2]

/-- An SL configuration. -/
theorem contains_slconfig (hext : Encloses extents limit buf) (hb : buf ≤ b) (r : Mp4Run) :
    Contains r (parseMp4SlconfigDescriptor mem extents b r)
      (ItemFits mem limit r.elem.kind 6 b n) := by
  have hread := contained_cast_read hext hb .es (mp4SlConfig mem b .zero).2 r
  obtain ⟨pmt, elem, log⟩ := r
  cases elem with
  | null => exact ⟨rfl, fun h => ⟨h, itemFits_null (.inr (.inr rfl))⟩, And.left⟩
  | es es =>
    have hnested : nested mem .es 6 b n = none := rfl
    have hown : ownReads mem .es 6 b n = [(b, (mp4SlConfig mem b .zero).2)] := rfl
    have hcast : CastFits .es 6 := ⟨fun _ => nofun, fun h => absurd h (by decide)⟩
    have hlog : Contained ((Mp4Run.cast .es ⟨pmt, .es es, log⟩).read extents b
        (mp4SlConfig mem b es.sl).2).log ↔ Contained log ∧ ItemFits mem limit .es 6 b n := by
      rw [mp4SlConfig_length, hread, itemFits_of_none limit hnested, hown,
        List.forall_mem_singleton]
      exact ⟨fun ⟨h, _, hends⟩ => ⟨h, hends, hcast⟩, fun ⟨h, hends, _⟩ => ⟨h, rfl, hends⟩⟩
    exact ⟨rfl, hlog⟩
  | decoder dec =>
    have hnot : ¬ItemFits mem limit .decoder 6 b n := fun h => h.cast.1 (.inr rfl) rfl
    exact ⟨rfl, hread.trans ⟨fun h => absurd h.2.1 nofun, fun h => absurd h.2 hnot⟩⟩

/-- A descriptor of any tag. -/
theorem contains_descriptor (hext : Encloses extents limit buf) (hb : buf ≤ b)
    (hparse : ParseContains mem limit buf n parse) (tag : UInt8) (r : Mp4Run) :
    Contains r (parseMp4Descriptor mem extents tag b n parse r)
      (ItemFits mem limit r.elem.kind tag b n) := by
  unfold parseMp4Descriptor
  by_cases h1 : tag = 1
  · rw [if_pos h1, h1]
    exact contains_object hext hb hparse r
  by_cases h2 : tag = 2
  · rw [if_neg h1, if_pos h2, h2]
    exact contains_iod hext hb hparse r
  by_cases h3 : tag = 3
  · rw [if_neg h1, if_neg h2, if_pos h3, h3]
    exact contains_es hext hb hparse r
  by_cases h4 : tag = 4
  · rw [if_neg h1, if_neg h2, if_neg h3, if_pos h4, h4]
    exact contains_config hext hb hparse r
  by_cases h5 : tag = 5
  · rw [if_neg h1, if_neg h2, if_neg h3, if_neg h4, if_pos h5, h5]
    exact contains_specific hext hb r
  by_cases h6 : tag = 6
  · rw [if_neg h1, if_neg h2, if_neg h3, if_neg h4, if_neg h5, if_pos h6, h6]
    exact contains_slconfig hext hb r
  · rw [if_neg h1, if_neg h2, if_neg h3, if_neg h4, if_neg h5, if_neg h6]
    have hnested : nested mem r.elem.kind tag b n = none := by
      rw [nested, if_neg h1, if_neg h2, if_neg h3, if_neg fun h => h4 h.1]
    have hown : ownReads mem r.elem.kind tag b n = [] := by
      rw [ownReads, if_neg (not_or.2 ⟨h1, h2⟩), if_neg h3, if_neg h4, if_neg h5, if_neg h6,
        ite_self]
    have hfits : ItemFits mem limit r.elem.kind tag b n := by
      rw [itemFits_of_none limit hnested, hown]
      exact ⟨fun _ h => absurd h List.not_mem_nil, castFits_of_ne h4 h5 h6⟩
    exact ⟨rfl, fun h => ⟨h, hfits⟩, And.left⟩

/-! ## Sequences -/

/-- The descriptors from `i` on fit. -/
def ItemsFit (mem : Nat → UInt8) (limit : Nat) (kind : Mp4ElemKind) (buf len i : Nat) : Prop :=
  ∀ item ∈ mp4Items mem buf len i, item.pos + 1 + item.lengthBytes ≤ limit ∧
    ∀ tag b n, item.contents = some (tag, b, n) → ItemFits mem limit kind tag b n

theorem fits_iff (mem : Nat → UInt8) (limit : Nat) (kind : Mp4ElemKind) (buf len : Nat) :
    Mp4Fits mem limit kind buf len ↔ ItemsFit mem limit kind buf len 0 := by
  constructor
  · rintro ⟨hheader, hown, hcast, hnested⟩ item hitem
    exact ⟨hheader item hitem, fun tag b n h =>
      ⟨hown item hitem tag b n h, hcast item hitem tag b n h, hnested item hitem tag b n h⟩⟩
  · intro h
    exact .intro (fun item hitem => (h item hitem).1)
      (fun item hitem tag b n hc => ((h item hitem).2 tag b n hc).own)
      (fun item hitem tag b n hc => ((h item hitem).2 tag b n hc).cast)
      fun item hitem tag b n hc => ((h item hitem).2 tag b n hc).nested

theorem Encloses.contained_header (hext : Encloses extents limit buf) (hpos : buf ≤ pos) (n : Nat)
    (r : Mp4Run) :
    Contained ((r.read extents pos 1).read extents (pos + 1) n).log ↔
      Contained r.log ∧ pos + 1 + n ≤ limit := by
  rw [hext.contained_read (by omega), hext.contained_read hpos, and_assoc]
  unfold EndsBy
  refine and_congr_right fun _ => ⟨?_, ?_⟩
  · rintro ⟨h | h, h' | h'⟩
    all_goals omega
  · intro h
    exact ⟨.inr (by omega), .inr h⟩

/-- The loop over the descriptors. -/
theorem contains_loop {len : Nat} {parse : (b n : Nat) → n < len → Mp4Run → Mp4Run}
    (hext : Encloses extents limit buf) (hparse : ParseContains mem limit buf len parse) (i : Nat)
    (r : Mp4Run) :
    Contains r (mp4Loop mem extents buf len parse i r)
      (ItemsFit mem limit r.elem.kind buf len i) := by
  induction hleft : len - i using Nat.strongRecOn generalizing i r with
  | _ left ih =>
  unfold ItemsFit
  by_cases hi : i < len
  · rw [mp4Loop, mp4Items, dif_pos hi, dif_pos hi]
    dsimp only
    have hheader := hext.contained_header (Nat.le_add_right buf i)
      (getMp4DescLen mem (buf + i + 1) (len - i - 1)).reads r
    obtain ⟨hlen, hpos, -⟩ := getMp4DescLen_spec mem (buf + i + 1) (len - i - 1)
    set d := getMp4DescLen mem (buf + i + 1) (len - i - 1)
    by_cases hlong : d.size > len - d.len + 1
    · rw [dif_pos hlong, if_pos hlong]
      refine ⟨rfl, hheader.trans (and_congr_right fun _ => ?_)⟩
      rw [List.forall_mem_singleton]
      exact ⟨fun h => ⟨h, fun _ _ _ hnone => nomatch hnone⟩, And.left⟩
    · rw [dif_neg hlong, if_neg hlong]
      have hsize : d.size ≤ len := by omega
      have hcall := contains_descriptor (b := buf + (i + d.len + 1)) hext (by omega)
        (fun b n hn => hparse b n (Nat.lt_of_lt_of_le hn hsize)) (mem (buf + i))
        ((r.read extents (buf + i) 1).read extents (buf + i + 1) d.reads)
      have hrest := ih (len - (i + d.len + 1 + d.size)) (by omega) (i + d.len + 1 + d.size)
        (parseMp4Descriptor mem extents (mem (buf + i)) (buf + (i + d.len + 1)) d.size
          (fun b n hn => parse b n (Nat.lt_of_lt_of_le hn hsize))
          ((r.read extents (buf + i) 1).read extents (buf + i + 1) d.reads)) rfl
      have hkind := hcall.kind
      change _ = r.elem.kind at hkind
      rw [hkind] at hrest
      refine ⟨hrest.kind.trans hkind, hrest.contained.trans ?_⟩
      rw [hcall.contained, hheader, List.forall_mem_cons, and_assoc, and_assoc]
      refine and_congr_right fun _ => ?_
      constructor
      · rintro ⟨hends, hfits, hitems⟩
        refine ⟨⟨hends, fun tag b n hsome => ?_⟩, hitems⟩
        cases hsome
        exact hfits
      · rintro ⟨⟨hends, hfits⟩, hitems⟩
        exact ⟨hends, hfits _ _ _ rfl, hitems⟩
  · rw [mp4Loop, mp4Items, dif_neg hi, dif_neg hi]
    exact ⟨rfl, fun h => ⟨h, fun _ hmem => absurd hmem List.not_mem_nil⟩, And.left⟩

/-- A call, and all calls that it leads to, read inside of the extents that enclose it if and only
if the descriptors fit. -/
theorem contains_descriptors {outer : List Mp4Extent} (len : Nat) {limit buf : Nat}
    (hext : Encloses ((buf, len) :: outer) limit buf) (r : Mp4Run) :
    Contains r (parseMp4Descriptors mem outer buf len r)
      (Mp4Fits mem limit r.elem.kind buf len) := by
  induction len using Nat.strongRecOn generalizing outer limit buf r with
  | _ len ih =>
  have hparse : ParseContains mem limit buf len
      fun b n _ r => parseMp4Descriptors mem ((buf, len) :: outer) b n r := by
    intro b n hn r hb
    exact ih n hn (hext.push hb n) r
  rw [parseMp4Descriptors, fits_iff]
  exact contains_loop hext hparse 0 r

/-- Descriptors are read inside of the buffer, nested ones inside of their parents, and stored into
elements of their kind, if and only if they fit. -/
theorem mp4_contained_iff (mem : Nat → UInt8) (buf len : Nat) (pmt : Pmt) (elem : Mp4Elem) :
    Contained (parseMp4Descriptors mem [] buf len ⟨pmt, elem, []⟩).log ↔
      Mp4Fits mem (buf + len) elem.kind buf len := by
  rw [(contains_descriptors len (encloses_outermost buf len) ⟨pmt, elem, []⟩).contained]
  exact ⟨And.right, fun h => ⟨fun _ he => absurd he List.not_mem_nil, h⟩⟩

/-- An ES descriptor of one byte at the end of the buffer. -/
theorem mp4_not_contained :
    ¬Contained
      (parseMp4Descriptors (fun i => [3, 1].getD i 0) [] 0 3 ⟨⟨[], []⟩, .null, []⟩).log := by
  rw [(contains_descriptors 3 (encloses_outermost 0 3) _).contained]
  rintro ⟨-, hfits⟩
  rw [fits_iff] at hfits
  obtain ⟨-, hitem⟩ := hfits ⟨0, 1, some (3, 2, 1)⟩ (by rw [mp4Items]; exact List.mem_cons_self)
  have hends := (hitem 3 2 1 rfl).own (2, 3) List.mem_cons_self
  exact absurd hends (by unfold EndsBy; decide)

end MPlayer
