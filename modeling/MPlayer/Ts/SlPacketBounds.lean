import MPlayer.Ts.SlPacket
import MPlayer.Ts.Sync

/-!
# What is read of the header of an SL packet

Each field that is read bit by bit is behind a check, but for the degradation flag.  The last field,
the instant bit rate, is passed over without a check.  These are the two places where a header may
leave its packet (`SlHeaderFits`).
-/

namespace MPlayer

variable {sl : Mp4SlConfig} {buf : Nat → UInt8} {packetLen : Nat}

/-- A flag at a position of the header, if it is present. -/
def slBit (buf : Nat → UInt8) (present : Bool) (pos : Nat) : Bool :=
  present && mpGetbits buf pos 1 ≠ 0

namespace SlCursor

/-- What was read is in the packet. -/
def Inside (c : SlCursor) (packetLen : Nat) : Prop := ∀ r ∈ c.reads, r.1 + r.2 ≤ packetLen * 8

variable {c c' : SlCursor}

@[simp] theorem skip_n (len : Nat) : (c.skip len).n = c.n + len := rfl

@[simp] theorem skip_inside (len : Nat) : (c.skip len).Inside packetLen ↔ c.Inside packetLen :=
  Iff.rfl

theorem skip_if (packetLen : Nat) (p : Prop) [Decidable p] (len : Nat) :
    (if p then c.skip len else c).n = c.n + (if p then len else 0) ∧
      ((if p then c.skip len else c).Inside packetLen ↔ c.Inside packetLen) := by
  split <;> exact ⟨rfl, Iff.rfl⟩

@[simp] theorem getbits_inside (len : Nat) : (c.getbits buf len).2.Inside packetLen ↔
    c.n + len ≤ packetLen * 8 ∧ c.Inside packetLen := by
  unfold Inside getbits
  exact List.forall_mem_cons

theorem flag_spec (packetLen : Nat) {present x : Bool} (h : c.flag buf present = (x, c')) :
    c'.n = c.n + present.toNat ∧
      (c'.Inside packetLen ↔ (present → c.n + 1 ≤ packetLen * 8) ∧ c.Inside packetLen) ∧
        x = slBit buf present c.n := by
  unfold flag at h
  cases present with
  | false =>
    obtain ⟨rfl, rfl⟩ := Prod.mk.inj h
    simp [slBit]
  | true =>
    obtain ⟨rfl, rfl⟩ := Prod.mk.inj h
    refine ⟨rfl, ?_, by simp [slBit]⟩
    have hread : (c.getbits buf 1).2.Inside packetLen ↔ _ := getbits_inside 1
    exact hread.trans (by simp)

/-- A number is read in the packet, and more than eight bits are left behind it. -/
theorem number_spec {size turns left v : Nat} {r : Option Nat}
    (h : number buf packetLen size turns left v c = (r, c')) (hturns : turns = (left + 7) / 8)
    (hleft : c.n + 8 < packetLen * 8) (hinside : c.Inside packetLen) :
    c'.Inside packetLen ∧
      (r.isSome → c'.n = c.n + left ∧ c.n + left + 8 < packetLen * 8) ∧
        (r = none → packetLen * 8 ≤ c.n + left + 8) := by
  induction turns generalizing left v c with
  | zero =>
    obtain ⟨rfl, rfl⟩ := Prod.mk.inj h
    have hzero : left = 0 := by omega
    subst hzero
    exact ⟨hinside, fun _ => ⟨rfl, hleft⟩, nofun⟩
  | succ turns ih =>
    have hread : (c.getbits buf (min 8 left)).2.Inside packetLen :=
      (getbits_inside _).mpr ⟨by omega, hinside⟩
    have hn : (c.getbits buf (min 8 left)).2.n = c.n + min 8 left := rfl
    change (if packetLen * 8 ≤ (c.getbits buf (min 8 left)).2.n + 8 then
      (none, (c.getbits buf (min 8 left)).2) else number buf packetLen size turns
        (left - min 8 left) _ (c.getbits buf (min 8 left)).2) = (r, c') at h
    split at h
    · obtain ⟨rfl, rfl⟩ := Prod.mk.inj h
      exact ⟨hread, nofun, fun _ => by omega⟩
    · obtain ⟨hinside', hsome, hnone⟩ := ih h (by omega) (by omega) hread
      exact ⟨hinside', fun hr => by have hend := hsome hr; omega, fun hr => by
        have hend := hnone hr
        omega⟩

theorem getNumber_spec {size len : Nat} {r : Option Nat}
    (h : c.getNumber buf packetLen size len = (r, c')) (hleft : c.n + 8 < packetLen * 8)
    (hinside : c.Inside packetLen) :
    c'.Inside packetLen ∧ (r.isSome → c'.n = c.n + len ∧ c.n + len + 8 < packetLen * 8) ∧
      (r = none → packetLen * 8 ≤ c.n + len + 8) :=
  number_spec h rfl hleft hinside

end SlCursor

/-! ## Where the fields are -/

section Layout

variable (sl : Mp4SlConfig) (buf : Nat → UInt8)

/-- The position behind the flags at the beginning. -/
def slFlagsEnd : Nat := (slFlags sl buf).2.n

/-- The position of the degradation flag, behind the sequence number of the packet. -/
def slDegPos : Nat := slFlagsEnd sl buf + sl.packetSeqnumLen.toNat

/-- The position of the fields at the start of an access unit. -/
def slAuPos : Nat :=
  slDegPos sl buf + (decide (0 < sl.degrLen)).toNat +
    (if slBit buf (0 < sl.degrLen) (slDegPos sl buf) then sl.degrLen.toNat else 0) +
      if (slFlags sl buf).1.ocr then sl.ocrLen.toNat else 0

/-- The position of the flags for the time stamps, if `n` is where the access unit starts. -/
def slTsPos (n : Nat) : Nat := n + sl.randomAccesspoint.toNat + sl.auSeqnumLen.toNat

/-- The instant bit rate is in the header. -/
def slHasBitrate (n : Nat) : Bool :=
  slBit buf (0 < sl.instantBitrateLen) (slTsPos sl n + sl.useTs.toNat + sl.useTs.toNat)

/-- The position of the instant bit rate. -/
def slBitratePos (n : Nat) : Nat :=
  slTsPos sl n + sl.useTs.toNat + sl.useTs.toNat + (decide (0 < sl.instantBitrateLen)).toNat +
    (if slBit buf sl.useTs (slTsPos sl n) then sl.tsLen.toNat else 0) +
      (if slBit buf sl.useTs (slTsPos sl n + sl.useTs.toNat) then sl.tsLen.toNat else 0) +
        sl.auLen.toNat

/-- The instant bit rate is in the packet, or the header without it already leaves no more than
eight bits. -/
def SlBitrateFits (packetLen : Nat) : Prop :=
  (slFlags sl buf).1.auStart → slHasBitrate sl buf (slAuPos sl buf) →
    slBitratePos sl buf (slAuPos sl buf) + 8 < packetLen * 8 →
      slBitratePos sl buf (slAuPos sl buf) + sl.instantBitrateLen.toNat ≤ packetLen * 8

/-- The degradation flag is in the packet. -/
def SlDegFits (packetLen : Nat) : Prop := 0 < sl.degrLen → slDegPos sl buf < packetLen * 8

/-- The two fields that are not checked are in the packet, unless it is empty. -/
def SlHeaderFits (packetLen : Nat) : Prop :=
  (slFlags sl buf).1.Empty ∨ SlDegFits sl buf packetLen ∧ SlBitrateFits sl buf packetLen

instance (packetLen : Nat) : Decidable (SlBitrateFits sl buf packetLen) :=
  inferInstanceAs (Decidable (_ → _ → _ → _))

instance (packetLen : Nat) : Decidable (SlDegFits sl buf packetLen) :=
  inferInstanceAs (Decidable (_ → _))

instance (packetLen : Nat) : Decidable (SlHeaderFits sl buf packetLen) :=
  inferInstanceAs (Decidable (_ ∨ _ ∧ _))

end Layout

/-! ## The parts of the header -/

/-- The flags at the beginning are in the first byte. -/
theorem slFlags_inside (sl : Mp4SlConfig) (buf : Nat → UInt8) (hlen : 0 < packetLen) :
    (slFlags sl buf).2.Inside packetLen ∧ slFlagsEnd sl buf ≤ 8 := by
  unfold slFlagsEnd slFlags
  dsimp only
  rcases h₁ : SlCursor.flag buf ⟨0, []⟩ sl.auStart with ⟨auStart, c₁⟩
  rcases h₂ : c₁.flag buf sl.auEnd with ⟨auEnd, c₂⟩
  rcases h₃ : c₂.flag buf (decide (0 < sl.ocrLen)) with ⟨ocr, c₃⟩
  rcases h₄ : c₃.flag buf sl.idle with ⟨idle, c₄⟩
  rcases h₅ : c₄.flag buf sl.padding with ⟨padding, c₅⟩
  obtain ⟨hn₁, hin₁, -⟩ := SlCursor.flag_spec packetLen h₁
  obtain ⟨hn₂, hin₂, -⟩ := SlCursor.flag_spec packetLen h₂
  obtain ⟨hn₃, hin₃, -⟩ := SlCursor.flag_spec packetLen h₃
  obtain ⟨hn₄, hin₄, -⟩ := SlCursor.flag_spec packetLen h₄
  obtain ⟨hn₅, hin₅, -⟩ := SlCursor.flag_spec packetLen h₅
  have hone₁ := sl.auStart.toNat_le
  have hone₂ := sl.auEnd.toNat_le
  have hone₃ := (decide (0 < sl.ocrLen)).toNat_le
  have hone₄ := sl.idle.toNat_le
  have hone₅ := sl.padding.toNat_le
  dsimp only at hn₁
  have hfirst : (⟨0, []⟩ : SlCursor).Inside packetLen := nofun
  have hinside : c₅.Inside packetLen :=
    hin₅.mpr ⟨fun _ => by omega, hin₄.mpr ⟨fun _ => by omega, hin₃.mpr ⟨fun _ => by omega,
      hin₂.mpr ⟨fun _ => by omega, hin₁.mpr ⟨fun _ => by dsimp only; omega, hfirst⟩⟩⟩⟩⟩
  dsimp only
  split
  · exact ⟨(SlCursor.getbits_inside 3).mpr ⟨by omega, hinside⟩, by
      change c₅.n + 3 ≤ 8
      omega⟩
  · exact ⟨hinside, by
      change c₅.n ≤ 8
      omega⟩

theorem slEnd_bound (packetLen plSize : Nat) (pesEs : EsStream) (c : SlCursor) :
    (slEnd plSize pesEs c).2.2 = c ∧
      ((slEnd plSize pesEs c).1 ≤ packetLen ↔ c.n ≤ packetLen * 8) := by
  refine ⟨rfl, ?_⟩
  change ((c.n : Int) + 7) / 8 ≤ packetLen ↔ c.n ≤ packetLen * 8
  omega

/-- The fields at the start of an access unit. -/
theorem slAuStart_spec (sl : Mp4SlConfig) (buf : Nat → UInt8) (packetLen : Nat)
    (pesEs : EsStream) (c : SlCursor) (hn : c.n < packetLen * 8)
    (hinside : c.Inside packetLen) :
    (slAuStart sl buf packetLen pesEs c).2.2.Inside packetLen ∧
      ((slAuStart sl buf packetLen pesEs c).1 ≤ packetLen ↔
        (slHasBitrate sl buf c.n → slBitratePos sl buf c.n + 8 < packetLen * 8 →
          slBitratePos sl buf c.n + sl.instantBitrateLen.toNat ≤ packetLen * 8)) := by
  have hgiven : (-1 : Int) ≤ packetLen := by omega
  unfold slAuStart slHasBitrate slBitratePos
  dsimp only
  rcases h₁ : c.flag buf sl.randomAccesspoint with ⟨rap, c₁⟩
  obtain ⟨hn₁, hin₁, -⟩ := SlCursor.flag_spec packetLen h₁
  have hrap := sl.randomAccesspoint.toNat_le
  have hinside₁ : c₁.Inside packetLen := hin₁.mpr ⟨fun _ => by omega, hinside⟩
  have hts : (c₁.skip sl.auSeqnumLen.toNat).n = slTsPos sl c.n := by
    rw [SlCursor.skip_n, hn₁]
    rfl
  dsimp only
  split
  · next hshort => exact ⟨hinside₁, iff_of_true hgiven fun _ hlt => by omega⟩
  next hlong₁ =>
  rcases h₂ : (c₁.skip sl.auSeqnumLen.toNat).flag buf sl.useTs with ⟨dtsFlag, c₂⟩
  obtain ⟨hn₂, hin₂, hdts⟩ := SlCursor.flag_spec packetLen h₂
  rcases h₃ : c₂.flag buf sl.useTs with ⟨ctsFlag, c₃⟩
  obtain ⟨hn₃, hin₃, hcts⟩ := SlCursor.flag_spec packetLen h₃
  rcases h₄ : c₃.flag buf (decide (0 < sl.instantBitrateLen)) with ⟨ibFlag, c₄⟩
  obtain ⟨hn₄, hin₄, hib⟩ := SlCursor.flag_spec packetLen h₄
  have huse := sl.useTs.toNat_le
  have hbitrate := (decide (0 < sl.instantBitrateLen)).toNat_le
  rw [hts] at hn₂ hdts
  rw [hn₂] at hn₃ hcts
  rw [hn₃] at hn₄ hib
  rw [← hdts, ← hcts, ← hib]
  have hinside₄ : c₄.Inside packetLen :=
    hin₄.mpr ⟨fun _ => by omega, hin₃.mpr ⟨fun _ => by omega, hin₂.mpr ⟨fun _ => by omega,
      hinside₁⟩⟩⟩
  dsimp only
  split
  · next hshort => exact ⟨hinside₄, iff_of_true hgiven fun _ hlt => by omega⟩
  next hlong₂ =>
  obtain ⟨hn₅, hin₅⟩ := c₄.skip_if packetLen (dtsFlag = true) sl.tsLen.toNat
  generalize (if dtsFlag = true then c₄.skip sl.tsLen.toNat else c₄) = c₅ at hn₅ hin₅ ⊢
  have hinside₅ := hin₅.mpr hinside₄
  split
  · next hshort => exact ⟨hinside₅, iff_of_true hgiven fun _ hlt => by omega⟩
  next hlong₃ =>
  rcases hnumber : (if ctsFlag = true ∧ 0 < sl.tsLen then
      c₅.getNumber buf packetLen (2 ^ 64) sl.tsLen.toNat else (some 0, c₅)) with ⟨cts, c₆⟩
  obtain ⟨hinside₆, hn₆, hshort₆⟩ : c₆.Inside packetLen ∧
      (cts.isSome → c₆.n = c₅.n + (if ctsFlag = true then sl.tsLen.toNat else 0) ∧
        c₆.n + 8 < packetLen * 8) ∧
      (cts = none → packetLen * 8 ≤ c₅.n + (if ctsFlag = true then sl.tsLen.toNat else 0) + 8) := by
    split at hnumber
    · next hand =>
      obtain ⟨hin, hsome, hnone⟩ := SlCursor.getNumber_spec hnumber (by omega) hinside₅
      rw [if_pos hand.1]
      exact ⟨hin, fun h => ⟨(hsome h).1, (hsome h).1 ▸ (hsome h).2⟩, hnone⟩
    · next hnot =>
      obtain ⟨rfl, rfl⟩ := Prod.mk.inj hnumber
      have hzero : (if ctsFlag = true then sl.tsLen.toNat else 0) = 0 := by
        split
        · next hflag =>
          have hle : ¬0 < sl.tsLen := fun hlt => hnot ⟨hflag, hlt⟩
          have hle' := UInt8.not_lt.mp hle
          exact Nat.le_zero.mp hle'
        · rfl
      rw [hzero]
      exact ⟨hinside₅, fun _ => ⟨rfl, by omega⟩, nofun⟩
  dsimp only
  cases cts with
  | none => exact ⟨hinside₆, iff_of_true hgiven fun _ hlt => by have hend := hshort₆ rfl; omega⟩
  | some v =>
    obtain ⟨hn₆, hlong₆⟩ := hn₆ rfl
    rcases hnumber' : c₆.getNumber buf packetLen (2 ^ 32) sl.auLen.toNat with ⟨plSize, c₇⟩
    obtain ⟨hinside₇, hn₇, hshort₇⟩ := SlCursor.getNumber_spec hnumber' hlong₆ hinside₆
    dsimp only
    cases plSize with
    | none =>
      exact ⟨hinside₇, iff_of_true hgiven fun _ hlt => by have hend := hshort₇ rfl; omega⟩
    | some plSize =>
      obtain ⟨hn₇, hlong₇⟩ := hn₇ rfl
      obtain ⟨hn₈, hin₈⟩ := c₇.skip_if packetLen (ibFlag = true) sl.instantBitrateLen.toNat
      refine ⟨hin₈.mpr hinside₇, (slEnd_bound packetLen plSize _ _).2.trans ?_⟩
      rw [hn₈]
      cases ibFlag with
      | false => exact iff_of_true (by simp; omega) nofun
      | true =>
        rw [if_pos rfl]
        exact ⟨fun hle _ _ => by omega, fun hle => by have hend := hle rfl (by omega); omega⟩

/-- The whole header. -/
theorem slHeader_spec (sl : Mp4SlConfig) (buf : Nat → UInt8) (pesEs : EsStream)
    (hlen : 0 < packetLen) :
    ((slHeader sl buf packetLen pesEs).2.2.Inside packetLen ↔
        (slFlags sl buf).1.Empty ∨ SlDegFits sl buf packetLen) ∧
      ((slHeader sl buf packetLen pesEs).1 ≤ packetLen ↔
        (slFlags sl buf).1.Empty ∨ SlBitrateFits sl buf packetLen) := by
  have hgiven : (-1 : Int) ≤ packetLen := by omega
  obtain ⟨hflags, hend⟩ := slFlags_inside sl buf hlen
  unfold slHeader SlDegFits SlBitrateFits
  dsimp only
  split
  · next hempty => exact ⟨iff_of_true hflags (.inl hempty), iff_of_true hgiven (.inl hempty)⟩
  next hnonempty =>
  have hor : ∀ q : Prop, ((slFlags sl buf).1.Empty ∨ q) ↔ q := fun q => or_iff_right hnonempty
  rw [hor, hor]
  rcases h₁ : ((slFlags sl buf).2.skip sl.packetSeqnumLen.toNat).flag buf (decide (0 < sl.degrLen))
    with ⟨degFlag, c₁⟩
  obtain ⟨hn₁, hin₁, hdeg⟩ := SlCursor.flag_spec packetLen h₁
  have hpos : ((slFlags sl buf).2.skip sl.packetSeqnumLen.toNat).n = slDegPos sl buf := rfl
  rw [hpos] at hn₁ hin₁ hdeg
  obtain ⟨hn₂, hin₂⟩ := c₁.skip_if packetLen (degFlag = true) sl.degrLen.toNat
  dsimp only
  generalize (if degFlag = true then c₁.skip sl.degrLen.toNat else c₁) = c₂ at hn₂ hin₂ ⊢
  obtain ⟨hn₃, hin₃⟩ := c₂.skip_if packetLen ((slFlags sl buf).1.ocr = true) sl.ocrLen.toNat
  generalize (if (slFlags sl buf).1.ocr = true then c₂.skip sl.ocrLen.toNat else c₂) = c₃
    at hn₃ hin₃ ⊢
  have hau : c₃.n = slAuPos sl buf := by
    rw [hn₃, hn₂, hn₁, hdeg]
    rfl
  have hread : c₃.Inside packetLen ↔ (0 < sl.degrLen → slDegPos sl buf < packetLen * 8) := by
    rw [hin₃, hin₂, hin₁, SlCursor.skip_inside, and_iff_left hflags, decide_eq_true_eq]
    rfl
  split
  · next hshort =>
    refine ⟨hread, iff_of_true hgiven fun _ _ hlt => ?_⟩
    unfold slBitratePos slTsPos at hlt
    omega
  next hlong =>
  have hinside : c₃.Inside packetLen := hread.mpr fun hpresent => by
    rw [decide_eq_true hpresent, Bool.toNat_true] at hn₁
    omega
  split
  · next hstart =>
    obtain ⟨hin, hiff⟩ := slAuStart_spec sl buf packetLen _ c₃ (Nat.not_le.mp hlong) hinside
    rw [hau] at hiff
    exact ⟨iff_of_true hin (hread.mp hinside), hiff.trans ⟨fun h _ => h, fun h => h hstart⟩⟩
  · next hstart =>
    refine ⟨hread, ((slEnd_bound packetLen 0 _ c₃).2).trans ?_⟩
    exact iff_of_true (by omega) fun h => absurd h hstart

/-! ## The packet -/

/-- What `mp4_parse_sl_packet` reads, and the header that it returns the size of. -/
theorem mp4ParseSlPacket_spec (pmt : Option Pmt) (buf : Nat → UInt8) (packetLen pid : Nat)
    (pesEs : EsStream) :
    ((∀ r ∈ (mp4ParseSlPacket pmt buf packetLen pid pesEs).2.2, r.1 + r.2 ≤ packetLen * 8) ↔
        ∀ es, 0 < packetLen → (pmt.bind fun pmt => pmt.mp4EsDescr pid) = some es →
          (slFlags es.sl buf).1.Empty ∨ SlDegFits es.sl buf packetLen) ∧
      ((mp4ParseSlPacket pmt buf packetLen pid pesEs).1 ≤ packetLen ↔
        ∀ es, 0 < packetLen → (pmt.bind fun pmt => pmt.mp4EsDescr pid) = some es →
          (slFlags es.sl buf).1.Empty ∨ SlBitrateFits es.sl buf packetLen) := by
  have hnil : ∀ r ∈ ([] : List (Nat × Nat)), r.1 + r.2 ≤ packetLen * 8 := List.forall_mem_nil _
  have hzero : (0 : Int) ≤ packetLen := by omega
  have hminus : (-1 : Int) ≤ packetLen := by omega
  unfold mp4ParseSlPacket
  cases pmt with
  | none =>
    exact ⟨iff_of_true hnil fun _ _ h => absurd h (Option.some_ne_none _).symm,
      iff_of_true hzero fun _ _ h => absurd h (Option.some_ne_none _).symm⟩
  | some pmt =>
    dsimp only
    split
    · next hlen =>
      exact ⟨iff_of_true hnil fun _ hpos => by omega, iff_of_true hzero fun _ hpos => by omega⟩
    · next hne =>
      have hlen : 0 < packetLen := Nat.pos_of_ne_zero hne
      rw [Option.bind_some]
      cases hes : pmt.mp4EsDescr pid with
      | none =>
        exact ⟨iff_of_true hnil fun _ _ h => absurd h (Option.some_ne_none _).symm,
          iff_of_true hminus fun _ _ h => absurd h (Option.some_ne_none _).symm⟩
      | some es =>
        obtain ⟨hin, hbound⟩ := slHeader_spec es.sl buf
          { pesEs with isSynced := false, subtype := es.decoder.objectType } hlen
        exact ⟨hin.trans ⟨fun h es' _ hsome => Option.some.inj hsome ▸ h, fun h => h es hlen rfl⟩,
          hbound.trans ⟨fun h es' _ hsome => Option.some.inj hsome ▸ h, fun h => h es hlen rfl⟩⟩

theorem mp4ParseSlPacket_iff (pmt : Option Pmt) (buf : Nat → UInt8) (packetLen pid : Nat)
    (pesEs : EsStream) :
    ((∀ r ∈ (mp4ParseSlPacket pmt buf packetLen pid pesEs).2.2, r.1 + r.2 ≤ packetLen * 8) ∧
        ((mp4ParseSlPacket pmt buf packetLen pid pesEs).1 ≤ 0 ∨
          (mp4ParseSlPacket pmt buf packetLen pid pesEs).1 ≤ packetLen)) ↔
      ∀ es, 0 < packetLen → (pmt.bind fun pmt => pmt.mp4EsDescr pid) = some es →
        SlHeaderFits es.sl buf packetLen := by
  obtain ⟨hin, hbound⟩ := mp4ParseSlPacket_spec pmt buf packetLen pid pesEs
  have hle : ∀ m : Int, (m ≤ 0 ∨ m ≤ packetLen) ↔ m ≤ packetLen := fun m => by omega
  rw [hle, hin, hbound]
  constructor
  · rintro ⟨hdeg, hbitrate⟩ es hlen hes
    exact or_and_left.mpr ⟨hdeg es hlen hes, hbitrate es hlen hes⟩
  · intro h
    exact ⟨fun es hlen hes => (or_and_left.mp (h es hlen hes)).1,
      fun es hlen hes => (or_and_left.mp (h es hlen hes)).2⟩

/-! ## The payload of a PES packet -/

section Pes

variable {T : Type}

/-- The demuxer that reads SL packets.  `pmtOf` is the table for a PID, and `behind` is what lies
in memory behind the packet. -/
def slEnv (env : TsEnv T) (pmtOf : Nat → T → Option Pmt) (behind : Nat → UInt8) : TsEnv T :=
  { env with parseSlPacket := fun pid packet tables pesEs =>
      let r := mp4ParseSlPacket (pmtOf pid tables) (fun i => packet.getD i (behind i)) packet.length
        pid pesEs
      (r.1, tables, r.2.1) }

/-- What is said to be of the stream is a part of the payload that starts at `start`. -/
def InPayload (start packetLen : Nat) (es : EsStream) : Prop :=
  start ≤ es.start ∧ es.start ≤ packetLen ∧ 0 ≤ es.size ∧ es.size ≤ packetLen - start

theorem lpcmOffset_le (p : Nat → UInt8) (n offset : Nat) :
    lpcmOffset p n offset ≤ offset + n + 1 := by
  induction n generalizing offset with
  | zero => exact Nat.le_succ _
  | succ n ih =>
    have hrest := ih (offset + 1)
    simp only [lpcmOffset]
    split <;> omega

/-- Only for DVB subtitles the length is not checked. -/
theorem private1_bound (p : Nat → UInt8) (packetLen : Nat) (aligned : Bool) (type : EsType) :
    (private1 p packetLen aligned type).1 ≤ packetLen ↔ (type = .spuDvb → 2 ≤ packetLen) := by
  unfold private1
  split
  · next hpgs => exact iff_of_true (Nat.zero_le _) fun hdvb => by cases hpgs.symm.trans hdvb
  split
  · next ha52 =>
    refine iff_of_true (Nat.zero_le _) fun hdvb => ?_
    obtain htype | hsync := ha52
    · cases htype.symm.trans hdvb
    · exact hsync.1
  split
  · next hdvb =>
    obtain htype | hsync := hdvb
    · exact ⟨fun hle _ => hle, fun h => h htype⟩
    · exact iff_of_true hsync.1 fun _ => hsync.1
  next hnot =>
  have htype : type ≠ .spuDvb := fun htype => hnot (.inl htype)
  refine iff_of_true ?_ fun h => absurd h htype
  split
  · next hdvd => exact hdvd.2.1
  split
  · next ha52 => exact ha52.2.1
  split
  · next hlpcm =>
    have hle := lpcmOffset_le p (packetLen - 2) 1
    by_cases hone : packetLen = 1
    · subst hone
      exact Nat.le_refl 1
    · have hpos := hlpcm.2.1
      dsimp only
      omega
  · exact Nat.zero_le _

/-- What the payload of a PES packet has to be, which is `packetLen` bytes of memory `p`: DVB
subtitles have at least two bytes, and the header of an SL packet is in the packet. -/
def PesFits (pmt : Option Pmt) (p : Nat → UInt8) (packetLen streamId : Nat) (type : EsType)
    (pid : Nat) : Prop :=
  (streamId = 0xbd → type = .spuDvb → 2 ≤ packetLen) ∧
    (streamId = 0xfa → type = .slPesStream → ∀ es, 0 < packetLen →
      (pmt.bind fun pmt => pmt.mp4EsDescr pid) = some es →
        (slFlags es.sl p).1.Empty ∨ SlBitrateFits es.sl p packetLen)

/-- What `mp4_parse_sl_packet` sees of a payload and of the memory behind it. -/
def slMemory (p : Nat → UInt8) (packetLen : Nat) (behind : Nat → UInt8) (i : Nat) : UInt8 :=
  ((List.range packetLen).map p).getD i (behind i)

theorem slEnv_parseSlPacket (env : TsEnv T) (pmtOf : Nat → T → Option Pmt)
    (behind p : Nat → UInt8) (packetLen pid : Nat) (tables : T) (pesEs : EsStream) :
    (slEnv env pmtOf behind).parseSlPacket pid ((List.range packetLen).map p) tables pesEs =
      ((mp4ParseSlPacket (pmtOf pid tables) (slMemory p packetLen behind) packetLen pid pesEs).1,
        tables,
        (mp4ParseSlPacket (pmtOf pid tables) (slMemory p packetLen behind) packetLen pid
          pesEs).2.1) := by
  have hlen : ((List.range packetLen).map p).length = packetLen := by simp
  unfold slEnv slMemory
  dsimp only
  rw [hlen]

theorem pesPayload_iff (env : TsEnv T) (pmtOf : Nat → T → Option Pmt) (behind p : Nat → UInt8)
    (start packetLen streamId : Nat) (aligned : Bool) (type : EsType) (pid : Nat) (tables : T)
    (es : EsStream)
    (hfound : (pesPayload (slEnv env pmtOf behind) p start packetLen streamId aligned type pid
      tables es).1 = true) :
    InPayload start (start + packetLen) (pesPayload (slEnv env pmtOf behind) p start packetLen
        streamId aligned type pid tables es).2.2 ↔
      PesFits (pmtOf pid tables) (slMemory p packetLen behind) packetLen streamId type pid := by
  have hwhole : start ≤ start ∧ start ≤ start + packetLen ∧ (0 : Int) ≤ packetLen ∧
      (packetLen : Int) ≤ (start + packetLen : Nat) - start := by omega
  have hparse := slEnv_parseSlPacket env pmtOf behind p packetLen pid tables
  generalize slEnv env pmtOf behind = env' at hfound hparse ⊢
  obtain ⟨_, _, _, _, _, _, parseSlPacket, _, _, _, _⟩ := env'
  dsimp only at hparse
  unfold PesFits
  unfold pesPayload at hfound ⊢
  dsimp only at hfound ⊢
  by_cases hprivate : streamId = 0xbd
  · rw [if_pos hprivate]
    have hskip := private1_bound p packetLen aligned type
    generalize private1 p packetLen aligned type = r at hskip ⊢
    unfold InPayload
    dsimp only
    refine ⟨fun ⟨_, hend, _, _⟩ => ⟨fun _ => hskip.mp (by omega), fun hsl => by omega⟩,
      fun hfits => ?_⟩
    have hle := hskip.mpr (hfits.1 hprivate)
    omega
  rw [if_neg hprivate] at hfound ⊢
  by_cases hvideo : 0xe0 ≤ streamId ∧ streamId ≤ 0xef ∨ streamId = 0xfd ∧ type ≠ .unknown
  · rw [if_pos hvideo]
    exact iff_of_true hwhole ⟨fun h => absurd h hprivate, fun hsl => by omega⟩
  rw [if_neg hvideo] at hfound ⊢
  by_cases hmp4 : streamId = 0xfa
  · rw [if_pos hmp4] at hfound ⊢
    by_cases htype : type ≠ .unknown
    · rw [if_pos htype]
      by_cases hsl : type = .slPesStream
      · rw [if_pos hsl, hparse]
        have hspec := (mp4ParseSlPacket_spec (pmtOf pid tables) (slMemory p packetLen behind)
          packetLen pid { es with
            start := start, size := packetLen, isSynced := false, type := type }).2
        generalize mp4ParseSlPacket (pmtOf pid tables) (slMemory p packetLen behind) packetLen pid
          { es with start := start, size := packetLen, isSynced := false, type := type } = r
          at hspec ⊢
        have hbound : InPayload start (start + packetLen) { r.2.1 with
            start := start + (if r.1 < 0 then 0 else r.1).toNat
            size := (packetLen : Int) - if r.1 < 0 then 0 else r.1
            payloadSize := if r.2.1.payloadSize ≠ 0 then sub16 r.2.1.payloadSize packetLen
              else 0 } ↔ r.1 ≤ packetLen := by
          unfold InPayload
          dsimp only
          omega
        refine hbound.trans (hspec.trans ?_)
        exact ⟨fun h => ⟨fun hid => absurd hid hprivate, fun _ _ => h⟩, fun h => h.2 hmp4 hsl⟩
      · rw [if_neg hsl]
        exact iff_of_true hwhole ⟨fun h => absurd h hprivate, fun _ h => absurd h hsl⟩
    · rw [if_neg htype] at hfound
      cases hfound
  rw [if_neg hmp4] at hfound ⊢
  have hfits : (streamId = 0xbd → type = .spuDvb → 2 ≤ packetLen) ∧
      (streamId = 0xfa → type = .slPesStream → ∀ es, 0 < packetLen →
        ((pmtOf pid tables).bind fun pmt => pmt.mp4EsDescr pid) = some es →
          (slFlags es.sl (slMemory p packetLen behind)).1.Empty ∨
            SlBitrateFits es.sl (slMemory p packetLen behind) packetLen) :=
    ⟨fun h => absurd h hprivate, fun h => absurd h hmp4⟩
  split at hfound
  · next haudio =>
    rw [if_pos haudio]
    exact iff_of_true hwhole hfits
  · next haudio =>
    rw [if_neg haudio]
    split at hfound
    · next htype =>
      rw [if_pos htype]
      exact iff_of_true hwhole hfits
    · cases hfound

/-- `mp4_parse_sl_packet` stays in its packet if and only if the two fields that it does not
check are there.  What `pes_parse2` says is of the stream is in the payload if and only if DVB
subtitles have two bytes and the instant bit rate of an SL packet is in the packet. -/
theorem slPacket_contained :
    (∀ (pmt : Option Pmt) (buf : Nat → UInt8) (packetLen pid : Nat) (pesEs : EsStream),
      ((∀ r ∈ (mp4ParseSlPacket pmt buf packetLen pid pesEs).2.2, r.1 + r.2 ≤ packetLen * 8) ∧
          ((mp4ParseSlPacket pmt buf packetLen pid pesEs).1 ≤ 0 ∨
            (mp4ParseSlPacket pmt buf packetLen pid pesEs).1 ≤ packetLen)) ↔
        ∀ es, 0 < packetLen → (pmt.bind fun pmt => pmt.mp4EsDescr pid) = some es →
          SlHeaderFits es.sl buf packetLen) ∧
    ∀ (env : TsEnv T) (pmtOf : Nat → T → Option Pmt) (behind p : Nat → UInt8) (packetLen : Nat)
      (type : EsType) (pid : Nat) (tables : T) (es : EsStream),
      (pesParse2 (slEnv env pmtOf behind) p packetLen type pid tables es).1 = true →
        (InPayload ((p 8).toNat + 9) packetLen
            (pesParse2 (slEnv env pmtOf behind) p packetLen type pid tables es).2.2 ↔
          PesFits (pmtOf pid tables)
            (slMemory (fun i => p ((p 8).toNat + 9 + i)) (packetLen - ((p 8).toNat + 9)) behind)
            (packetLen - ((p 8).toNat + 9)) (p 3).toNat type pid) := by
  refine ⟨mp4ParseSlPacket_iff, ?_⟩
  intro env pmtOf behind p packetLen type pid tables es hfound
  unfold pesParse2 at hfound ⊢
  split at hfound
  · cases hfound
  next hsize =>
  rw [if_neg hsize]
  split at hfound
  · cases hfound
  next hstart =>
  rw [if_neg hstart]
  split at hfound
  · cases hfound
  next hsix =>
  rw [if_neg hsix]
  dsimp only at hfound ⊢
  split at hfound
  · cases hfound
  next hheader =>
  rw [if_neg hheader]
  split at hfound
  · cases hfound
  next hssid =>
  rw [if_neg hssid]
  have hpayload := pesPayload_iff _ _ _ _ _ _ _ _ _ _ _ _ hfound
  rw [Nat.add_sub_cancel' (Nat.not_lt.mp hheader)] at hpayload
  refine hpayload.trans ?_
  -- the type is changed for another stream id only
  by_cases hid : (p 3).toNat = 0xfd
  · unfold PesFits
    rw [hid]
    exact iff_of_true ⟨nofun, nofun⟩ ⟨nofun, nofun⟩
  · rw [if_neg fun htruehd => hid htruehd.1]

end Pes

/-! ## A packet of three bytes -/

/-- A stream of SL packets with a flag for the start of an access unit. -/
def slTable (instantBitrateLen degrLen packetSeqnumLen : UInt8) : Pmt where
  es := [⟨256, .slPesStream, 0, [], [], 1⟩]
  mp4es := [{
    id := 1
    decoder := ⟨.videoMpeg4, .video, []⟩
    sl :=
      { auStart := true
        auEnd := false
        randomAccesspoint := false
        padding := false
        useTs := false
        idle := false
        tsResolution := 1000
        tsLen := 0
        ocrLen := 0
        auLen := 0
        instantBitrateLen := instantBitrateLen
        degrLen := degrLen
        auSeqnumLen := 0
        packetSeqnumLen := packetSeqnumLen } }]

/-- A PES packet with three bytes of payload, of which the first two bits are set. -/
def slPes : List UInt8 := [0, 0, 1, 0xfa, 0, 0, 0, 0, 0, 0xc0, 0, 0]

def slParse (table : Pmt) : Bool × Unit × EsStream :=
  pesParse2 (slEnv noTables (fun _ _ => some table) fun _ => 0) (fun i => slPes.getD i 0) 12
    .slPesStream 256 () .zero

/-- A header of twelve bits. -/
theorem slPacket_contained_short :
    (∀ r ∈ (mp4ParseSlPacket (some (slTable 10 0 0)) (fun i => [0xc0, 0, 0].getD i 0) 3 256
        .zero).2.2, r.1 + r.2 ≤ 3 * 8) ∧
      InPayload 9 12 (slParse (slTable 10 0 0)).2.2 := by
  obtain ⟨hpacket, hpes⟩ := slPacket_contained (T := Unit)
  constructor
  · refine ((hpacket (some (slTable 10 0 0)) (fun i => [0xc0, 0, 0].getD i 0) 3 256 .zero).mpr ?_).1
    intro es _ hes
    cases hes
    decide
  · refine (hpes noTables (fun _ _ => some (slTable 10 0 0)) (fun _ => 0) (fun i => slPes.getD i 0)
      12 .slPesStream 256 () .zero (by decide)).mpr ?_
    unfold PesFits
    refine ⟨fun _ h => (nomatch h), fun _ _ es _ hes => ?_⟩
    cases hes
    decide

/-- The instant bit rate of 255 bits is passed over, and the degradation flag is read behind the
packet. -/
theorem slPacket_not_contained :
    (mp4ParseSlPacket (some (slTable 255 0 0)) (fun i => [0xc0, 0, 0].getD i 0) 3 256
        .zero).1 = 33 ∧
      (slParse (slTable 255 0 0)).1 = true ∧ (slParse (slTable 255 0 0)).2.2.size = -30 ∧
        (255, 1) ∈ (mp4ParseSlPacket (some (slTable 0 1 254)) (fun i => [0xc0, 0, 0].getD i 0) 3 256
          .zero).2.2 := by
  decide

end MPlayer
