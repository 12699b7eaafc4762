import MPlayer.Ts.Parse

/-!
# What `pes_parse2` finds

A PES packet that is cut for the payloads of transport packets, with its header in the first
of them.  `pes_parse2` finds what of the first payload belongs to the stream, and how much of
the PES packet is to come.
-/

namespace MPlayer

variable {T : Type}

/-! ## PES packets -/

/-- A PES packet: the fields of its header, and its payload as it is cut. -/
structure CutPes where
  streamId : UInt8
  hi : UInt8
  lo : UInt8
  flags1 : UInt8
  flags2 : UInt8
  ext : List UInt8
  first : List UInt8
  more : List (List UInt8)
deriving DecidableEq

/-- The header of a PES packet. -/
def CutPes.head (pes : CutPes) : List UInt8 :=
  0 :: 0 :: 1 :: pes.streamId :: pes.hi :: pes.lo :: pes.flags1 :: pes.flags2 ::
    UInt8.ofNat pes.ext.length :: pes.ext

/-- What is in the first transport packet. -/
def CutPes.start (pes : CutPes) : List UInt8 := pes.head ++ pes.first

/-- The payload of a PES packet. -/
def CutPes.payload (pes : CutPes) : List UInt8 := pes.first ++ pes.more.flatten

/-- The length in the header, 0 if it is not told. -/
def CutPes.size (pes : CutPes) : Nat := pes.hi.toNat * 256 + pes.lo.toNat

/-- The 33 bits of a PTS in five bytes, with marks between them. -/
def ptsBits (b0 b1 b2 b3 b4 : Nat) : Nat :=
  b0 / 2 % 8 * 2 ^ 30 + b1 * 2 ^ 22 + b2 / 2 * 2 ^ 15 + b3 * 2 ^ 7 + b4 / 2

/-- The PTS in the first bytes of the extension of the header. -/
def CutPes.pts (pes : CutPes) : Nat :=
  let b i := (pes.ext.getD i 0).toNat
  ptsBits (b 0) (b 1) (b 2) (b 3) (b 4)

/-- The time in the header, 0 if there is none. -/
def CutPes.time (pes : CutPes) : Time :=
  if pes.flags2 &&& 0x80 ≠ 0 then ptsTime pes.pts else .zero

/-- `data_alignment_indicator`. -/
def CutPes.aligned (pes : CutPes) : Bool := pes.flags1 &&& 4 ≠ 0

/-- The id of the substream in the header. -/
def CutPes.ssid (pes : CutPes) : Int :=
  parsePesExtensionFields (fun i => pes.start.getD i 0) pes.start.length

/-- The type of the stream, for a type that the tables tell. -/
def CutPes.type (pes : CutPes) (typeFromPmt : EsType) : EsType :=
  if pes.streamId = 0xfd ∧ pes.ssid = 0x72 ∧ typeFromPmt ≠ .audioDts ∧ typeFromPmt ≠ .spuPgs then
    .audioTruehd
  else typeFromPmt

/-- How much of the payload is a header of private stream 1. -/
def CutPes.skip (pes : CutPes) (typeFromPmt : EsType) : Nat :=
  if pes.streamId = 0xbd then
    (private1 (fun i => pes.first.getD i 0) pes.first.length pes.aligned typeFromPmt).1
  else 0

/-- What of the payload belongs to the stream. -/
def CutPes.taken (pes : CutPes) (typeFromPmt : EsType) : List UInt8 :=
  pes.first.drop (pes.skip typeFromPmt) ++ pes.more.flatten

/-- The stream ids of which the length may be 0. -/
def mayBeOpen (streamId : Nat) : Prop :=
  0xe0 ≤ streamId ∧ streamId ≤ 0xef ∨ streamId = 0xfd ∨ streamId = 0xfa

/-- A PES packet whose header is in the first transport packet, with its own length or, for
video, without one. -/
structure CutPes.Fits (pes : CutPes) (video : Bool) : Prop where
  ext : pes.ext.length ≤ 255
  start : pes.start.length ≤ 184
  pts : pes.flags2 &&& 0x80 ≠ 0 → 5 ≤ pes.ext.length
  size : pes.size = 3 + pes.ext.length + pes.payload.length ∨
    pes.size = 0 ∧ video = true ∧ mayBeOpen pes.streamId.toNat

/-- A PES packet of a kind that `pes_parse2` takes, and that is not packed for MPEG-4 Systems. -/
structure CutPes.Wanted (env : TsEnv T) (pes : CutPes) (typeFromPmt : EsType) : Prop where
  ssid : pes.streamId = 0xfd → env.audioSubstreamId = -1 ∨ pes.ssid = env.audioSubstreamId
  type : pes.type typeFromPmt ≠ .unknown ∨ pes.streamId = 0xbd ∨
    0xe0 ≤ pes.streamId.toNat ∧ pes.streamId.toNat ≤ 0xef ∨ pes.streamId.toNat &&& 0xe0 = 0xc0
  plain : pes.type typeFromPmt ≠ .slPesStream

/-! ## Reading inside the packet -/

variable {p q : Nat → UInt8} {i : Nat} {pes : CutPes} {video : Bool}

theorem lpcmOffset_congr :
    (n offset : Nat) → (∀ i, i < offset + n + 1 → p i = q i) →
      lpcmOffset p n offset = lpcmOffset q n offset
  | 0, _, _ => rfl
  | n + 1, offset, h => by
    rw [lpcmOffset, lpcmOffset, h offset (by omega), h (offset + 1) (by omega),
      lpcmOffset_congr n (offset + 1) fun i hi => h i (by omega)]

theorem private1_congr {packetLen : Nat} (h : ∀ i, i < packetLen → p i = q i) (aligned : Bool)
    (typeFromPmt : EsType) :
    private1 p packetLen aligned typeFromPmt = private1 q packetLen aligned typeFromPmt := by
  rcases Nat.lt_or_ge packetLen 2 with hlt | hge
  · rcases Nat.lt_or_ge packetLen 1 with hzero | hone
    · simp [private1, (by omega : packetLen = 0)]
    · simp [private1, (by omega : packetLen = 1), h 0 (by omega), lpcmOffset]
  · rw [private1, private1, h 0 (by omega), h 1 (by omega),
      lpcmOffset_congr (packetLen - 2) 1 fun i hi => h i (by omega)]

theorem parsePesExtensionFields_congr {pktLen : Nat} (hlen : 8 ≤ pktLen)
    (h : ∀ i, i < pktLen → p i = q i) :
    parsePesExtensionFields p pktLen = parsePesExtensionFields q pktLen := by
  rw [parsePesExtensionFields, parsePesExtensionFields, h 7 (by omega)]
  refine ite_congr rfl (fun _ => rfl) fun _ => ?_
  dsimp only
  generalize (if q 7 &&& 0x08 ≠ 0 then 0 else _) + ifFlag (q 7) 0x04 1 + ifFlag (q 7) 0x02 2 = skip
  refine ite_congr rfl (fun _ => rfl) fun hskip => ?_
  rw [h skip (by omega)]
  generalize skip + 1 + ifFlag (q skip) 0x80 16 = skip2
  refine ite_congr rfl (fun _ => rfl) fun hskip2 => ?_
  rw [h skip2 (by omega)]
  generalize skip2 + _ + _ + _ = skip3
  refine ite_congr rfl (fun _ => rfl) fun hskip3 => ?_
  rw [h skip3 (by omega)]
  rcases Nat.lt_or_ge (skip3 + 1) pktLen with hlt | hge
  · rw [h (skip3 + 1) hlt]
  · rw [if_neg (by omega), if_neg (by omega)]

/-! ## The PTS -/

theorem toNat_and_bits (b : UInt8) :
    (b &&& 0x0e).toNat = b.toNat / 2 % 8 * 2 ∧ (b &&& 0xfe).toNat = b.toNat / 2 * 2 := by
  have h : ∀ n < 256, (UInt8.ofNat n &&& 0x0e).toNat = n / 2 % 8 * 2 ∧
      (UInt8.ofNat n &&& 0xfe).toNat = n / 2 * 2 := by decide +kernel
  have hb := h b.toNat b.toNat_lt
  rwa [UInt8.ofNat_toNat] at hb

theorem or_add {a b : Nat} (h : b < 2 ^ i) : a * 2 ^ i ||| b = a * 2 ^ i + b := by
  rw [← Nat.shiftLeft_eq, Nat.shiftLeft_add_eq_or_of_lt h]

theorem pesPts_eq (p : Nat → UInt8) :
    pesPts p = ptsBits (p 9).toNat (p 10).toNat (p 11).toNat (p 12).toNat (p 13).toNat := by
  have h10 := (p 10).toNat_lt
  have h11 := (p 11).toNat_lt
  have h12 := (p 12).toNat_lt
  have h13 := (p 13).toNat_lt
  rw [pesPts, ptsBits, (toNat_and_bits (p 9)).1, (toNat_and_bits (p 11)).2,
    (toNat_and_bits (p 13)).2]
  have h9 : (p 9).toNat / 2 % 8 * 2 * 2 ^ 29 = (p 9).toNat / 2 % 8 * 2 ^ 30 := Nat.mul_assoc ..
  have h11' : (p 11).toNat / 2 * 2 * 2 ^ 14 = (p 11).toNat / 2 * 2 ^ 15 := Nat.mul_assoc ..
  have h13' : (p 13).toNat / 2 * 2 / 2 ^ 1 = (p 13).toNat / 2 := Nat.mul_div_cancel _ (by decide)
  simp only [Nat.shiftLeft_eq, Nat.shiftRight_eq_div_pow, Nat.or_assoc]
  rw [h9, h11', h13', or_add (i := 7) (by omega), or_add (i := 15) (by omega),
    or_add (i := 22) (by omega), or_add (i := 30) (by omega)]
  simp only [Nat.add_assoc]

/-! ## `pes_parse2` -/

/-- What `pes_parse2` makes of `es`, for a payload of which `skip` bytes are not of the stream. -/
structure PesFound (es es' : EsStream) (start packetLen skip : Nat) : Prop where
  start : es'.start = start + skip
  size : es'.size = (packetLen : Int) - skip
  pts : es'.pts = es.pts
  payloadSize : es'.payloadSize =
    if es.payloadSize = 0 then 0 else sub16 es.payloadSize packetLen

theorem sub16_payloadSize {payloadSize packetLen streamId : Nat}
    (h : payloadSize ≠ 0 ∨ packetLen = 0 ∨ mayBeOpen streamId) (hopen : ¬mayBeOpen streamId) :
    sub16 payloadSize packetLen =
      if payloadSize = 0 then 0 else sub16 payloadSize packetLen := by
  split
  next hzero =>
    rcases h with h | h | h
    · exact absurd hzero h
    · rw [hzero, h]
      rfl
    · exact absurd h hopen
  · rfl

/-- The payload of a packet of a kind that is taken. -/
theorem pesPayload_found (env : TsEnv T) (p : Nat → UInt8) (start packetLen streamId : Nat)
    (aligned : Bool) {type : EsType} (pid : Nat) (tables : T) (es : EsStream)
    (htype : type ≠ .unknown ∨ streamId = 0xbd ∨ 0xe0 ≤ streamId ∧ streamId ≤ 0xef ∨
      streamId &&& 0xe0 = 0xc0)
    (hplain : type ≠ .slPesStream)
    (hsize : es.payloadSize ≠ 0 ∨ packetLen = 0 ∨ mayBeOpen streamId) :
    ∃ es', pesPayload env p start packetLen streamId aligned type pid tables es =
        (true, tables, es') ∧
      PesFound es es' start packetLen
        (if streamId = 0xbd then (private1 p packetLen aligned type).1 else 0) := by
  have hless := sub16_payloadSize hsize
  have hset : (if es.payloadSize ≠ 0 then sub16 es.payloadSize packetLen else 0) =
      if es.payloadSize = 0 then 0 else sub16 es.payloadSize packetLen := ite_not ..
  rw [pesPayload]
  dsimp only
  split
  next hbd =>
    exact ⟨_, rfl, rfl, rfl, rfl, hless (by rw [mayBeOpen, hbd]; decide)⟩
  next hbd =>
    split
    · exact ⟨_, rfl, rfl, (Int.sub_zero _).symm, rfl, hset⟩
    next hvideo =>
      split
      next hfa =>
        have hknown : type ≠ .unknown := by
          rcases htype with h | h | h | h
          · exact h
          · exact absurd h hbd
          · exact absurd (Or.inl h) hvideo
          · rw [hfa] at h
            exact absurd h (by decide)
        rw [if_pos hknown]
        exact ⟨_, rfl, rfl, (Int.sub_zero _).symm, rfl, hset⟩
      next hfa =>
        have hopen (hfd : streamId ≠ 0xfd) : ¬mayBeOpen streamId := by
          rintro (h | h | h)
          · exact hvideo (Or.inl h)
          · exact hfd h
          · exact hfa h
        split
        next hc0 =>
          refine ⟨_, rfl, rfl, (Int.sub_zero _).symm, rfl, hless (hopen ?_)⟩
          rintro rfl
          exact absurd hc0 (by decide)
        next hc0 =>
          have hknown : type ≠ .unknown := by
            rcases htype with h | h | h | h
            · exact h
            · exact absurd h hbd
            · exact absurd (Or.inl h) hvideo
            · exact absurd h hc0
          rw [if_pos hknown]
          refine ⟨_, rfl, rfl, (Int.sub_zero _).symm, rfl, hless (hopen ?_)⟩
          rintro rfl
          exact hvideo (Or.inr ⟨rfl, hknown⟩)

/-! ## The first transport packet -/

theorem memory_eq (env : TsEnv T) (data : List UInt8) (h : i < data.length) :
    env.memory data i = data.getD i 0 := by
  rw [TsEnv.memory, dif_pos h, List.getD_eq_getElem?_getD, List.getElem?_eq_getElem h,
    Option.getD_some]

theorem CutPes.length_head (pes : CutPes) : pes.head.length = 9 + pes.ext.length := by
  simp only [CutPes.head, List.length_cons]
  omega

theorem CutPes.length_start (pes : CutPes) :
    pes.start.length = 9 + pes.ext.length + pes.first.length := by
  rw [CutPes.start, List.length_append, pes.length_head]

/-- The bytes of the payload in memory. -/
theorem CutPes.memory_first (env : TsEnv T) (pes : CutPes) (h : i < pes.first.length) :
    env.memory pes.start (pes.ext.length + 9 + i) = pes.first.getD i 0 := by
  rw [memory_eq env _ (by rw [pes.length_start]; omega), CutPes.start,
    List.getD_eq_getElem?_getD, List.getD_eq_getElem?_getD,
    List.getElem?_append_right (by rw [pes.length_head]; omega), pes.length_head,
    (by omega : pes.ext.length + 9 + i - (9 + pes.ext.length) = i)]

/-- What `pes_parse2` makes of the first transport packet of a PES packet. -/
structure CutPes.Parsed (pes : CutPes) (typeFromPmt : EsType) (es : EsStream) : Prop where
  start : es.start = 9 + pes.ext.length + pes.skip typeFromPmt
  size : es.size = (pes.first.length : Int) - pes.skip typeFromPmt
  pts : es.pts = pes.time
  payloadSize : es.payloadSize = if pes.size = 0 then 0 else pes.more.flatten.length

theorem sub16_of_le {a b : Nat} (h : b ≤ a) (ha : a < 2 ^ 16) : sub16 a b = a - b := by
  rw [sub16, Nat.add_comm, Nat.add_sub_assoc h, Nat.add_mod_left, Nat.mod_eq_of_lt (by omega)]

theorem CutPes.size_lt (pes : CutPes) : pes.size < 2 ^ 16 := by
  have hhi := pes.hi.toNat_lt
  have hlo := pes.lo.toNat_lt
  rw [CutPes.size]
  omega

/-- The size of the payload, 0 if it is not told. -/
theorem CutPes.Fits.payloadSize (h : pes.Fits video) :
    (if pes.size ≠ 0 then sub16 pes.size (pes.ext.length + 3) else 0) =
      if pes.size = 0 then 0 else pes.payload.length := by
  have hlt := pes.size_lt
  rcases h.size with hsize | ⟨hzero, -, -⟩
  · rw [if_pos (by omega), if_neg (by omega), sub16_of_le (by omega) hlt]
    omega
  · rw [if_neg (by omega), if_pos hzero]

theorem CutPes.Fits.told (h : pes.Fits video) :
    (if pes.size = 0 then 0 else pes.payload.length) ≠ 0 ∨ pes.first.length = 0 ∨
      mayBeOpen pes.streamId.toNat := by
  rcases h.size with hsize | ⟨-, -, hopen⟩
  · rw [if_neg (by omega), CutPes.payload, List.length_append]
    omega
  · exact Or.inr (Or.inr hopen)

/-- What is left of the payload behind the first transport packet. -/
theorem CutPes.Fits.payloadSize_rest (h : pes.Fits video) :
    (if (if pes.size = 0 then 0 else pes.payload.length) = 0 then 0
      else sub16 (if pes.size = 0 then 0 else pes.payload.length) pes.first.length) =
      if pes.size = 0 then 0 else pes.more.flatten.length := by
  have hlt := pes.size_lt
  have hlen : pes.payload.length = pes.first.length + pes.more.flatten.length :=
    List.length_append
  rcases h.size with hsize | ⟨hzero, -, -⟩
  · rw [if_neg (by omega : ¬pes.size = 0), if_neg (by omega : ¬pes.size = 0)]
    split
    · omega
    · rw [sub16_of_le (by omega) (by omega)]
      omega
  · rw [if_pos hzero, if_pos hzero, if_pos rfl]

theorem CutPes.type_private1 (h : pes.streamId = 0xbd) (typeFromPmt : EsType) :
    pes.type typeFromPmt = typeFromPmt := by
  rw [CutPes.type, h]
  exact if_neg fun hfd => absurd hfd.1 (by decide)

theorem CutPes.skip_eq (env : TsEnv T) (pes : CutPes) (typeFromPmt : EsType) :
    (if pes.streamId.toNat = 0xbd then
      (private1 (fun i => env.memory pes.start (pes.ext.length + 9 + i)) pes.first.length
        pes.aligned (pes.type typeFromPmt)).1
    else 0) = pes.skip typeFromPmt := by
  have hbd : pes.streamId.toNat = 0xbd ↔ pes.streamId = 0xbd := UInt8.toNat_inj (b := 0xbd)
  rw [CutPes.skip]
  simp only [hbd]
  refine ite_congr rfl (fun h => ?_) fun _ => rfl
  rw [pes.type_private1 h, private1_congr fun i hi => pes.memory_first env hi]

/-- The bytes of the extension of the header in memory. -/
theorem CutPes.memory_ext (env : TsEnv T) (pes : CutPes) (h : i < pes.ext.length) :
    env.memory pes.start (9 + i) = pes.ext.getD i 0 := by
  have hlen := pes.length_head
  rw [memory_eq env _ (by rw [pes.length_start]; omega), CutPes.start, List.getD_eq_getElem?_getD,
    List.getD_eq_getElem?_getD, List.getElem?_append_left (by omega), CutPes.head, Nat.add_comm]
  rfl

theorem CutPes.time_eq (env : TsEnv T) (h : pes.Fits video) :
    (if pes.flags2 &&& 0x80 ≠ 0 then ptsTime (pesPts (env.memory pes.start)) else .zero) =
      pes.time := by
  refine ite_congr rfl (fun hpts => congrArg ptsTime ?_) fun _ => rfl
  have hext := h.pts hpts
  have hmem {i : Nat} (hi : i < 5) : env.memory pes.start (9 + i) = pes.ext.getD i 0 :=
    pes.memory_ext env (by omega)
  rw [pesPts_eq, CutPes.pts]
  dsimp only
  rw [← hmem (by decide : 0 < 5), ← hmem (by decide : 1 < 5), ← hmem (by decide : 2 < 5),
    ← hmem (by decide : 3 < 5), ← hmem (by decide : 4 < 5)]

theorem pesParse2_cut (env : TsEnv T) {typeFromPmt : EsType} (hfits : pes.Fits video)
    (hwanted : pes.Wanted env typeFromPmt) (pid : Nat) (tables : T) (es : EsStream) :
    ∃ es', pesParse2 env (env.memory pes.start) pes.start.length typeFromPmt pid tables es =
      (true, tables, es') ∧ pes.Parsed typeFromPmt es' := by
  have hlen := pes.length_start
  have hmax := hfits.start
  have hext : (UInt8.ofNat pes.ext.length).toNat = pes.ext.length :=
    UInt8.toNat_ofNat_of_lt' (Nat.lt_succ_of_le hfits.ext)
  have hmem (i : Nat) (h : i < pes.start.length) := memory_eq env pes.start h
  have h0 : env.memory pes.start 0 = 0 := hmem 0 (by omega)
  have h1 : env.memory pes.start 1 = 0 := hmem 1 (by omega)
  have h2 : env.memory pes.start 2 = 1 := hmem 2 (by omega)
  have h3 : env.memory pes.start 3 = pes.streamId := hmem 3 (by omega)
  have h4 : env.memory pes.start 4 = pes.hi := hmem 4 (by omega)
  have h5 : env.memory pes.start 5 = pes.lo := hmem 5 (by omega)
  have h6 : env.memory pes.start 6 = pes.flags1 := hmem 6 (by omega)
  have h7 : env.memory pes.start 7 = pes.flags2 := hmem 7 (by omega)
  have h8 : env.memory pes.start 8 = UInt8.ofNat pes.ext.length := hmem 8 (by omega)
  have hssid : parsePesExtensionFields (env.memory pes.start) pes.start.length = pes.ssid :=
    parsePesExtensionFields_congr (by omega) hmem
  have hrest : pes.start.length - (pes.ext.length + 9) = pes.first.length := by omega
  have hfd : pes.streamId.toNat = 0xfd ↔ pes.streamId = 0xfd := UInt8.toNat_inj (b := 0xfd)
  have hbd : pes.streamId.toNat = 0xbd ↔ pes.streamId = 0xbd := UInt8.toNat_inj (b := 0xbd)
  have htype : (if pes.streamId.toNat = 0xfd ∧ pes.ssid = 0x72 ∧ typeFromPmt ≠ .audioDts ∧
      typeFromPmt ≠ .spuPgs then .audioTruehd else typeFromPmt) = pes.type typeFromPmt := by
    rw [CutPes.type]
    simp only [hfd]
  rw [pesParse2, if_neg (by omega), if_neg (by rw [h0, h1, h2]; decide), if_neg (by omega)]
  dsimp only
  rw [h3, h4, h5, h6, h7, h8, hext, hssid, hrest, htype, if_neg (by omega), if_neg]
  · obtain ⟨es', heq, hfound⟩ := pesPayload_found env
      (fun i => env.memory pes.start (pes.ext.length + 9 + i)) (pes.ext.length + 9)
      pes.first.length pes.streamId.toNat (pes.flags1 &&& 4 ≠ 0) pid tables
      { es with
        type := if pes.streamId.toNat = 0xfd ∧ pes.ssid = 0x72 ∧ typeFromPmt ≠ .audioDts ∧
          typeFromPmt ≠ .spuPgs then .audioTruehd else es.type
        payloadSize := if pes.size ≠ 0 then sub16 pes.size (pes.ext.length + 3) else 0
        pts := if pes.flags2 &&& 0x80 ≠ 0 then ptsTime (pesPts (env.memory pes.start)) else .zero
        isSynced := true }
      (by rw [hbd]; exact hwanted.type) hwanted.plain (hfits.payloadSize ▸ hfits.told)
    refine ⟨es', heq, ?_, ?_, ?_, ?_⟩
    · rw [Nat.add_comm 9, hfound.start]
      exact congrArg _ (pes.skip_eq env typeFromPmt)
    · rw [hfound.size]
      exact congrArg (fun skip : Nat => (pes.first.length : Int) - skip)
        (pes.skip_eq env typeFromPmt)
    · rw [hfound.pts]
      exact pes.time_eq env hfits
    · rw [hfound.payloadSize]
      dsimp only
      rw [hfits.payloadSize, hfits.payloadSize_rest]
  · rintro ⟨h, hne, hne'⟩
    rcases hwanted.ssid (hfd.mp h) with h | h
    · exact hne h
    · exact hne' h

end MPlayer
