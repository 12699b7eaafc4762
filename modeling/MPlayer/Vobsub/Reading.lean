import MPlayer.Vobsub.Basic

/-!
# Reading VobSub packets

Where the reader stands at a pack header, a packet or some padding, a call of `mpeg_run` reads it
and goes on behind it.  Up to four zeros before a start code are passed over.
-/

namespace MPlayer

open Lib

/-- The reader stands at this position of the file. -/
structure Mpeg.StandsAt (file : List UInt8) (p : Nat) (mpeg : Mpeg) : Prop where
  bytes_eq : mpeg.stream.bytes = file
  pos_eq : mpeg.stream.pos = p

variable {file : List UInt8} {p : Nat} {mpeg : Mpeg}

variable {tail packet : List UInt8} {len k : Nat} {aid : UInt8}

theorem drop_behind (xs : List UInt8) (h : file.drop p = xs ++ tail) :
    file.drop (p + xs.length) = tail := by
  rw [← List.drop_drop, h, List.drop_left]

theorem Mpeg.StandsAt.rest (h : mpeg.StandsAt file p) : mpeg.stream.rest = file.drop p := by
  rw [File.rest, h.bytes_eq, h.pos_eq]

/-! ## Fields -/

theorem lor_shiftLeft {b : Nat} (k a : Nat) (h : b < 2 ^ k) : a <<< k ||| b = a * 2 ^ k + b := by
  rw [← Nat.shiftLeft_add_eq_or_of_lt h, Nat.shiftLeft_eq]

/-- A length in two bytes. -/
theorem mpegLen_eq (h : len < 65536) (tail : List UInt8) :
    mpegLen (UInt8.ofNat (len >>> 8) :: UInt8.ofNat len :: tail) = UInt32.ofNat len := by
  have hhigh : len >>> 8 = len / 256 := Nat.shiftRight_eq_div_pow len 8
  have hlow : len % 256 < 2 ^ 8 := Nat.mod_lt _ (by decide)
  apply UInt32.toNat.inj
  rw [mpegLen]
  simp only [List.getD_cons_zero, List.getD_cons_succ, UInt32.toNat_or, UInt32.toNat_shiftLeft,
    UInt8.toNat_toUInt32, UInt8.toNat_ofNat', UInt32.toNat_ofNat', hhigh]
  have hshift : (8 : UInt32).toNat % 32 = 8 := rfl
  rw [hshift, Nat.mod_eq_of_lt (show len / 256 < 2 ^ 8 by omega), Nat.shiftLeft_eq]
  rw [Nat.mod_eq_of_lt (show len / 256 * 2 ^ 8 < 2 ^ 32 by omega), ← Nat.shiftLeft_eq,
    lor_shiftLeft 8 _ hlow]
  omega

/-- The first byte of a PTS field. -/
theorem firstByte (b : UInt8) : let c := (0x21 : UInt8) ||| (b &&& 0x0e)
    c &&& 0xf0 = 0x20 ∧ c &&& 1 = 1 ∧ (c &&& 0x0e).toNat = b.toNat / 2 % 8 * 2 := by
  have h : ∀ v : BitVec 8, let c := (0x21 : UInt8) ||| (UInt8.ofBitVec v &&& 0x0e)
      c &&& 0xf0 = 0x20 ∧ c &&& 1 = 1 ∧
        (c &&& 0x0e).toNat = (UInt8.ofBitVec v).toNat / 2 % 8 * 2 := by
    decide
  exact h b.toBitVec

/-- A byte of a PTS field with its marker bit. -/
theorem oddByte (b : UInt8) : let c := (0x01 : UInt8) ||| (b &&& 0xfe)
    c &&& 1 = 1 ∧ (c &&& 0xfe).toNat = b.toNat / 2 * 2 ∧ c.toNat >>> 1 = b.toNat / 2 := by
  have h : ∀ v : BitVec 8, let c := (0x01 : UInt8) ||| (UInt8.ofBitVec v &&& 0xfe)
      c &&& 1 = 1 ∧ (c &&& 0xfe).toNat = (UInt8.ofBitVec v).toNat / 2 * 2 ∧
        c.toNat >>> 1 = (UInt8.ofBitVec v).toNat / 2 := by
    decide
  exact h b.toBitVec

/-- A PTS field holds its time. -/
theorem readPts_nowPts {t : Nat} (h : t < 2 ^ 32) : readPts (nowPts t) = t := by
  obtain ⟨h0, h0', h0val⟩ := firstByte (UInt8.ofNat (t >>> 29))
  obtain ⟨h2, h2val, -⟩ := oddByte (UInt8.ofNat (t >>> 14))
  obtain ⟨h4, -, h4val⟩ := oddByte (UInt8.ofNat (t <<< 1))
  rw [readPts, nowPts]
  simp only [List.getD_cons_zero, List.getD_cons_succ]
  rw [if_pos ⟨h0, h0', h2, h4⟩, h0val, h2val, h4val]
  simp only [UInt8.toNat_ofNat', Nat.shiftRight_eq_div_pow]
  have e0 : t / 2 ^ 29 % 2 ^ 8 / 2 % 8 * 2 = t / 2 ^ 30 * 2 := by omega
  have e2 : t / 2 ^ 14 % 2 ^ 8 / 2 * 2 = t / 2 ^ 15 % 2 ^ 7 * 2 := by omega
  have e4 : t <<< 1 % 2 ^ 8 / 2 = t % 2 ^ 7 := by
    rw [Nat.shiftLeft_eq]
    omega
  rw [e0, e2, e4, Nat.shiftLeft_eq (t / 2 ^ 30 * 2), Nat.shiftLeft_eq (t / 2 ^ 15 % 2 ^ 7 * 2)]
  have s0 : t / 2 ^ 30 * 2 * 2 ^ 29 = (t / 2 ^ 30) <<< 30 :=
    (Nat.mul_assoc _ 2 (2 ^ 29)).trans (Nat.shiftLeft_eq _ 30).symm
  have s2 : t / 2 ^ 15 % 2 ^ 7 * 2 * 2 ^ 14 = (t / 2 ^ 15 % 2 ^ 7) <<< 15 :=
    (Nat.mul_assoc _ 2 (2 ^ 14)).trans (Nat.shiftLeft_eq _ 15).symm
  rw [s0, s2]
  simp only [Nat.or_assoc]
  rw [lor_shiftLeft 7 _ (show t % 2 ^ 7 < 2 ^ 7 by omega),
    lor_shiftLeft 15 _ (by omega), lor_shiftLeft 22 _ (by omega), lor_shiftLeft 30 _ (by omega)]
  omega

/-! ## Start codes -/

/-- The reader at the start of a call. -/
def Mpeg.start (mpeg : Mpeg) (n : Nat) : Mpeg :=
  { mpeg with aid := -1, packetSize := 0, stream := mpeg.stream.skip n }

theorem mpegRun_read {buf : List UInt8} (h : mpeg.stream.rest = buf ++ tail)
    (hlen : buf.length = 4) : mpegRun mpeg =
      match mpegSync (buf.getD 0 0) (buf.getD 1 0) (buf.getD 2 0) (buf.getD 3 0) tail with
      | none => some (-1, { mpeg.start (4 + tail.length) with
          stream := { mpeg.stream.skip (4 + tail.length) with eof := true } })
      | some (code, n) => mpegRunCode (mpeg.start (4 + n)) code := by
  have hne : buf ≠ [] := by
    rintro rfl
    cases hlen
  have hread := File.read_append buf h hne
  rw [hlen] at hread
  have hrest : (mpeg.stream.skip 4).rest = tail := by
    rw [File.skip_rest, h, ← hlen, List.drop_left]
  rw [mpegRun]
  dsimp only
  rw [hread]
  dsimp only
  rw [hrest]
  cases mpegSync (buf.getD 0 0) (buf.getD 1 0) (buf.getD 2 0) (buf.getD 3 0) tail with
  | none => simp [Mpeg.start, File.skip, Nat.add_assoc]
  | some r => simp [Mpeg.start]

theorem mpegSync_found (code : UInt8) : ∀ tail, mpegSync 0 0 1 code tail = some (code, 0)
  | [] => rfl
  | _ :: _ => rfl

theorem mpegSync_zero (b2 b3 c : UInt8) (hb2 : b2 ≠ 1) (tail : List UInt8) :
    mpegSync 0 0 b2 b3 (c :: tail) = (mpegSync 0 b2 b3 c tail).map fun r => (r.1, r.2 + 1) :=
  if_neg fun h => hb2 h.2.2

/-- A start code is found behind a few zeros. -/
theorem mpegRun_sync {code : UInt8} (hk : k ≤ 4)
    (h : mpeg.stream.rest = List.replicate k 0 ++ 0 :: 0 :: 1 :: code :: tail) :
    mpegRun mpeg = mpegRunCode (mpeg.start (k + 4)) code := by
  have hfind : ∃ buf tail', List.replicate k 0 ++ 0 :: 0 :: 1 :: code :: tail = buf ++ tail' ∧
      buf.length = 4 ∧ mpegSync (buf.getD 0 0) (buf.getD 1 0) (buf.getD 2 0) (buf.getD 3 0) tail' =
        some (code, k) := by
    match k, hk with
    | 0, _ => exact ⟨[0, 0, 1, code], tail, rfl, rfl, mpegSync_found code tail⟩
    | 1, _ =>
      refine ⟨[0, 0, 0, 1], code :: tail, rfl, rfl, ?_⟩
      show mpegSync 0 0 0 1 (code :: tail) = _
      rw [mpegSync_zero 0 1 code (by decide), mpegSync_found]
      rfl
    | 2, _ =>
      refine ⟨[0, 0, 0, 0], 1 :: code :: tail, rfl, rfl, ?_⟩
      show mpegSync 0 0 0 0 (1 :: code :: tail) = _
      rw [mpegSync_zero 0 0 1 (by decide), mpegSync_zero 0 1 code (by decide), mpegSync_found]
      rfl
    | 3, _ =>
      refine ⟨[0, 0, 0, 0], 0 :: 1 :: code :: tail, rfl, rfl, ?_⟩
      show mpegSync 0 0 0 0 (0 :: 1 :: code :: tail) = _
      rw [mpegSync_zero 0 0 0 (by decide), mpegSync_zero 0 0 1 (by decide),
        mpegSync_zero 0 1 code (by decide), mpegSync_found]
      rfl
    | 4, _ =>
      refine ⟨[0, 0, 0, 0], 0 :: 0 :: 1 :: code :: tail, rfl, rfl, ?_⟩
      show mpegSync 0 0 0 0 (0 :: 0 :: 1 :: code :: tail) = _
      rw [mpegSync_zero 0 0 0 (by decide), mpegSync_zero 0 0 0 (by decide),
        mpegSync_zero 0 0 1 (by decide), mpegSync_zero 0 1 code (by decide), mpegSync_found]
      rfl
  obtain ⟨buf, tail', heq, hlen, hsync⟩ := hfind
  rw [mpegRun_read (h.trans heq) hlen, hsync, Nat.add_comm k 4]

/-- No start code is found in a few zeros at the end. -/
theorem mpegRun_end (hk : k ≤ 4) (h : mpeg.stream.rest = List.replicate k 0) :
    ∃ mpeg', mpegRun mpeg = some (-1, mpeg') ∧ mpeg'.stream.eof = true := by
  by_cases hlt : k < 4
  · obtain ⟨hnone, heof⟩ := File.read_short (f := mpeg.stream) (n := 4) (by
      rw [h, List.length_replicate]
      exact hlt)
    rw [mpegRun]
    dsimp only
    generalize mpeg.stream.read 4 = r at hnone heof ⊢
    obtain ⟨r, stream⟩ := r
    cases hnone
    exact ⟨_, rfl, heof⟩
  · obtain rfl : k = 4 := by omega
    have hrest : mpeg.stream.rest = List.replicate 4 0 ++ [] := h
    rw [mpegRun_read hrest rfl]
    exact ⟨_, rfl, rfl⟩

/-! ## Kinds of packets -/

theorem Mpeg.StandsAt.start (h : mpeg.StandsAt file p) (n : Nat) :
    (mpeg.start n).StandsAt file (p + n) :=
  ⟨h.bytes_eq, congrArg (· + n) h.pos_eq⟩

/-- What a call leaves behind that gives no packet. -/
structure Mpeg.Passes (file : List UInt8) (p : Nat) (mpeg mpeg' : Mpeg) : Prop where
  stands : mpeg'.StandsAt file p
  packetSize : mpeg'.packetSize = 0
  pts : mpeg'.pts = mpeg.pts

/-- A start code is passed over. -/
theorem mpegRun_code (code : UInt8) (h : mpeg.StandsAt file p) (hk : k ≤ 4)
    (hfile : file.drop p = List.replicate k 0 ++ 0 :: 0 :: 1 :: code :: tail) :
    ∃ mpeg', mpegRun mpeg = mpegRunCode mpeg' code ∧ mpeg.Passes file (p + (k + 4)) mpeg' ∧
      mpeg'.aid = -1 ∧ file.drop (p + (k + 4)) = tail := by
  have hcode : file.drop p = (List.replicate k 0 ++ [0, 0, 1, code]) ++ tail := by
    rw [hfile, List.append_assoc]
    rfl
  have hdrop := drop_behind _ hcode
  rw [List.length_append, List.length_replicate] at hdrop
  exact ⟨_, mpegRun_sync hk (h.rest.trans hfile), ⟨h.start (k + 4), rfl, rfl⟩, rfl, hdrop⟩

theorem mpegRunPack_eq (h : mpeg.StandsAt file p) (hfile : file.drop p = 0x40 :: tail) :
    ∃ mpeg', mpegRunPack mpeg = (0, mpeg') ∧
      mpeg'.StandsAt file (p + 10) ∧ mpeg'.packetSize = mpeg.packetSize ∧
      mpeg'.pts = mpeg.pts := by
  rw [mpegRunPack, File.getc_cons (h.rest.trans hfile)]
  refine ⟨_, if_pos (by decide), ⟨h.bytes_eq, ?_⟩, rfl, rfl⟩
  show mpeg.stream.pos + 1 + 9 = p + 10
  rw [h.pos_eq]

/-- A pack header is passed over. -/
theorem mpegRun_pack (h : mpeg.StandsAt file p) (hk : k ≤ 4)
    (hfile : file.drop p = List.replicate k 0 ++ (packHeader ++ tail)) :
    ∃ mpeg', mpegRun mpeg = some (0, mpeg') ∧
      mpeg.Passes file (p + k + packHeader.length) mpeg' := by
  obtain ⟨mpeg1, hrun, hpass, -, hdrop⟩ := mpegRun_code 0xba h hk hfile
  obtain ⟨mpeg2, hpack, hstands, hsize, hpts⟩ := mpegRunPack_eq hpass.stands hdrop
  refine ⟨mpeg2, hrun.trans (congrArg some hpack), ?_, hsize.trans hpass.packetSize,
    hpts.trans hpass.pts⟩
  have hpos : p + (k + 4) + 10 = p + k + packHeader.length := by
    rw [packHeader]
    simp only [List.length_append, List.length_cons, List.length_nil, List.length_replicate]
    omega
  exact hpos ▸ hstands

theorem mpegRunSkip_eq (h : mpeg.StandsAt file p) (hlen : len < 65536)
    (hfile : file.drop p = UInt8.ofNat (len >>> 8) :: UInt8.ofNat len :: tail) (padding : Bool) :
    ∃ mpeg', mpegRunSkip mpeg padding = (0, mpeg') ∧ mpeg'.StandsAt file (p + 2 + len) ∧
      mpeg'.packetSize = mpeg.packetSize ∧ mpeg'.pts = mpeg.pts := by
  have hread := File.read_append [UInt8.ofNat (len >>> 8), UInt8.ofNat len]
    (h.rest.trans hfile) (by simp)
  have hlenEq : (mpegLen [UInt8.ofNat (len >>> 8), UInt8.ofNat len]).toNat = len := by
    rw [mpegLen_eq hlen, UInt32.toNat_ofNat_of_lt' (Nat.lt_trans hlen (by decide))]
  rw [mpegRunSkip]
  rw [List.length_cons, List.length_singleton] at hread
  rw [hread]
  refine ⟨_, rfl, ⟨?_, ?_⟩, rfl, rfl⟩
  · dsimp only
    split
    · exact h.bytes_eq
    · exact h.bytes_eq
  · dsimp only
    rw [hlenEq]
    split
    · exact congrArg (· + 2 + len) h.pos_eq
    · have hzero : len = 0 := by omega
      rw [hzero]
      exact congrArg (· + 2) h.pos_eq

/-- Padding is passed over. -/
theorem mpegRun_padding {len : Nat} {tail : List UInt8} (h : mpeg.StandsAt file p)
    (hlen : len < 65536)
    (hfile : file.drop p =
      0 :: 0 :: 1 :: 0xbe :: UInt8.ofNat (len >>> 8) :: UInt8.ofNat len :: tail) :
    ∃ mpeg', mpegRun mpeg = some (0, mpeg') ∧ mpeg.Passes file (p + 6 + len) mpeg' := by
  obtain ⟨mpeg1, hrun, hpass, -, hdrop⟩ := mpegRun_code 0xbe (k := 0) h (by omega) hfile
  obtain ⟨mpeg2, hskip, hstands, hsize, hpts⟩ := mpegRunSkip_eq hpass.stands hlen hdrop true
  refine ⟨mpeg2, hrun.trans (congrArg some hskip), ?_, hsize.trans hpass.packetSize,
    hpts.trans hpass.pts⟩
  have hpos : p + (0 + 4) + 2 + len = p + 6 + len := by omega
  exact hpos ▸ hstands

/-! ## Subtitle packets -/

/-- The PTS field of a packet that may have none. -/
def ptsField : Option Nat → List UInt8
  | none => []
  | some pts => nowPts pts

/-- The PTS flags of a packet. -/
def ptsFlags : Option Nat → UInt8
  | none => 0
  | some _ => 0x80

theorem mpegRunData_eq (mpeg : Mpeg) {q idx : Nat} (hbytes : mpeg.stream.bytes = file)
    (hq : q < 2 ^ 32) (hne : packet ≠ []) (hlen : len < 65536)
    (hidx : idx + len = q + 1 + packet.length) (hle : idx ≤ q + 1)
    (hfile : file.drop q = aid :: (packet ++ tail)) :
    ∃ mpeg', mpegRunData mpeg (UInt32.ofNat len) (UInt32.ofNat idx) (UInt32.ofNat q) = (0, mpeg') ∧
      mpeg'.StandsAt file (idx + len) ∧ mpeg'.packetSize = packet.length ∧
      mpeg'.aid = aid.toNat ∧ mpeg'.packet = packet ∧ mpeg'.pts = mpeg.pts := by
  have hseek : (mpeg.stream.seek (UInt32.ofNat q).toNat).rest = aid :: (packet ++ tail) := by
    rw [UInt32.toNat_ofNat_of_lt' hq, ← hfile, ← hbytes]
    rfl
  have hpos : ((mpeg.stream.seek (UInt32.ofNat q).toNat).skip 1).pos = q + 1 := by
    rw [UInt32.toNat_ofNat_of_lt' hq]
    rfl
  have hdata : ((mpeg.stream.seek (UInt32.ofNat q).toNat).skip 1).rest = packet ++ tail := by
    rw [File.skip_rest, hseek]
    rfl
  have hsize : (UInt32.ofNat len - (UInt32.ofNat (q + 1) - UInt32.ofNat idx)).toNat =
      packet.length := by
    have hrest : packet.length = len - (q + 1 - idx) := by omega
    have hsmall : packet.length < 2 ^ 32 := by omega
    rw [← UInt32.ofNat_sub hle, ← UInt32.ofNat_sub (by omega), ← hrest,
      UInt32.toNat_ofNat_of_lt' hsmall]
  rw [mpegRunData, File.getc_cons hseek]
  dsimp only
  rw [hpos, hsize, File.read_append packet hdata hne]
  refine ⟨_, rfl, ⟨hbytes, ?_⟩, rfl, rfl, rfl, rfl⟩
  rw [hidx, File.skip_pos, hpos]

theorem mpegRunExtension_eq (mpeg : Mpeg) {len idx : Nat} {pts : Option Nat} {pad : Nat}
    {aid : UInt8} {packet tail : List UInt8} (h : mpeg.StandsAt file p) (hne : packet ≠ [])
    (hlen : len = 4 + (ptsField pts).length + pad + packet.length) (hlen' : len < 65536)
    (hidx : p = idx + 1) (hend : idx + len < 2 ^ 32) (hpad : (ptsField pts).length + pad < 256)
    (hpts : ∀ t, pts = some t → t < 2 ^ 32)
    (hfile : file.drop p = ptsFlags pts :: UInt8.ofNat ((ptsField pts).length + pad) ::
      (ptsField pts ++ (List.replicate pad 0 ++ aid :: (packet ++ tail)))) :
    ∃ mpeg', mpegRunExtension mpeg (UInt32.ofNat len) (UInt32.ofNat idx) = (0, mpeg') ∧
      mpeg'.StandsAt file (idx + len) ∧ mpeg'.packetSize = packet.length ∧
      mpeg'.aid = aid.toNat ∧ mpeg'.packet = packet ∧ mpeg'.pts = pts.getD mpeg.pts := by
  have hheader : file.drop p = ([ptsFlags pts, UInt8.ofNat ((ptsField pts).length + pad)] ++
      ptsField pts ++ List.replicate pad 0) ++ aid :: (packet ++ tail) := by
    rw [hfile]
    simp only [List.append_assoc, List.cons_append, List.nil_append]
  have hdata := drop_behind _ hheader
  simp only [List.length_append, List.length_cons, List.length_nil, List.length_replicate] at hdata
  have hrest := h.rest.trans hfile
  have hrest' : (mpeg.stream.skip 1).rest = UInt8.ofNat ((ptsField pts).length + pad) ::
      (ptsField pts ++ (List.replicate pad 0 ++ aid :: (packet ++ tail))) := by
    rw [File.skip_rest, hrest]
    rfl
  have hfield : (mpeg.stream.skip 2).rest =
      ptsField pts ++ (List.replicate pad 0 ++ aid :: (packet ++ tail)) := by
    rw [File.skip_rest, hrest]
    rfl
  have hq : (mpeg.stream.skip 2).pos + (UInt8.ofNat ((ptsField pts).length + pad)).toNat =
      p + (0 + 1 + 1 + (ptsField pts).length + pad) := by
    rw [File.skip_pos, h.pos_eq, UInt8.toNat_ofNat_of_lt' hpad]
    omega
  have hin : ¬UInt32.ofNat idx + UInt32.ofNat len <
      UInt32.ofNat (p + (0 + 1 + 1 + (ptsField pts).length + pad)) := by
    rw [← UInt32.ofNat_add, UInt32.ofNat_lt_iff_lt hend (by simp only [UInt32.size]; omega)]
    omega
  rw [mpegRunExtension, File.getc_cons hrest]
  dsimp only
  rw [File.getc_cons hrest']
  dsimp only
  rw [File.skip_skip, hq, if_neg hin]
  cases pts with
  | none =>
    rw [if_neg (by decide)]
    exact mpegRunData_eq { mpeg with stream := mpeg.stream.skip 2 } h.bytes_eq
      (by omega) hne hlen' (by omega) (by omega) hdata
  | some t =>
    have hflags : ptsFlags (some t) &&& 0xc0 = 0x80 :=
      (by decide : (0x80 : UInt8) &&& 0xc0 = 0x80)
    rw [if_pos hflags]
    have hread := File.read_append (nowPts t) hfield (by simp [nowPts])
    have hfive : (nowPts t).length = 5 := rfl
    rw [hfive] at hread
    rw [hread]
    dsimp only
    rw [readPts_nowPts (hpts t rfl)]
    exact mpegRunData_eq { mpeg with stream := (mpeg.stream.skip 2).skip 5, pts := t } h.bytes_eq
      (by omega) hne hlen' (by omega) (by omega) hdata

/-- A packet is read. -/
theorem mpegRun_packet {len : Nat} {pts : Option Nat} {pad : Nat} {aid : UInt8}
    {packet tail : List UInt8} (h : mpeg.StandsAt file p) (hne : packet ≠ [])
    (hlen : len = 4 + (ptsField pts).length + pad + packet.length) (hlen' : len < 65536)
    (hend : p + 6 + len < 2 ^ 32) (hpad : (ptsField pts).length + pad < 256)
    (hpts : ∀ t, pts = some t → t < 2 ^ 32)
    (hfile : file.drop p = 0 :: 0 :: 1 :: 0xbd :: UInt8.ofNat (len >>> 8) :: UInt8.ofNat len ::
      0x80 :: ptsFlags pts :: UInt8.ofNat ((ptsField pts).length + pad) ::
      (ptsField pts ++ (List.replicate pad 0 ++ aid :: (packet ++ tail)))) :
    ∃ mpeg', mpegRun mpeg = some (0, mpeg') ∧ mpeg'.StandsAt file (p + 6 + len) ∧
      mpeg'.packetSize = packet.length ∧ mpeg'.aid = aid.toNat ∧ mpeg'.packet = packet ∧
      mpeg'.pts = pts.getD mpeg.pts := by
  obtain ⟨mpeg1, hrun, hpass, -, hdrop⟩ := mpegRun_code 0xbd (k := 0) h (by omega) hfile
  have hread := File.read_append [UInt8.ofNat (len >>> 8), UInt8.ofNat len]
    (hpass.stands.rest.trans hdrop) (by simp)
  rw [List.length_cons, List.length_singleton] at hread
  have hrest : (mpeg1.stream.skip 2).rest = 0x80 :: ptsFlags pts ::
      UInt8.ofNat ((ptsField pts).length + pad) ::
        (ptsField pts ++ (List.replicate pad 0 ++ aid :: (packet ++ tail))) := by
    rw [File.skip_rest, hpass.stands.rest, hdrop]
    rfl
  have hpos : (mpeg1.stream.skip 2).pos = p + 6 := by
    rw [File.skip_pos, hpass.stands.pos_eq]
  have hbehind : file.drop (p + 7) = ptsFlags pts :: UInt8.ofNat ((ptsField pts).length + pad) ::
      (ptsField pts ++ (List.replicate pad 0 ++ aid :: (packet ++ tail))) :=
    drop_behind [0, 0, 1, 0xbd, UInt8.ofNat (len >>> 8), UInt8.ofNat len, 0x80] hfile
  obtain ⟨mpeg2, hext, hstands, hsize, haid, hpacket, hpts'⟩ := mpegRunExtension_eq
    { mpeg1 with stream := (mpeg1.stream.skip 2).skip 1, paddingWasHere := false }
    ⟨hpass.stands.bytes_eq, congrArg (· + 1) hpos⟩ hne hlen hlen' rfl hend hpad hpts hbehind
  refine ⟨mpeg2, hrun.trans ?_, hstands, hsize, haid, hpacket, hpts'.trans ?_⟩
  · show mpegRunPacket mpeg1 = _
    rw [mpegRunPacket, hread]
    dsimp only
    rw [mpegLen_eq hlen', hpos, File.getc_cons hrest]
    dsimp only
    rw [if_neg (by decide)]
    dsimp only
    rw [if_neg (by decide), if_pos (by decide), hext]
  · rw [hpass.pts]

end MPlayer
