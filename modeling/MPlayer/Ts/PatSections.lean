import MPlayer.Ts.Pat
import Mathlib.Tactic.IntervalCases
import Mathlib.Data.List.Nodup
import Mathlib.Data.List.Perm.Subperm

/-!
# The sections of a program association table

The bytes of a section, and what `parse_pat` does when it is complete: it enters the programs
in their order.  Of a program the last entry counts, until all 65536 program numbers are entered
and the table is empty again (`Tracks`).
-/

namespace MPlayer

open Lib TsSection

/-- A section of the table.  The byte behind `ts_id` has the version number and
`current_next`. -/
structure PatSection where
  tsId : UInt16
  version : UInt8
  sectionNumber : UInt8
  lastSectionNumber : UInt8
  programs : List PatProgs
  crc : UInt32
  pid_lt : ∀ prog ∈ programs, prog.pmtPid.toNat < 0x2000
  size_le : 12 + 4 * programs.length ≤ 1024

/-- Two bytes. -/
def wordBytes (n : Nat) : List UInt8 := [UInt8.ofNat (n / 256), UInt8.ofNat n]

def PatProgs.bytes (prog : PatProgs) : List UInt8 :=
  wordBytes prog.id.toNat ++
    [0xe0 ||| UInt8.ofNat (prog.pmtPid.toNat / 256), UInt8.ofNat prog.pmtPid.toNat]

namespace PatSection

/-- `section_length`. -/
def length (f : PatSection) : Nat := 9 + 4 * f.programs.length

def header (f : PatSection) : List UInt8 :=
  [0, 0xb0 ||| UInt8.ofNat (f.length / 256), UInt8.ofNat f.length] ++ wordBytes f.tsId.toNat ++
    [f.version, f.sectionNumber, f.lastSectionNumber]

def bytes (f : PatSection) : List UInt8 :=
  f.header ++ f.programs.flatMap PatProgs.bytes ++
    (wordBytes (f.crc.toNat / 65536) ++ wordBytes f.crc.toNat)

end PatSection

/-! ## Numbers of two bytes -/

theorem word_toNat (hi lo : UInt8) : (Pat.word hi lo).toNat = hi.toNat * 256 + lo.toNat := by
  unfold Pat.word
  rw [UInt16.toNat_or, UInt16.toNat_shiftLeft, UInt8.toNat_toUInt16, UInt8.toNat_toUInt16]
  have hhi := hi.toNat_lt
  have hlo := lo.toNat_lt
  rw [show (8 : UInt16).toNat % 16 = 8 by decide,
    Nat.mod_eq_of_lt (by rw [Nat.shiftLeft_eq]; omega), ← Nat.shiftLeft_add_eq_or_of_lt hlo,
    Nat.shiftLeft_eq]

theorem word_ofNat {n : Nat} (hn : n < 65536) :
    Pat.word (UInt8.ofNat (n / 256)) (UInt8.ofNat n) = UInt16.ofNat n := by
  apply UInt16.toNat_inj.1
  rw [word_toNat, UInt8.toNat_ofNat', UInt8.toNat_ofNat', UInt16.toNat_ofNat']
  omega

theorem mask_or_pid {h : Nat} (hh : h < 32) :
    (0xe0 ||| UInt8.ofNat h) &&& 0x1f = UInt8.ofNat h := by
  interval_cases h <;> rfl

theorem mask_or_length {h : Nat} (hh : h < 4) :
    (0xb0 ||| UInt8.ofNat h) &&& 0x03 = UInt8.ofNat h ∧
      (0xb0 ||| UInt8.ofNat h).toNat &&& 0x0f = h := by
  interval_cases h <;> exact ⟨rfl, rfl⟩

/-! ## The header -/

namespace PatSection

variable (f : PatSection)

theorem length_bytes_programs (progs : List PatProgs) :
    (progs.flatMap PatProgs.bytes).length = 4 * progs.length := by
  induction progs with
  | nil => rfl
  | cons prog progs ih =>
    rw [List.flatMap_cons, List.length_append, ih, List.length_cons]
    have hfour : prog.bytes.length = 4 := rfl
    omega

theorem length_bytes : f.bytes.length = 3 + f.length := by
  unfold bytes
  rw [List.length_append, List.length_append, length_bytes_programs]
  change 8 + 4 * f.programs.length + 4 = 3 + (9 + 4 * f.programs.length)
  omega

theorem length_lt : f.length < 1024 := by
  have hsize := f.size_le
  unfold length
  omega

end PatSection

/-- The section that begins with the bytes `x` has this `section_length`. -/
def sectionLengthIn (x : List UInt8) : Nat :=
  ((x.getD 1 0).toNat &&& 0x0f) <<< 8 ||| (x.getD 2 0).toNat

theorem getD_behind (b : UInt8) (fin x : List UInt8) (i : Nat) :
    (b :: (fin ++ x)).getD (fin.length + 1 + i) 0 = x.getD i 0 := by
  rw [List.getD_eq_getElem?_getD, List.getD_eq_getElem?_getD, Nat.add_right_comm,
    List.getElem?_cons_succ, List.getElem?_append_right (Nat.le_add_right _ _),
    Nat.add_sub_cancel_left]

/-- Behind the pointer field, and what it skips, is the section. -/
theorem completeIn_behind {fin : List UInt8} (hfin : fin.length < 256) (x : List UInt8) :
    completeIn (UInt8.ofNat fin.length :: (fin ++ x)) =
      if x.length < 3 ∨ x.length < 3 + sectionLengthIn x then 0 else fin.length + 1 := by
  have hskip : ((UInt8.ofNat fin.length :: (fin ++ x)).getD 0 0).toNat = fin.length := by
    change (UInt8.ofNat fin.length).toNat = fin.length
    rw [UInt8.toNat_ofNat']
    exact Nat.mod_eq_of_lt hfin
  unfold completeIn sectionLengthIn
  dsimp only
  rw [hskip, getD_behind _ _ _ 1, getD_behind _ _ _ 2, List.length_cons, List.length_append]
  generalize ((x.getD 1 0).toNat &&& 0x0f) <<< 8 ||| (x.getD 2 0).toNat = tlen
  split
  · rw [if_pos (by omega)]
  · split
    · rw [if_pos (by omega)]
    · split
      · rw [if_pos (by omega)]
      · rw [if_neg (by omega)]

/-- As much of a section as has its length tells the length. -/
theorem sectionLengthIn_isPrefix {f : PatSection} {x : List UInt8} (hx : 3 ≤ x.length)
    (h : ∃ rest more, x ++ rest = f.bytes ++ more) : sectionLengthIn x = f.length := by
  obtain ⟨rest, more, h⟩ := h
  have hget : ∀ i < 3, x.getD i 0 = f.bytes.getD i 0 := by
    intro i hi
    have hbytes := f.length_bytes
    have hx : x[i]? = (x ++ rest)[i]? := (List.getElem?_append_left (by omega)).symm
    rw [List.getD_eq_getElem?_getD, List.getD_eq_getElem?_getD, hx, h,
      List.getElem?_append_left (by omega)]
  have hlength := f.length_lt
  obtain ⟨-, hhi⟩ := mask_or_length (h := f.length / 256) (by omega)
  have hlo : (UInt8.ofNat f.length).toNat = f.length % 256 := UInt8.toNat_ofNat'
  unfold sectionLengthIn
  rw [hget 1 (by decide), hget 2 (by decide)]
  change ((0xb0 ||| UInt8.ofNat (f.length / 256)).toNat &&& 0x0f) <<< 8 |||
    (UInt8.ofNat f.length).toNat = f.length
  rw [hhi, hlo, ← Nat.shiftLeft_add_eq_or_of_lt (Nat.mod_lt _ (by decide)), Nat.shiftLeft_eq]
  omega

theorem completeIn_part {fin part rest : List UInt8} {f : PatSection} (hfin : fin.length < 256)
    (h : part ++ rest = f.bytes) (hrest : rest ≠ []) :
    completeIn (UInt8.ofNat fin.length :: (fin ++ part)) = 0 := by
  rw [completeIn_behind hfin]
  by_cases hpart : part.length < 3
  · rw [if_pos (.inl hpart)]
  · have hlen := congrArg List.length h
    rw [List.length_append, f.length_bytes] at hlen
    have hpos := List.length_pos_iff.2 hrest
    rw [sectionLengthIn_isPrefix (by omega) ⟨rest, [], by rw [h, List.append_nil]⟩]
    exact if_pos (.inr (by omega))

theorem completeIn_whole {fin : List UInt8} (hfin : fin.length < 256) (f : PatSection)
    (more : List UInt8) :
    completeIn (UInt8.ofNat fin.length :: (fin ++ (f.bytes ++ more))) = fin.length + 1 := by
  have hlen : (f.bytes ++ more).length = 3 + f.length + more.length := by
    rw [List.length_append, f.length_bytes]
  rw [completeIn_behind hfin,
    sectionLengthIn_isPrefix (by omega) ⟨[], more, List.append_nil _⟩]
  exact if_neg (by omega)

/-! ## The programs -/

namespace Pat

/-- The entries of programs that are announced one after the other. -/
def enterAll (news progs : List PatProgs) : List PatProgs := news.foldl enter progs

/-- The entry of a program. -/
def lookup (progs : List PatProgs) (id : UInt16) : Option PatProgs := progs.find? (·.id == id)

/-- The last announcement of a program. -/
def lastOf (news : List PatProgs) (id : UInt16) : Option PatProgs :=
  lastWithKey PatProgs.id id news

theorem lastOf_append (news later : List PatProgs) (id : UInt16) :
    lastOf (news ++ later) id = (lastOf later id).or (lastOf news id) := by
  unfold lastOf lastWithKey
  rw [List.reverse_append, List.find?_append]

/-- The table has the last announcements in `known`, unless all program numbers are announced
there. -/
structure Tracks (known progs : List PatProgs) : Prop where
  length_lt : progs.length < 65536
  entries : ((progs.map PatProgs.id).Nodup ∧ ∀ id, lookup progs id = lastOf known id) ∨
    ∀ id, (lastOf known id).isSome

theorem mem_of_lookup {progs : List PatProgs} {id : UInt16} (h : (lookup progs id).isSome) :
    id ∈ progs.map PatProgs.id := by
  obtain ⟨prog, hprog, hid⟩ := List.find?_isSome.1 h
  exact List.mem_map.2 ⟨prog, hprog, eq_of_beq hid⟩

theorem lookup_of_mem {progs : List PatProgs} {id : UInt16} (h : id ∈ progs.map PatProgs.id) :
    (lookup progs id).isSome := by
  obtain ⟨prog, hprog, rfl⟩ := List.mem_map.1 h
  exact List.find?_isSome.2 ⟨prog, hprog, beq_self_eq_true _⟩

/-- A table of 65536 different programs has all of them. -/
theorem lookup_of_full {progs : List PatProgs} (hnodup : (progs.map PatProgs.id).Nodup)
    (hlength : progs.length = 65536) (id : UInt16) : (lookup progs id).isSome := by
  refine lookup_of_mem ?_
  have hinj : Function.Injective UInt16.toNat := fun _ _ h => UInt16.toNat_inj.1 h
  have hsub : ((progs.map PatProgs.id).map UInt16.toNat) ⊆ List.range 65536 := by
    intro n hn
    obtain ⟨id, -, rfl⟩ := List.mem_map.1 hn
    exact List.mem_range.2 id.toNat_lt
  have hperm := ((List.Nodup.map hinj hnodup).subperm hsub).perm_of_length_le (by simp [hlength])
  have hmem := hperm.mem_iff.2 (List.mem_range.2 id.toNat_lt)
  exact (List.mem_map_of_injective hinj).1 hmem

/-- A table that is not full lacks some program. -/
theorem Tracks.lookup_none {known progs : List PatProgs} (h : Tracks known progs) :
    ∃ id, Pat.lookup progs id = none := by
  by_contra hall
  have hsub : List.range 65536 ⊆ (progs.map PatProgs.id).map UInt16.toNat := by
    intro n hn
    refine List.mem_map.2 ⟨UInt16.ofNat n, mem_of_lookup ?_, ?_⟩
    · exact Option.isSome_iff_ne_none.2 fun hnone => hall ⟨_, hnone⟩
    · rw [UInt16.toNat_ofNat', Nat.mod_eq_of_lt (List.mem_range.1 hn)]
  have hle := (List.nodup_range.subperm hsub).length_le
  rw [List.length_range, List.length_map, List.length_map] at hle
  exact absurd h.length_lt (Nat.not_lt.2 hle)

theorem Tracks.enter {known progs : List PatProgs} (h : Tracks known progs) (prog : PatProgs) :
    Tracks (known ++ [prog]) (enter progs prog) := by
  have hkeys := @map_key_upsert _ _ _ PatProgs.id _ prog progs
  have hlength := congrArg List.length hkeys
  have hlookup : ∀ id, Pat.lookup (upsert (·.id == prog.id) (fun _ => prog) progs) id =
      (lastOf [prog] id).or (Pat.lookup progs id) :=
    fun id => @find?_enterByKey _ _ _ PatProgs.id _ id [prog] progs
  unfold Pat.enter
  generalize upsert (·.id == prog.id) (fun _ => prog) progs = entered at hkeys hlength hlookup
  have hle : entered.length ≤ progs.length + 1 := by
    split at hlength <;> simp only [List.length_map, List.length_append, List.length_singleton]
      at hlength <;> omega
  have hboth : ((entered.map PatProgs.id).Nodup ∧
      ∀ id, Pat.lookup entered id = lastOf (known ++ [prog]) id) ∨
      ∀ id, (lastOf (known ++ [prog]) id).isSome := by
    rcases h.entries with ⟨hnodup, heq⟩ | hall
    · refine .inl ⟨?_, fun id => by rw [hlookup, heq, lastOf_append]⟩
      rw [hkeys]
      split
      · exact hnodup
      · next hmem =>
        exact List.nodup_append.2 ⟨hnodup, List.nodup_singleton _, fun a ha b hb => by
          rw [List.mem_singleton.1 hb]
          exact fun hab => hmem (hab ▸ ha)⟩
    · exact .inr fun id => by rw [lastOf_append, Option.isSome_or, hall id, Bool.or_true]
  have hlt := h.length_lt
  dsimp only
  split
  · next hfull =>
    refine ⟨by decide, .inr ?_⟩
    rcases hboth with ⟨hnodup, heq⟩ | hall
    · exact fun id => heq id ▸ lookup_of_full hnodup hfull id
    · exact hall
  · exact ⟨by omega, hboth⟩

theorem Tracks.enterAll {known progs : List PatProgs} (h : Tracks known progs)
    (news : List PatProgs) : Tracks (known ++ news) (enterAll news progs) := by
  induction news generalizing known progs with
  | nil => rwa [List.append_nil]
  | cons prog news ih =>
    rw [List.append_cons]
    exact ih (h.enter prog)

/-- Programs that are announced again as they were last change nothing. -/
theorem Tracks.again {known progs news : List PatProgs} (h : Tracks (known ++ news) progs)
    (hnews : ∀ id, (lastOf news id).or (lastOf known id) = lastOf known id) :
    Tracks known progs := by
  have hlast : ∀ id, lastOf (known ++ news) id = lastOf known id := by
    intro id
    rw [lastOf_append, hnews]
  exact ⟨h.length_lt, by simpa only [hlast] using h.entries⟩

variable {s : TsSection}

theorem readProg_eq {pre post : List UInt8} {prog : PatProgs} (hpid : prog.pmtPid.toNat < 0x2000)
    (h : s.Holds (pre ++ (prog.bytes ++ post))) : readProg s pre.length = some prog := by
  have hget : ∀ i b, (prog.bytes ++ post)[i]? = some b → s.get (pre.length + i) = some b := by
    intro i b hb
    refine h.get ?_
    rw [List.getElem?_append_right (Nat.le_add_right _ _), Nat.add_sub_cancel_left]
    exact hb
  have hid := prog.id.toNat_lt
  have hfirst : s.get pre.length = some (UInt8.ofNat (prog.id.toNat / 256)) := hget 0 _ rfl
  unfold readProg
  rw [hfirst, hget 1 (UInt8.ofNat prog.id.toNat) rfl,
    hget 2 (0xe0 ||| UInt8.ofNat (prog.pmtPid.toNat / 256)) rfl,
    hget 3 (UInt8.ofNat prog.pmtPid.toNat) rfl]
  dsimp only [bind, Option.bind]
  rw [mask_or_pid (by omega), word_ofNat (by omega), word_ofNat (by omega), UInt16.ofNat_toNat,
    UInt16.ofNat_toNat]

theorem enterProgs_eq {pre post : List UInt8} {news : List PatProgs}
    (hpids : ∀ prog ∈ news, prog.pmtPid.toNat < 0x2000)
    (h : s.Holds (pre ++ (news.flatMap PatProgs.bytes ++ post))) (progs : List PatProgs) :
    enterProgs s news.length pre.length progs = some (enterAll news progs) := by
  induction news generalizing pre progs with
  | nil => rfl
  | cons prog news ih =>
    rw [List.flatMap_cons, List.append_assoc] at h
    rw [List.length_cons, enterProgs, readProg_eq (hpids prog List.mem_cons_self) h]
    dsimp only [bind, Option.bind]
    rw [← List.append_assoc pre] at h
    have hlen : (pre ++ prog.bytes).length = pre.length + 4 := List.length_append
    rw [← hlen]
    exact ih (fun p hp => hpids p (List.mem_cons_of_mem _ hp)) h _

end Pat

/-! ## Parsing -/

variable {fresh : Nat → UInt8} {pat : Pat} {isStart : Bool} {buff : List UInt8} {t : TsSection}

theorem parsePat_part (h : collectSection fresh pat.tsSection isStart buff = some (0, t)) :
    parsePat fresh pat isStart buff = some (0, { pat with tsSection := t }) := by
  unfold parsePat
  rw [h]
  rfl

/-- Behind a whole section its programs are entered. -/
theorem parsePat_whole {fin more : List UInt8} {f : PatSection}
    (h : collectSection fresh pat.tsSection isStart buff = some (fin.length + 1, t))
    (ht : t.Holds (UInt8.ofNat fin.length :: (fin ++ (f.bytes ++ more)))) :
    ∃ pat', parsePat fresh pat isStart buff = some (1, pat') ∧ pat'.tsSection = t ∧
      pat'.progs = Pat.enterAll f.programs pat.progs := by
  have hget : ∀ i b, (f.bytes ++ more)[i]? = some b → t.get (fin.length + 1 + i) = some b := by
    intro i b hb
    refine ht.get ?_
    rw [Nat.add_right_comm, List.getElem?_cons_succ,
      List.getElem?_append_right (Nat.le_add_right _ _), Nat.add_sub_cancel_left]
    exact hb
  have hlength := f.length_lt
  have hfirst : t.get (fin.length + 1) = some 0 := hget 0 0 rfl
  have hword : Pat.word ((0xb0 ||| UInt8.ofNat (f.length / 256)) &&& 0x03) (UInt8.ofNat f.length) =
      UInt16.ofNat f.length := by
    rw [(mask_or_length (h := f.length / 256) (by omega)).1, word_ofNat (by omega)]
  have hentries : ((UInt16.ofNat f.length).toNat - 9) / 4 = f.programs.length := by
    rw [UInt16.toNat_ofNat', Nat.mod_eq_of_lt (by omega)]
    unfold PatSection.length
    omega
  have hprogs : ∀ progs, Pat.enterProgs t f.programs.length (fin.length + 1 + 8) progs =
      some (Pat.enterAll f.programs progs) := by
    have hpre : (UInt8.ofNat fin.length :: (fin ++ f.header)).length = fin.length + 1 + 8 := by
      rw [List.length_cons, List.length_append]
      exact Nat.add_right_comm _ 8 1
    have hholds : t.Holds ((UInt8.ofNat fin.length :: (fin ++ f.header)) ++
        (f.programs.flatMap PatProgs.bytes ++
          (wordBytes (f.crc.toNat / 65536) ++ wordBytes f.crc.toNat ++ more))) := by
      unfold PatSection.bytes at ht
      simpa only [List.cons_append, List.append_assoc] using ht
    rw [← hpre]
    exact Pat.enterProgs_eq f.pid_lt hholds
  unfold parsePat Pat.readHeader
  rw [h]
  dsimp only [bind, Option.bind]
  rw [if_neg (Nat.succ_ne_zero _), hfirst]
  dsimp only
  rw [if_neg (not_not_intro rfl), hget 1 _ rfl, hget 2 _ rfl, hget 3 _ rfl, hget 4 _ rfl,
    hget 5 _ rfl, hget 6 _ rfl, hget 7 _ rfl]
  dsimp only
  rw [hword, hentries, hprogs]
  exact ⟨_, rfl, rfl, rfl⟩

theorem enterProgs_ok {c : List UInt8} (ht : t.Holds c) :
    ∀ (entries base : Nat) (progs : List PatProgs), base + 4 * entries ≤ sectionBufferSize →
      ∃ progs', Pat.enterProgs t entries base progs = some progs'
  | 0, _, progs, _ => ⟨progs, rfl⟩
  | entries + 1, base, progs, hle => by
    obtain ⟨b0, h0⟩ := ht.get_of_lt (i := base) (by omega)
    obtain ⟨b1, h1⟩ := ht.get_of_lt (i := base + 1) (by omega)
    obtain ⟨b2, h2⟩ := ht.get_of_lt (i := base + 2) (by omega)
    obtain ⟨b3, h3⟩ := ht.get_of_lt (i := base + 3) (by omega)
    unfold Pat.enterProgs Pat.readProg
    rw [h0, h1, h2, h3]
    exact enterProgs_ok ht entries (base + 4) _ (by omega)

/-- A payload, whatever is in it, is parsed inside of the buffer. -/
theorem parsePat_ok (fresh : Nat → UInt8) (hpat : pat.tsSection.Ok) (isStart : Bool)
    (buff : List UInt8) :
    ∃ r pat', parsePat fresh pat isStart buff = some (r, pat') ∧ pat'.tsSection.Ok := by
  obtain ⟨skip, t, hcollect, ht, rfl | ⟨hskip, c, hc⟩⟩ := collect_ok fresh hpat isStart buff
  · exact ⟨0, _, parsePat_part hcollect, ht⟩
  · have hget : ∀ i ≤ 7, ∃ b, t.get (skip + i) = some b := by
      intro i hi
      refine hc.get_of_lt ?_
      unfold sectionBufferSize
      omega
    obtain ⟨b0, h0⟩ := hget 0 (by decide)
    obtain ⟨b1, h1⟩ := hget 1 (by decide)
    obtain ⟨b2, h2⟩ := hget 2 (by decide)
    obtain ⟨b3, h3⟩ := hget 3 (by decide)
    obtain ⟨b4, h4⟩ := hget 4 (by decide)
    obtain ⟨b5, h5⟩ := hget 5 (by decide)
    obtain ⟨b6, h6⟩ := hget 6 (by decide)
    obtain ⟨b7, h7⟩ := hget 7 (by decide)
    rw [Nat.add_zero] at h0
    unfold parsePat Pat.readHeader
    rw [hcollect]
    dsimp only [bind, Option.bind]
    split
    · exact ⟨0, _, rfl, ht⟩
    · rw [h0]
      dsimp only
      split
      · exact ⟨0, _, rfl, ht⟩
      · rw [h1, h2, h3, h4, h5, h6, h7]
        dsimp only
        have hword := word_toNat (b1 &&& 0x03) b2
        have hhi : (b1 &&& 0x03).toNat ≤ 3 := by
          rw [UInt8.toNat_and]
          exact Nat.and_le_right
        have hlo := b2.toNat_lt
        obtain ⟨progs, hprogs⟩ := enterProgs_ok hc
          (((Pat.word (b1 &&& 0x03) b2).toNat - 9) / 4) (skip + 8) pat.progs
          (by unfold sectionBufferSize; omega)
        rw [hprogs]
        exact ⟨1, _, rfl, ht⟩

theorem feedPat_ok (fresh : Nat → UInt8) (payloads : List PatPayload) (hpat : pat.tsSection.Ok) :
    (feedPat fresh payloads pat).isSome := by
  induction payloads generalizing pat with
  | nil => rfl
  | cons payload payloads ih =>
    obtain ⟨r, pat', hparse, hpat'⟩ := parsePat_ok fresh hpat payload.isStart payload.bytes
    unfold feedPat
    rw [hparse]
    exact ih hpat'

end MPlayer
