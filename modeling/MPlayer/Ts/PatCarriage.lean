import MPlayer.Ts.PatSections

/-!
# Sections in payloads

Sections are sent one after the other.  A payload in which a section begins has a pointer field,
which counts the bytes in it that finish the section before.  Behind a section the rest of a payload
may be stuffed.

The buffer is emptied where a section begins, and only the first section in it is parsed.  So a
section is collected if it is the first one to begin in its payload, and is finished before the next
payload in which one begins (`collected`).
-/

namespace MPlayer

open Lib TsSection

/-- What a payload carries, of a section that is not finished yet and of the next ones. -/
inductive PatUnit where
  /-- The next `n` bytes of the section. -/
  | middle (n : Nat)
  /-- The rest of the section, and stuffing. -/
  | finish (stuffing : Nat)
  /-- The rest of the section, whole sections, and stuffing. -/
  | start (whole : List PatSection) (stuffing : Nat)
  /-- The rest of the section, whole sections, and the first `n` bytes of another one. -/
  | cut (whole : List PatSection) (last : PatSection) (n : Nat)

namespace PatUnit

def stuff (n : Nat) : List UInt8 := List.replicate n 0xff

/-- What `unit` carries if the rest of the section is `rest`, and what the rest is behind it. -/
def payload (rest : List UInt8) : PatUnit → PatPayload × List UInt8
  | middle n => (⟨false, rest.take n⟩, rest.drop n)
  | finish stuffing => (⟨false, rest ++ stuff stuffing⟩, [])
  | start whole stuffing =>
    (⟨true, UInt8.ofNat rest.length ::
      (rest ++ (whole.flatMap PatSection.bytes ++ stuff stuffing))⟩, [])
  | cut whole last n =>
    (⟨true, UInt8.ofNat rest.length ::
      (rest ++ (whole.flatMap PatSection.bytes ++ last.bytes.take n))⟩, last.bytes.drop n)

/-- What may follow if the rest of a section is `rest`. -/
def Follows (rest : List UInt8) : PatUnit → Prop
  | middle n => 0 < n ∧ n < rest.length
  | finish _ => rest ≠ []
  | start whole _ => whole ≠ []
  | cut _ last n => 0 < n ∧ n < last.bytes.length

/-- The sections that begin in a payload. -/
def sections : PatUnit → List PatSection
  | middle _ | finish _ => []
  | start whole _ => whole
  | cut whole last _ => whole ++ [last]

end PatUnit

/-- The payloads of a packet have at most 184 bytes.  At the end all sections are finished. -/
def Carried : List UInt8 → List PatUnit → Prop
  | rest, [] => rest = []
  | rest, unit :: units =>
    unit.Follows rest ∧ (unit.payload rest).1.bytes.length ≤ 184 ∧
      Carried (unit.payload rest).2 units

def unitPayloads : List UInt8 → List PatUnit → List PatPayload
  | _, [] => []
  | rest, unit :: units => (unit.payload rest).1 :: unitPayloads (unit.payload rest).2 units

/-- A section that was begun is finished before another payload in which one begins. -/
def finishedFirst : List PatUnit → Bool
  | .middle _ :: units => finishedFirst units
  | .finish _ :: _ => true
  | _ => false

/-- The sections that are the first to begin in a payload, and are finished before the next such
payload. -/
def collected : List PatUnit → List PatSection
  | [] => []
  | .start whole _ :: units => whole.head?.toList ++ collected units
  | .cut (first :: _) _ _ :: units => first :: collected units
  | .cut [] last _ :: units =>
    if finishedFirst units then last :: collected units else collected units
  | _ :: units => collected units

/-- The programs that are announced, in their order. -/
def announced (fs : List PatSection) : List PatProgs := fs.flatMap PatSection.programs

/-! ## One payload -/

variable {fresh : Nat → UInt8} {pat : Pat} {rest : List UInt8}

/-- What is collected while the rest of a section is `rest`, behind the announcements `known`.  If
the section was the first one to begin in its payload it is awaited.  Otherwise the first one was
parsed before. -/
inductive Collecting (known : List PatProgs) (pat : Pat) :
    List UInt8 → Option PatSection → Prop where
  | idle : Collecting known pat [] none
  | first {f : PatSection} {fin part rest : List UInt8}
      (hholds : pat.tsSection.Holds (UInt8.ofNat fin.length :: (fin ++ part)))
      (hfin : fin.length < 256) (hpart : part ++ rest = f.bytes) (hrest : rest ≠ []) :
      Collecting known pat rest (some f)
  | behind {f : PatSection} {fin more rest : List UInt8}
      (hholds : pat.tsSection.Holds (UInt8.ofNat fin.length :: (fin ++ (f.bytes ++ more))))
      (hfin : fin.length < 256) (hsize : more.length + rest.length ≤ 2048)
      (hentered : ∀ id, (Pat.lastOf f.programs id).or (Pat.lastOf known id) = Pat.lastOf known id) :
      Collecting known pat rest none

theorem length_bytes_le (f : PatSection) : f.bytes.length ≤ 1024 := by
  rw [f.length_bytes]
  have hsize := f.size_le
  unfold PatSection.length
  omega

theorem or_or_self (a b : Option PatProgs) : a.or (a.or b) = a.or b := by
  cases a with
  | none => rfl
  | some _ => rfl

variable {f : PatSection} {part more : List UInt8} {w : Option PatSection} {known : List PatProgs}

/-- A section that is awaited is not parsed before it is finished. -/
theorem parse_middle {fin buff : List UInt8}
    (hholds : pat.tsSection.Holds (UInt8.ofNat fin.length :: (fin ++ part)))
    (hfin : fin.length < 256) (hpart : part ++ (buff ++ more) = f.bytes) (hmore : more ≠ []) :
    ∃ pat', parsePat fresh pat false buff = some (0, pat') ∧
      Collecting known pat' more (some f) ∧ pat'.progs = pat.progs := by
  have hlen := congrArg List.length hpart
  rw [List.length_append, List.length_append] at hlen
  have hle := length_bytes_le f
  have hsize : (UInt8.ofNat fin.length :: (fin ++ part)).length + buff.length ≤
      sectionBufferSize := by
    rw [List.length_cons, List.length_append]
    unfold sectionBufferSize
    omega
  obtain ⟨t, hcollect, ht⟩ := collect_more fresh hholds (List.cons_ne_nil _ _) hsize
  rw [List.cons_append, List.append_assoc] at hcollect ht
  rw [← List.append_assoc] at hpart
  rw [completeIn_part hfin hpart hmore] at hcollect
  exact ⟨_, parsePat_part hcollect, .first ht hfin hpart hmore, rfl⟩

/-- The section at the beginning of the buffer is whole. -/
theorem parse_whole {fin buff : List UInt8}
    (hholds : pat.tsSection.Holds (UInt8.ofNat fin.length :: (fin ++ part)))
    (hfin : fin.length < 256) (hpart : part ++ buff = f.bytes ++ more)
    (hsize : (part ++ buff).length ≤ 4096) :
    ∃ pat', parsePat fresh pat false buff = some (1, pat') ∧
      pat'.tsSection.Holds (UInt8.ofNat fin.length :: (fin ++ (f.bytes ++ more))) ∧
      pat'.progs = Pat.enterAll f.programs pat.progs := by
  rw [List.length_append] at hsize
  have hfits : (UInt8.ofNat fin.length :: (fin ++ part)).length + buff.length ≤
      sectionBufferSize := by
    rw [List.length_cons, List.length_append]
    unfold sectionBufferSize
    omega
  obtain ⟨t, hcollect, ht⟩ := collect_more fresh hholds (List.cons_ne_nil _ _) hfits
  rw [List.cons_append, List.append_assoc, hpart] at hcollect ht
  rw [completeIn_whole hfin] at hcollect
  obtain ⟨pat', hparse, rfl, hprogs⟩ := parsePat_whole hcollect ht
  exact ⟨pat', hparse, ht, hprogs⟩

/-- A payload in which a section begins and is whole. -/
theorem parse_start (fresh : Nat → UInt8) (pat : Pat)
    (hsize : (rest ++ (f.bytes ++ more)).length < 184) :
    ∃ pat', parsePat fresh pat true (UInt8.ofNat rest.length :: (rest ++ (f.bytes ++ more))) =
        some (1, pat') ∧
      pat'.tsSection.Holds (UInt8.ofNat rest.length :: (rest ++ (f.bytes ++ more))) ∧
      pat'.progs = Pat.enterAll f.programs pat.progs := by
  have hrest : rest.length < 256 := by
    rw [List.length_append] at hsize
    omega
  have hfits : (UInt8.ofNat rest.length :: (rest ++ (f.bytes ++ more))).length ≤
      sectionBufferSize := by
    rw [List.length_cons]
    unfold sectionBufferSize
    omega
  obtain ⟨t, hcollect, ht⟩ := collect_start fresh pat.tsSection hfits
  rw [completeIn_whole hrest] at hcollect
  obtain ⟨pat', hparse, rfl, hprogs⟩ := parsePat_whole hcollect ht
  exact ⟨pat', hparse, ht, hprogs⟩

/-- A payload in which a section begins that is cut. -/
theorem parse_cut (fresh : Nat → UInt8) (pat : Pat) (hpart : part ++ more = f.bytes)
    (hmore : more ≠ []) (hsize : (rest ++ part).length < 184) :
    ∃ pat', parsePat fresh pat true (UInt8.ofNat rest.length :: (rest ++ part)) = some (0, pat') ∧
      Collecting known pat' more (some f) ∧ pat'.progs = pat.progs := by
  have hrest : rest.length < 256 := by
    rw [List.length_append] at hsize
    omega
  have hfits : (UInt8.ofNat rest.length :: (rest ++ part)).length ≤ sectionBufferSize := by
    rw [List.length_cons]
    unfold sectionBufferSize
    omega
  obtain ⟨t, hcollect, ht⟩ := collect_start fresh pat.tsSection hfits
  rw [completeIn_part hrest hpart hmore] at hcollect
  exact ⟨_, parsePat_part hcollect, .first ht hrest hpart hmore, rfl⟩

/-! ## All payloads -/

/-- The section that is awaited, if it is finished before another payload in which one begins. -/
def awaited (units : List PatUnit) (w : Option PatSection) : List PatSection :=
  if finishedFirst units then w.toList else []

theorem awaited_none (units : List PatUnit) : awaited units none = [] := by
  unfold awaited
  split
  · rfl
  · rfl

/-- What one payload does: the sections `news` are parsed. -/
structure Parsed (fresh : Nat → UInt8) (known : List PatProgs) (pat pat' : Pat) (rest : List UInt8)
    (unit : PatUnit) (w w' : Option PatSection) (news : List PatSection) : Prop where
  parse : ∃ r, parsePat fresh pat (unit.payload rest).1.isStart (unit.payload rest).1.bytes =
    some (r, pat')
  collecting : Collecting (known ++ announced news) pat' (unit.payload rest).2 w'
  tracks : Pat.Tracks known pat.progs → Pat.Tracks (known ++ announced news) pat'.progs
  sections : ∀ units, awaited (unit :: units) w ++ collected (unit :: units) =
    news ++ (awaited units w' ++ collected units)

theorem tracks_enter {progs : List PatProgs} (h : Pat.Tracks known progs) (f : PatSection) :
    Pat.Tracks (known ++ announced [f]) (Pat.enterAll f.programs progs) := by
  rw [announced, List.flatMap_singleton]
  exact h.enterAll f.programs

theorem tracks_nil {progs : List PatProgs} (h : Pat.Tracks known progs) :
    Pat.Tracks (known ++ announced []) progs := by
  rwa [announced, List.flatMap_nil, List.append_nil]

theorem Collecting.middle {n : Nat} (h : Collecting known pat rest w)
    (hfollows : (PatUnit.middle n).Follows rest)
    (hsize : ((PatUnit.middle n).payload rest).1.bytes.length ≤ 184) :
    ∃ pat', Parsed fresh known pat pat' rest (.middle n) w w [] := by
  have hmore : rest.drop n ≠ [] := by
    rw [← List.length_pos_iff, List.length_drop]
    exact Nat.sub_pos_of_lt hfollows.2
  cases h with
  | idle => exact absurd hfollows.2 (Nat.not_lt_zero n)
  | @first f fin part rest hholds hfin hpart hrest =>
    have hsplit : part ++ (rest.take n ++ rest.drop n) = f.bytes := by
      rwa [List.take_append_drop]
    obtain ⟨pat', hparse, hcollecting, hprogs⟩ := parse_middle hholds hfin hsplit hmore
    exact ⟨pat', ⟨0, hparse⟩, hcollecting, fun h => hprogs ▸ tracks_nil h, fun _ => rfl⟩
  | @behind f fin more rest hholds hfin hle hentered =>
    have hbytes := length_bytes_le f
    have htake : (rest.take n).length + (rest.drop n).length = rest.length := by
      rw [← List.length_append, List.take_append_drop]
    have hpart : (f.bytes ++ more) ++ rest.take n = f.bytes ++ (more ++ rest.take n) :=
      List.append_assoc _ _ _
    have hfits : ((f.bytes ++ more) ++ rest.take n).length ≤ 4096 := by
      rw [List.length_append, List.length_append]
      omega
    obtain ⟨pat', hparse, hholds', hprogs⟩ := parse_whole hholds hfin hpart hfits
    refine ⟨pat', ⟨1, hparse⟩, .behind hholds' hfin ?_ ?_, ?_, fun _ => rfl⟩
    · change (more ++ rest.take n).length + (rest.drop n).length ≤ 2048
      rw [List.length_append]
      omega
    · rwa [announced, List.flatMap_nil, List.append_nil]
    · exact fun h => hprogs ▸ tracks_nil ((h.enterAll f.programs).again hentered)

theorem Collecting.finish {stuffing : Nat} (h : Collecting known pat rest w)
    (hfollows : (PatUnit.finish stuffing).Follows rest)
    (hsize : ((PatUnit.finish stuffing).payload rest).1.bytes.length ≤ 184) :
    ∃ pat', Parsed fresh known pat pat' rest (.finish stuffing) w none w.toList := by
  change (rest ++ PatUnit.stuff stuffing).length ≤ 184 at hsize
  rw [List.length_append] at hsize
  cases h with
  | idle => exact absurd rfl hfollows
  | @first f fin part rest hholds hfin hpart hrest =>
    have hbytes := length_bytes_le f
    have hwhole : part ++ (rest ++ PatUnit.stuff stuffing) =
        f.bytes ++ PatUnit.stuff stuffing := by
      rw [← List.append_assoc, hpart]
    have hfits : (part ++ (rest ++ PatUnit.stuff stuffing)).length ≤ 4096 := by
      rw [hwhole, List.length_append]
      omega
    obtain ⟨pat', hparse, -, hprogs⟩ := parse_whole hholds hfin hwhole hfits
    refine ⟨pat', ⟨1, hparse⟩, .idle, fun h => hprogs ▸ tracks_enter h f, ?_⟩
    intro units
    rw [awaited_none]
    rfl
  | @behind f fin more rest hholds hfin hle hentered =>
    have hbytes := length_bytes_le f
    have hpart : (f.bytes ++ more) ++ (rest ++ PatUnit.stuff stuffing) =
        f.bytes ++ (more ++ (rest ++ PatUnit.stuff stuffing)) := List.append_assoc _ _ _
    have hfits : ((f.bytes ++ more) ++ (rest ++ PatUnit.stuff stuffing)).length ≤ 4096 := by
      rw [List.length_append, List.length_append, List.length_append]
      omega
    obtain ⟨pat', hparse, -, hprogs⟩ := parse_whole hholds hfin hpart hfits
    refine ⟨pat', ⟨1, hparse⟩, .idle, ?_, ?_⟩
    · exact fun h => hprogs ▸ tracks_nil ((h.enterAll f.programs).again hentered)
    · intro units
      rw [awaited_none, awaited_none]
      rfl

theorem Collecting.start {whole : List PatSection} {stuffing : Nat}
    (hfollows : (PatUnit.start whole stuffing).Follows rest)
    (hsize : ((PatUnit.start whole stuffing).payload rest).1.bytes.length ≤ 184) :
    ∃ pat', Parsed fresh known pat pat' rest (.start whole stuffing) w none
      whole.head?.toList := by
  cases whole with
  | nil => exact absurd rfl hfollows
  | cons f whole =>
    change (UInt8.ofNat rest.length :: (rest ++ ((f.bytes ++ whole.flatMap PatSection.bytes) ++
      PatUnit.stuff stuffing))).length ≤ 184 at hsize
    rw [List.append_assoc] at hsize
    obtain ⟨pat', hparse, -, hprogs⟩ := parse_start fresh pat hsize
    refine ⟨pat', ⟨1, ?_⟩, .idle, fun h => hprogs ▸ tracks_enter h f, ?_⟩
    · change parsePat fresh pat true (UInt8.ofNat rest.length ::
        (rest ++ ((f.bytes ++ whole.flatMap PatSection.bytes) ++ PatUnit.stuff stuffing))) = _
      rw [List.append_assoc]
      exact hparse
    · intro units
      rw [awaited_none]
      rfl

theorem Collecting.cut {whole : List PatSection} {last : PatSection} {n : Nat}
    (hfollows : (PatUnit.cut whole last n).Follows rest)
    (hsize : ((PatUnit.cut whole last n).payload rest).1.bytes.length ≤ 184) :
    ∃ pat' w' news, Parsed fresh known pat pat' rest (.cut whole last n) w w' news := by
  have hmore : last.bytes.drop n ≠ [] := by
    rw [← List.length_pos_iff, List.length_drop]
    exact Nat.sub_pos_of_lt hfollows.2
  cases whole with
  | nil =>
    obtain ⟨pat', hparse, hcollecting, hprogs⟩ := parse_cut fresh pat
      (List.take_append_drop n last.bytes) hmore hsize
    refine ⟨pat', some last, [], ⟨0, hparse⟩, hcollecting, fun h => hprogs ▸ tracks_nil h, ?_⟩
    intro units
    change (if finishedFirst units then last :: collected units else collected units) =
      (if finishedFirst units then [last] else []) ++ collected units
    split
    · rfl
    · rfl
  | cons f whole =>
    change (UInt8.ofNat rest.length :: (rest ++ ((f.bytes ++ whole.flatMap PatSection.bytes) ++
      last.bytes.take n))).length ≤ 184 at hsize
    rw [List.append_assoc] at hsize
    obtain ⟨pat', hparse, hholds, hprogs⟩ := parse_start fresh pat hsize
    refine ⟨pat', none, [f], ⟨1, ?_⟩, .behind hholds ?_ ?_ ?_,
      fun h => hprogs ▸ tracks_enter h f, ?_⟩
    · change parsePat fresh pat true (UInt8.ofNat rest.length ::
        (rest ++ ((f.bytes ++ whole.flatMap PatSection.bytes) ++ last.bytes.take n))) = _
      rw [List.append_assoc]
      exact hparse
    · rw [List.length_cons, List.length_append] at hsize
      omega
    · have hbytes := length_bytes_le last
      change (whole.flatMap PatSection.bytes ++ last.bytes.take n).length +
        (last.bytes.drop n).length ≤ 2048
      rw [List.length_drop]
      simp only [List.length_cons, List.length_append] at hsize ⊢
      omega
    · intro id
      rw [announced, List.flatMap_singleton, Pat.lastOf_append, or_or_self]
    · intro units
      rw [awaited_none]
      rfl

theorem Collecting.unit (fresh : Nat → UInt8) (h : Collecting known pat rest w) (unit : PatUnit)
    (hfollows : unit.Follows rest) (hsize : (unit.payload rest).1.bytes.length ≤ 184) :
    ∃ pat' w' news, Parsed fresh known pat pat' rest unit w w' news := by
  cases unit with
  | middle n =>
    obtain ⟨pat', hparsed⟩ := h.middle hfollows hsize
    exact ⟨pat', _, _, hparsed⟩
  | finish stuffing =>
    obtain ⟨pat', hparsed⟩ := h.finish hfollows hsize
    exact ⟨pat', _, _, hparsed⟩
  | start whole stuffing =>
    obtain ⟨pat', hparsed⟩ := Collecting.start hfollows hsize
    exact ⟨pat', _, _, hparsed⟩
  | cut whole last n => exact Collecting.cut hfollows hsize

/-- The table tracks the sections that are collected. -/
theorem feed_collecting (fresh : Nat → UInt8) (units : List PatUnit)
    (hpat : Collecting known pat rest w) (htracks : Pat.Tracks known pat.progs)
    (hcarried : Carried rest units) :
    ∃ pat', feedPat fresh (unitPayloads rest units) pat = some pat' ∧
      Pat.Tracks (known ++ announced (awaited units w ++ collected units)) pat'.progs := by
  induction units generalizing known pat rest w with
  | nil =>
    cases hcarried
    refine ⟨pat, rfl, ?_⟩
    have hnil : awaited [] w ++ collected [] = [] := rfl
    rw [hnil]
    exact tracks_nil htracks
  | cons unit units ih =>
    obtain ⟨hfollows, hsize, hcarried⟩ := hcarried
    obtain ⟨pat', w', news, hparsed⟩ := hpat.unit fresh unit hfollows hsize
    obtain ⟨pat'', hfeed, htracks'⟩ := ih hparsed.collecting (hparsed.tracks htracks) hcarried
    obtain ⟨r, hparse⟩ := hparsed.parse
    refine ⟨pat'', ?_, ?_⟩
    · unfold unitPayloads feedPat
      rw [hparse]
      exact hfeed
    · have hnews : announced (news ++ (awaited units w' ++ collected units)) =
          announced news ++ announced (awaited units w' ++ collected units) :=
        List.flatMap_append
      rw [hparsed.sections, hnews, ← List.append_assoc]
      exact htracks'

theorem feed_collected (fresh : Nat → UInt8) (units : List PatUnit) (hcarried : Carried [] units) :
    ∃ pat, feedPat fresh (unitPayloads [] units) .empty = some pat ∧
      Pat.Tracks (announced (collected units)) pat.progs := by
  have hempty : Pat.Tracks [] Pat.empty.progs :=
    ⟨by decide, .inl ⟨List.nodup_nil, fun _ => rfl⟩⟩
  obtain ⟨pat, hfeed, htracks⟩ := feed_collecting fresh units .idle hempty hcarried
  rw [awaited_none] at htracks
  exact ⟨pat, hfeed, htracks⟩

/-- The table has the last announcement of each program that is announced. -/
def Tabulates (pat : Pat) (fs : List PatSection) : Prop :=
  ∀ id prog, Pat.lastOf (announced fs) id = some prog → Pat.lookup pat.progs id = some prog

/-- The sections that are collected are some of those that begin. -/
theorem collected_subset (units : List PatUnit) :
    collected units ⊆ units.flatMap PatUnit.sections := by
  induction units with
  | nil => exact List.Subset.refl _
  | cons unit units ih =>
    rw [List.flatMap_cons]
    have hmore := List.subset_append_of_subset_right unit.sections ih
    cases unit with
    | middle n => exact hmore
    | finish stuffing => exact hmore
    | start whole stuffing =>
      refine List.append_subset.2 ⟨fun f hf => List.mem_append_left _ ?_, hmore⟩
      exact List.mem_of_mem_head? (Option.mem_toList.1 hf)
    | cut whole last n =>
      cases whole with
      | cons f whole => exact List.cons_subset.2 ⟨List.mem_cons_self, hmore⟩
      | nil =>
        unfold collected
        split
        · exact List.cons_subset.2 ⟨List.mem_cons_self, hmore⟩
        · exact hmore

theorem lastOf_isSome_of_subset {fs gs : List PatSection} (h : fs ⊆ gs) {id : UInt16}
    (hlast : (Pat.lastOf (announced fs) id).isSome) : (Pat.lastOf (announced gs) id).isSome := by
  obtain ⟨prog, hprog, hid⟩ := List.find?_isSome.1 hlast
  obtain ⟨f, hf, hprog⟩ := List.mem_flatMap.1 (List.mem_reverse.1 hprog)
  exact List.find?_isSome.2 ⟨prog, List.mem_reverse.2 (List.mem_flatMap.2 ⟨f, h hf, hprog⟩), hid⟩

/-- Payloads are collected inside of the buffer.  The table has the last announcements if and only
if these are the last ones in the sections that are collected, and some program number is not
announced there: `progs_cnt` cannot count all of them. -/
theorem pat_tabulates_iff (fresh : Nat → UInt8) :
    (∀ payloads, (feedPat fresh payloads .empty).isSome) ∧
      ∀ units, Carried [] units →
        ∃ pat, feedPat fresh (unitPayloads [] units) .empty = some pat ∧
          (Tabulates pat (units.flatMap PatUnit.sections) ↔
            (∀ id prog, Pat.lastOf (announced (units.flatMap PatUnit.sections)) id = some prog →
              Pat.lastOf (announced (collected units)) id = some prog) ∧
            ∃ id, Pat.lastOf (announced (collected units)) id = none) := by
  constructor
  · exact fun payloads => feedPat_ok fresh payloads (.inl rfl)
  · intro units hcarried
    obtain ⟨pat, hfeed, htracks⟩ := feed_collected fresh units hcarried
    refine ⟨pat, hfeed, ?_⟩
    have hlookup : ∀ {id}, Pat.lastOf (announced (collected units)) id = none →
        ∀ id, Pat.lookup pat.progs id = Pat.lastOf (announced (collected units)) id := by
      intro id hnone
      rcases htracks.entries with ⟨-, heq⟩ | hall
      · exact heq
      · have hsome := hall id
        rw [hnone] at hsome
        cases hsome
    constructor
    · intro h
      obtain ⟨id, hnone⟩ : ∃ id, Pat.lastOf (announced (collected units)) id = none := by
        by_contra hall
        obtain ⟨id, hnone⟩ := htracks.lookup_none
        have hsome := lastOf_isSome_of_subset (collected_subset units)
          (Option.isSome_iff_ne_none.2 fun hid => hall ⟨id, hid⟩)
        obtain ⟨prog, hprog⟩ := Option.isSome_iff_exists.1 hsome
        cases hnone.symm.trans (h id prog hprog)
      refine ⟨fun id' prog hlast => ?_, id, hnone⟩
      rw [← hlookup hnone]
      exact h id' prog hlast
    · rintro ⟨h, id, hnone⟩ id' prog hlast
      rw [hlookup hnone]
      exact h id' prog hlast

/-- A section that announces one program. -/
def onePat (prog : PatProgs) (hpid : prog.pmtPid.toNat < 0x2000) : PatSection where
  tsId := 1
  version := 0xc1
  sectionNumber := 0
  lastSectionNumber := 0
  programs := [prog]
  crc := 0
  pid_lt := by
    intro p hp
    rw [List.mem_singleton.1 hp]
    exact hpid
  size_le := Nat.le_of_ble_eq_true rfl

def firstPat : PatSection := onePat ⟨1, 0x100⟩ (by decide)

def secondPat : PatSection := onePat ⟨2, 0x200⟩ (by decide)

theorem pat_tabulates_one :
    ∃ pat, feedPat (fun _ => 0) (unitPayloads [] [.start [firstPat] 3]) .empty = some pat ∧
      Tabulates pat [firstPat] := by
  obtain ⟨pat, hfeed, htabulates⟩ := (pat_tabulates_iff fun _ => 0).2 [.start [firstPat] 3]
    ⟨List.cons_ne_nil _ _, by decide, rfl⟩
  exact ⟨pat, hfeed, htabulates.2 ⟨fun _ _ h => h, 2, by decide⟩⟩

/-- Of two sections that begin in one payload the second one is lost. -/
theorem pat_not_tabulated :
    ∃ pat, feedPat (fun _ => 0) (unitPayloads [] [.start [firstPat, secondPat] 0]) .empty =
        some pat ∧
      ¬Tabulates pat [firstPat, secondPat] := by
  obtain ⟨pat, hfeed, htracks⟩ := feed_collected (fun _ => 0)
    [.start [firstPat, secondPat] 0] ⟨List.cons_ne_nil _ _, by decide, rfl⟩
  refine ⟨pat, hfeed, fun h => ?_⟩
  have hsecond := h 2 ⟨2, 0x200⟩ (by decide)
  rcases htracks.entries with ⟨-, heq⟩ | hall
  · rw [heq] at hsecond
    exact absurd hsecond (by decide)
  · exact absurd (hall 2) (by decide)

end MPlayer
