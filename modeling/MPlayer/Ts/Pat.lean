import MPlayer.Lib.Upsert
import MPlayer.Ts.Section

/-!
# The program association table

`parse_pat` collects the sections of PID 0, and enters the programs that a section announces into
the table of programs.
-/

namespace MPlayer

open Lib

/-- `struct pat_progs_t`. -/
structure PatProgs where
  id : UInt16
  pmtPid : UInt16
  deriving DecidableEq

/-- `pat_t`. -/
structure Pat where
  tableId : UInt8
  ssi : UInt8
  currNext : UInt8
  tsId : UInt16
  versionNumber : UInt8
  sectionLength : UInt16
  sectionNumber : UInt8
  lastSectionNumber : UInt8
  progs : List PatProgs
  tsSection : TsSection

namespace Pat

/-- Before anything was read. -/
def empty : Pat := ⟨0, 0, 0, 0, 0, 0, 0, 0, [], .empty⟩

/-- A number of two bytes. -/
def word (hi lo : UInt8) : UInt16 := hi.toUInt16 <<< 8 ||| lo.toUInt16

/-- The header of the section that begins at `skip`. -/
def readHeader (pat : Pat) (skip : Nat) : Option Pat := do
  let b1 ← pat.tsSection.get (skip + 1)
  let b2 ← pat.tsSection.get (skip + 2)
  let b3 ← pat.tsSection.get (skip + 3)
  let b4 ← pat.tsSection.get (skip + 4)
  let b5 ← pat.tsSection.get (skip + 5)
  let b6 ← pat.tsSection.get (skip + 6)
  let b7 ← pat.tsSection.get (skip + 7)
  some { pat with
    ssi := (b1 >>> 7) &&& 0x1
    currNext := b5 &&& 0x01
    tsId := word b3 b4
    versionNumber := (b5 >>> 1) &&& 0x1f
    sectionLength := word (b1 &&& 0x03) b2
    sectionNumber := b6
    lastSectionNumber := b7 }

/-- The entry of a program that is announced.  `progs_cnt` has 16 bits. -/
def enter (progs : List PatProgs) (prog : PatProgs) : List PatProgs :=
  let entered := upsert (·.id == prog.id) (fun _ => prog) progs
  if entered.length = 65536 then [] else entered

/-- The program at `base`. -/
def readProg (s : TsSection) (base : Nat) : Option PatProgs := do
  let b0 ← s.get base
  let b1 ← s.get (base + 1)
  let b2 ← s.get (base + 2)
  let b3 ← s.get (base + 3)
  some ⟨word b0 b1, word (b2 &&& 0x1f) b3⟩

/-- The loop over the programs of a section. -/
def enterProgs (s : TsSection) : Nat → Nat → List PatProgs → Option (List PatProgs)
  | 0, _, progs => some progs
  | entries + 1, base, progs => do
    let prog ← readProg s base
    enterProgs s entries (base + 4) (enter progs prog)

end Pat

/-- `parse_pat`. -/
def parsePat (fresh : Nat → UInt8) (pat : Pat) (isStart : Bool) (buff : List UInt8) :
    Option (Nat × Pat) := do
  let (skip, s) ← collectSection fresh pat.tsSection isStart buff
  let pat := { pat with tsSection := s }
  if skip = 0 then some (0, pat)
  else do
    let tableId ← s.get skip
    let pat := { pat with tableId := tableId }
    if tableId ≠ 0 then some (0, pat)
    else do
      let pat ← pat.readHeader skip
      let entries := (pat.sectionLength.toNat - 9) / 4
      let progs ← Pat.enterProgs s entries (skip + 8) pat.progs
      some (1, { pat with progs := progs })

/-- A payload of PID 0, and whether a section begins in it. -/
structure PatPayload where
  isStart : Bool
  bytes : List UInt8

/-- The table after payloads were fed in their order. -/
def feedPat (fresh : Nat → UInt8) : List PatPayload → Pat → Option Pat
  | [], pat => some pat
  | payload :: payloads, pat => do
    let (_, pat) ← parsePat fresh pat payload.isStart payload.bytes
    feedPat fresh payloads pat

end MPlayer
