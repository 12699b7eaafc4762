import MPlayer.Spu.Control
import MPlayer.Spu.Reassembly

/-!
# Control sequences stay inside the packet

The assembler checks the pointers of the control blocks, but not their commands.  Their reading
stays inside the packet exactly if each block ends with a byte that isn't a command.
-/

namespace MPlayer.Spu

open Lib

/-! ## Blocks -/

/-- The number of bytes behind a command. -/
def argumentBytes (type : UInt8) : Nat :=
  if type = 0x03 ∨ type = 0x04 then 2 else if type = 0x05 then 6 else if type = 0x06 then 4 else 0

/-- Complete commands and a byte that isn't one. -/
inductive Closed : List UInt8 → Prop where
  | stop {type : UInt8} {rest : List UInt8} : 6 < type → Closed (type :: rest)
  | command {type : UInt8} {args rest : List UInt8} : type ≤ 6 → args.length = argumentBytes type →
      Closed rest → Closed (type :: (args ++ rest))

/-- The blocks that the pointers lead to from a block on. -/
inductive Visits (p : List UInt8) : Nat → Nat → Prop where
  | here {x : Nat} : Visits p x x
  | next {x y : Nat} : word p (x + 2) ≠ x → Visits p (word p (x + 2)) y → Visits p x y

/-- Every control block of a packet is closed. -/
def BlocksClosed (p : List UInt8) : Prop := ∀ x, Visits p (word p 2) x → Closed (p.drop (x + 4))

/-! ## Commands -/

variable {i : Nat}

theorem getBe24_ok {p : List UInt8} (h : i + 2 < p.length) : ∃ n, getBe24 p i = .ok n := by
  unfold getBe24
  rw [getBe16_ok (Nat.lt_of_succ_lt h), fetch_getD h]
  exact ⟨_, rfl⟩

theorem getBe24_error {p : List UInt8} (h : p.length ≤ i + 2) : getBe24 p i = .error .bounds := by
  unfold getBe24
  by_cases hi : i + 1 < p.length
  · rw [getBe16_ok hi, fetch_error h]
    rfl
  · rw [getBe16_error (Nat.le_of_not_lt hi)]
    rfl

theorem getNibbles_ok {p : List UInt8} (h : i + 1 < p.length) : ∃ v, getNibbles p i = .ok v := by
  unfold getNibbles
  rw [fetch_getD (Nat.lt_of_succ_lt h), fetch_getD h]
  exact ⟨_, rfl⟩

theorem getNibbles_error {p : List UInt8} (h : p.length ≤ i + 1) :
    getNibbles p i = .error .bounds := by
  unfold getNibbles
  by_cases hi : i < p.length
  · rw [fetch_getD hi, fetch_error h]
    rfl
  · rw [fetch_error (Nat.le_of_not_lt hi)]
    rfl

section Commands

variable {p : List UInt8} {pts100 : Int} {date off : Nat} {s : Handle × Locals} {type : UInt8}

theorem command_cases : ∀ type : UInt8, type ≤ 6 → type = 0 ∨ type = 1 ∨ type = 2 ∨ type = 3 ∨
    type = 4 ∨ type = 5 ∨ type = 6 := by
  intro type h
  have hle : type.toNat ≤ 6 := h
  simp only [← UInt8.toNat_inj, UInt8.reduceToNat]
  omega

theorem command_stop (p : List UInt8) (pts100 : Int) (date off : Nat) (s : Handle × Locals)
    (h : 6 < type) : ∃ t, command p pts100 date off s type = .ok (.leave t) := by
  have hlt : 6 < type.toNat := h
  unfold command
  split
  · exact ⟨_, rfl⟩
  · split
    case h_8 => exact ⟨_, rfl⟩
    all_goals omega

/-- A command with all its arguments goes on behind them. -/
theorem command_complete (pts100 : Int) (date : Nat) (s : Handle × Locals) (h : type ≤ 6)
    (hlen : off + argumentBytes type ≤ p.length) :
    ∃ t, command p pts100 date off s type = .ok (.again (off + argumentBytes type, t)) := by
  obtain rfl | rfl | rfl | rfl | rfl | rfl | rfl := command_cases type h
  · exact ⟨_, rfl⟩
  · exact ⟨_, rfl⟩
  · exact ⟨_, rfl⟩
  · obtain ⟨v, hv⟩ := getNibbles_ok (p := p) (i := off) hlen
    refine ⟨({ s.1 with palette := v }, s.2), ?_⟩
    change getNibbles p off >>= _ = _
    rw [hv]
    rfl
  · obtain ⟨v, hv⟩ := getNibbles_ok (p := p) (i := off) hlen
    refine ⟨setAlpha v s, ?_⟩
    change getNibbles p off >>= _ = _
    rw [hv]
    rfl
  · have hsix : off + 6 ≤ p.length := hlen
    obtain ⟨a, ha⟩ := getBe24_ok (p := p) (i := off) (by omega)
    obtain ⟨b, hb⟩ := getBe24_ok (p := p) (i := off + 3) hsix
    refine ⟨(s.1, setCoords a b s.2), ?_⟩
    change getBe24 p off >>= _ = _
    rw [ha, ok_bind, hb]
    rfl
  · have hfour : off + 4 ≤ p.length := hlen
    refine ⟨(s.1, { s.2 with currentNibble := ![2 * word p off, 2 * word p (off + 2)] }), ?_⟩
    change getBe16 p off >>= _ = _
    rw [getBe16_ok (by omega), ok_bind, getBe16_ok hfour]
    rfl

/-- A command whose arguments go on behind the packet. -/
theorem command_truncated (h : type ≤ 6) (hoff : off ≤ p.length)
    (hlen : p.length < off + argumentBytes type) :
    command p pts100 date off s type = .error .bounds := by
  obtain rfl | rfl | rfl | rfl | rfl | rfl | rfl := command_cases type h
  · exact absurd hlen (Nat.not_lt_of_le hoff)
  · exact absurd hlen (Nat.not_lt_of_le hoff)
  · exact absurd hlen (Nat.not_lt_of_le hoff)
  · change getNibbles p off >>= _ = _
    rw [getNibbles_error (Nat.le_of_lt_succ hlen)]
    rfl
  · change getNibbles p off >>= _ = _
    rw [getNibbles_error (Nat.le_of_lt_succ hlen)]
    rfl
  · have hsix : p.length < off + 6 := hlen
    change getBe24 p off >>= _ = _
    by_cases ha : off + 2 < p.length
    · obtain ⟨a, ha⟩ := getBe24_ok ha
      rw [ha, ok_bind, getBe24_error (Nat.le_of_lt_succ hsix)]
      rfl
    · rw [getBe24_error (Nat.le_of_not_lt ha)]
      rfl
  · have hfour : p.length < off + 4 := hlen
    change getBe16 p off >>= _ = _
    by_cases ha : off + 1 < p.length
    · rw [getBe16_ok ha, ok_bind, getBe16_error (Nat.le_of_lt_succ hfour)]
      rfl
    · rw [getBe16_error (Nat.le_of_not_lt ha)]
      rfl

theorem Closed.cons_iff {type : UInt8} {rest : List UInt8} (h : type ≤ 6) :
    Closed (type :: rest) ↔ argumentBytes type ≤ rest.length ∧
      Closed (rest.drop (argumentBytes type)) := by
  constructor
  · intro hclosed
    cases hclosed with
    | stop hstop => exact absurd h (UInt8.not_le.mpr hstop)
    | command _ hargs hrest =>
      rw [← hargs, List.drop_left, List.length_append]
      exact ⟨Nat.le_add_right _ _, hrest⟩
  · rintro ⟨hlen, hrest⟩
    rw [← List.take_append_drop (argumentBytes type) rest]
    exact .command h (List.length_take_of_le hlen) hrest

/-- The loop over the commands ends inside the packet exactly if they are closed. -/
theorem commandLoop_ok_iff (pts100 : Int) (date : Nat) (s : Handle × Locals) {n : Nat}
    (hn : p.length < off + n) (hoff : off ≤ p.length) :
    (∃ t, loop (commandTurn p pts100 date) n (off, s) = .ok t) ↔ Closed (p.drop off) := by
  induction n generalizing off s with
  | zero => omega
  | succ n ih =>
    rw [loop]
    unfold commandTurn
    by_cases hend : off = p.length
    · have hdrop : p.drop off = [] := List.drop_eq_nil_iff.mpr (Nat.le_of_eq hend.symm)
      rw [fetch_error (Nat.le_of_eq hend.symm), hdrop]
      constructor
      · rintro ⟨_, h⟩
        cases h
      · intro h
        cases h
    · have hlt : off < p.length := Nat.lt_of_le_of_ne hoff hend
      have hdrop : p.drop off = p.getD off 0 :: p.drop (off + 1) := by
        rw [List.getD_eq_getElem?_getD, List.getElem?_eq_getElem hlt, Option.getD_some]
        exact List.drop_eq_getElem_cons hlt
      rw [fetch_getD hlt, ok_bind, hdrop]
      generalize p.getD off 0 = type
      by_cases htype : type ≤ 6
      · rw [Closed.cons_iff htype, List.length_drop, List.drop_drop]
        by_cases hlen : off + 1 + argumentBytes type ≤ p.length
        · obtain ⟨t, ht⟩ := command_complete pts100 date s htype hlen
          rw [ht, ok_bind]
          refine (ih t (by omega) hlen).trans ?_
          exact ⟨fun h => ⟨by omega, h⟩, fun h => h.2⟩
        · rw [command_truncated htype hlt (by omega)]
          constructor
          · rintro ⟨_, h⟩
            cases h
          · intro h
            omega
      · have hstop : 6 < type := UInt8.not_le.mp htype
        obtain ⟨t, ht⟩ := command_stop p pts100 date (off + 1) s hstop
        rw [ht]
        exact ⟨fun _ => .stop hstop, fun _ => ⟨t, rfl⟩⟩

theorem commands_ok_iff (pts100 : Int) (date : Nat) (s : Handle × Locals) (hoff : off ≤ p.length) :
    (∃ t, commands p pts100 date off s = .ok t) ↔ Closed (p.drop off) := by
  rw [← commandLoop_ok_iff pts100 date s (n := p.length + 1) (by omega) hoff]
  unfold commands
  constructor
  · rintro ⟨t, ht⟩
    obtain ⟨u, hu, -⟩ := bind_ok_iff.mp ht
    exact ⟨u, hu⟩
  · rintro ⟨t, ht⟩
    rw [ht]
    exact ⟨t.2, rfl⟩

end Commands

/-! ## Blocks -/

section Loop

variable {p : List UInt8} {pts100 : Int} {controlStart start x last : Nat} {s : Handle × Locals}

theorem displayEnd_ok (pts100 : Int) (start : Nat) (v : Locals) {nextOff : Nat}
    (h : nextOff + 1 < p.length) :
    ∃ endPts, displayEnd p pts100 start nextOff v = .ok endPts := by
  unfold displayEnd
  split
  · rw [getBe16_ok h]
    exact ⟨_, rfl⟩
  · exact ⟨_, rfl⟩

theorem endBlock_ok (pts100 : Int) (controlStart start : Nat) (s : Handle × Locals) {nextOff : Nat}
    (h : nextOff + 1 < p.length) :
    ∃ t, endBlock p pts100 controlStart start nextOff s = .ok t := by
  obtain ⟨endPts, hend⟩ := displayEnd_ok pts100 start s.2 h
  unfold endBlock
  split
  · rw [hend]
    exact ⟨_, rfl⟩
  · exact ⟨_, rfl⟩

theorem blockTurn_leave :
    blockTurn p pts100 controlStart ((x, x), s) = .ok (.leave ((x, x), s)) := by
  unfold blockTurn
  dsimp only
  rw [if_pos rfl]
  rfl

theorem blockTurn_eq (hne : start ≠ x) (hx : x + 4 ≤ p.length) :
    blockTurn p pts100 controlStart ((start, x), s) = (do
      let s ← commands p pts100 (word p x * 1024) (x + 4) s
      let s ← endBlock p pts100 controlStart x (word p (x + 2)) s
      return .again ((x, word p (x + 2)), s)) := by
  unfold blockTurn
  dsimp only
  rw [if_neg hne, getBe16_ok (by omega), ok_bind, getBe16_ok (by omega), ok_bind]

/-- A turn ends inside the packet exactly if the block is closed. -/
theorem blockTurn_closed (pts100 : Int) (controlStart : Nat) (s : Handle × Locals) (hne : start ≠ x)
    (hx : x + 4 ≤ p.length)
    (hnext : word p (x + 2) + 1 < p.length) (hclosed : Closed (p.drop (x + 4))) :
    ∃ t, blockTurn p pts100 controlStart ((start, x), s) =
      .ok (.again ((x, word p (x + 2)), t)) := by
  obtain ⟨t, ht⟩ := (commands_ok_iff pts100 (word p x * 1024) s hx).mpr hclosed
  obtain ⟨u, hu⟩ := endBlock_ok pts100 controlStart x t hnext
  refine ⟨u, ?_⟩
  rw [blockTurn_eq hne hx, ht, ok_bind, hu]
  rfl

theorem blockTurn_open (pts100 : Int) (controlStart : Nat) (s : Handle × Locals) (hne : start ≠ x)
    (hx : x + 4 ≤ p.length) (hopen : ¬Closed (p.drop (x + 4))) :
    ∃ e, blockTurn p pts100 controlStart ((start, x), s) = .error e := by
  rw [blockTurn_eq hne hx]
  cases hcommands : commands p pts100 (word p x * 1024) (x + 4) s with
  | error e => exact ⟨e, rfl⟩
  | ok t => exact absurd ((commands_ok_iff _ _ _ hx).mp ⟨t, hcommands⟩) hopen

/-- The loop over a chain of blocks ends inside the packet exactly if all of them are closed. -/
theorem blockLoop_ok_iff (pts100 : Int) (controlStart : Nat) (s : Handle × Locals) {n : Nat}
    (h : ChainTo p x last) (hne : start ≠ x) (hn : p.length < x + n) :
    (∃ t, loop (blockTurn p pts100 controlStart) n ((start, x), s) = .ok t) ↔
      ∀ y, Visits p x y → Closed (p.drop (y + 4)) := by
  have hx := h.first
  induction h generalizing n start s with
  | @self x _ hself =>
    obtain ⟨n, rfl⟩ : ∃ m, n = m + 2 := ⟨n - 2, by omega⟩
    have hvisits : (∀ y, Visits p x y → Closed (p.drop (y + 4))) ↔ Closed (p.drop (x + 4)) := by
      constructor
      · exact fun hall => hall x .here
      · intro hclosed y hy
        cases hy with
        | here => exact hclosed
        | next hmoves _ => exact absurd hself hmoves
    rw [hvisits]
    by_cases hclosed : Closed (p.drop (x + 4))
    · obtain ⟨t, ht⟩ := blockTurn_closed pts100 controlStart s hne hx (by omega) hclosed
      rw [hself] at ht
      rw [loop_again ht, loop_leave blockTurn_leave]
      exact ⟨fun _ => hclosed, fun _ => ⟨_, rfl⟩⟩
    · obtain ⟨e, he⟩ := blockTurn_open pts100 controlStart s hne hx hclosed
      rw [loop_error he]
      refine ⟨?_, fun h => absurd h hclosed⟩
      rintro ⟨_, h⟩
      cases h
  | @next x last _ hlt hrest ih =>
    obtain ⟨n, rfl⟩ : ∃ m, n = m + 1 := ⟨n - 1, by omega⟩
    have hnext := hrest.first
    have hvisits : (∀ y, Visits p x y → Closed (p.drop (y + 4))) ↔ Closed (p.drop (x + 4)) ∧
        ∀ y, Visits p (word p (x + 2)) y → Closed (p.drop (y + 4)) := by
      constructor
      · exact fun hall => ⟨hall x .here, fun y hy => hall y (.next (Nat.ne_of_gt hlt) hy)⟩
      · rintro ⟨hfirst, hall⟩ y hy
        cases hy with
        | here => exact hfirst
        | next _ hy => exact hall y hy
    rw [hvisits]
    by_cases hclosed : Closed (p.drop (x + 4))
    · obtain ⟨t, ht⟩ := blockTurn_closed pts100 controlStart s hne hx (by omega) hclosed
      rw [loop_again ht]
      refine (ih t (Nat.ne_of_lt hlt) (by omega) hnext).trans ?_
      exact ⟨fun hall => ⟨hclosed, hall⟩, fun hall => hall.2⟩
    · obtain ⟨e, he⟩ := blockTurn_open pts100 controlStart s hne hx hclosed
      rw [loop_error he]
      refine ⟨?_, fun h => absurd h.1 hclosed⟩
      rintro ⟨_, h⟩
      cases h

end Loop

/-- The run on a packet with a chain of blocks ends inside it exactly if they are closed. -/
theorem processControl_ok_iff {p : List UInt8} {last : Nat} (h : ChainTo p 0 last)
    (hlast : 4 ≤ last)
    (handle : Handle) (pts100 : Int) :
    (∃ handle', processControl handle p pts100 = .ok handle') ↔ BlocksClosed p := by
  cases h with
  | self => exact absurd hlast (by decide)
  | next hx hlt hrest =>
    rw [BlocksClosed, ← blockLoop_ok_iff pts100 (word p 2) (handle, Locals.init)
      (n := p.length + 2) hrest
      (Nat.ne_of_lt hlt) (by omega)]
    unfold processControl
    rw [getBe16_ok (by omega), ok_bind]
    constructor
    · rintro ⟨t, ht⟩
      obtain ⟨u, hu, -⟩ := bind_ok_iff.mp ht
      exact ⟨u, hu⟩
    · rintro ⟨t, ht⟩
      rw [ht]
      exact ⟨t.2.1, rfl⟩

/-! ## Assembled packets -/

namespace Assembler

/-- A packet that is being assembled fits in its memory. -/
structure Fits (spu : Assembler) : Prop where
  offset : spu.packetOffset ≠ 0 → spu.packetOffset ≤ spu.packetSize
  size : spu.packetOffset ≠ 0 → spu.packetSize ≤ spu.memory.length
  length_lt : spu.memory.length < 2 ^ 16

theorem init_fits : init.Fits := ⟨fun h => absurd rfl h, fun h => absurd rfl h, by decide⟩

variable {spu t : Assembler}

/-- Between two packets, any memory fits. -/
theorem Fits.between (h0 : spu.packetOffset = 0) (hlt : spu.memory.length < 2 ^ 16) :
    spu.Fits := ⟨fun h => absurd h0 h, fun h => absurd h0 h, hlt⟩

theorem word_lt (p : List UInt8) (i : Nat) : word p i < 2 ^ 16 := by
  have hhi := (p.getD i 0).toNat_lt
  have hlo := (p.getD (i + 1) 0).toNat_lt
  unfold word
  omega

theorem reserve_spec (spu : Assembler) {len2 : Nat} (malloc : Malloc) (hlt : len2 < 2 ^ 16)
    (hmemory : spu.memory.length < 2 ^ 16) :
    (spu.reserve len2 malloc).packetOffset = spu.packetOffset ∧
      (spu.reserve len2 malloc).memory.length < 2 ^ 16 ∧
      ∀ memory, (spu.reserve len2 malloc).packet = some memory → len2 ≤ memory.length := by
  unfold reserve
  split
  · refine ⟨rfl, ?_, fun memory hget => Nat.le_of_eq (malloc.length_eq hget).symm⟩
    cases hget : malloc.get len2 with
    | none => exact Nat.two_pow_pos 16
    | some memory =>
      change memory.length < _
      rw [malloc.length_eq hget]
      exact hlt
  · next hroom =>
    refine ⟨rfl, hmemory, fun memory hpacket => ?_⟩
    rw [packetReserve, Assembler.memory, hpacket] at hroom
    exact Nat.le_of_not_lt hroom

theorem copyIn_length {memory packet copied : List UInt8} {off : Nat}
    (h : copyIn memory off packet = .ok copied) :
    off + packet.length ≤ memory.length ∧ copied.length = memory.length := by
  by_cases hfits : off + packet.length ≤ memory.length
  · obtain ⟨_, hcopied, hlen, -⟩ := copyIn_ok _ _ _ hfits
    cases h.symm.trans hcopied
    exact ⟨hfits, hlen⟩
  · rw [copyIn_error (Nat.lt_of_not_le hfits)] at h
    cases h

theorem Fits.collect {f : Fragment} {complete : Bool} (h : spu.Fits) (hf : 2 ≤ f.packet.length)
    (ht : spu.collect f = .ok (t, complete)) : t.Fits := by
  have hlt := h.length_lt
  unfold Assembler.collect at ht
  dsimp only at ht
  split at ht
  · next h0 =>
    rw [getBe16_ok hf, ok_bind] at ht
    obtain ⟨hoffset, hmemory, hroom⟩ := reserve_spec { spu with packetPts := f.pts100 } f.malloc
      (word_lt f.packet 0) hlt
    split at ht
    · cases ht
      exact .between (hoffset.trans h0) hmemory
    · next memory hpacket =>
      split at ht
      · cases ht
        exact .between (hoffset.trans h0) hmemory
      · next hle =>
        obtain ⟨copied, hcopy, ht⟩ := bind_ok_iff.mp ht
        have hlen := (copyIn_length hcopy).2
        rw [Assembler.memory, hpacket, Option.getD_some] at hmemory
        cases ht
        have hsize : word f.packet 0 ≤ copied.length := hlen ▸ hroom memory hpacket
        exact ⟨fun _ => Nat.le_of_not_lt hle, fun _ => hsize, hlen ▸ hmemory⟩
  · next h0 =>
    split at ht
    · cases ht
      exact .between rfl hlt
    · next hle =>
      obtain ⟨copied, hcopy, ht⟩ := bind_ok_iff.mp ht
      obtain ⟨hfits, hlen⟩ := copyIn_length hcopy
      change spu.packetOffset + f.packet.length ≤ spu.memory.length at hfits
      change copied.length = spu.memory.length at hlen
      cases ht
      rw [Nat.mod_eq_of_lt (by omega)] at hle
      have hsize : spu.packetSize ≤ copied.length := hlen ▸ h.size h0
      exact ⟨fun _ => Nat.le_of_not_lt hle, fun _ => hsize, hlen ▸ hlt⟩

theorem Fits.finish {decoded : Option (List UInt8)} (h : spu.Fits)
    (ht : spu.finish = .ok (t, decoded)) :
    t.Fits ∧ ∀ p, decoded = some p → ∃ last, 4 ≤ last ∧ ChainTo p 0 last := by
  unfold Assembler.finish at ht
  split at ht
  · obtain ⟨verdict, hwalk, ht⟩ := bind_ok_iff.mp ht
    cases verdict with
    | got =>
      cases ht
      refine ⟨.between rfl h.length_lt, ?_⟩
      rintro _ ⟨⟩
      obtain ⟨last, hloop⟩ := walk_eq_got_iff.mp hwalk
      by_cases h0 : spu.packetOffset = 0
      · obtain ⟨last, hchain, -⟩ := walk_chain hloop (h0 ▸ Nat.zero_le _)
        have hfirst := hchain.first
        rw [h0, List.take_zero] at hfirst
        exact absurd hfirst (by decide)
      · have hoff := h.offset h0
        have hsize := h.size h0
        obtain ⟨last, hchain, hlast⟩ := walk_chain hloop (Nat.le_trans hoff hsize)
        refine ⟨last, hlast, hchain.mono ?_ fun i hi => ?_⟩
        · rw [List.length_take_of_le hsize, List.length_take_of_le (Nat.le_trans hoff hsize)]
          exact hoff
        · rw [List.length_take_of_le (Nat.le_trans hoff hsize)] at hi
          rw [word_take (Nat.lt_of_lt_of_le hi hoff), word_take hi]
    | broken =>
      cases ht
      exact ⟨.between rfl h.length_lt, nofun⟩
    | ended =>
      cases ht
      exact ⟨.between rfl h.length_lt, nofun⟩
  · cases ht
    exact ⟨h, nofun⟩

/-- Every packet that the assembler gives has a chain of control blocks. -/
theorem Fits.assemble {f : Fragment} {decoded : Option (List UInt8)} (h : spu.Fits)
    (ht : spu.assemble f = .ok (t, decoded)) :
    t.Fits ∧ ∀ p, decoded = some p → ∃ last, 4 ≤ last ∧ ChainTo p 0 last := by
  unfold Assembler.assemble at ht
  split at ht
  · cases ht
    exact ⟨h, nofun⟩
  · next hf =>
    obtain ⟨⟨u, complete⟩, hcollect, ht⟩ := bind_ok_iff.mp ht
    have hu := h.collect (Nat.le_of_not_lt hf) hcollect
    cases complete with
    | true => exact hu.finish ht
    | false =>
      cases ht
      exact ⟨hu, nofun⟩

end Assembler

/-! ## Runs -/

/-- Whenever a packet is decoded, the run on it ends inside the packet.  Each fragment comes with
what the rest of the handle is then.  Behind an access outside of the assembler's memory there is no
more to say. -/
def ControlSafe : List (Fragment × Handle) → Assembler → Prop
  | [], _ => True
  | (f, handle) :: fs, spu =>
    match spu.assemble f with
    | .error _ => True
    | .ok (spu, none) => ControlSafe fs spu
    | .ok (spu, some p) =>
      (∃ handle', processControl handle p f.pts100 = .ok handle') ∧ ControlSafe fs spu

/-- Every control block of the packets that are decoded is closed. -/
def AllClosed : List (Fragment × Handle) → Assembler → Prop
  | [], _ => True
  | (f, _) :: fs, spu =>
    match spu.assemble f with
    | .error _ => True
    | .ok (spu, none) => AllClosed fs spu
    | .ok (spu, some p) => BlocksClosed p ∧ AllClosed fs spu

theorem controlSafe_iff {fs : List (Fragment × Handle)} {spu : Assembler} (h : spu.Fits) :
    ControlSafe fs spu ↔ AllClosed fs spu := by
  induction fs generalizing spu with
  | nil => exact Iff.rfl
  | cons f fs ih =>
    obtain ⟨f, handle⟩ := f
    unfold ControlSafe AllClosed
    cases hspu : spu.assemble f with
    | error e => exact Iff.rfl
    | ok t =>
      obtain ⟨t, decoded⟩ := t
      obtain ⟨ht, hchain⟩ := h.assemble hspu
      cases decoded with
      | none => exact ih ht
      | some p =>
        obtain ⟨last, hlast, hp⟩ := hchain p rfl
        exact and_congr (processControl_ok_iff hp hlast handle f.pts100) (ih ht)

/-- Control sequences are read inside their packets exactly if all the blocks are closed. -/
theorem control_safe_iff (fs : List (Fragment × Handle)) :
    ControlSafe fs .init ↔ AllClosed fs .init := controlSafe_iff Assembler.init_fits

/-- A packet whose only block has a command to start the display, and nothing behind it. -/
def unclosed : Fragment := ⟨[0, 9, 0, 4, 0, 0, 0, 4, 1], 0, Assembler.zeroMalloc, by decide⟩

/-- The handle before any packet. -/
def emptyHandle : Handle := ⟨fun _ => 0, fun _ => 0, false, []⟩

theorem control_not_safe : ¬ControlSafe [(unclosed, emptyHandle)] .init := by
  have hdecoded : (Assembler.init.assemble unclosed).toOption.map Prod.snd =
      some (some unclosed.packet) := by decide
  have houtside : (processControl emptyHandle unclosed.packet unclosed.pts100).toOption.isNone := by
    decide
  intro h
  unfold ControlSafe at h
  cases hspu : Assembler.init.assemble unclosed with
  | error e =>
    rw [hspu] at hdecoded
    cases hdecoded
  | ok t =>
    obtain ⟨t, decoded⟩ := t
    rw [hspu] at hdecoded h
    cases hdecoded
    obtain ⟨handle', hhandle⟩ := h.1
    rw [hhandle] at houtside
    cases houtside

end MPlayer.Spu
