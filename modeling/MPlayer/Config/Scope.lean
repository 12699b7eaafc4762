import MPlayer.Config.Sound
import MPlayer.Config.Types
import MPlayer.Lib.Nest

/-!
# Options of a scope

What is set between a push and its pop is undone by the pop, unless it was stored into the
slot that the push saved the variable in.  That slot is reached through aliases: an alias
has the slot that was on top when it was registered.
-/

namespace MPlayer

open Lib

variable {T V : Type} {types : MOptionTypes T V}

/-! ## Rounds of the loops -/

/-- The rounds of a loop around one option. -/
theorem overOpts_split {f : ConfigOption T → Store V → Option (ConfigOption T × Store V)} :
    ∀ {pre post opts' : List (ConfigOption T)} {co : ConfigOption T} {m m' : Store V},
      overOpts f (pre ++ co :: post) m = some (opts', m') →
      ∃ pre' co' post' m1 m2, opts' = pre' ++ co' :: post' ∧ pre'.length = pre.length ∧
        overOpts f pre m = some (pre', m1) ∧ f co m1 = some (co', m2) ∧
        overOpts f post m2 = some (post', m')
  | [], post, opts', co, m, m', h => by
    simp only [List.nil_append, overOpts, Option.bind_eq_some_iff, Option.map_eq_some_iff] at h
    obtain ⟨⟨co', m1⟩, hco, ⟨rest, m2⟩, hrest, heq⟩ := h
    cases heq
    exact ⟨[], co', rest, m, m1, rfl, rfl, rfl, hco, hrest⟩
  | o :: pre, post, opts', co, m, m', h => by
    simp only [List.cons_append, overOpts, Option.bind_eq_some_iff, Option.map_eq_some_iff] at h
    obtain ⟨⟨o', m1⟩, ho, ⟨rest, m2⟩, hrest, heq⟩ := h
    cases heq
    obtain ⟨pre', co', post', m3, m4, rfl, hlen, hpre, hco, hpost⟩ := overOpts_split hrest
    refine ⟨o' :: pre', co', post', m3, m4, rfl, by simp [hlen], ?_, hco, hpost⟩
    simp [overOpts, ho, hpre]

/-- What the rounds of a loop keep of the store. -/
theorem overOpts_store {f : ConfigOption T → Store V → Option (ConfigOption T × Store V)}
    {I : Store V → Prop} :
    ∀ {opts opts' : List (ConfigOption T)} {m m' : Store V},
      (∀ co ∈ opts, ∀ m co' m', I m → f co m = some (co', m') → I m') →
      overOpts f opts m = some (opts', m') → I m → I m'
  | [], _, _, _, _, h, hI => by
    cases h
    exact hI
  | co :: opts, opts', m, m', hstep, h, hI => by
    simp only [overOpts, Option.bind_eq_some_iff, Option.map_eq_some_iff] at h
    obtain ⟨⟨co', m1⟩, hco, ⟨rest, m2⟩, hrest, heq⟩ := h
    cases heq
    have h1 := hstep co List.mem_cons_self m co' m1 hI hco
    exact overOpts_store (fun o ho => hstep o (List.mem_cons_of_mem _ ho)) hrest h1

variable {m m' : Store V} {i id lvl n : Nat} {opts opts' : List (ConfigOption T)}
  {c c' c0 : MConfig T V} {opt : PlainOption T}

theorem Store.write_data_of_ne {d : V} (h : id ≠ i) : (m.write i d).data id = m.data id := if_neg h

theorem Store.alloc_data_of_lt {d : V} (h : id < m.next) :
    (m.alloc d).data id = m.data id := if_neg (Nat.ne_of_lt h)

/-- A slot that none of the options owns keeps its data when they are pushed, and no
variable changes. -/
theorem pushOpts_frame (h : overOpts (pushOption types lvl) opts m = some (opts', m'))
    (hid : ∀ co ∈ opts, co.Owns → id ∉ co.ids) (hlt : id < m.next) :
    id < m'.next ∧ m'.data id = m.data id ∧ m'.vars = m.vars := by
  refine overOpts_store (I := fun x => id < x.next ∧ x.data id = m.data id ∧ x.vars = m.vars)
    ?_ h ⟨hlt, rfl, rfl⟩
  intro co hco x co' x' hx hpush
  rcases pushOption_cases hpush with ⟨-, rfl⟩ | ⟨opt, top, rest, d, hopt, hp, hslots, -, -, rfl⟩
  · exact hx
  · obtain ⟨h1, h2, h3⟩ := hx
    have hne : id ≠ top.id := fun heq =>
      hid co hco (co.pushes_owns hopt hp) (by rw [ConfigOption.ids, hslots, heq]; simp)
    refine ⟨Nat.lt_succ_of_lt h1, ?_, h3⟩
    rw [Store.alloc_data_of_lt (show id < (x.write top.id _).next from h1),
      Store.write_data_of_ne hne, h2]

/-- A slot that none of the options owns keeps its data when they are popped. -/
theorem popOpts_data (h : overOpts (popOption types lvl) opts m = some (opts', m'))
    (hid : ∀ co ∈ opts, co.Owns → id ∉ co.ids) : m'.data id = m.data id := by
  refine overOpts_store (I := fun x => x.data id = m.data id) ?_ h rfl
  intro co hco x co' x' hx hpop
  cases popOption_cases hpop with
  | skip _ => exact hx
  | kept _ _ => exact hx
  | @popped opt dropped rest top d hopt hpops hslots _ _ _ _ =>
    rw [MOptionTypes.setVar, Store.assign_data, Store.freeAll_data, hx]
    intro hmem
    refine hid co hco (co.pops_owns hopt hpops) ?_
    rw [ConfigOption.ids, hslots, List.map_append]
    exact List.mem_append_left _ hmem

theorem Store.assign_vars {p : Option Nat} {v : Option V} {a : Nat} (h : p ≠ some a) :
    (m.assign p v).vars a = m.vars a := by
  unfold Store.assign
  split
  case h_1 b w =>
    show (if a = b then w else m.vars a) = m.vars a
    rw [if_neg]
    rintro rfl
    exact h rfl
  case h_2 => rfl

/-- A variable that none of the options owns keeps its value when they are popped. -/
theorem popOpts_vars {a : Nat} (h : overOpts (popOption types lvl) opts m = some (opts', m'))
    (ha : ∀ co ∈ opts, co.Owns → co.opt.var ≠ some a) : m'.vars a = m.vars a := by
  refine overOpts_store (I := fun x => x.vars a = m.vars a) ?_ h rfl
  intro co hco x co' x' hx hpop
  cases popOption_cases hpop with
  | skip _ => exact hx
  | kept _ _ => exact hx
  | @popped opt dropped rest top d hopt hpops _ _ _ _ _ =>
    have hvar : opt.p ≠ some a := by
      have hne := ha co hco (co.pops_owns hopt hpops)
      rw [hopt] at hne
      exact hne
    rw [MOptionTypes.setVar, Store.assign_vars hvar]
    exact hx

/-! ## The options of a config by their places -/

theorem getElem?_split {α : Type} {l : List α} {x : α} (h : l[i]? = some x) :
    ∃ pre post, l = pre ++ x :: post ∧ pre.length = i := by
  obtain ⟨hi, hx⟩ := List.getElem?_eq_some_iff.mp h
  refine ⟨l.take i, l.drop (i + 1), ?_, ?_⟩
  · rw [← hx, List.getElem_cons_drop, List.take_append_drop]
  · rw [List.length_take]
    exact Nat.min_eq_left (Nat.le_of_lt hi)

/-- The option at a place, without the flag `M_CFG_OPT_SET`. -/
def MConfig.optAt (c : MConfig T V) (i : Nat) : Option (MOption T × List SaveSlot × Bool) :=
  c.opts[i]?.map fun co => (co.opt, co.slots, co.isAlias)

theorem MConfig.optAt_markSet (c : MConfig T V) (i j : Nat) :
    (c.markSet j).optAt i = c.optAt i := by
  simp only [MConfig.optAt, MConfig.markSet, List.getElem?_modify]
  split
  · cases c.opts[i]? with
    | none => rfl
    | some co => rfl
  · cases c.opts[i]? with
    | none => rfl
    | some co => rfl

theorem MConfig.optAt_eq_some {opt : MOption T} {slots : List SaveSlot} {isAlias : Bool}
    (h : c.optAt i = some (opt, slots, isAlias)) :
    ∃ co, c.opts[i]? = some co ∧ co.opt = opt ∧ co.slots = slots ∧ co.isAlias = isAlias := by
  obtain ⟨co, hco, heq⟩ := Option.map_eq_some_iff.mp h
  cases heq
  exact ⟨co, hco, rfl, rfl, rfl⟩

/-! ## What a set inside a scope must not do -/

/-- `co->slots`, as a pointer. -/
def ConfigOption.top (co : ConfigOption T) : Option Nat := co.slots.head?.map (·.id)

/-- The push of `c0` undoes what is stored into `co`: the option that owns the slots of its
variable was saved, and `co` is not an alias with the slot that it was saved in. -/
def UndoneBy (c0 : MConfig T V) (a : Nat) (co : ConfigOption T) : Prop :=
  ∃ o ∈ c0.opts, o.Owns ∧ o.opt.var = some a ∧ o.pushes = true ∧
    (co.isAlias = true → co.top ≠ o.top)

/-- The steps inside the scope that a push of `c0` opens: calls of `m_config_set_option`
that set the variable at `a` only through options that the push undoes, and changes of the
mode. -/
inductive ScopeStep (types : MOptionTypes T V) (c0 : MConfig T V) (a : Nat) :
    MConfig T V → MConfig T V → Prop where
  | set {fuel : Nat} {c c' : MConfig T V} {arg : CStr} {param : Option CStr} {r : Int}
      (h : mConfigSetOption types fuel c arg param = some (r, c'))
      (hundone : ∀ i ∈ optionsSet types fuel c arg param true, ∀ co, c.opts[i]? = some co →
        co.opt.var = some a → UndoneBy c0 a co) : ScopeStep types c0 a c c'
  | mode (mode : ParserMode) (c : MConfig T V) :
      ScopeStep types c0 a c { c with mode := mode }

/-- An option whose type copies: `save`, `set` and `copy` give the value they are given. -/
structure Faithful (types : MOptionTypes T V) (opt : PlainOption T) : Prop where
  save : ∀ d v, types.save opt d (some v) = v
  set : ∀ old v, types.set opt old v = some v
  copy : ∀ d v, types.copy opt d v = v

/-! ## The slots of the variable inside the scope -/

/-- Inside the scope, `n` levels further in: the option at `i` owns the slots of the
variable at `a`, the slot `s0` on which it was pushed holds `x`, and what lies over `s0`
belongs to the scope. -/
structure InScope (opt : PlainOption T) (i lvl a : Nat) (s0 : SaveSlot) (x : V) (n : Nat)
    (c : MConfig T V) : Prop where
  sound : c.Sound
  lvl_eq : c.lvl = lvl + 1 + n
  var : opt.p = some a
  global : (!(opt.flags.global || opt.flags.noSave)) = true
  le : s0.lvl ≤ lvl
  data : c.store.data s0.id = some x
  slots : ∃ upper s1 under, c.optAt i = some (.plain opt, upper ++ s1 :: s0 :: under, false) ∧
    s1.lvl = lvl + 1 ∧ ∀ s ∈ upper, lvl + 1 ≤ s.lvl

/-- The option that owns the slots, and what is around it. -/
theorem InScope.split {a : Nat} {s0 : SaveSlot} {x : V} (h : InScope opt i lvl a s0 x n c) :
    ∃ pre co post upper s1 under, c.opts = pre ++ co :: post ∧ pre.length = i ∧
      co.opt = .plain opt ∧ co.isAlias = false ∧ co.slots = upper ++ s1 :: s0 :: under ∧
      s1.lvl = lvl + 1 ∧ (∀ s ∈ upper, lvl + 1 ≤ s.lvl) ∧ co.Owns ∧ co.pops = true ∧
      s0.id < c.store.next ∧ s0.id ∉ (upper ++ [s1]).map (·.id) ∧
      ∀ o ∈ pre ++ post, o.Owns → s0.id ∉ o.ids ∧ o.opt.var ≠ some a := by
  obtain ⟨upper, s1, under, hat, hs1, hover⟩ := h.slots
  obtain ⟨co, hco, hopt, hslots, halias⟩ := MConfig.optAt_eq_some hat
  obtain ⟨pre, post, hsplit, hlen⟩ := getElem?_split hco
  have hsound := h.sound.soundAt
  rw [hsplit] at hsound
  have howns : co.Owns := ⟨halias, opt, hopt⟩
  have hid : s0.id ∈ co.ids := by
    rw [ConfigOption.ids, hslots]
    simp
  have hnodup : (upper ++ s1 :: s0 :: under).Pairwise (fun x y => x.id ≠ y.id) := by
    have hnd := (hsound.slots co (by simp) howns).nodup
    rw [hslots] at hnd
    exact List.pairwise_map.mp hnd
  refine ⟨pre, co, post, upper, s1, under, hsplit, hlen, hopt, halias, hslots, hs1, hover, howns,
    ?_, hsound.lt co (by simp) _ hid, ?_, ?_⟩
  · rw [ConfigOption.pops, hopt, halias]
    simpa [MOption.flags] using h.global
  · intro hmem
    obtain ⟨s, hs, heq⟩ := List.mem_map.mp hmem
    rw [show upper ++ s1 :: s0 :: under = (upper ++ [s1]) ++ s0 :: under by simp] at hnodup
    exact (List.pairwise_append.mp hnodup).2.2 s hs s0 List.mem_cons_self heq
  · intro o ho hoowns
    have hno := hsound.owns_unique howns (List.mem_append.mp ho) hoowns
    refine ⟨hsound.others (List.mem_append.mp ho) hno _ hid, fun hvar => hno ⟨a, ?_, hvar⟩⟩
    rw [hopt]
    exact h.var

theorem InScope.of_store {a : Nat} {s0 : SaveSlot} {x : V} (h : InScope opt i lvl a s0 x n c)
    (hsound : c'.Sound) (hlvl : c'.lvl = c.lvl) (hat : c'.optAt i = c.optAt i)
    (hdata : c'.store.data s0.id = c.store.data s0.id) : InScope opt i lvl a s0 x n c' :=
  ⟨hsound, hlvl.trans h.lvl_eq, h.var, h.global, h.le, hdata.trans h.data, by
    rw [hat]
    exact h.slots⟩

/-- Where the set of an option stores, inside the scope. -/
theorem InScope.store_ne {a : Nat} {s0 : SaveSlot} {x : V} (h : InScope opt i lvl a s0 x n c)
    {j : Nat} {co : ConfigOption T} (hco : c.opts[j]? = some co) {opt' : PlainOption T}
    (hopt' : co.opt = .plain opt')
    (hundone : co.opt.var = some a → co.isAlias = true → co.top ≠ some s0.id) {top : SaveSlot}
    {rest : List SaveSlot} (htop : co.slots = top :: rest) : s0.id ≠ top.id := by
  obtain ⟨pre, o, post, upper, s1, under, hsplit, hlen, hopt, halias, hslots, _, _, howns, _, _,
    hnot, hothers⟩ := h.split
  have hsound := h.sound.soundAt
  rw [hsplit] at hsound hco
  have hmem : co ∈ pre ++ o :: post := List.mem_of_getElem? hco
  have htopid : top.id ∈ co.ids := by
    rw [ConfigOption.ids, htop]
    exact List.mem_cons_self
  intro heq
  by_cases hself : co = o
  · subst hself
    rw [htop] at hslots
    cases upper with
    | nil =>
      cases hslots
      exact hnot (by simp [heq])
    | cons s upper =>
      cases hslots
      exact hnot (by simp [heq])
  · have hother : co ∈ pre ++ post := by
      simp only [List.mem_append, List.mem_cons] at hmem ⊢
      rcases hmem with hmem | hmem | hmem
      · exact Or.inl hmem
      · exact absurd hmem hself
      · exact Or.inr hmem
    cases hal : co.isAlias with
    | false => exact (hothers co hother ⟨hal, opt', hopt'⟩).1 (heq ▸ htopid)
    | true =>
      by_cases hvar : co.opt.var = some a
      · refine hundone hvar hal ?_
        rw [ConfigOption.top, htop, heq]
        rfl
      · have hno : ¬ SameVar o co := by
          rintro ⟨b, hb, hb'⟩
          rw [hopt] at hb
          have hba : b = a := Option.some.inj (hb.symm.trans h.var)
          exact hvar (hba ▸ hb')
        have hid : s0.id ∈ o.ids := by
          rw [ConfigOption.ids, hslots]
          simp
        exact hsound.others (List.mem_append.mp hother) hno _ hid (heq ▸ htopid)

theorem InScope.set {opt : PlainOption T} {i lvl a n : Nat} {s0 : SaveSlot} {x : V}
    {c0 c c' : MConfig T V} (h : InScope opt i lvl a s0 x n c)
    (htop : ∀ o ∈ c0.opts, o.Owns → o.opt.var = some a → o.top = some s0.id) {fuel : Nat}
    {arg : CStr} {param : Option CStr} {r : Int}
    (hset : mConfigSetOption types fuel c arg param = some (r, c'))
    (hundone : ∀ i ∈ optionsSet types fuel c arg param true, ∀ co, c.opts[i]? = some co →
      co.opt.var = some a → UndoneBy c0 a co) : InScope opt i lvl a s0 x n c' := by
  have hrun := mConfigParseOption_invariant
    (I := fun d => InScope opt i lvl a s0 x n d ∧ ∀ j, d.optAt j = c.optAt j)
    (A := fun j => ∀ co, c.opts[j]? = some co → co.opt.var = some a → UndoneBy c0 a co)
    ?_ ?_ ⟨h, fun _ => rfl⟩ hset hundone
  · exact hrun.1
  · rintro d j co opt' arg param r m ⟨hd, hsame⟩ hco hopt' hallowed hp
    have hsound : MConfig.Sound { d with store := m } :=
      ⟨hd.sound.lvl_pos, hd.sound.soundAt.store (parsePlain_grows hp)⟩
    obtain ⟨co0, hco0, hopt0, hslots0, halias0⟩ : ∃ co0, c.opts[j]? = some co0 ∧
        co0.opt = co.opt ∧ co0.slots = co.slots ∧ co0.isAlias = co.isAlias := by
      have heq := hsame j
      rw [MConfig.optAt, hco] at heq
      exact MConfig.optAt_eq_some heq.symm
    obtain ⟨top, rest, old, v, hslots, _, _, rfl⟩ := parsePlain_stores hp
    have hne : s0.id ≠ top.id := by
      refine hd.store_ne hco hopt' (fun hvar hal => ?_) hslots
      obtain ⟨o, ho, howns, hovar, _, hno⟩ := hallowed co0 hco0 (hopt0 ▸ hvar)
      have hne := hno (halias0.trans hal)
      rw [htop o ho howns hovar] at hne
      rw [ConfigOption.top, ← hslots0]
      exact hne
    refine ⟨hd.of_store hsound rfl rfl ?_, hsame⟩
    show Store.data (if r < 0 then _ else _) s0.id = d.store.data s0.id
    split
    · exact Store.write_data_of_ne hne
    · rw [MOptionTypes.setVar, Store.assign_data]
      exact Store.write_data_of_ne hne
  · rintro d j ⟨hd, hsame⟩ _
    refine ⟨hd.of_store (hd.sound.markSet j) rfl (d.optAt_markSet i j) rfl, fun k => ?_⟩
    rw [d.optAt_markSet k j]
    exact hsame k

theorem MConfig.optAt_split {pre post : List (ConfigOption T)} {co : ConfigOption T}
    (h : c.opts = pre ++ co :: post) (hi : pre.length = i) :
    c.optAt i = some (co.opt, co.slots, co.isAlias) := by
  rw [MConfig.optAt, h, ← hi, List.getElem?_append_right (Nat.le_refl _), Nat.sub_self]
  rfl

theorem mConfigPush_eq (h : mConfigPush types c = some c') :
    ∃ opts m, overOpts (pushOption types (c.lvl + 1)) c.opts c.store = some (opts, m) ∧
      c' = { c with opts := opts, lvl := c.lvl + 1, store := m } := by
  obtain ⟨⟨opts, m⟩, hrun, heq⟩ := Option.map_eq_some_iff.mp h
  exact ⟨opts, m, hrun, heq.symm⟩

theorem mConfigPop_eq (h : mConfigPop types c = some c') :
    ∃ opts m, overOpts (popOption types c.lvl) c.opts c.store = some (opts, m) ∧
      c' = { c with opts := opts, lvl := c.lvl - 1, store := m } := by
  obtain ⟨⟨opts, m⟩, hrun, heq⟩ := Option.map_eq_some_iff.mp h
  exact ⟨opts, m, hrun, heq.symm⟩

theorem MConfig.Sound.of_push (h : c.Sound) (hpush : mConfigPush types c = some c') : c'.Sound := by
  obtain ⟨c1, hc1, hs⟩ := h.push types
  rw [hpush] at hc1
  cases hc1
  exact hs

theorem MConfig.Sound.of_pop (h : c.Sound) (hlvl : 1 < c.lvl)
    (hpop : mConfigPop types c = some c') : c'.Sound := by
  obtain ⟨c1, hc1, hs⟩ := h.pop types hlvl
  rw [hpop] at hc1
  cases hc1
  exact hs

theorem InScope.push {a : Nat} {s0 : SaveSlot} {x : V} (h : InScope opt i lvl a s0 x n c)
    (hpush : mConfigPush types c = some c') : InScope opt i lvl a s0 x (n + 1) c' := by
  have hsound := h.sound.of_push hpush
  obtain ⟨pre, co, post, upper, s1, under, hsplit, hlen, hopt, halias, hslots, hs1, hover, _, _,
    hlt, hnot, hothers⟩ := h.split
  obtain ⟨opts, m, hrun, rfl⟩ := mConfigPush_eq hpush
  rw [hsplit] at hrun
  obtain ⟨pre', co', post', m1, m2, rfl, hlen', hpre, hco, hpost⟩ := overOpts_split hrun
  obtain ⟨hlt1, hdata1, _⟩ := pushOpts_frame hpre
    (fun o ho hoo => (hothers o (List.mem_append_left _ ho) hoo).1) hlt
  have hmid : s0.id < m2.next ∧ m2.data s0.id = c.store.data s0.id ∧
      ∃ upper', co'.slots = upper' ++ s1 :: s0 :: under ∧ ∀ s ∈ upper', lvl + 1 ≤ s.lvl := by
    rcases pushOption_cases hco with ⟨rfl, rfl⟩ | ⟨opt', top, rest, d, _, _, htop, _, rfl, rfl⟩
    · exact ⟨hlt1, hdata1, upper, hslots, hover⟩
    · have hne : s0.id ≠ top.id := by
        intro heq
        rw [htop] at hslots
        cases upper with
        | nil =>
          cases hslots
          exact hnot (by simp [heq])
        | cons s upper =>
          cases hslots
          exact hnot (by simp [heq])
      refine ⟨Nat.lt_succ_of_lt hlt1, ?_, ⟨m1.next, c.lvl + 1⟩ :: upper, ?_, ?_⟩
      · rw [Store.alloc_data_of_lt (show s0.id < (m1.write top.id _).next from hlt1),
          Store.write_data_of_ne hne, hdata1]
      · simp [hslots]
      · intro s hs
        have hl := h.lvl_eq
        cases List.mem_cons.mp hs with
        | inl heq =>
          rw [heq]
          show lvl + 1 ≤ c.lvl + 1
          omega
        | inr hs => exact hover s hs
  obtain ⟨hlt2, hdata2, upper', hslots', hover'⟩ := hmid
  have hend := pushOpts_frame hpost
    (fun o ho hoo => (hothers o (List.mem_append_right _ ho) hoo).1) hlt2
  have hsame := pushOption_same hco
  refine ⟨hsound, ?_, h.var, h.global, h.le, ?_, upper', s1, under, ?_, hs1, hover'⟩
  · show c.lvl + 1 = lvl + 1 + (n + 1)
    rw [h.lvl_eq]
    rfl
  · show m.data s0.id = some x
    rw [hend.2.1, hdata2, h.data]
  · rw [MConfig.optAt_split rfl (hlen'.trans hlen), hsame.opt, hsame.isAlias, hslots', hopt, halias]

/-- Dropping slots stops at the latest at a slot that stays. -/
theorem dropped_of_stays {dropped kept upper under : List SaveSlot} {s1 : SaveSlot}
    (h : dropped ++ kept = upper ++ s1 :: under) (hs1 : s1 ∉ dropped) :
    ∃ upper', upper = dropped ++ upper' ∧ kept = upper' ++ s1 :: under := by
  rcases List.append_eq_append_iff.mp h with ⟨as, ho, hk⟩ | ⟨bs, hd, hk⟩
  · exact ⟨as, ho, hk⟩
  · cases bs with
    | nil => exact ⟨[], by simpa using hd.symm, by simpa using hk.symm⟩
    | cons b bs =>
      cases hk
      exact absurd (by rw [hd]; simp) hs1

theorem InScope.pop {a : Nat} {s0 : SaveSlot} {x : V} (h : InScope opt i lvl a s0 x (n + 1) c)
    (hpop : mConfigPop types c = some c') : InScope opt i lvl a s0 x n c' := by
  have hl := h.lvl_eq
  have hsound := h.sound.of_pop (by omega) hpop
  obtain ⟨pre, co, post, upper, s1, under, hsplit, hlen, hopt, halias, hslots, hs1, hover, _, _,
    hlt, hnot, hothers⟩ := h.split
  obtain ⟨opts, m, hrun, rfl⟩ := mConfigPop_eq hpop
  rw [hsplit] at hrun
  obtain ⟨pre', co', post', m1, m2, rfl, hlen', hpre, hco, hpost⟩ := overOpts_split hrun
  have hdata1 := popOpts_data hpre (fun o ho hoo => (hothers o (List.mem_append_left _ ho) hoo).1)
  have hdata3 := popOpts_data hpost (fun o ho hoo => (hothers o (List.mem_append_right _ ho) hoo).1)
  have hmid : m2.data s0.id = c.store.data s0.id ∧
      ∃ upper', co'.slots = upper' ++ s1 :: s0 :: under ∧ ∀ s ∈ upper', lvl + 1 ≤ s.lvl := by
    cases popOption_cases hco with
    | skip _ => exact ⟨hdata1, upper, hslots, hover⟩
    | kept _ _ => exact ⟨hdata1, upper, hslots, hover⟩
    | @popped opt' dropped rest top d _ _ hdrop hge _ _ _ =>
      have hstays : s1 ∉ dropped := fun hmem => by
        have hle := hge s1 hmem
        omega
      obtain ⟨upper', hover', hkept⟩ := dropped_of_stays (hdrop.symm.trans hslots) hstays
      refine ⟨?_, upper', hkept, fun s hs => hover s ?_⟩
      · rw [MOptionTypes.setVar, Store.assign_data, Store.freeAll_data, hdata1]
        intro hmem
        refine hnot ?_
        rw [hover', List.map_append, List.map_append]
        exact List.mem_append_left _ (List.mem_append_left _ hmem)
      · rw [hover']
        exact List.mem_append_right _ hs
  obtain ⟨hdata2, upper', hslots', hover'⟩ := hmid
  have hsame := popOption_same hco
  refine ⟨hsound, ?_, h.var, h.global, h.le, ?_, upper', s1, under, ?_, hs1, hover'⟩
  · show c.lvl - 1 = lvl + 1 + n
    omega
  · show m.data s0.id = some x
    rw [hdata3, hdata2, h.data]
  · rw [MConfig.optAt_split rfl (hlen'.trans hlen), hsame.opt, hsame.isAlias, hslots', hopt, halias]

/-- The pop that closes the scope gives the variable the value that was saved. -/
theorem InScope.close {a : Nat} {s0 : SaveSlot} {x : V} (h : InScope opt i lvl a s0 x 0 c)
    (hfaith : Faithful types opt) (hpop : mConfigPop types c = some c') : c'.store.vars a = x := by
  have hl := h.lvl_eq
  obtain ⟨pre, co, post, upper, s1, under, hsplit, hlen, hopt, halias, hslots, hs1, hover, howns,
    hpops, hlt, hnot, hothers⟩ := h.split
  obtain ⟨opts, m, hrun, rfl⟩ := mConfigPop_eq hpop
  rw [hsplit] at hrun
  obtain ⟨pre', co', post', m1, m2, rfl, hlen', hpre, hco, hpost⟩ := overOpts_split hrun
  have hdata1 := popOpts_data hpre (fun o ho hoo => (hothers o (List.mem_append_left _ ho) hoo).1)
  have hvars := popOpts_vars hpost (fun o ho hoo => (hothers o (List.mem_append_right _ ho) hoo).2)
  have hscope : ∀ s ∈ upper ++ [s1], c.lvl ≤ s.lvl := by
    intro s hs
    cases List.mem_append.mp hs with
    | inl hs =>
      have hle := hover s hs
      omega
    | inr hs =>
      rw [List.mem_singleton.mp hs]
      omega
  show m.vars a = x
  rw [hvars]
  cases popOption_cases hco with
  | skip hskip =>
    cases hskip with
    | inl hno =>
      rw [hno] at hpops
      cases hpops
    | inr hno => exact absurd ⟨opt, hopt⟩ hno
  | @kept s hhead hlt =>
    have hmem : s ∈ upper ++ [s1] := by
      rw [hslots] at hhead
      cases upper with
      | nil =>
        cases hhead
        simp
      | cons o upper =>
        cases hhead
        simp
    have hle := hscope s hmem
    omega
  | @popped opt' dropped rest top d hopt' _ hdrop hge _ htop hdata =>
    rw [hopt] at hopt'
    cases hopt'
    have hs0 : s0 ∉ dropped := fun hmem => by
      have hle := hge s0 hmem
      have hle' := h.le
      omega
    have happ : dropped ++ top :: rest = (upper ++ [s1]) ++ s0 :: under := by
      rw [← hdrop, hslots]
      simp
    obtain ⟨upper', hover', hkept⟩ := dropped_of_stays happ hs0
    have hnil : upper' = [] := by
      cases upper' with
      | nil => rfl
      | cons s upper' =>
        cases hkept
        have hle := hscope top (by rw [hover']; simp)
        omega
    subst hnil
    cases hkept
    rw [List.append_nil] at hover'
    rw [Store.freeAll_data (hover' ▸ hnot), hdata1, h.data] at hdata
    cases hdata
    rw [MOptionTypes.setVar, h.var, hfaith.set]
    simp [Store.assign]

/-- A push that saves the variable opens a scope. -/
theorem InScope.open (h : c.Sound) (hpush : mConfigPush types c = some c') {co : ConfigOption T}
    (hmem : co ∈ c.opts) (howns : co.Owns) (hopt : co.opt = .plain opt)
    (hpushes : co.pushes = true) {a : Nat} (hvar : opt.p = some a) (hfaith : Faithful types opt) :
    ∃ i s0, co.top = some s0.id ∧ InScope opt i c.lvl a s0 (c.store.vars a) 0 c' := by
  have hsound := h.of_push hpush
  obtain ⟨opts, m, hrun, rfl⟩ := mConfigPush_eq hpush
  obtain ⟨pre, post, hsplit⟩ := List.append_of_mem hmem
  have hat := h.soundAt
  rw [hsplit] at hrun hat
  obtain ⟨pre', co', post', m1, m2, rfl, hlen', hpre, hco, hpost⟩ := overOpts_split hrun
  have hpops : co.pops = true := by
    simp only [ConfigOption.pushes, Bool.and_eq_true] at hpushes
    simp only [ConfigOption.pops, Bool.and_eq_true]
    exact ⟨hpushes.1.1, hpushes.2⟩
  have hothers : ∀ o ∈ pre ++ post, o.Owns → ∀ id ∈ co.ids, id ∉ o.ids := fun o ho hoo =>
    hat.others (List.mem_append.mp ho) (hat.owns_unique howns (List.mem_append.mp ho) hoo)
  rcases pushOption_cases hco with ⟨rfl, rfl⟩ | ⟨opt', s0, rest, d, hopt', _, hslots, _, rfl, rfl⟩
  · exfalso
    simp only [pushOption, hopt, hpushes] at hco
    cases hs : co'.slots with
    | nil =>
      rw [hs] at hco
      cases hco
    | cons top rest =>
      simp only [hs, Bool.not_true, Bool.false_eq_true, if_false, Option.map_eq_some_iff] at hco
      obtain ⟨d, _, heq⟩ := hco
      have hlen := congrArg (fun p => p.1.slots.length) heq
      simp [hs] at hlen
  · rw [hopt] at hopt'
    cases hopt'
    have hid : s0.id ∈ co.ids := by
      rw [ConfigOption.ids, hslots]
      exact List.mem_cons_self
    have hlt := hat.lt co (by simp) _ hid
    obtain ⟨hlt1, _, hvars1⟩ := pushOpts_frame hpre
      (fun o ho hoo => hothers o (List.mem_append_left _ ho) hoo _ hid) hlt
    have hend := pushOpts_frame hpost
      (fun o ho hoo => hothers o (List.mem_append_right _ ho) hoo _ hid) (Nat.lt_succ_of_lt hlt1)
    refine ⟨pre.length, s0, by rw [ConfigOption.top, hslots]; rfl, hsound, rfl, hvar, ?_, ?_, ?_,
      [], ⟨m1.next, c.lvl + 1⟩, rest, ?_, rfl, by simp⟩
    · simp only [ConfigOption.pops, Bool.and_eq_true, hopt] at hpops
      exact hpops.1
    · exact h.soundAt.le co hmem howns hpops s0 (by rw [hslots]; rfl)
    · show m.data s0.id = some (c.store.vars a)
      rw [hend.2.1, Store.alloc_data_of_lt (show s0.id < (m1.write s0.id _).next from hlt1)]
      simp only [Store.write, if_pos, hvar]
      rw [Store.read, Option.map_some, hfaith.save, hvars1]
    · rw [MConfig.optAt_split rfl hlen', hslots, hopt, howns.1]
      rfl

/-! ## A variable that the push does not save -/

/-- Inside a scope that saves nothing of the option at `i` and sets nothing of its
variable. -/
structure Untouched (co : ConfigOption T) (i lvl a : Nat) (x : V) (n : Nat)
    (c : MConfig T V) : Prop where
  sound : c.Sound
  lvl_eq : c.lvl = lvl + 1 + n
  owns : co.Owns
  var : co.opt.var = some a
  unsaved : co.pushes = false
  le : co.pops = true → ∀ s, co.slots.head? = some s → s.lvl ≤ lvl
  here : c.opts[i]? = some co
  value : c.store.vars a = x

/-- The option is the only one that owns slots of its variable. -/
theorem Untouched.split {co : ConfigOption T} {a : Nat} {x : V} (h : Untouched co i lvl a x n c) :
    ∃ pre post, c.opts = pre ++ co :: post ∧ pre.length = i ∧
      ∀ o ∈ pre ++ post, o.Owns → o.opt.var ≠ some a := by
  obtain ⟨pre, post, hsplit, hlen⟩ := getElem?_split h.here
  have hsound := h.sound.soundAt
  rw [hsplit] at hsound
  exact ⟨pre, post, hsplit, hlen, fun o ho hoo hvar =>
    hsound.owns_unique h.owns (List.mem_append.mp ho) hoo ⟨a, h.var, hvar⟩⟩

theorem Untouched.set {co : ConfigOption T} {i lvl a n : Nat} {x : V} {c c' : MConfig T V}
    (h : Untouched co i lvl a x n c) {fuel : Nat} {arg : CStr} {param : Option CStr} {r : Int}
    (hset : mConfigSetOption types fuel c arg param = some (r, c'))
    (hnot : ∀ j ∈ optionsSet types fuel c arg param true, ∀ o, c.opts[j]? = some o →
      o.opt.var ≠ some a) : Untouched co i lvl a x n c' := by
  have hrun := mConfigParseOption_invariant
    (I := fun d => Untouched co i lvl a x n d ∧ ∀ j, d.optAt j = c.optAt j)
    (A := fun j => ∀ o, c.opts[j]? = some o → o.opt.var ≠ some a)
    ?_ ?_ ⟨h, fun _ => rfl⟩ hset hnot
  · exact hrun.1
  · rintro d j o opt' arg param r m ⟨hd, hsame⟩ ho hopt' hallowed hp
    have hsound : MConfig.Sound { d with store := m } :=
      ⟨hd.sound.lvl_pos, hd.sound.soundAt.store (parsePlain_grows hp)⟩
    have hvar : opt'.p ≠ some a := by
      have heq := hsame j
      rw [MConfig.optAt, ho] at heq
      obtain ⟨o0, ho0, hopt0, _⟩ := MConfig.optAt_eq_some heq.symm
      have hne := hallowed o0 ho0
      rw [hopt0, hopt'] at hne
      exact hne
    obtain ⟨top, rest, old, v, hslots, _, _, rfl⟩ := parsePlain_stores hp
    refine ⟨⟨hsound, hd.lvl_eq, hd.owns, hd.var, hd.unsaved, hd.le, hd.here, ?_⟩, hsame⟩
    show Store.vars (if r < 0 then _ else _) a = x
    split
    · exact hd.value
    · rw [MOptionTypes.setVar, Store.assign_vars hvar]
      exact hd.value
  · rintro d j ⟨hd, hsame⟩ hallowed
    have hne : j ≠ i := by
      rintro rfl
      have heq := hsame j
      rw [MConfig.optAt, hd.here] at heq
      obtain ⟨o0, ho0, hopt0, _⟩ := MConfig.optAt_eq_some heq.symm
      exact hallowed o0 ho0 (hopt0 ▸ hd.var)
    refine ⟨⟨hd.sound.markSet j, hd.lvl_eq, hd.owns, hd.var, hd.unsaved, hd.le, ?_, hd.value⟩,
      fun k => ?_⟩
    · rw [MConfig.markSet, List.getElem?_modify, hd.here]
      simp [hne]
    · rw [d.optAt_markSet k j]
      exact hsame k

theorem getElem?_of_split {α : Type} {l pre post : List α} {x : α} (h : l = pre ++ x :: post)
    (hi : pre.length = i) : l[i]? = some x := by
  rw [h, ← hi, List.getElem?_append_right (Nat.le_refl _), Nat.sub_self]
  rfl

theorem pushOpts_vars (h : overOpts (pushOption types lvl) opts m = some (opts', m')) :
    m'.vars = m.vars := by
  refine overOpts_store (I := fun x => x.vars = m.vars) ?_ h rfl
  intro co _ x co' x' hx hpush
  rcases pushOption_cases hpush with ⟨-, rfl⟩ | ⟨_, _, _, _, _, _, _, _, -, rfl⟩
  · exact hx
  · exact hx

theorem Untouched.push {co : ConfigOption T} {a : Nat} {x : V} (h : Untouched co i lvl a x n c)
    (hpush : mConfigPush types c = some c') : Untouched co i lvl a x (n + 1) c' := by
  have hsound := h.sound.of_push hpush
  obtain ⟨pre, post, hsplit, hlen, _⟩ := h.split
  obtain ⟨opts, m, hrun, rfl⟩ := mConfigPush_eq hpush
  have hvars := pushOpts_vars hrun
  rw [hsplit] at hrun
  obtain ⟨pre', co', post', m1, m2, rfl, hlen', _, hco, _⟩ := overOpts_split hrun
  have hsame : co' = co := by
    rcases pushOption_cases hco with ⟨heq, -⟩ | ⟨_, _, _, _, _, hp, _, _, _, _⟩
    · exact heq
    · rw [h.unsaved] at hp
      cases hp
  refine ⟨hsound, ?_, h.owns, h.var, h.unsaved, h.le, ?_, ?_⟩
  · show c.lvl + 1 = lvl + 1 + (n + 1)
    rw [h.lvl_eq]
    rfl
  · exact getElem?_of_split (by rw [hsame]) (hlen'.trans hlen)
  · show m.vars a = x
    rw [hvars, h.value]

/-- A pop of the scope or of a level inside it, which leaves the variable alone. -/
theorem Untouched.pop_value {co : ConfigOption T} {a : Nat} {x : V} (h : Untouched co i lvl a x n c)
    (hrun : overOpts (popOption types c.lvl) c.opts c.store = some (opts, m)) :
    opts[i]? = some co ∧ m.vars a = x := by
  obtain ⟨pre, post, hsplit, hlen, hothers⟩ := h.split
  rw [hsplit] at hrun
  obtain ⟨pre', co', post', m1, m2, rfl, hlen', hpre, hco, hpost⟩ := overOpts_split hrun
  have hvars1 := popOpts_vars hpre fun o ho hoo => hothers o (List.mem_append_left _ ho) hoo
  have hvars3 := popOpts_vars hpost fun o ho hoo => hothers o (List.mem_append_right _ ho) hoo
  have hl := h.lvl_eq
  have hmid : co' = co ∧ m2 = m1 := by
    cases popOption_cases hco with
    | skip _ => exact ⟨rfl, rfl⟩
    | kept _ _ => exact ⟨rfl, rfl⟩
    | @popped opt dropped rest top d _ hpops hslots hge hne _ _ =>
      cases dropped with
      | nil => exact absurd rfl hne
      | cons s dropped =>
        have hle := h.le hpops s (by rw [hslots]; rfl)
        have hge' := hge s List.mem_cons_self
        omega
  refine ⟨getElem?_of_split (by rw [hmid.1]) (hlen'.trans hlen), ?_⟩
  rw [hvars3, hmid.2, hvars1, h.value]

theorem Untouched.pop {co : ConfigOption T} {a : Nat} {x : V}
    (h : Untouched co i lvl a x (n + 1) c) (hpop : mConfigPop types c = some c') :
    Untouched co i lvl a x n c' := by
  have hl := h.lvl_eq
  have hsound := h.sound.of_pop (by omega) hpop
  obtain ⟨opts, m, hrun, rfl⟩ := mConfigPop_eq hpop
  obtain ⟨hhere, hvalue⟩ := h.pop_value hrun
  refine ⟨hsound, ?_, h.owns, h.var, h.unsaved, h.le, hhere, hvalue⟩
  show c.lvl - 1 = lvl + 1 + n
  omega

/-! ## The scope as a whole -/

/-- The run inside the scope keeps the invariant that the push opened it with. -/
theorem InScope.run {opt : PlainOption T} {i lvl a : Nat} {s0 : SaveSlot} {x : V}
    {c0 c c' : MConfig T V} (h : InScope opt i lvl a s0 x 0 c)
    (htop : ∀ o ∈ c0.opts, o.Owns → o.opt.var = some a → o.top = some s0.id)
    (hrun : Nested (ScopeStep types c0 a) (fun c c' => mConfigPush types c = some c')
      (fun c c' => mConfigPop types c = some c') c c') :
    InScope opt i lvl a s0 x 0 c' := by
  refine hrun.invariant (I := InScope opt i lvl a s0 x) ?_ (fun _ _ _ hs hp => hs.push hp)
    (fun _ _ _ hs hp => hs.pop hp) 0 h
  intro n s t hs hstep
  cases hstep with
  | set hset hundone => exact hs.set htop hset hundone
  | mode mode c => exact hs.of_store ⟨hs.sound.lvl_pos, hs.sound.soundAt⟩ rfl rfl rfl

theorem Untouched.run {co : ConfigOption T} {i lvl a : Nat} {x : V} {c0 c c' : MConfig T V}
    (h : Untouched co i lvl a x 0 c)
    (hno : ∀ o ∈ c0.opts, o.Owns → o.opt.var = some a → o.pushes = false)
    (hrun : Nested (ScopeStep types c0 a) (fun c c' => mConfigPush types c = some c')
      (fun c c' => mConfigPop types c = some c') c c') : Untouched co i lvl a x 0 c' := by
  refine hrun.invariant (I := Untouched co i lvl a x) ?_ (fun _ _ _ hs hp => hs.push hp)
    (fun _ _ _ hs hp => hs.pop hp) 0 h
  intro n s t hs hstep
  cases hstep with
  | set hset hundone =>
    refine hs.set hset fun j hj o ho hvar => ?_
    obtain ⟨x, hx, howns, hxvar, hpushes, _⟩ := hundone j hj o ho hvar
    rw [hno x hx howns hxvar] at hpushes
    cases hpushes
  | mode mode c =>
    exact ⟨⟨hs.sound.lvl_pos, hs.sound.soundAt⟩, hs.lvl_eq, hs.owns, hs.var, hs.unsaved, hs.le,
      hs.here, hs.value⟩

/-- The options of one variable that own its slots are one. -/
theorem MConfig.Sound.owner_eq (h : c.Sound) {o o' : ConfigOption T} (ho : o ∈ c.opts)
    (ho' : o' ∈ c.opts) (howns : o.Owns) (howns' : o'.Owns) (hvar : SameVar o o') : o' = o := by
  obtain ⟨pre, post, hsplit⟩ := List.append_of_mem ho
  have hat := h.soundAt
  rw [hsplit] at hat ho'
  simp only [List.mem_append, List.mem_cons] at ho'
  rcases ho' with ho' | ho' | ho'
  · exact absurd hvar (hat.owns_unique howns (Or.inl ho') howns')
  · exact ho'
  · exact absurd hvar (hat.owns_unique howns (Or.inr ho') howns')

/-- The steps inside a scope keep the level. -/
theorem Nested.lvl_eq {c0 c c' : MConfig T V} {a : Nat}
    (hrun : Nested (ScopeStep types c0 a) (fun c c' => mConfigPush types c = some c')
      (fun c c' => mConfigPop types c = some c') c c') (h : c.Sound) :
    c'.Sound ∧ c'.lvl = c.lvl := by
  refine hrun.invariant (I := fun n d => d.Sound ∧ d.lvl = c.lvl + n) ?_ ?_ ?_ 0 ⟨h, rfl⟩
  · rintro n s t ⟨hs, hl⟩ hstep
    cases hstep with
    | @set fuel _ _ arg param r hset _ =>
      refine ⟨hs.setOption hset, ?_⟩
      exact mConfigParseOption_keeps (I := fun d => d.lvl = c.lvl + n)
        (fun _ _ _ _ _ _ _ _ hI _ _ _ => hI) (fun _ _ hI => hI) hl hset
    | mode mode c => exact ⟨⟨hs.lvl_pos, hs.soundAt⟩, hl⟩
  · rintro n s t ⟨hs, hl⟩ hpush
    refine ⟨hs.of_push hpush, ?_⟩
    obtain ⟨opts, m, _, rfl⟩ := mConfigPush_eq hpush
    show s.lvl + 1 = c.lvl + (n + 1)
    rw [hl]
    rfl
  · rintro n s t ⟨hs, hl⟩ hpop
    have hpos := h.lvl_pos
    refine ⟨hs.of_pop (by omega) hpop, ?_⟩
    obtain ⟨opts, m, _, rfl⟩ := mConfigPop_eq hpop
    show s.lvl - 1 = c.lvl + n
    omega

/-- Per-file options are undone: the pop that closes a scope returns, and gives every
variable behind an option that is saved the value that it had before the push, when the
scope has set the variable only through options that the push undoes. -/
theorem config_pop_restores {c0 c1 c2 : MConfig T V} (hreach : c0.Reachable types)
    (hpush : mConfigPush types c0 = some c1) {a : Nat}
    (hvar : ∃ co ∈ c0.opts, co.opt.var = some a ∧ co.opt.flags.global = false ∧
      co.opt.flags.noSave = false ∧ co.opt.flags.old = false)
    (hfaith : ∀ co ∈ c0.opts, ∀ opt, co.opt = .plain opt → opt.p = some a → Faithful types opt)
    (hrun : Nested (ScopeStep types c0 a) (fun c c' => mConfigPush types c = some c')
      (fun c c' => mConfigPop types c = some c') c1 c2) :
    ∃ c3, mConfigPop types c2 = some c3 ∧ c3.store.vars a = c0.store.vars a := by
  have hsound := hreach.sound
  have hsound1 := hsound.of_push hpush
  obtain ⟨hsound2, hl2⟩ := Nested.lvl_eq hrun hsound1
  have hl1 : c1.lvl = c0.lvl + 1 := by
    obtain ⟨opts, m, _, rfl⟩ := mConfigPush_eq hpush
    rfl
  have hpos := hsound.lvl_pos
  obtain ⟨c3, hpop, _⟩ := hsound2.pop types (by omega)
  refine ⟨c3, hpop, ?_⟩
  -- the option that owns the slots of the variable
  obtain ⟨o, ho, howns, hovar⟩ : ∃ o ∈ c0.opts, o.Owns ∧ o.opt.var = some a := by
    obtain ⟨co, hco, hcovar, _⟩ := hvar
    cases hal : co.isAlias with
    | true =>
      obtain ⟨o, ho, howns, b, hb, hb'⟩ := hsound.soundAt.owner co hco hal
      rw [hcovar] at hb
      cases hb
      exact ⟨o, ho, howns, hb'⟩
    | false =>
      refine ⟨co, hco, ⟨hal, ?_⟩, hcovar⟩
      cases hopt : co.opt with
      | plain opt => exact ⟨opt, rfl⟩
      | group _ _ _ =>
        rw [hopt] at hcovar
        cases hcovar
  have honly : ∀ o' ∈ c0.opts, o'.Owns → o'.opt.var = some a → o' = o :=
    fun o' ho' howns' hvar' => hsound.owner_eq ho ho' howns howns' ⟨a, hovar, hvar'⟩
  obtain ⟨opt, hopt⟩ := howns.2
  have hp : opt.p = some a := by
    rw [hopt] at hovar
    exact hovar
  cases hpushes : o.pushes with
  | true =>
    obtain ⟨i, s0, htop, hscope⟩ := InScope.open hsound hpush ho howns hopt hpushes hp
      (hfaith o ho opt hopt hp)
    have hend := hscope.run
      (fun o' (ho' : o' ∈ c0.opts) howns' hvar' => by rw [honly o' ho' howns' hvar', htop]) hrun
    exact hend.close (hfaith o ho opt hopt hp) hpop
  | false =>
    obtain ⟨pre, post, hsplit⟩ := List.append_of_mem ho
    have hopen : Untouched o pre.length c0.lvl a (c0.store.vars a) 0 c1 := by
      obtain ⟨opts, m, hrun1, rfl⟩ := mConfigPush_eq hpush
      have hvars := pushOpts_vars hrun1
      rw [hsplit] at hrun1
      obtain ⟨pre', o', post', m1, m2, rfl, hlen', _, hround, _⟩ := overOpts_split hrun1
      have hsame : o' = o := by
        rcases pushOption_cases hround with ⟨heq, -⟩ | ⟨_, _, _, _, _, hyes, _, _, _, _⟩
        · exact heq
        · rw [hpushes] at hyes
          cases hyes
      exact ⟨hsound1, rfl, howns, hovar, hpushes, hsound.soundAt.le o ho howns,
        getElem?_of_split (by rw [hsame]) hlen', congrFun hvars a⟩
    have hend := hopen.run
      (fun o' (ho' : o' ∈ c0.opts) howns' hvar' => by rw [honly o' ho' howns' hvar',
        hpushes]) hrun
    obtain ⟨opts, m, hrun3, rfl⟩ := mConfigPop_eq hpop
    exact (hend.pop_value hrun3).2

/-! ## `-fs` and `-nofs` -/

/-- Doubles that are integers, which is enough for the options here. -/
def intDoubles : Doubles Int where
  ofInt n := n
  toInt n := n
  toFloat n := n
  lt a b := decide (a < b)
  add := (· + ·)
  sub := (· - ·)
  mul := (· * ·)
  div := (· / ·)
  strtod := strtoll 10
  scanLf := scanD
  fraction s := (0, s)
  nopts := -0x8000000000000000

/-- The options `fs` and `nofs` of one variable. -/
def fsOptions : List (MOption (OptType Int)) :=
  [.plain ⟨"fs".toList, some 0, .flag ⟨0, 1, false, false⟩, {}⟩,
    .plain ⟨"nofs".toList, some 0, .flag ⟨1, 0, false, false⟩, {}⟩]

/-- A config with these options on the command line, before anything is set. -/
def fsConfig : MConfig (OptType Int) (OptVal Int) :=
  { mConfigRegisterOptions (mOptionTypes intDoubles) fsOptions (.new fun _ => .int 0) with
    mode := .commandLine }

theorem fsConfig_reachable : fsConfig.Reachable (mOptionTypes intDoubles) :=
  ⟨_, _, ⟨_, rfl⟩, (Run.single (.register fsOptions _)).tail (.mode .commandLine _)⟩

theorem flag_faithful {opt : PlainOption (OptType Int)} {range : OptRange Int}
    (h : opt.type = .flag range) : Faithful (mOptionTypes intDoubles) opt := by
  refine ⟨?_, ?_, ?_⟩
  · intro d v
    simp [mOptionTypes, h, OptType.copies, OptType.copy]
  · intro old v
    simp [mOptionTypes, h, OptType.copies, OptType.copy]
  · intro d v
    simp [mOptionTypes, h, OptType.copy]

theorem fs_faithful {c : MConfig (OptType Int) (OptVal Int)}
    (hopts : c.opts.map (·.opt) = fsOptions.reverse) : ∀ co ∈ c.opts, ∀ opt,
      co.opt = .plain opt → opt.p = some 0 → Faithful (mOptionTypes intDoubles) opt := by
  intro co hco opt hopt _
  have hmem : co.opt ∈ fsOptions.reverse := hopts ▸ List.mem_map_of_mem hco
  rw [hopt] at hmem
  simp only [fsOptions, List.reverse_cons, List.reverse_nil, List.nil_append,
    List.cons_append, List.mem_cons, List.not_mem_nil, or_false, MOption.plain.injEq] at hmem
  rcases hmem with rfl | rfl
  · exact flag_faithful rfl
  · exact flag_faithful rfl

/-- The config after a push. -/
def fsPushed : MConfig (OptType Int) (OptVal Int) :=
  (mConfigPush (mOptionTypes intDoubles) fsConfig).get (by decide)

/-- The config after a push and `-fs`. -/
def fsSet : MConfig (OptType Int) (OptVal Int) :=
  ((mConfigSetOption (mOptionTypes intDoubles) 1 fsPushed "fs".toList none).get (by decide)).2

theorem fsPushed_eq : mConfigPush (mOptionTypes intDoubles) fsConfig = some fsPushed :=
  (Option.some_get _).symm

theorem fsSet_eq :
    mConfigSetOption (mOptionTypes intDoubles) 1 fsPushed "fs".toList none = some (0, fsSet) :=
  rfl

/-- `-fs` for one file is undone. -/
theorem config_pop_restores_fs : ∃ c3, mConfigPop (mOptionTypes intDoubles) fsSet = some c3 ∧
    c3.store.vars 0 = fsConfig.store.vars 0 := by
  refine config_pop_restores fsConfig_reachable fsPushed_eq
    ⟨_, List.mem_cons_self, rfl, rfl, rfl, rfl⟩ (fs_faithful rfl)
    (Nested.step .refl (.set fsSet_eq ?_))
  intro i hi co hco _
  have hset : optionsSet (mOptionTypes intDoubles) 1 fsPushed "fs".toList none true = [1] := by
    decide
  rw [hset] at hi
  cases List.mem_singleton.mp hi
  have hco' : co = ⟨"fs".toList, fsOptions[0], [⟨2, 2⟩, ⟨1, 1⟩, ⟨0, 0⟩], false, false⟩ :=
    (Option.some.inj hco).symm
  refine ⟨_, List.mem_cons_of_mem _ List.mem_cons_self, ⟨rfl, _, rfl⟩, rfl, rfl, fun halias => ?_⟩
  rw [hco'] at halias
  cases halias

/-- The config once `-fs` is set for all files. -/
def fsGlobal : MConfig (OptType Int) (OptVal Int) :=
  ((mConfigSetOption (mOptionTypes intDoubles) 1 fsConfig "fs".toList none).get (by decide)).2

theorem fsGlobal_eq :
    mConfigSetOption (mOptionTypes intDoubles) 1 fsConfig "fs".toList none = some (0, fsGlobal) :=
  rfl

/-- `-nofs` for one file stays when the file ends: it was stored into the slot in which the
push had saved that `-fs` is set. -/
theorem config_pop_leaks : ∃ (c0 c1 c2 c3 : MConfig (OptType Int) (OptVal Int)) (r : Int),
    c0.Reachable (mOptionTypes intDoubles) ∧
    (∀ co ∈ c0.opts, co.opt.flags = {}) ∧ (∃ co ∈ c0.opts, co.opt.var = some 0) ∧
    (∀ co ∈ c0.opts, ∀ opt, co.opt = .plain opt → opt.p = some 0 →
      Faithful (mOptionTypes intDoubles) opt) ∧
    mConfigPush (mOptionTypes intDoubles) c0 = some c1 ∧
    mConfigSetOption (mOptionTypes intDoubles) 1 c1 "nofs".toList none = some (r, c2) ∧ 0 ≤ r ∧
    mConfigPop (mOptionTypes intDoubles) c2 = some c3 ∧
    c0.store.vars 0 = .int 1 ∧ c3.store.vars 0 = .int 0 := by
  refine ⟨fsGlobal, (mConfigPush (mOptionTypes intDoubles) fsGlobal).get (by decide), _, _, 0,
    fsConfig_reachable.extend (.set fsGlobal_eq), by decide, ⟨_, List.mem_cons_self, rfl⟩,
    fs_faithful rfl, (Option.some_get _).symm, rfl, Int.le_refl 0, rfl, rfl, rfl⟩

end MPlayer
