import MPlayer.Config.Calls
import MPlayer.Lib.Run

/-!
# Sound configs

What holds of every config that the functions of `m_config` produce: an option that is
not an alias owns a stack of slots, the slots of different variables are different, and
every alias has an option that owns the slots of its variable.
-/

namespace MPlayer

variable {T V : Type} {types : MOptionTypes T V}

/-! ## Loops over the options -/

variable {f : ConfigOption T → Store V → Option (ConfigOption T × Store V)}
  {co co' o : ConfigOption T} {lvl : Nat} {pre post opts : List (ConfigOption T)} {m m' : Store V}
  {opt : PlainOption T} {d : V} {c : MConfig T V}

/-- What a loop over the options keeps, said of the options that are done and of those that
are not. -/
theorem overOpts_invariant {f : ConfigOption T → Store V → Option (ConfigOption T × Store V)}
    {I : List (ConfigOption T) → Store V → Prop}
    (hstep : ∀ pre co post m co' m', I (pre ++ co :: post) m → f co m = some (co', m') →
      I (pre ++ co' :: post) m') :
    ∀ {opts opts' : List (ConfigOption T)} {m m' : Store V} (pre : List (ConfigOption T)),
      overOpts f opts m = some (opts', m') → I (pre ++ opts) m → I (pre ++ opts') m'
  | [], opts', m, m', pre, h, hI => by
    cases h
    exact hI
  | co :: opts, opts', m, m', pre, h, hI => by
    simp only [overOpts, Option.bind_eq_some_iff, Option.map_eq_some_iff] at h
    obtain ⟨⟨co', m1⟩, hco, ⟨rest, m2⟩, hrest, heq⟩ := h
    cases heq
    have hhead := hstep pre co opts m co' m1 hI hco
    have htail := overOpts_invariant hstep (pre ++ [co']) hrest (by simpa using hhead)
    simpa using htail

/-- A loop over the options whose rounds all end ends. -/
theorem overOpts_isSome {f : ConfigOption T → Store V → Option (ConfigOption T × Store V)}
    {I : List (ConfigOption T) → Store V → Prop}
    (hstep : ∀ pre co post m co' m', I (pre ++ co :: post) m → f co m = some (co', m') →
      I (pre ++ co' :: post) m')
    (hsome : ∀ pre co post m, I (pre ++ co :: post) m → (f co m).isSome) :
    ∀ {opts : List (ConfigOption T)} {m : Store V} (pre : List (ConfigOption T)),
      I (pre ++ opts) m → ∃ opts' m', overOpts f opts m = some (opts', m')
  | [], m, _, _ => ⟨[], m, rfl⟩
  | co :: opts, m, pre, hI => by
    obtain ⟨⟨co', m1⟩, hco⟩ := Option.isSome_iff_exists.mp (hsome pre co opts m hI)
    have hhead := hstep pre co opts m co' m1 hI hco
    obtain ⟨rest, m2, hrest⟩ :=
      overOpts_isSome hstep hsome (pre ++ [co']) (by simpa using hhead)
    exact ⟨co' :: rest, m2, by simp [overOpts, hco, hrest]⟩

/-! ## Soundness -/

/-- The slots of an option. -/
def ConfigOption.ids (co : ConfigOption T) : List Nat := co.slots.map (·.id)

/-- Whether an option has slots of its own. -/
def ConfigOption.Owns (co : ConfigOption T) : Prop :=
  co.isAlias = false ∧ ∃ opt, co.opt = .plain opt

/-- Two options of one variable. -/
def SameVar (co co' : ConfigOption T) : Prop :=
  ∃ a, co.opt.var = some a ∧ co'.opt.var = some a

/-- Two options, the first of which was registered later: they have no slot in common
unless they are of one variable, and the later one is an alias then. -/
def Apart (co co' : ConfigOption T) : Prop :=
  (¬ SameVar co co' → ∀ id ∈ co.ids, id ∉ co'.ids) ∧ (SameVar co co' → co.isAlias = true)

/-- A stack of slots over the one of the defaults. -/
structure SlotsOk (m : Store V) (slots : List SaveSlot) : Prop where
  base : ∃ s ∈ slots, s.lvl = 0
  live : ∀ s ∈ slots, (m.data s.id).isSome
  nodup : (slots.map (·.id)).Nodup

/-- What holds of the options and the store of a config of level `lvl`. -/
structure SoundAt (lvl : Nat) (opts : List (ConfigOption T)) (m : Store V) : Prop where
  slots : ∀ co ∈ opts, co.Owns → SlotsOk m co.slots
  le : ∀ co ∈ opts, co.Owns → co.pops = true → ∀ s, co.slots.head? = some s → s.lvl ≤ lvl
  apart : opts.Pairwise Apart
  lt : ∀ co ∈ opts, ∀ id ∈ co.ids, id < m.next
  owner : ∀ co ∈ opts, co.isAlias = true → ∃ o ∈ opts, o.Owns ∧ SameVar co o

/-- A config that the functions of `m_config` can produce. -/
structure MConfig.Sound (c : MConfig T V) : Prop where
  lvl_pos : 1 ≤ c.lvl
  soundAt : SoundAt c.lvl c.opts c.store

/-! ## Options and their places -/

theorem SameVar.symm (h : SameVar co co') : SameVar co' co := by
  obtain ⟨a, ha, ha'⟩ := h
  exact ⟨a, ha', ha⟩

theorem Apart.disjoint_symm (h : Apart co co') (hvar : ¬ SameVar co' co) :
    ∀ id ∈ co'.ids, id ∉ co.ids := fun id hid' hid =>
  h.1 (fun hs => hvar hs.symm) id hid hid'

/-- The other options have no slot in common with an option of another variable. -/
theorem SoundAt.others (h : SoundAt lvl (pre ++ co :: post) m) (ho : o ∈ pre ∨ o ∈ post)
    (hvar : ¬ SameVar co o) : ∀ id ∈ co.ids, id ∉ o.ids := by
  obtain ⟨_, hcons, hpre⟩ := List.pairwise_append.mp h.apart
  cases ho with
  | inl ho => exact (hpre o ho co List.mem_cons_self).disjoint_symm hvar
  | inr ho => exact ((List.pairwise_cons.mp hcons).1 o ho).1 hvar

/-- Of the options of one variable only one has slots of its own. -/
theorem SoundAt.owns_unique (h : SoundAt lvl (pre ++ co :: post) m) (hco : co.Owns)
    (ho : o ∈ pre ∨ o ∈ post) (howns : o.Owns) : ¬ SameVar co o := by
  intro hvar
  obtain ⟨_, hcons, hpre⟩ := List.pairwise_append.mp h.apart
  cases ho with
  | inl ho =>
    have halias := (hpre o ho co List.mem_cons_self).2 hvar.symm
    rw [howns.1] at halias
    cases halias
  | inr ho =>
    have halias := ((List.pairwise_cons.mp hcons).1 o ho).2 hvar
    rw [hco.1] at halias
    cases halias

/-! ## Changing one option -/

/-- The same option with other slots or another flag `M_CFG_OPT_SET`. -/
structure SameOption (co co' : ConfigOption T) : Prop where
  name : co'.name = co.name
  opt : co'.opt = co.opt
  isAlias : co'.isAlias = co.isAlias

theorem SameOption.sameVar_left (h : SameOption co co') : SameVar co' o ↔ SameVar co o := by
  rw [SameVar, SameVar, h.opt]

theorem SameOption.sameVar_right (h : SameOption co co') : SameVar o co' ↔ SameVar o co := by
  rw [SameVar, SameVar, h.opt]

theorem SameOption.owns (h : SameOption co co') : co'.Owns ↔ co.Owns := by
  rw [ConfigOption.Owns, ConfigOption.Owns, h.opt, h.isAlias]

theorem SameOption.pops (h : SameOption co co') : co'.pops = co.pops := by
  rw [ConfigOption.pops, ConfigOption.pops, h.opt, h.isAlias]

/-- A store with the same slots and more. -/
structure StoreGrows (keep : Nat → Prop) (m m' : Store V) : Prop where
  next : m.next ≤ m'.next
  live : ∀ id, keep id → (m.data id).isSome → (m'.data id).isSome

/-- A config stays sound when one option gets slots of its own or new ones, and no slot of
the other options is freed. -/
theorem SoundAt.replace (h : SoundAt lvl (pre ++ co :: post) m) (hsame : SameOption co co')
    (hids : ∀ id ∈ co'.ids, id ∈ co.ids ∨ m.next ≤ id ∧ id < m'.next)
    (hgrows : StoreGrows (fun id => co.Owns → id ∉ co.ids) m m')
    (hslots : co'.Owns → SlotsOk m' co'.slots)
    (hle : co'.Owns → co'.pops = true → ∀ s, co'.slots.head? = some s → s.lvl ≤ lvl) :
    SoundAt lvl (pre ++ co' :: post) m' := by
  have hsplit : ∀ {o : ConfigOption T} {x : ConfigOption T}, o ∈ pre ++ x :: post →
      o = x ∨ o ∈ pre ∨ o ∈ post := by
    intro o x ho
    simp only [List.mem_append, List.mem_cons] at ho
    rcases ho with ho | ho | ho
    · exact Or.inr (Or.inl ho)
    · exact Or.inl ho
    · exact Or.inr (Or.inr ho)
  have hmem : ∀ {o : ConfigOption T} (x : ConfigOption T), o ∈ pre ∨ o ∈ post →
      o ∈ pre ++ x :: post := by
    intro o x ho
    simp only [List.mem_append, List.mem_cons]
    exact ho.imp id Or.inr
  have hfresh : ∀ {o : ConfigOption T}, o ∈ pre ∨ o ∈ post → ¬ SameVar co o →
      ∀ id ∈ co'.ids, id ∉ o.ids := by
    intro o ho hvar id hid hid'
    cases hids id hid with
    | inl hold => exact h.others ho hvar id hold hid'
    | inr hnew =>
      have hlt := h.lt o (hmem co ho) id hid'
      omega
  refine ⟨?_, ?_, ?_, ?_, ?_⟩
  · intro o ho howns
    cases hsplit ho with
    | inl heq => exact heq ▸ hslots (heq ▸ howns)
    | inr ho =>
      have hok := h.slots o (hmem co ho) howns
      refine ⟨hok.base, fun s hs => ?_, hok.nodup⟩
      refine hgrows.live s.id (fun hco hid => ?_) (hok.live s hs)
      exact h.others ho (h.owns_unique hco ho howns) s.id hid (List.mem_map_of_mem hs)
  · intro o ho howns hpops
    cases hsplit ho with
    | inl heq => exact heq ▸ hle (heq ▸ howns) (heq ▸ hpops)
    | inr ho => exact h.le o (hmem co ho) howns hpops
  · obtain ⟨hl, hcons, hpre⟩ := List.pairwise_append.mp h.apart
    obtain ⟨hhead, hr⟩ := List.pairwise_cons.mp hcons
    refine List.pairwise_append.mpr ⟨hl, List.pairwise_cons.mpr ⟨?_, hr⟩, ?_⟩
    · intro o ho
      refine ⟨fun hvar => hfresh (Or.inr ho) fun hs => hvar (hsame.sameVar_left.mpr hs), ?_⟩
      intro hvar
      rw [hsame.isAlias]
      exact (hhead o ho).2 (hsame.sameVar_left.mp hvar)
    · intro o ho x hx
      cases List.mem_cons.mp hx with
      | inr hx => exact hpre o ho x (List.mem_cons_of_mem _ hx)
      | inl hx =>
        subst hx
        refine ⟨fun hvar id hid hid' => ?_, fun hvar => ?_⟩
        · exact hfresh (Or.inl ho) (fun hs => hvar (hsame.sameVar_right.mpr hs.symm)) id hid' hid
        · exact (hpre o ho co List.mem_cons_self).2 (hsame.sameVar_right.mp hvar)
  · intro o ho id hid
    cases hsplit ho with
    | inl heq =>
      subst heq
      cases hids id hid with
      | inl hold =>
        have hlt := h.lt co (by simp) id hold
        exact Nat.lt_of_lt_of_le hlt hgrows.next
      | inr hnew => exact hnew.2
    | inr ho => exact Nat.lt_of_lt_of_le (h.lt o (hmem co ho) id hid) hgrows.next
  · intro o ho halias
    have hold : ∃ x ∈ pre ++ co :: post, x.Owns ∧ SameVar o x := by
      cases hsplit ho with
      | inl heq =>
        subst heq
        obtain ⟨x, hx, howns, hvar⟩ := h.owner co (by simp) (hsame.isAlias ▸ halias)
        exact ⟨x, hx, howns, hsame.sameVar_left.mpr hvar⟩
      | inr ho => exact h.owner o (hmem co ho) halias
    obtain ⟨x, hx, howns, hvar⟩ := hold
    cases hsplit hx with
    | inl heq =>
      subst heq
      exact ⟨co', by simp, hsame.owns.mpr howns, hsame.sameVar_right.mpr hvar⟩
    | inr hx => exact ⟨x, hmem co' hx, howns, hvar⟩

/-! ## Push -/

/-- What one round of the loop of `m_config_push` does. -/
theorem pushOption_cases (h : pushOption types lvl co m = some (co', m')) :
    (co' = co ∧ m' = m) ∨
    ∃ opt top rest d, co.opt = .plain opt ∧ co.pushes = true ∧ co.slots = top :: rest ∧
      m.data top.id = some d ∧
      co' = { co with slots := ⟨m.next, lvl⟩ :: co.slots, isSet := false } ∧
      m' = (m.write top.id (types.save opt d (m.read opt.p))).alloc
        (types.copy opt (types.zero opt.type) (types.save opt d (m.read opt.p))) := by
  unfold pushOption at h
  split at h
  · cases h
    exact Or.inl ⟨rfl, rfl⟩
  case h_2 opt hopt =>
    cases hpush : co.pushes with
    | false =>
      rw [hpush] at h
      cases h
      exact Or.inl ⟨rfl, rfl⟩
    | true =>
      rw [hpush] at h
      cases hslots : co.slots with
      | nil =>
        rw [hslots] at h
        cases h
      | cons top rest =>
        simp only [hslots, Bool.not_true, Bool.false_eq_true, if_false, Option.map_eq_some_iff] at h
        obtain ⟨d, hd, heq⟩ := h
        cases heq
        exact Or.inr ⟨opt, top, rest, d, hopt, rfl, rfl, hd, rfl, rfl⟩

theorem pushOption_same (h : pushOption types lvl co m = some (co', m')) : SameOption co co' := by
  rcases pushOption_cases h with ⟨rfl, -⟩ | ⟨_, _, _, _, _, _, _, _, rfl, -⟩
  · exact ⟨rfl, rfl, rfl⟩
  · exact ⟨rfl, rfl, rfl⟩

theorem ConfigOption.pushes_owns (hopt : co.opt = .plain opt) (h : co.pushes = true) : co.Owns := by
  simp only [ConfigOption.pushes, Bool.and_eq_true, Bool.not_eq_true'] at h
  exact ⟨h.2, opt, hopt⟩

theorem Store.write_isSome {i j : Nat} (h : (m.data j).isSome) : ((m.write i d).data j).isSome := by
  simp only [Store.write]
  split
  · rfl
  · exact h

theorem Store.alloc_isSome {j : Nat} (h : (m.data j).isSome) :
    ((m.alloc d).data j).isSome := Store.write_isSome h

theorem Store.alloc_next_isSome : ((m.alloc d).data m.next).isSome := by
  simp [Store.alloc, Store.write]

theorem SoundAt.pushOption (h : SoundAt lvl (pre ++ co :: post) m)
    (hpush : pushOption types lvl co m = some (co', m')) : SoundAt lvl (pre ++ co' :: post) m' := by
  have hsame := pushOption_same hpush
  rcases pushOption_cases hpush with ⟨rfl, rfl⟩ | ⟨opt, top, rest, d, hopt, hp, hslots, hd, hco, hm⟩
  · exact h
  have howns := co.pushes_owns hopt hp
  have hok := h.slots co (by simp) howns
  have hlt := h.lt co (by simp)
  have hslots' : co'.slots = ⟨m.next, lvl⟩ :: co.slots := by rw [hco]
  have hgrow : ∀ id, (m.data id).isSome → (m'.data id).isSome := by
    intro id hid
    rw [hm]
    exact Store.alloc_isSome (Store.write_isSome hid)
  refine h.replace hsame ?_ ⟨?_, fun id _ => hgrow id⟩ (fun _ => ⟨?_, ?_, ?_⟩) ?_
  · intro id hid
    rw [ConfigOption.ids, hslots', List.map_cons, List.mem_cons] at hid
    cases hid with
    | inl hnew => exact Or.inr ⟨Nat.le_of_eq hnew.symm, by rw [hm, hnew]; exact Nat.lt_succ_self _⟩
    | inr hold => exact Or.inl hold
  · rw [hm]
    exact Nat.le_succ _
  · obtain ⟨s, hs, hbase⟩ := hok.base
    exact ⟨s, by rw [hslots']; exact List.mem_cons_of_mem _ hs, hbase⟩
  · intro s hs
    rw [hslots'] at hs
    cases List.mem_cons.mp hs with
    | inl hnew =>
      rw [hnew, hm]
      exact Store.alloc_next_isSome
    | inr hold => exact hgrow s.id (hok.live s hold)
  · rw [hslots', List.map_cons]
    refine List.nodup_cons.mpr ⟨fun hmem => ?_, hok.nodup⟩
    exact Nat.lt_irrefl _ (hlt m.next hmem)
  · intro _ _ s hs
    rw [hslots', List.head?_cons] at hs
    cases hs
    exact Nat.le_refl _

theorem SoundAt.pushOption_isSome (h : SoundAt lvl (pre ++ co :: post) m) :
    (MPlayer.pushOption types lvl co m).isSome := by
  unfold MPlayer.pushOption
  split
  · rfl
  case h_2 opt hopt =>
    cases hpush : co.pushes with
    | false => rfl
    | true =>
      have hok := h.slots co (by simp) (co.pushes_owns hopt hpush)
      cases hslots : co.slots with
      | nil =>
        obtain ⟨s, hs, _⟩ := hok.base
        rw [hslots] at hs
        cases hs
      | cons top rest =>
        have hlive := hok.live top (by rw [hslots]; exact List.mem_cons_self)
        simpa using hlive

theorem SoundAt.mono {lvl' : Nat} (h : SoundAt lvl opts m) (hle : lvl ≤ lvl') :
    SoundAt lvl' opts m :=
  ⟨h.slots, fun co hco ho hp s hs => Nat.le_trans (h.le co hco ho hp s hs) hle, h.apart, h.lt,
    h.owner⟩

/-- `m_config_push` returns and keeps the config sound. -/
theorem MConfig.Sound.push (types : MOptionTypes T V) (h : c.Sound) :
    ∃ c', mConfigPush types c = some c' ∧ c'.Sound := by
  have h0 : SoundAt (c.lvl + 1) ([] ++ c.opts) c.store := h.soundAt.mono (Nat.le_succ _)
  obtain ⟨opts', m', hrun⟩ := overOpts_isSome (f := pushOption types (c.lvl + 1))
    (I := SoundAt (c.lvl + 1)) (fun _ _ _ _ _ _ hI hf => hI.pushOption hf)
    (fun _ _ _ _ hI => hI.pushOption_isSome) [] h0
  have hend := overOpts_invariant (I := SoundAt (c.lvl + 1))
    (fun _ _ _ _ _ _ hI hf => hI.pushOption hf) [] hrun h0
  refine ⟨{ c with opts := opts', lvl := c.lvl + 1, store := m' }, ?_, ?_⟩
  · rw [mConfigPush, hrun]
    rfl
  · exact ⟨Nat.le_add_left 1 _, hend⟩

/-! ## Pop -/

/-- The store after slots were freed. -/
def Store.freeAll (m : Store V) (slots : List SaveSlot) : Store V :=
  { m with data := fun id => if id ∈ slots.map (·.id) then none else m.data id }

theorem Store.freeAll_data {slots : List SaveSlot} {id : Nat} (h : id ∉ slots.map (·.id)) :
    (m.freeAll slots).data id = m.data id := if_neg h

/-- What the loop that drops slots does. -/
theorem dropSlots_eq (lvl : Nat) : ∀ (slots : List SaveSlot) (m : Store V),
    ∃ dropped kept, slots = dropped ++ kept ∧ (∀ s ∈ dropped, lvl ≤ s.lvl) ∧
      (∀ s, kept.head? = some s → s.lvl < lvl) ∧ dropSlots lvl slots m = (kept, m.freeAll dropped)
  | [], m => ⟨[], [], rfl, by simp, by simp, by simp [dropSlots, Store.freeAll]⟩
  | s :: slots, m => by
    rw [dropSlots]
    split
    case isTrue hle =>
      obtain ⟨dropped, kept, happ, hge, hlt, heq⟩ := dropSlots_eq lvl slots (m.free s.id)
      refine ⟨s :: dropped, kept, by rw [happ]; rfl, ?_, hlt, ?_⟩
      · intro x hx
        cases List.mem_cons.mp hx with
        | inl hx => exact hx ▸ hle
        | inr hx => exact hge x hx
      · rw [heq]
        congr 1
        simp only [Store.freeAll, Store.free, List.map_cons, List.mem_cons]
        congr 1
        funext id
        by_cases hid : id ∈ dropped.map (·.id)
        · rw [if_pos hid, if_pos (Or.inr hid)]
        · rw [if_neg hid]
          by_cases heq : id = s.id
          · rw [if_pos heq, if_pos (Or.inl heq)]
          · rw [if_neg heq, if_neg (not_or.mpr ⟨heq, hid⟩)]
    case isFalse hnot =>
      refine ⟨[], s :: slots, rfl, by simp, ?_, by simp [Store.freeAll]⟩
      intro x hx
      cases hx
      exact Nat.lt_of_not_le hnot

/-- The ways in which a round of the loop of `m_config_pop` ends. -/
inductive PopRound (types : MOptionTypes T V) (lvl : Nat) (co : ConfigOption T) (m : Store V) :
    ConfigOption T → Store V → Prop where
  | skip (h : co.pops = false ∨ ¬ ∃ opt, co.opt = .plain opt) : PopRound types lvl co m co m
  | kept {s : SaveSlot} (hhead : co.slots.head? = some s) (hlt : s.lvl < lvl) :
      PopRound types lvl co m co m
  | popped {opt : PlainOption T} {dropped rest : List SaveSlot} {top : SaveSlot} {d : V}
      (hopt : co.opt = .plain opt) (hpops : co.pops = true)
      (hslots : co.slots = dropped ++ top :: rest) (hge : ∀ s ∈ dropped, lvl ≤ s.lvl)
      (hne : dropped ≠ []) (hlt : top.lvl < lvl)
      (hdata : (m.freeAll dropped).data top.id = some d) :
      PopRound types lvl co m { co with slots := top :: rest }
        (types.setVar opt d (m.freeAll dropped))

theorem popOption_cases (h : popOption types lvl co m = some (co', m')) :
    PopRound types lvl co m co' m' := by
  unfold popOption at h
  split at h
  case h_1 name children flags hopt =>
    cases h
    refine .skip (Or.inr ?_)
    rintro ⟨opt, hopt'⟩
    rw [hopt] at hopt'
    cases hopt'
  case h_2 opt hopt =>
    cases hpops : co.pops with
    | false =>
      rw [hpops] at h
      cases h
      exact .skip (Or.inl hpops)
    | true =>
      obtain ⟨dropped, kept, happ, hge, hlt, heq⟩ := dropSlots_eq lvl co.slots m
      rw [hpops, heq] at h
      cases kept with
      | nil => cases h
      | cons top rest =>
        simp only [Bool.not_true, Bool.false_eq_true, if_false] at h
        have htop := hlt top rfl
        have hlen : rest.length + 1 = co.slots.length ↔ dropped = [] := by
          rw [happ, List.length_append, List.length_cons, ← List.length_eq_zero_iff]
          omega
        split at h
        case isTrue hall =>
          cases hlen.mp hall
          have hm : m.freeAll [] = m := by simp [Store.freeAll]
          rw [hm] at h
          cases h
          exact .kept (by rw [happ]; rfl) htop
        case isFalse hsome =>
          obtain ⟨d, hd, heq'⟩ := Option.map_eq_some_iff.mp h
          cases heq'
          exact .popped hopt hpops happ hge (fun hnil => hsome (hlen.mpr hnil)) htop hd

theorem popOption_same (h : popOption types lvl co m = some (co', m')) : SameOption co co' := by
  cases popOption_cases h with
  | skip _ => exact ⟨rfl, rfl, rfl⟩
  | kept _ _ => exact ⟨rfl, rfl, rfl⟩
  | popped _ _ _ _ _ _ _ => exact ⟨rfl, rfl, rfl⟩

theorem Store.assign_data (m : Store V) (p : Option Nat) (v : Option V) :
    (m.assign p v).data = m.data := by
  unfold Store.assign
  split
  · rfl
  · rfl

theorem Store.assign_next (m : Store V) (p : Option Nat) (v : Option V) :
    (m.assign p v).next = m.next := by
  unfold Store.assign
  split
  · rfl
  · rfl

theorem ConfigOption.pops_owns (hopt : co.opt = .plain opt) (h : co.pops = true) : co.Owns := by
  simp only [ConfigOption.pops, Bool.and_eq_true, Bool.not_eq_true'] at h
  exact ⟨h.2, opt, hopt⟩

theorem SoundAt.popOption (hpos : 1 ≤ lvl) (h : SoundAt lvl (pre ++ co :: post) m)
    (hpop : popOption types lvl co m = some (co', m')) : SoundAt lvl (pre ++ co' :: post) m' := by
  have hsame := popOption_same hpop
  cases popOption_cases hpop with
  | skip _ => exact h
  | kept _ _ => exact h
  | @popped opt dropped rest top d hopt hpops hslots hge hne hlt hdata =>
    have howns := co.pops_owns hopt hpops
    have hok := h.slots co (by simp) howns
    have hids : co.ids = dropped.map (·.id) ++ (top :: rest).map (·.id) := by
      rw [ConfigOption.ids, hslots, List.map_append]
    have hnodup : (dropped.map (·.id) ++ (top :: rest).map (·.id)).Nodup := by
      rw [← hids]
      exact hok.nodup
    have hdisj := (List.nodup_append.mp hnodup).2.2
    have hdata' : ∀ id, id ∉ dropped.map (·.id) →
        (types.setVar opt d (m.freeAll dropped)).data id = m.data id := by
      intro id hid
      rw [MOptionTypes.setVar, Store.assign_data, Store.freeAll_data hid]
    refine h.replace hsame ?_ ⟨?_, ?_⟩ (fun _ => ⟨?_, ?_, ?_⟩) ?_
    · intro id hid
      rw [hids]
      exact Or.inl (List.mem_append_right _ hid)
    · rw [MOptionTypes.setVar, Store.assign_next]
      exact Nat.le_refl _
    · intro id hid hlive
      have hnot : id ∉ dropped.map (·.id) := by
        intro hmem
        exact hid howns (hids ▸ List.mem_append_left _ hmem)
      rw [hdata' id hnot]
      exact hlive
    · obtain ⟨s, hs, hbase⟩ := hok.base
      rw [hslots] at hs
      cases List.mem_append.mp hs with
      | inl hd =>
        have hle := hge s hd
        rw [hbase] at hle
        exact absurd hle (Nat.not_le_of_lt hpos)
      | inr hk => exact ⟨s, hk, hbase⟩
    · intro s hs
      have hmem : s ∈ co.slots := by
        rw [hslots]
        exact List.mem_append_right _ hs
      rw [hdata' s.id fun hd => hdisj _ hd _ (List.mem_map_of_mem hs) rfl]
      exact hok.live s hmem
    · exact (List.nodup_append.mp hnodup).2.1
    · intro _ _ s hs
      cases hs
      exact Nat.le_of_lt hlt

theorem SoundAt.popOption_isSome (hpos : 1 ≤ lvl) (h : SoundAt lvl (pre ++ co :: post) m) :
    (MPlayer.popOption types lvl co m).isSome := by
  unfold MPlayer.popOption
  split
  · rfl
  case h_2 opt hopt =>
    cases hpops : co.pops with
    | false => rfl
    | true =>
      have hok := h.slots co (by simp) (co.pops_owns hopt hpops)
      obtain ⟨dropped, kept, happ, hge, hlt, heq⟩ := dropSlots_eq lvl co.slots m
      rw [heq]
      cases kept with
      | nil =>
        obtain ⟨s, hs, hbase⟩ := hok.base
        have hle := hge s (by simpa [happ] using hs)
        rw [hbase] at hle
        exact absurd hle (Nat.not_le_of_lt hpos)
      | cons top rest =>
        have hnodup := hok.nodup
        rw [happ, List.map_append] at hnodup
        have hdisj := (List.nodup_append.mp hnodup).2.2
        have hlive := hok.live top (by rw [happ]; simp)
        have hnot : top.id ∉ dropped.map (·.id) := fun hd =>
          hdisj _ hd _ (List.mem_map_of_mem List.mem_cons_self) rfl
        rw [← Store.freeAll_data (m := m) hnot] at hlive
        simp only [Bool.not_true, Bool.false_eq_true, if_false]
        split
        · rfl
        · simpa using hlive

/-- Every option that a loop leaves comes from a round of the loop. -/
theorem overOpts_mem :
    ∀ {opts opts' : List (ConfigOption T)} {m m' : Store V}, overOpts f opts m = some (opts', m') →
      ∀ co' ∈ opts', ∃ co m1 m2, f co m1 = some (co', m2)
  | [], _, _, _, h, _, hmem => by
    cases h
    cases hmem
  | co :: opts, _, m, _, h, co', hmem => by
    simp only [overOpts, Option.bind_eq_some_iff, Option.map_eq_some_iff] at h
    obtain ⟨⟨co1, m1⟩, hco, ⟨rest, m2⟩, hrest, heq⟩ := h
    cases heq
    cases List.mem_cons.mp hmem with
    | inl heq => exact ⟨co, m, m1, heq ▸ hco⟩
    | inr hmem => exact overOpts_mem hrest co' hmem

/-- `m_config_pop` of a level that was pushed returns and keeps the config sound. -/
theorem MConfig.Sound.pop (types : MOptionTypes T V) (h : c.Sound) (hlvl : 1 < c.lvl) :
    ∃ c', mConfigPop types c = some c' ∧ c'.Sound := by
  have hpos := h.lvl_pos
  have h0 : SoundAt c.lvl ([] ++ c.opts) c.store := h.soundAt
  obtain ⟨opts', m', hrun⟩ := overOpts_isSome (f := popOption types c.lvl)
    (I := SoundAt c.lvl) (fun _ _ _ _ _ _ hI hf => hI.popOption hpos hf)
    (fun _ _ _ _ hI => hI.popOption_isSome hpos) [] h0
  have hend : SoundAt c.lvl opts' m' := overOpts_invariant (I := SoundAt c.lvl)
    (fun _ _ _ _ _ _ hI hf => hI.popOption hpos hf) [] hrun h0
  refine ⟨{ c with opts := opts', lvl := c.lvl - 1, store := m' }, ?_, ?_⟩
  · rw [mConfigPop, hrun]
    rfl
  · refine ⟨show 1 ≤ c.lvl - 1 by omega, hend.slots, ?_, hend.apart, hend.lt, hend.owner⟩
    intro co' hmem howns hpops s hs
    show s.lvl ≤ c.lvl - 1
    have hlt : s.lvl < c.lvl := by
      obtain ⟨co, m1, m2, hf⟩ := overOpts_mem hrun co' hmem
      cases popOption_cases hf with
      | skip hskip =>
        cases hskip with
        | inl hno =>
          rw [hno] at hpops
          cases hpops
        | inr hno => exact absurd howns.2 hno
      | kept hhead hlt =>
        rw [hhead] at hs
        cases hs
        exact hlt
      | popped _ _ _ _ _ hlt _ =>
        cases hs
        exact hlt
    omega

/-! ## Setting options -/

theorem SoundAt.store (h : SoundAt lvl opts m) (hgrows : StoreGrows (fun _ => True) m m') :
    SoundAt lvl opts m' where
  slots co hco howns :=
    let hok := h.slots co hco howns
    ⟨hok.base, fun s hs => hgrows.live s.id trivial (hok.live s hs), hok.nodup⟩
  le := h.le
  apart := h.apart
  lt co hco id hid := Nat.lt_of_lt_of_le (h.lt co hco id hid) hgrows.next
  owner := h.owner

theorem parsePlain_grows {mode : ParserMode} {slots : List SaveSlot} {arg : CStr}
    {param : Option CStr} {r : Int}
    (h : parsePlain types mode opt slots arg param true m = some (r, m')) :
    StoreGrows (fun _ => True) m m' := by
  obtain ⟨top, rest, old, d, _, _, _, rfl⟩ := parsePlain_stores h
  split
  · exact ⟨Nat.le_refl _, fun _ _ hid => Store.write_isSome hid⟩
  · refine ⟨?_, fun id _ hid => ?_⟩
    · rw [MOptionTypes.setVar, Store.assign_next]
      exact Nat.le_refl _
    · rw [MOptionTypes.setVar, Store.assign_data]
      exact Store.write_isSome hid

/-- Marking an option leaves all of it but the mark. -/
theorem MConfig.markSet_eq (c : MConfig T V) (i : Nat) :
    c.markSet i = c ∨ ∃ pre co post, c.opts = pre ++ co :: post ∧ pre.length = i ∧
      c.markSet i = { c with opts := pre ++ { co with isSet := true } :: post } := by
  by_cases hi : i < c.opts.length
  · right
    refine ⟨c.opts.take i, c.opts[i], c.opts.drop (i + 1), ?_, ?_, ?_⟩
    · rw [List.getElem_cons_drop, List.take_append_drop]
    · rw [List.length_take]
      exact Nat.min_eq_left (Nat.le_of_lt hi)
    · rw [MConfig.markSet, List.modify_eq_take_cons_drop hi]
  · left
    rw [MConfig.markSet, List.modify_eq_self (Nat.le_of_not_lt hi)]

theorem MConfig.Sound.markSet (h : c.Sound) (i : Nat) : (c.markSet i).Sound := by
  rcases c.markSet_eq i with heq | ⟨pre, co, post, hopts, _, heq⟩
  · rw [heq]
    exact h
  · have hat := h.soundAt
    rw [hopts] at hat
    rw [heq]
    refine ⟨h.lvl_pos, hat.replace ⟨rfl, rfl, rfl⟩ (fun _ hid => Or.inl hid)
      ⟨Nat.le_refl _, fun _ _ hid => hid⟩ (hat.slots co (by simp)) (hat.le co (by simp))⟩

/-- `m_config_set_option` keeps the config sound, whatever it returns. -/
theorem MConfig.Sound.setOption {c' : MConfig T V} (h : c.Sound) {fuel : Nat} {arg : CStr}
    {param : Option CStr} {r : Int}
    (hset : mConfigSetOption types fuel c arg param = some (r, c')) : c'.Sound :=
  mConfigParseOption_keeps (I := MConfig.Sound)
    (fun _ _ _ _ _ _ _ _ hI _ _ hp => ⟨hI.lvl_pos, hI.soundAt.store (parsePlain_grows hp)⟩)
    (fun _ i hI => hI.markSet i) h hset

/-! ## Registering options -/

theorem makeDynamic_data (opt : PlainOption T) (saved : V) (m : Store V) :
    (makeDynamic types opt saved m).data = m.data := by
  unfold makeDynamic
  split
  · split
    · exact Store.assign_data m _ _
    · rfl
  · rfl

theorem makeDynamic_next (opt : PlainOption T) (saved : V) (m : Store V) :
    (makeDynamic types opt saved m).next = m.next := by
  unfold makeDynamic
  split
  · split
    · exact Store.assign_next m _ _
    · rfl
  · rfl

theorem addSlots_next (opt : PlainOption T) (m : Store V) :
    (addSlots types opt m).next = m.next + 2 := by
  rw [addSlots, Store.alloc]
  show (makeDynamic types opt _ _).next + 1 = m.next + 2
  rw [makeDynamic_next]
  rfl

theorem addSlots_live (opt : PlainOption T) (m : Store V) {id : Nat}
    (h : (m.data id).isSome ∨ id = m.next ∨ id = m.next + 1) :
    ((addSlots types opt m).data id).isSome := by
  have hnext : ∀ (m : Store V) (d : V) (id : Nat), (m.data id).isSome ∨ id = m.next →
      ((m.alloc d).data id).isSome := by
    intro m d id h
    cases h with
    | inl h => exact Store.alloc_isSome h
    | inr h => exact h ▸ Store.alloc_next_isSome
  refine hnext _ _ _ ?_
  rw [makeDynamic_data, makeDynamic_next]
  rcases h with h | h | h
  · exact Or.inl (hnext _ _ _ (Or.inl h))
  · exact Or.inl (hnext _ _ _ (Or.inr h))
  · exact Or.inr h

theorem SoundAt.grows_cons (h : SoundAt lvl opts m) (hslots : co.Owns → SlotsOk m co.slots)
    (hle : co.Owns → co.pops = true → ∀ s, co.slots.head? = some s → s.lvl ≤ lvl)
    (hapart : ∀ o ∈ opts, Apart co o) (hlt : ∀ id ∈ co.ids, id < m.next)
    (howner : co.isAlias = true → ∃ o ∈ opts, o.Owns ∧ SameVar co o) :
    SoundAt lvl (co :: opts) m := by
  refine ⟨?_, ?_, List.pairwise_cons.mpr ⟨hapart, h.apart⟩, ?_, ?_⟩
  · intro o ho
    cases List.mem_cons.mp ho with
    | inl heq => exact heq ▸ hslots
    | inr ho => exact h.slots o ho
  · intro o ho
    cases List.mem_cons.mp ho with
    | inl heq => exact heq ▸ hle
    | inr ho => exact h.le o ho
  · intro o ho
    cases List.mem_cons.mp ho with
    | inl heq => exact heq ▸ hlt
    | inr ho => exact h.lt o ho
  · intro o ho halias
    have hold : ∃ x ∈ opts, x.Owns ∧ SameVar o x := by
      cases List.mem_cons.mp ho with
      | inl heq => exact heq ▸ howner (heq ▸ halias)
      | inr ho => exact h.owner o ho halias
    obtain ⟨x, hx, hrest⟩ := hold
    exact ⟨x, List.mem_cons_of_mem _ hx, hrest⟩

theorem MConfig.Sound.addPlain (h : c.Sound) (name : CStr) (opt : PlainOption T) :
    (addPlain types name opt c).Sound := by
  have hat := h.soundAt
  unfold MPlayer.addPlain
  split
  case h_1 slots halias =>
    -- the slots are those of an option `o` of the same variable
    obtain ⟨a, hp, o, hfind, hslots⟩ :
        ∃ a, opt.p = some a ∧ ∃ o, (c.opts.find? fun co => co.opt.var = some a) = some o ∧
          o.slots = slots := by
      unfold aliasSlots at halias
      split at halias
      · cases halias
      case h_2 a hp =>
        obtain ⟨o, ho, hs⟩ := Option.map_eq_some_iff.mp halias
        exact ⟨a, hp, o, ho, hs⟩
    have ho : o ∈ c.opts := List.mem_of_find?_eq_some hfind
    have hvar : o.opt.var = some a := by simpa using List.find?_some hfind
    have hids : (⟨name, .plain opt, slots, false, true⟩ : ConfigOption T).ids = o.ids := by
      rw [ConfigOption.ids, ConfigOption.ids, hslots]
    refine ⟨h.lvl_pos, hat.grows_cons ?_ ?_ ?_ ?_ ?_⟩
    · intro howns
      exact absurd howns.1 (by simp)
    · intro howns
      exact absurd howns.1 (by simp)
    · intro x hx
      refine ⟨fun hdiff => ?_, fun _ => rfl⟩
      rw [hids]
      obtain ⟨pre, post, hsplit⟩ := List.append_of_mem ho
      rw [hsplit] at hat hx
      have hno : ¬ SameVar o x := by
        rintro ⟨b, hb, hb'⟩
        exact hdiff ⟨a, hp, by rw [hb', ← hb, hvar]⟩
      refine hat.others ?_ hno
      simp only [List.mem_append, List.mem_cons] at hx
      rcases hx with hx | hx | hx
      · exact Or.inl hx
      · exact absurd ⟨a, hvar, by rw [hx]; exact hvar⟩ hno
      · exact Or.inr hx
    · rw [hids]
      exact hat.lt o ho
    · intro _
      have hself : ∀ x, SameVar o x → SameVar ⟨name, .plain opt, slots, false, true⟩ x := by
        rintro x ⟨b, hb, hb'⟩
        exact ⟨a, hp, by rw [hb', ← hb, hvar]⟩
      by_cases hal : o.isAlias = true
      · obtain ⟨x, hx, howns, hsame⟩ := hat.owner o ho hal
        exact ⟨x, hx, howns, hself x hsame⟩
      · refine ⟨o, ho, ⟨Bool.eq_false_iff.mpr hal, ?_⟩, hself o ⟨a, hvar, hvar⟩⟩
        cases hopt : o.opt with
        | plain opt' => exact ⟨opt', rfl⟩
        | group _ _ _ =>
          rw [hopt] at hvar
          cases hvar
  case h_2 hnone =>
    have hnew : ∀ o ∈ c.opts, ∀ a, opt.p = some a → o.opt.var ≠ some a := by
      intro o ho a hp hvar
      rw [hp] at hnone
      have hnf := List.find?_eq_none.mp (Option.map_eq_none_iff.mp hnone) o ho
      exact hnf (by simpa using hvar)
    have hgrown : SoundAt c.lvl c.opts (addSlots types opt c.store) := by
      refine hat.store ⟨?_, fun id _ hid => addSlots_live opt _ (Or.inl hid)⟩
      rw [addSlots_next]
      exact Nat.le_add_right _ _
    refine ⟨h.lvl_pos, hgrown.grows_cons (fun _ => ⟨?_, ?_, ?_⟩) ?_ ?_ ?_ ?_⟩
    · exact ⟨⟨c.store.next, 0⟩, by simp, rfl⟩
    · intro s hs
      simp only [List.mem_cons, List.not_mem_nil, or_false] at hs
      refine addSlots_live opt _ (Or.inr ?_)
      cases hs with
      | inl hs => exact Or.inr (by rw [hs])
      | inr hs => exact Or.inl (by rw [hs])
    · simp
    · intro _ _ s hs
      cases hs
      exact Nat.le_refl _
    · intro o ho
      constructor
      · intro _ id hid hid'
        have hlt := hat.lt o ho id hid'
        simp only [ConfigOption.ids, List.map_cons, List.map_nil, List.mem_cons,
          List.not_mem_nil, or_false] at hid
        omega
      · rintro ⟨a, ha, ha'⟩
        exact absurd ha' (hnew o ho a ha)
    · intro id hid
      simp only [ConfigOption.ids, List.map_cons, List.map_nil, List.mem_cons,
        List.not_mem_nil, or_false] at hid
      show id < (addSlots types opt c.store).next
      rw [addSlots_next]
      omega
    · intro halias
      cases halias

mutual

theorem MConfig.Sound.addOption {c : MConfig T V} (h : c.Sound) (pre : Option CStr) :
    ∀ opt : MOption T, (mConfigAddOption types opt pre c).Sound
  | .plain opt => h.addPlain _ opt
  | .group name children flags => by
    have hc : (mConfigAddOptions types children (some (fullName pre name)) c).Sound :=
      h.addOptions _ children
    refine ⟨hc.lvl_pos, hc.soundAt.grows_cons ?_ ?_ ?_ ?_ ?_⟩
    · rintro ⟨_, opt, hopt⟩
      cases hopt
    · rintro ⟨_, opt, hopt⟩
      cases hopt
    · intro o _
      constructor
      · intro _ id hid
        cases hid
      · rintro ⟨a, ha, _⟩
        cases ha
    · intro id hid
      cases hid
    · intro halias
      cases halias

theorem MConfig.Sound.addOptions {c : MConfig T V} (h : c.Sound) (pre : Option CStr) :
    ∀ opts : List (MOption T), (mConfigAddOptions types opts pre c).Sound
  | [] => h
  | opt :: opts => (h.addOption pre opt).addOptions pre opts

end

/-! ## Every config -/

/-- What may happen to a config, or to the variables behind its options. -/
inductive ConfigEvent (T V : Type) where
  | register (args : List (MOption T))
  | push
  | pop
  | set (fuel : Nat) (arg : CStr) (param : Option CStr)
  | mode (mode : ParserMode)
  | program (vars : Nat → V)

/-- The steps of a config.  A level is popped only if it was pushed, as `m_config_pop`
asserts. -/
inductive ConfigStep (types : MOptionTypes T V) :
    MConfig T V → ConfigEvent T V → MConfig T V → Prop where
  | register (args : List (MOption T)) (c : MConfig T V) :
      ConfigStep types c (.register args) (mConfigRegisterOptions types args c)
  | push {c c' : MConfig T V} (h : mConfigPush types c = some c') :
      ConfigStep types c .push c'
  | pop {c c' : MConfig T V} (hlvl : 1 < c.lvl) (h : mConfigPop types c = some c') :
      ConfigStep types c .pop c'
  | set {fuel : Nat} {c c' : MConfig T V} {arg : CStr} {param : Option CStr} {r : Int}
      (h : mConfigSetOption types fuel c arg param = some (r, c')) :
      ConfigStep types c (.set fuel arg param) c'
  | mode (mode : ParserMode) (c : MConfig T V) :
      ConfigStep types c (.mode mode) { c with mode := mode }
  | program (vars : Nat → V) (c : MConfig T V) :
      ConfigStep types c (.program vars) { c with store := { c.store with vars := vars } }

/-- The configs that the program can have. -/
def MConfig.Reachable (types : MOptionTypes T V) : MConfig T V → Prop :=
  Lib.Reachable (ConfigStep types) fun c => ∃ vars, c = MConfig.new vars

theorem MConfig.Sound.step {c c' : MConfig T V} {e : ConfigEvent T V} (h : c.Sound)
    (hstep : ConfigStep types c e c') : c'.Sound := by
  cases hstep with
  | register args c => exact h.addOptions none args
  | push hpush =>
    obtain ⟨c1, hc1, hs⟩ := h.push types
    rw [hpush] at hc1
    cases hc1
    exact hs
  | pop hlvl hpop =>
    obtain ⟨c1, hc1, hs⟩ := h.pop types hlvl
    rw [hpop] at hc1
    cases hc1
    exact hs
  | set hset => exact h.setOption hset
  | mode mode c => exact ⟨h.lvl_pos, h.soundAt⟩
  | program vars c => exact ⟨h.lvl_pos, h.soundAt.store ⟨Nat.le_refl _, fun _ _ hid => hid⟩⟩

/-- Every config that the program can have is sound. -/
theorem MConfig.Reachable.sound (h : c.Reachable types) : c.Sound := by
  refine Lib.Reachable.invariant ?_ (fun _ _ _ hs hst => hs.step hst) h
  rintro c ⟨vars, rfl⟩
  refine ⟨Nat.le_refl 1, ?_, ?_, List.Pairwise.nil, ?_, ?_⟩
  · simp [MConfig.new]
  · simp [MConfig.new]
  · simp [MConfig.new]
  · simp [MConfig.new]

end MPlayer
