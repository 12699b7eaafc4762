import MPlayer.Config.Basic

/-!
# Calls that set options

`m_config_parse_option` calls itself for the suboptions of a group.  All it does to a
config is to store into options without children and to mark options as set, so what these
two keep is kept by every call.
-/

namespace MPlayer

variable {T V : Type} {types : MOptionTypes T V}

/-! ## The options a call sets -/

/-- The options that the loop over the suboptions sets. -/
def suboptsSet (parse : MConfig T V → CStr → Option CStr → Option (Int × MConfig T V))
    (sets : MConfig T V → CStr → Option CStr → List Nat) (name : CStr) :
    List (CStr × Option CStr) → MConfig T V → List Nat
  | [], _ => []
  | (n, v) :: lst, c =>
    sets c (name ++ ':' :: n) v ++
      match parse c (name ++ ':' :: n) v with
      | some (sr, c) => if sr < 0 then [] else suboptsSet parse sets name lst c
      | none => []

/-- The places of the options that a call of `m_config_parse_option` parses with a `dst` or
marks as set. -/
def optionsSet (types : MOptionTypes T V) : Nat → MConfig T V → CStr → Option CStr → Bool → List Nat
  | 0, _, _, _, _ => []
  | fuel + 1, c, arg, param, set =>
    match mConfigGetCo types c arg with
    | none => []
    | some i =>
      match c.opts[i]? with
      | none => []
      | some co =>
        if co.opt.forbidden c.mode then []
        else
          let set := set && !co.skipped c.mode
          let inner :=
            match co.opt with
            | .group _ children _ =>
              suboptsSet (fun c n v => mConfigParseOption types fuel c n v set)
                (fun c n v => optionsSet types fuel c n v set) co.name
                (parseSubconf (fun n v => checkSubopt types children n v .commandLine) param).2 c
            | .plain _ => []
          if set then i :: inner else inner

/-! ## How a call ends -/

/-- A call that finds its option and may parse it, up to the flag `M_CFG_OPT_SET`. -/
inductive ParseBody (types : MOptionTypes T V) (fuel : Nat) (c : MConfig T V) (arg : CStr)
    (param : Option CStr) (set : Bool) (co : ConfigOption T) : Int → MConfig T V → Prop where
  | group {name : CStr} {children : List (MOption T)} {flags : MOptionFlags} {r : Int}
      {c' : MConfig T V} (hopt : co.opt = .group name children flags)
      (h : setSubopts (fun c n v => mConfigParseOption types fuel c n v set) co.name
        (parseSubconf (fun n v => checkSubopt types children n v .commandLine) param).2
        (parseSubconf (fun n v => checkSubopt types children n v .commandLine) param).1 c =
          some (r, c')) : ParseBody types fuel c arg param set co r c'
  | plain {opt : PlainOption T} {r : Int} {m : Store V} (hopt : co.opt = .plain opt)
      (h : parsePlain types c.mode opt co.slots arg param set c.store = some (r, m)) :
      ParseBody types fuel c arg param set co r { c with store := m }

/-- The ways in which a call of `m_config_parse_option` ends. -/
inductive ParseCase (types : MOptionTypes T V) (fuel : Nat) (c : MConfig T V) (arg : CStr)
    (param : Option CStr) (set : Bool) : Int → MConfig T V → Prop where
  | unknown (hget : mConfigGetCo types c arg = none) :
      ParseCase types fuel c arg param set mOptUnknown c
  | forbidden {i : Nat} {co : ConfigOption T} (hget : mConfigGetCo types c arg = some i)
      (hco : c.opts[i]? = some co) (hforb : co.opt.forbidden c.mode = true) :
      ParseCase types fuel c arg param set mOptInvalid c
  | parsed {i : Nat} {co : ConfigOption T} {r : Int} {c' : MConfig T V}
      (hget : mConfigGetCo types c arg = some i) (hco : c.opts[i]? = some co)
      (hforb : co.opt.forbidden c.mode = false)
      (h : ParseBody types fuel c arg param (set && !co.skipped c.mode) co r c') :
      ParseCase types fuel c arg param set r
        (if r < 0 then c' else if set && !co.skipped c.mode then c'.markSet i else c')

theorem mConfigParseOption_cases {fuel : Nat} {c c' : MConfig T V} {arg : CStr}
    {param : Option CStr} {set : Bool} {r : Int}
    (h : mConfigParseOption types (fuel + 1) c arg param set = some (r, c')) :
    ParseCase types fuel c arg param set r c' := by
  rw [mConfigParseOption] at h
  split at h
  case h_1 hget =>
    cases h
    exact .unknown hget
  case h_2 i hget =>
    obtain ⟨co, hco, h⟩ := Option.bind_eq_some_iff.mp h
    cases hforb : co.opt.forbidden c.mode with
    | true =>
      rw [hforb] at h
      cases h
      exact .forbidden hget hco hforb
    | false =>
      rw [hforb] at h
      simp only [Bool.false_eq_true, if_false] at h
      obtain ⟨⟨r1, c1⟩, hbody, heq⟩ := Option.map_eq_some_iff.mp h
      have hparse : ParseBody types fuel c arg param (set && !co.skipped c.mode) co r1 c1 := by
        split at hbody
        case h_1 name children flags hopt => exact .group hopt hbody
        case h_2 opt hopt =>
          obtain ⟨⟨r2, m⟩, hplain, heq2⟩ := Option.map_eq_some_iff.mp hbody
          cases heq2
          exact .plain hopt hplain
      have hend := ParseCase.parsed hget hco hforb hparse
      by_cases hr : r1 < 0
      · rw [if_pos hr] at hend heq
        cases heq
        exact hend
      · rw [if_neg hr] at hend heq
        cases heq
        exact hend

/-! ## What every call keeps -/

/-- What the calls keep that set only allowed options is kept by the loop over the
suboptions. -/
theorem setSubopts_invariant {I : MConfig T V → Prop} {A : Nat → Prop}
    {parse : MConfig T V → CStr → Option CStr → Option (Int × MConfig T V)}
    {sets : MConfig T V → CStr → Option CStr → List Nat}
    (hparse : ∀ c arg param r c', I c → parse c arg param = some (r, c') →
      (∀ i ∈ sets c arg param, A i) → I c') {name : CStr} :
    ∀ {lst : List (CStr × Option CStr)} {r r' : Int} {c c' : MConfig T V},
      setSubopts parse name lst r c = some (r', c') → I c →
      (∀ i ∈ suboptsSet parse sets name lst c, A i) → I c'
  | [], r, r', c, c', h, hI, _ => by
    cases h
    exact hI
  | (n, v) :: lst, r, r', c, c', h, hI, hall => by
    obtain ⟨⟨sr, c1⟩, hcall, h⟩ := Option.bind_eq_some_iff.mp h
    rw [suboptsSet, hcall] at hall
    have hI1 : I c1 := hparse c _ v sr c1 hI hcall fun i hi =>
      hall i (List.mem_append_left _ hi)
    by_cases hsr : sr < 0
    · simp only [if_pos hsr] at h
      cases h
      exact hI1
    · simp only [if_neg hsr] at h hall
      exact setSubopts_invariant hparse h hI1 fun i hi => hall i (List.mem_append_right _ hi)

/-- What stores into allowed options and marks of them keep is kept by every call that
sets no other option. -/
theorem mConfigParseOption_invariant {I : MConfig T V → Prop} {A : Nat → Prop}
    (hstore : ∀ (c : MConfig T V) i co opt arg param r m, I c → c.opts[i]? = some co →
      co.opt = .plain opt → A i →
      parsePlain types c.mode opt co.slots arg param true c.store = some (r, m) →
      I { c with store := m })
    (hmark : ∀ (c : MConfig T V) i, I c → A i → I (c.markSet i)) :
    ∀ {fuel : Nat} {c c' : MConfig T V} {arg : CStr} {param : Option CStr} {set : Bool}
      {r : Int}, I c → mConfigParseOption types fuel c arg param set = some (r, c') →
      (∀ i ∈ optionsSet types fuel c arg param set, A i) → I c'
  | 0, _, _, _, _, _, _, _, h, _ => by cases h
  | fuel + 1, c, c', arg, param, set, r, hI, h, hall => by
    cases mConfigParseOption_cases h with
    | unknown _ => exact hI
    | forbidden _ _ _ => exact hI
    | @parsed i co r c1 hget hco hforb hbody =>
      rw [optionsSet, hget] at hall
      simp only [hco, hforb, Bool.false_eq_true, if_false] at hall
      generalize (set && !co.skipped c.mode) = set' at hbody hall ⊢
      have hself : set' = true → A i := fun hset => hall i (by simp [hset])
      have hI1 : I c1 := by
        cases hbody with
        | @group name children flags r c1 hopt hsub =>
          refine setSubopts_invariant (fun c arg param r c' hI hcall hsets =>
            mConfigParseOption_invariant hstore hmark hI hcall hsets) hsub hI ?_
          intro j hj
          refine hall j ?_
          rw [hopt]
          split
          · exact List.mem_cons_of_mem _ hj
          · exact hj
        | @plain opt r m hopt hplain =>
          cases hset : set' with
          | true =>
            rw [hset] at hplain
            exact hstore c i co opt arg param r m hI hco hopt (hself hset) hplain
          | false =>
            rw [hset] at hplain
            cases hplain
            exact hI
      split
      · exact hI1
      · split
        case isTrue hset => exact hmark c1 i hI1 (hself hset)
        case isFalse => exact hI1

/-- What a store into an option does. -/
theorem parsePlain_stores {mode : ParserMode} {opt : PlainOption T} {slots : List SaveSlot}
    {arg : CStr} {param : Option CStr} {m m' : Store V} {r : Int}
    (h : parsePlain types mode opt slots arg param true m = some (r, m')) :
    ∃ top rest old d, slots = top :: rest ∧ m.data top.id = some old ∧
      types.parse opt arg param (some old) mode = (r, d) ∧
      m' = if r < 0 then m.write top.id (d.getD old)
        else types.setVar opt (d.getD old) (m.write top.id (d.getD old)) := by
  simp only [parsePlain, Bool.not_true, Bool.false_eq_true, if_false] at h
  cases slots with
  | nil => cases h
  | cons top rest =>
    obtain ⟨old, hold, heq⟩ := Option.map_eq_some_iff.mp h
    cases heq
    exact ⟨top, rest, old, _, rfl, hold, rfl, rfl⟩

/-- What all stores and marks keep is kept by every call. -/
theorem mConfigParseOption_keeps {I : MConfig T V → Prop}
    (hstore : ∀ (c : MConfig T V) (i : Nat) (co : ConfigOption T) opt arg param r m, I c →
    c.opts[i]? = some co → co.opt = .plain opt →
      parsePlain types c.mode opt co.slots arg param true c.store = some (r, m) →
      I { c with store := m })
    (hmark : ∀ (c : MConfig T V) i, I c → I (c.markSet i))
    {fuel : Nat} {c c' : MConfig T V} {arg : CStr} {param : Option CStr} {set : Bool} {r : Int}
    (hI : I c) (h : mConfigParseOption types fuel c arg param set = some (r, c')) : I c' :=
  mConfigParseOption_invariant (A := fun _ => True)
    (fun c i co opt arg param r m hI hco hopt _ hp =>
      hstore c i co opt arg param r m hI hco hopt hp)
    (fun c i hI _ => hmark c i hI) hI h fun _ _ => trivial

end MPlayer
