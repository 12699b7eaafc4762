import MPlayer.Config.Calls

/-!
# The parser calls of a set

A call of `m_config_set_option` comes down to a list of parser calls: one for an option
without children, for a group those of its members in order.  They are made one after the
other up to the first one that fails.
-/

namespace MPlayer

variable {T V : Type} {types : MOptionTypes T V}

/-! ## Parser calls -/

/-- A parser call, or a refusal for which no parser is called. -/
inductive ParserCall (T : Type) where
  | refuse
  | check (opt : PlainOption T) (arg : CStr) (param : Option CStr)
  | store (opt : PlainOption T) (slots : List SaveSlot) (arg : CStr) (param : Option CStr)

/-- What a parser call returns and does. -/
def ParserCall.run (types : MOptionTypes T V) (mode : ParserMode) (m : Store V) :
    ParserCall T → Option (Int × Store V)
  | refuse => some (mOptInvalid, m)
  | check opt arg param => some ((types.parse opt arg param none mode).1, m)
  | store opt slots arg param => parsePlain types mode opt slots arg param true m

/-- Parser calls up to the first that fails, and whether all succeed. -/
@[grind =] def runCalls (types : MOptionTypes T V) (mode : ParserMode) :
    List (ParserCall T) → Store V → Option (Bool × Store V)
  | [], m => some (true, m)
  | a :: as, m =>
    (a.run types mode m).bind fun (r, m) =>
      if r < 0 then some (false, m) else runCalls types mode as m

theorem runCalls_append {mode : ParserMode} :
    ∀ {as bs : List (ParserCall T)} {m : Store V},
      runCalls types mode (as ++ bs) m =
        (runCalls types mode as m).bind fun (ok, m) =>
          if ok then runCalls types mode bs m else some (false, m)
  | [], bs, m => rfl
  | a :: as, bs, m => by
    rw [List.cons_append, runCalls, runCalls]
    cases a.run types mode m with
    | none => rfl
    | some rm =>
      obtain ⟨r, m1⟩ := rm
      simp only [Option.bind_some]
      split
      · rfl
      · exact runCalls_append

/-! ## The plan of a call -/

/-- The parser calls for the members of a group. -/
def planSubopts (plan : MConfig T V → CStr → Option CStr → List (ParserCall T) × MConfig T V)
    (name : CStr) : List (CStr × Option CStr) → MConfig T V →
    List (ParserCall T) × MConfig T V
  | [], c => ([], c)
  | (n, v) :: lst, c =>
    let (as, c) := plan c (name ++ ':' :: n) v
    let (bs, c) := planSubopts plan name lst c
    (as ++ bs, c)

/-- The parser calls that `m_config_parse_option` makes, and the config with the options
marked that they set.  The values of the variables and slots play no part. -/
@[grind =] def callPlan (types : MOptionTypes T V) : Nat → MConfig T V → CStr → Option CStr → Bool →
    List (ParserCall T) × MConfig T V
  | 0, c, _, _, _ => ([], c)
  | fuel + 1, c, arg, param, set =>
    match mConfigGetCo types c arg with
    | none => ([.refuse], c)
    | some i =>
      match c.opts[i]? with
      | none => ([], c)
      | some co =>
        if co.opt.forbidden c.mode then ([.refuse], c)
        else
          let set := set && !co.skipped c.mode
          let (as, c) : List (ParserCall T) × MConfig T V :=
            match co.opt with
            | .group _ children _ =>
              let (r, lst) := parseSubconf (fun n v =>
                checkSubopt types children n v .commandLine) param
              if r < 0 then ([.refuse], c)
              else planSubopts (fun c n v => callPlan types fuel c n v set) co.name lst c
            | .plain opt =>
              ([if set then .store opt co.slots arg param else .check opt arg param], c)
          (as, if set then c.markSet i else c)

theorem mOptUnknown_neg : mOptUnknown < 0 := by decide

theorem mOptMissingParam_neg : mOptMissingParam < 0 := by decide

theorem mOptInvalid_neg : mOptInvalid < 0 := by decide

/-- `parse_subconf` makes no list if it fails, and returns 1 otherwise. -/
theorem parseSubconfLoop_result {check : CStr → Option CStr → Option Int} :
    ∀ {fuel : Nat} {p : CStr}, (parseSubconfLoop check fuel p).1 = 1 ∨
      (parseSubconfLoop check fuel p).1 < 0 ∧ (parseSubconfLoop check fuel p).2 = []
  | _, [] => by
    left
    rw [parseSubconfLoop]
  | 0, _ :: _ => Or.inr ⟨mOptInvalid_neg, rfl⟩
  | fuel + 1, c :: p => by
    simp only [parseSubconfLoop]
    split
    · exact Or.inr ⟨mOptInvalid_neg, rfl⟩
    · split
      · exact Or.inr ⟨mOptInvalid_neg, rfl⟩
      · split
        · exact Or.inr ⟨mOptUnknown_neg, rfl⟩
        case h_2 r _ =>
          split
          case isTrue hr => exact Or.inr ⟨hr, rfl⟩
          case isFalse =>
            split
            case isTrue hr => exact Or.inr ⟨hr, rfl⟩
            case isFalse hr =>
              left
              exact parseSubconfLoop_result.resolve_right fun h => hr h.1

theorem parseSubconf_result {check : CStr → Option CStr → Option Int} {param : Option CStr} :
    (parseSubconf check param).1 = 1 ∨
      (parseSubconf check param).1 < 0 ∧ (parseSubconf check param).2 = [] := by
  match param with
  | none => exact Or.inr ⟨mOptMissingParam_neg, rfl⟩
  | some [] => exact Or.inr ⟨mOptMissingParam_neg, rfl⟩
  | some (c :: p) => exact parseSubconfLoop_result

/-! ## A call follows its plan -/

/-- How a call follows a plan: it does what the parser calls do, fails when one of them
fails, and otherwise leaves the options marked as planned. -/
structure Follows (types : MOptionTypes T V) (c : MConfig T V)
    (plan : List (ParserCall T) × MConfig T V) (r : Int) (c' : MConfig T V) : Prop where
  run : runCalls types c.mode plan.1 c.store = some (decide (0 ≤ r), c'.store)
  mode : c'.mode = c.mode
  opts : 0 ≤ r → c'.opts = plan.2.opts ∧ plan.2.mode = c.mode

theorem groupError_neg {sr : Int} (h : sr < 0) : groupError sr < 0 := by
  unfold groupError
  split
  · decide
  · split
    · decide
    · exact h

theorem setSubopts_follows {parse : MConfig T V → CStr → Option CStr → Option (Int × MConfig T V)}
    {plan : MConfig T V → CStr → Option CStr → List (ParserCall T) × MConfig T V}
    (hparse : ∀ c p arg param r c', p.opts = c.opts → p.mode = c.mode →
      parse c arg param = some (r, c') → Follows types c (plan p arg param) r c')
    {name : CStr} :
    ∀ {lst : List (CStr × Option CStr)} {r r' : Int} {c c' p : MConfig T V},
      p.opts = c.opts → p.mode = c.mode → 0 ≤ r → setSubopts parse name lst r c = some (r', c') →
      Follows types c (planSubopts plan name lst p) r' c'
  | [], r, r', c, c', p, hopts, hmode, hr, h => by
    cases h
    exact ⟨by simp [planSubopts, runCalls, hr], rfl, fun _ => ⟨hopts.symm, hmode⟩⟩
  | (n, v) :: lst, r, r', c, c', p, hopts, hmode, hr, h => by
    obtain ⟨⟨sr, c1⟩, hcall, h⟩ := Option.bind_eq_some_iff.mp h
    have hfirst := hparse c p _ v sr c1 hopts hmode hcall
    rw [planSubopts]
    by_cases hsr : sr < 0
    · simp only [if_pos hsr] at h
      cases h
      have hneg := groupError_neg hsr
      refine ⟨?_, hfirst.mode, fun hge => absurd hneg (Int.not_lt.mpr hge)⟩
      rw [runCalls_append, hfirst.run, decide_eq_false (Int.not_le.mpr hsr),
        decide_eq_false (Int.not_le.mpr hneg)]
      rfl
    · simp only [if_neg hsr] at h
      obtain ⟨hopts1, hmode1⟩ := hfirst.opts (Int.not_lt.mp hsr)
      have hrest := setSubopts_follows hparse hopts1.symm (hmode1.trans hfirst.mode.symm) hr h
      refine ⟨?_, hrest.mode.trans hfirst.mode, fun hge => ?_⟩
      · rw [runCalls_append, hfirst.run, decide_eq_true (Int.not_lt.mp hsr)]
        simp only [Option.bind_some, if_true]
        rw [← hfirst.mode]
        exact hrest.run
      · obtain ⟨ho, hm⟩ := hrest.opts hge
        exact ⟨ho, hm.trans hfirst.mode⟩

theorem MConfig.markSet_opts {c p : MConfig T V} (h : c.opts = p.opts) (i : Nat) :
    (c.markSet i).opts = (p.markSet i).opts := by
  rw [MConfig.markSet, MConfig.markSet, h]

/-- A call does what the parser calls of its plan do. -/
theorem mConfigParseOption_follows :
    ∀ {fuel : Nat} {c c' p : MConfig T V} {arg : CStr} {param : Option CStr} {set : Bool}
      {r : Int}, p.opts = c.opts → p.mode = c.mode →
      mConfigParseOption types fuel c arg param set = some (r, c') →
      Follows types c (callPlan types fuel p arg param set) r c'
  | 0, _, _, _, _, _, _, _, _, _, h => by cases h
  | fuel + 1, c, c', p, arg, param, set, r, hopts, hmode, h => by
    have hget' : mConfigGetCo types p arg = mConfigGetCo types c arg := by
      rw [mConfigGetCo, mConfigGetCo, hopts]
    rw [callPlan, hget', hopts, hmode]
    cases mConfigParseOption_cases h with
    | unknown hget =>
      rw [hget]
      exact ⟨rfl, rfl, fun hge => absurd hge (by decide)⟩
    | forbidden hget hco hforb =>
      simp only [hget, hco, hforb, if_true]
      exact ⟨rfl, rfl, fun hge => absurd hge (by decide)⟩
    | @parsed i co r c1 hget hco hforb hbody =>
      simp only [hget, hco, hforb, Bool.false_eq_true, if_false]
      generalize (set && !co.skipped c.mode) = set' at hbody ⊢
      -- the body, and then the mark
      have hmark : ∀ {as : List (ParserCall T)} {q : MConfig T V}, Follows types c (as, q) r c1 →
          Follows types c (as, if set' then q.markSet i else q) r
            (if r < 0 then c1 else if set' then c1.markSet i else c1) := by
        intro as q hf
        by_cases hr : r < 0
        · rw [if_pos hr]
          exact ⟨hf.run, hf.mode, fun hge => absurd hr (Int.not_lt.mpr hge)⟩
        · rw [if_neg hr]
          obtain ⟨ho, hm⟩ := hf.opts (Int.not_lt.mp hr)
          cases set' with
          | true => exact ⟨hf.run, hf.mode, fun _ => ⟨MConfig.markSet_opts ho i, hm⟩⟩
          | false => exact ⟨hf.run, hf.mode, fun _ => ⟨ho, hm⟩⟩
      cases hbody with
      | @group name children flags r c1 hopt hsub =>
        rw [hopt]
        refine hmark ?_
        simp only
        split
        case isTrue hr =>
          have hnil := (parseSubconf_result.resolve_left fun heq => by
            rw [heq] at hr
            exact absurd hr (by decide)).2
          rw [hnil] at hsub
          cases hsub
          refine ⟨?_, rfl, fun hge => absurd hr (Int.not_lt.mpr hge)⟩
          rw [decide_eq_false (Int.not_le.mpr hr)]
          rfl
        case isFalse hr =>
          have hcalls : ∀ (c p : MConfig T V) arg param r c', p.opts = c.opts → p.mode = c.mode →
              mConfigParseOption types fuel c arg param set' = some (r, c') →
              Follows types c (callPlan types fuel p arg param set') r c' :=
            fun _ _ _ _ _ _ ho hm hcall => mConfigParseOption_follows ho hm hcall
          exact setSubopts_follows hcalls hopts hmode (Int.not_lt.mp hr) hsub
      | @plain opt r m hopt hplain =>
        rw [hopt]
        refine hmark ⟨?_, rfl, fun _ => ⟨hopts.symm, hmode⟩⟩
        have hrun : ParserCall.run types c.mode c.store
            (if set' then .store opt co.slots arg param else .check opt arg param) =
              some (r, m) := by
          cases set' with
          | true => exact hplain
          | false => exact hplain
        show runCalls types c.mode [_] c.store = _
        rw [runCalls, hrun]
        by_cases hr : r < 0
        · simp [hr, Int.not_le.mpr hr]
        · simp [hr, Int.not_lt.mp hr, runCalls]

end MPlayer
