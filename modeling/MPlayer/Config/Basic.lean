import MPlayer.Config.Options

/-!
# The config manager

`m_config` keeps a stack of saved values for every registered option.  A save slot is
memory of its own, so that two options may point to the same slot: the data of the slots
lives in a store, and an option has the list of its slots, the top one first.

`none` stands for undefined behaviour: the use of a `NULL` pointer or of a slot that was
freed.
-/

namespace MPlayer

variable {T V : Type}

/-! ## Data -/

/-- `m_config_save_slot_t`, whose data is in the store at `id`. -/
structure SaveSlot where
  id : Nat
  lvl : Nat
deriving DecidableEq

/-- The memory: the data of the save slots and the variables of the program. -/
structure Store (V : Type) where
  data : Nat → Option V
  next : Nat
  vars : Nat → V

/-- `m_config_option_t`.  The flags are `M_CFG_OPT_SET` and `M_CFG_OPT_ALIAS`. -/
structure ConfigOption (T : Type) where
  name : CStr
  opt : MOption T
  slots : List SaveSlot
  isSet : Bool
  isAlias : Bool

/-- `m_config_t`.  `opts` begins with the option that was registered last. -/
structure MConfig (T V : Type) where
  opts : List (ConfigOption T)
  lvl : Nat
  mode : ParserMode
  store : Store V

/-! ## The store -/

/-- Write the data of a slot. -/
def Store.write (m : Store V) (id : Nat) (d : V) : Store V :=
  { m with data := fun i => if i = id then some d else m.data i }

/-- Allocate a slot. -/
def Store.alloc (m : Store V) (d : V) : Store V :=
  { m.write m.next d with next := m.next + 1 }

/-- Free a slot. -/
def Store.free (m : Store V) (id : Nat) : Store V :=
  { m with data := fun i => if i = id then none else m.data i }

/-- Read the variable at `p`. -/
def Store.read (m : Store V) (p : Option Nat) : Option V := p.map m.vars

/-- Write the variable at `p`. -/
def Store.assign (m : Store V) : Option Nat → Option V → Store V
  | some p, some v => { m with vars := fun i => if i = p then v else m.vars i }
  | _, _ => m

/-- `m_option_set(opt, opt->p, data)`. -/
def MOptionTypes.setVar (types : MOptionTypes T V) (opt : PlainOption T) (d : V) (m : Store V) :
    Store V :=
  m.assign opt.p (types.set opt (m.read opt.p) d)

/-! ## `m_config_push` -/

/-- Whether `m_config_push` saves an option. -/
def ConfigOption.pushes (co : ConfigOption T) : Bool :=
  !(co.opt.flags.global || co.opt.flags.noSave) && !(co.opt.flags.old && !co.isSet) && !co.isAlias

/-- One round of the loop of `m_config_push`. -/
def pushOption (types : MOptionTypes T V) (lvl : Nat) (co : ConfigOption T) (m : Store V) :
    Option (ConfigOption T × Store V) :=
  match co.opt with
  | .group _ _ _ => some (co, m)
  | .plain opt =>
    if !co.pushes then some (co, m)
    else
      match co.slots with
      | [] => none
      | top :: _ =>
        (m.data top.id).map fun d =>
          let saved := types.save opt d (m.read opt.p)
          let m := m.write top.id saved
          ({ co with slots := ⟨m.next, lvl⟩ :: co.slots, isSet := false },
            m.alloc (types.copy opt (types.zero opt.type) saved))

/-- A loop over the options. -/
def overOpts (f : ConfigOption T → Store V → Option (ConfigOption T × Store V)) :
    List (ConfigOption T) → Store V → Option (List (ConfigOption T) × Store V)
  | [], m => some ([], m)
  | co :: opts, m =>
    (f co m).bind fun (co, m) => (overOpts f opts m).map fun (opts, m) => (co :: opts, m)

/-- `m_config_push`. -/
def mConfigPush (types : MOptionTypes T V) (c : MConfig T V) : Option (MConfig T V) :=
  (overOpts (pushOption types (c.lvl + 1)) c.opts c.store).map fun (opts, m) =>
    { c with opts := opts, lvl := c.lvl + 1, store := m }

/-! ## `m_config_pop` -/

/-- Whether `m_config_pop` looks at the slots of an option. -/
def ConfigOption.pops (co : ConfigOption T) : Bool :=
  !(co.opt.flags.global || co.opt.flags.noSave) && !co.isAlias

/-- The loop that drops the slots of level `lvl` or higher. -/
def dropSlots (lvl : Nat) : List SaveSlot → Store V → List SaveSlot × Store V
  | [], m => ([], m)
  | s :: slots, m => if lvl ≤ s.lvl then dropSlots lvl slots (m.free s.id) else (s :: slots, m)

/-- One round of the loop of `m_config_pop`. -/
def popOption (types : MOptionTypes T V) (lvl : Nat) (co : ConfigOption T) (m : Store V) :
    Option (ConfigOption T × Store V) :=
  match co.opt with
  | .group _ _ _ => some (co, m)
  | .plain opt =>
    if !co.pops then some (co, m)
    else
      match dropSlots lvl co.slots m with
      | ([], _) => none
      | (top :: slots, m) =>
        if slots.length + 1 = co.slots.length then some (co, m)
        else
          (m.data top.id).map fun d =>
            ({ co with slots := top :: slots }, types.setVar opt d m)

/-- `m_config_pop`. -/
def mConfigPop (types : MOptionTypes T V) (c : MConfig T V) : Option (MConfig T V) :=
  (overOpts (popOption types c.lvl) c.opts c.store).map fun (opts, m) =>
    { c with opts := opts, lvl := c.lvl - 1, store := m }

/-! ## `m_config_register_options` -/

/-- A config without options, as `m_config_new` makes it. -/
def MConfig.new (vars : Nat → V) : MConfig T V where
  opts := []
  lvl := 1
  mode := .configFile
  store := ⟨fun _ => none, 0, vars⟩

/-- The full name of an option. -/
def fullName (pre : Option CStr) (name : CStr) : CStr :=
  match pre with
  | some (c :: pre) => c :: pre ++ ':' :: name
  | _ => name

/-- The slots of an option that is already registered for the variable at `p`. -/
def aliasSlots (p : Option Nat) (opts : List (ConfigOption T)) : Option (List SaveSlot) :=
  match p with
  | none => none
  | some p => (opts.find? fun co => co.opt.var = some p).map (·.slots)

/-- Variables of a dynamic type always get a dynamic copy of their value. -/
def makeDynamic (types : MOptionTypes T V) (opt : PlainOption T) (saved : V) (m : Store V) :
    Store V :=
  match m.read opt.p with
  | some v =>
    if types.dynamic opt.type && !types.isNull v then
      m.assign opt.p (types.set opt (some (types.zero opt.type)) saved)
    else m
  | none => m

/-- The store with a slot for the defaults of an option and one for its current value. -/
def addSlots (types : MOptionTypes T V) (opt : PlainOption T) (m : Store V) : Store V :=
  let saved := types.save opt (types.zero opt.type) (m.read opt.p)
  (makeDynamic types opt saved (m.alloc saved)).alloc (types.copy opt (types.zero opt.type) saved)

/-- `m_config_add_option` for an option without children. -/
def addPlain (types : MOptionTypes T V) (name : CStr) (opt : PlainOption T) (c : MConfig T V) :
    MConfig T V :=
  match aliasSlots opt.p c.opts with
  | some slots => { c with opts := ⟨name, .plain opt, slots, false, true⟩ :: c.opts }
  | none =>
    { c with
      opts := ⟨name, .plain opt, [⟨c.store.next + 1, c.lvl⟩, ⟨c.store.next, 0⟩], false, false⟩ ::
        c.opts
      store := addSlots types opt c.store }

mutual

/-- `m_config_add_option`. -/
def mConfigAddOption (types : MOptionTypes T V) : MOption T → Option CStr → MConfig T V →
    MConfig T V
  | .plain opt, pre, c => addPlain types (fullName pre opt.name) opt c
  | .group name children flags, pre, c =>
    let full := fullName pre name
    let c := mConfigAddOptions types children (some full) c
    { c with opts := ⟨full, .group name children flags, [], false, false⟩ :: c.opts }

/-- A loop of `m_config_add_option` over an array of options. -/
def mConfigAddOptions (types : MOptionTypes T V) : List (MOption T) → Option CStr →
    MConfig T V → MConfig T V
  | [], _, c => c
  | opt :: opts, pre, c => mConfigAddOptions types opts pre (mConfigAddOption types opt pre c)

end

/-- `m_config_register_options`. -/
def mConfigRegisterOptions (types : MOptionTypes T V) (args : List (MOption T))
    (c : MConfig T V) : MConfig T V :=
  mConfigAddOptions types args none c

/-! ## `m_config_set_option` -/

/-- `m_config_get_co`, which gives the place of the option among `opts`. -/
def mConfigGetCo (types : MOptionTypes T V) (c : MConfig T V) (arg : CStr) : Option Nat :=
  c.opts.findIdx? fun co => nameMatches (types.wildcard co.opt) co.name arg

/-- Whether an option is forbidden in the current mode. -/
def MOption.forbidden (opt : MOption T) (mode : ParserMode) : Bool :=
  (mode == .configFile && opt.flags.noCfg) || (mode == .commandLine && opt.flags.noCmd)

/-- Whether an option is only checked: during the command line preparse one that is not a
pre-parse option, otherwise a pre-parse option that is already set. -/
def ConfigOption.skipped (co : ConfigOption T) (mode : ParserMode) : Bool :=
  (mode == .commandLinePreParse && !co.opt.flags.preParse) ||
    (mode != .commandLinePreParse && co.opt.flags.preParse && co.isSet)

/-- Set the flag `M_CFG_OPT_SET` of an option. -/
def MConfig.markSet (c : MConfig T V) (i : Nat) : MConfig T V :=
  { c with opts := c.opts.modify i fun co => { co with isSet := true } }

/-- The code returned for a group when a suboption gives the negative code `sr`. -/
def groupError (sr : Int) : Int :=
  if sr = mOptUnknown then mOptInvalid else if sr = mOptMissingParam then mOptInvalid else sr

/-- The loop that sets the suboptions, where `parse n v` parses the option `n`. -/
def setSubopts (parse : MConfig T V → CStr → Option CStr → Option (Int × MConfig T V))
    (name : CStr) : List (CStr × Option CStr) → Int → MConfig T V → Option (Int × MConfig T V)
  | [], r, c => some (r, c)
  | (n, v) :: lst, r, c =>
    (parse c (name ++ ':' :: n) v).bind fun (sr, c) =>
      if sr < 0 then some (groupError sr, c) else setSubopts parse name lst r c

/-- The parser of an option without children called on the top slot of the option, or on
`NULL` if it is only to be checked. -/
def parsePlain (types : MOptionTypes T V) (mode : ParserMode) (opt : PlainOption T)
    (slots : List SaveSlot) (arg : CStr) (param : Option CStr) (set : Bool) (m : Store V) :
    Option (Int × Store V) :=
  if !set then some ((types.parse opt arg param none mode).1, m)
  else
    match slots with
    | [] => none
    | top :: _ =>
      (m.data top.id).map fun old =>
        let (r, written) := types.parse opt arg param (some old) mode
        let d := written.getD old
        let m := m.write top.id d
        (r, if r < 0 then m else types.setVar opt d m)

/-- `m_config_parse_option`. -/
def mConfigParseOption (types : MOptionTypes T V) : Nat → MConfig T V → CStr → Option CStr →
    Bool → Option (Int × MConfig T V)
  | 0, _, _, _, _ => none
  | fuel + 1, c, arg, param, set =>
    match mConfigGetCo types c arg with
    | none => some (mOptUnknown, c)
    | some i =>
      c.opts[i]?.bind fun co =>
        if co.opt.forbidden c.mode then some (mOptInvalid, c)
        else
          let set := set && !co.skipped c.mode
          let parsed :=
            match co.opt with
            | .group _ children _ =>
              let (r, lst) := parseSubconf (fun n v =>
                checkSubopt types children n v .commandLine) param
              setSubopts (fun c n v => mConfigParseOption types fuel c n v set) co.name lst r c
            | .plain opt =>
              (parsePlain types c.mode opt co.slots arg param set c.store).map fun (r, m) =>
                (r, { c with store := m })
          parsed.map fun (r, c) =>
            if r < 0 then (r, c) else (r, if set then c.markSet i else c)

/-- `m_config_set_option`. -/
def mConfigSetOption (types : MOptionTypes T V) (fuel : Nat) (c : MConfig T V) (arg : CStr)
    (param : Option CStr) : Option (Int × MConfig T V) :=
  mConfigParseOption types fuel c arg param true

end MPlayer
