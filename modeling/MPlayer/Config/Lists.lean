import MPlayer.Config.Values

/-!
# Lists of strings and of objects

The parsers of the two list types.  A name that ends in `*` is given with a suffix that
says what to do with the list.
-/

namespace MPlayer

variable {F : Type}

/-! ## Separated fields -/

/-- Put a character before the first field. -/
def consField (c : Char) : List CStr → List CStr
  | [] => [[c]]
  | s :: fields => (c :: s) :: fields

/-- The fields that `get_nextsep` with `modify` cuts out of a string: a separator with a
backslash before it doesn't separate, and loses its backslash. -/
@[grind =] def splitFields (sep : Char) : CStr → List CStr
  | [] => [[]]
  | '\\' :: c :: s =>
    if c = sep then consField sep (splitFields sep s)
    else consField '\\' (splitFields sep (c :: s))
  | c :: s => if c = sep then [] :: splitFields sep s else consField c (splitFields sep s)

/-- The fields that a loop over `get_nextsep` sees that stops at the end of the string: an
empty last field is not among them. -/
def loopFields (sep : Char) (s : CStr) : List CStr :=
  let fields := splitFields sep s
  if fields.getLast? = some [] then fields.dropLast else fields

/-- A range that leaves out nothing. -/
def anyRange (fl : Doubles F) : OptRange F := ⟨fl.ofInt 0, fl.ofInt 0, false, false⟩

/-! ## Suffixes -/

/-- `OP_NONE`, `OP_ADD`, `OP_PRE`, `OP_DEL` and `OP_CLR`. -/
inductive ListOp where
  | none
  | add
  | pre
  | del
  | clr
deriving DecidableEq

/-- The operation that a suffix stands for. -/
def suffixOp (s : CStr) : Option ListOp :=
  if strcaseeq s "-add".toList then some .add
  else if strcaseeq s "-pre".toList then some .pre
  else if strcaseeq s "-del".toList then some .del
  else if strcaseeq s "-clr".toList then some .clr
  else none

/-- The operation that `name` asks for, where `optName` is the name of the option. -/
def listOp (optName name : CStr) : Option ListOp :=
  if optName.getLast? = some '*' ∧ optName.length - 1 < name.length then
    suffixOp (name.drop (optName.length - 1))
  else some .none

/-! ## `parse_str_list` -/

/-- The loop of `str_list_del` that frees entries, on a list whose freed entries are
`NULL`. -/
def freeEntries : List CStr → List (Option CStr) → List (Option CStr)
  | [], lst => lst
  | d :: del, lst =>
    let (idx, ep) := strtoll 0 d
    if ep ≠ [] ∨ idx < 0 ∨ lst.length ≤ idx.toNat then freeEntries del lst
    else freeEntries del (lst.set idx.toNat none)

/-- `NULL` for a list without entries. -/
def nullIfEmpty {α : Type} (l : List α) : Option (List α) := if l = [] then none else some l

/-- `str_list_del`. -/
def strListDel (del lst : List CStr) : Option (List CStr) :=
  nullIfEmpty ((freeEntries del (lst.map some)).filterMap id)

/-- What `parse_str_list` makes of a list. -/
def strListResult (op : ListOp) (res : List CStr) (old : Option (List CStr)) :
    Option (List CStr) :=
  match op with
  | .add => some (old.getD [] ++ res)
  | .pre => some (res ++ old.getD [])
  | .del => strListDel res (old.getD [])
  | _ => some res

/-- The checks of `parse_str_list`, and the list that it makes of `old`. -/
def checkStrList (fl : Doubles F) (range : OptRange F) (optName name : CStr)
    (param : Option CStr) (old : Option (List CStr)) : Except Int (Nat × Option (List CStr)) :=
  match listOp optName name with
  | none => .error mOptUnknown
  | some .clr => .ok (0, none)
  | some op =>
    match param with
    | none => .error mOptMissingParam
    | some [] => .error mOptMissingParam
    | some param =>
      let n := (loopFields ',' param).length
      if n = 0 then .error mOptInvalid
      else if range.outside fl (fl.ofInt n) then .error mOptOutOfRange
      else .ok (1, strListResult op (splitFields ',' param) old)

/-- `parse_str_list`. -/
def parseStrList (fl : Doubles F) (range : OptRange F) (optName name : CStr)
    (param : Option CStr) (dst : Option (OptVal F)) : Int × Option (OptVal F) :=
  finish dst ((checkStrList fl range optName name param (dst.bind OptVal.toStrList)).map
    fun (n, l) => (n, .strList l))

/-! ## Object parameters -/

/-- A field of an `m_struct_t`.  `check` is the answer of the parser of its type to a name
and a parameter, with a `NULL` `dst` and in `M_CONFIG_FILE` mode. -/
structure ObjField where
  name : CStr
  wildcard : Bool
  check : CStr → Option CStr → Int

/-- `m_struct_t`. -/
structure ObjDesc where
  name : CStr
  fields : List ObjField

/-- `m_option_list_find`. -/
def mOptionListFind (fields : List ObjField) (name : CStr) : Option ObjField :=
  fields.find? fun f => nameMatches (f.wildcard && decide (1 < f.name.length)) f.name name

/-- `get_obj_param`: the name and the value, and the new `nold`. -/
def getObjParam (desc : ObjDesc) (str : CStr) (nold : Nat) :
    Except Int ((CStr × Option CStr) × Nat) :=
  let key := str.takeWhile (· ≠ '=')
  if key ≠ [] ∧ key.length < str.length then
    let p := nonEmpty (str.drop (key.length + 1))
    match mOptionListFind desc.fields key with
    | none => .error mOptUnknown
    | some f =>
      let r := f.check key p
      if r < 0 then .error r else .ok ((key, p), nold)
  else
    match desc.fields[nold]? with
    | none => .error mOptOutOfRange
    | some f =>
      let r := f.check f.name (some str)
      if r < 0 then .error r else .ok ((f.name, some str), nold + 1)

/-- The loop of `get_obj_params` over the fields between the separators. -/
def getObjParamsLoop (desc : ObjDesc) : List CStr → Nat →
    Except Int (List (CStr × Option CStr) × Nat)
  | [], nold => .ok ([], nold)
  | str :: strs, nold =>
    if str = [] then getObjParamsLoop desc strs (nold + 1)
    else
      match getObjParam desc str nold with
      | .error r => .error r
      | .ok (attrib, nold) =>
        match getObjParamsLoop desc strs nold with
        | .error r => .error r
        | .ok (attribs, nold) => .ok (attrib :: attribs, nold)

/-- The fields between separators that `strchr` finds. -/
def splitPlain (sep : Char) : CStr → List CStr
  | [] => [[]]
  | c :: s => if c = sep then [] :: splitPlain sep s else consField c (splitPlain sep s)

/-- A list of names and values as it is kept in memory. -/
def flatAttribs : List (CStr × Option CStr) → List (Option CStr)
  | [] => []
  | (n, v) :: attribs => some n :: v :: flatAttribs attribs

/-- `get_obj_params`, and the list it makes: `NULL` if there are no parameters but empty
ones.  An empty field at the end is counted too. -/
def getObjParams (desc : ObjDesc) (params : CStr) (separator : Char) :
    Except Int (Option (List (Option CStr))) :=
  if params = "help".toList then .error (mOptExit - 1)
  else
    match getObjParamsLoop desc (splitPlain separator params) 0 with
    | .error r => .error r
    | .ok (attribs, nold) =>
      if desc.fields.length < nold then .error mOptOutOfRange
      else .ok (nullIfEmpty (flatAttribs attribs))

/-! ## `parse_obj_settings` -/

/-- An object type of an `m_obj_list_t`. -/
structure ObjInfo where
  name : CStr
  desc : Option ObjDesc

/-- `parse_obj_settings`.  `store` tells whether the object is to be stored, that is
whether `_ret` is not `NULL`. -/
def parseObjSettings (list : List ObjInfo) (str : CStr) (store : Bool) :
    Except Int ObjSettings :=
  let name := str.takeWhile (· ≠ '=')
  let param := nonEmpty (str.drop (name.length + 1))
  match list.find? fun info => info.name = name with
  | none => .error mOptInvalid
  | some info =>
    match param, info.desc with
    | none, _ => .ok ⟨name, none⟩
    | some param, none =>
      if !store then .ok ⟨name, none⟩
      else if param = "help".toList then .error (mOptExit - 1)
      else .ok ⟨name, some [some "_oldargs_".toList, some param]⟩
    | some param, some desc => (getObjParams desc param ':').map fun attribs => ⟨name, attribs⟩

/-! ## `obj_settings_list_del` -/

/-- The name of a removed entry. -/
def remId : CStr := "_removed_marker_".toList

/-- The loop of `obj_settings_list_del` that marks entries.  It gives the list as it is when
the loop ends, and whether it ends well. -/
@[grind =] def markRemoved : List CStr → List ObjSettings → Bool × List ObjSettings
  | [], lst => (true, lst)
  | d :: del, lst =>
    let (id, ep) := strtoll 0 d
    let id := toInt32 id
    if ep = d then (false, lst)
    else if (lst.length : Int) ≤ id ∨ id < -lst.length then markRemoved del lst
    else
      let id := if id < 0 then lst.length + id else id
      markRemoved del (lst.set id.toNat ⟨remId, none⟩)

/-- `obj_settings_list_del`.  A list may be left without entries, but is not `NULL` then. -/
def objSettingsListDel (fl : Doubles F) (optName param : CStr) (dst : Option (OptVal F)) :
    Int × Option (OptVal F) :=
  match dst, dst.bind OptVal.toObjList with
  | some _, none => (1, none)
  | _, lst =>
    match checkStrList fl (anyRange fl) optName optName (some param) none with
    | .error r => (r, none)
    | .ok (_, del) =>
      let (ok, marked) := markRemoved (del.getD []) (lst.getD [])
      if !ok then (mOptInvalid, dst.map fun _ => .objList (some marked))
      else (1, dst.map fun _ => .objList (some (marked.filter fun o => o.name ≠ remId)))

/-! ## `parse_obj_settings_list` -/

/-- The loop of `parse_obj_settings_list`. -/
def parseObjs (list : List ObjInfo) (store : Bool) : List CStr → Except Int (List ObjSettings)
  | [] => .ok []
  | str :: strs =>
    match parseObjSettings list str store with
    | .error r => .error r
    | .ok obj =>
      match parseObjs list store strs with
      | .error r => .error r
      | .ok objs => .ok (obj :: objs)

/-- What `parse_obj_settings_list` does once it knows the operation: the checks and the
objects. -/
def checkObjs (fl : Doubles F) (range : OptRange F) (list : List ObjInfo) (param : CStr)
    (store : Bool) : Except Int (List ObjSettings) :=
  if param = "help".toList then .error (mOptExit - 1)
  else
    match parseObjs list store (loopFields ',' param) with
    | .error r => .error r
    | .ok res =>
      if res = [] then .error mOptInvalid
      else if range.outside fl (fl.ofInt res.length) then .error mOptOutOfRange
      else .ok res

/-- What is left in `dst` when the checks have failed: the old list is already freed unless
it is to be kept. -/
def objListFreed (op : ListOp) (old : Option (List ObjSettings)) : Option (OptVal F) :=
  if op = .none ∧ old.isSome then some (.objList none) else none

/-- `parse_obj_settings_list`. -/
def parseObjSettingsList (fl : Doubles F) (range : OptRange F) (priv : Option (List ObjInfo))
    (optName name : CStr) (param : Option CStr) (dst : Option (OptVal F)) :
    Int × Option (OptVal F) :=
  let old := dst.bind OptVal.toObjList
  match priv, listOp optName name with
  | none, _ => (mOptInvalid, none)
  | some _, none => (mOptUnknown, none)
  | some _, some .clr => (0, dst.map fun _ => .objList none)
  | some list, some op =>
    match param with
    | none => (mOptMissingParam, none)
    | some [] => (mOptMissingParam, none)
    | some param =>
      if op = .del then objSettingsListDel fl name param dst
      else
        match checkObjs fl range list param dst.isSome with
        | .error r => (r, objListFreed op old)
        | .ok res =>
          let objs :=
            match op with
            | .add => old.getD [] ++ res
            | .pre => res ++ old.getD []
            | _ => res
          (1, dst.map fun _ => .objList (some objs))

end MPlayer
