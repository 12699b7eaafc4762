import MPlayer.Config.Lists
import MPlayer.Config.Basic

/-!
# The option types

The types of `m_option.c` with the functions of each.  The callbacks of the function types
are given by the code that they return.
-/

namespace MPlayer

variable {F : Type}

/-! ## Types -/

/-- `priv` of a print option: `NULL`, `PRIV_NO_EXIT` or anything else. -/
inductive PrintPriv where
  | null
  | noExit
  | other
deriving DecidableEq

/-- The types of options, each with what its functions read of the option.  `format` is both
`m_option_type_imgfmt` and `m_option_type_afmt`, which differ in their table, and `profile`
the type of the option `profile`, with the names of the profiles. -/
inductive OptType (F : Type) where
  | flag (range : OptRange F)
  | int (range : OptRange F)
  | int64 (range : OptRange F)
  | double (range : OptRange F)
  | float (range : OptRange F)
  | position (range : OptRange F)
  | string (range : OptRange F)
  | stringList (range : OptRange F)
  | funcParamImmediate (call : Option CStr → Int)
  | funcParam
  | funcFull
  | func
  | print (priv : PrintPriv)
  | printFunc (call : CStr → Option CStr → Int)
  | format (table : List (CStr × Nat))
  | time
  | timeSize
  | objSettingsList (range : OptRange F) (priv : Option (List ObjInfo))
  | objParams (priv : Option (ObjDesc × Char))
  | profile (profiles : List CStr)

/-- `M_OPT_TYPE_ALLOW_WILDCARD`. -/
def OptType.allowWildcard : OptType F → Bool
  | stringList _ => true
  | funcFull => true
  | printFunc _ => true
  | objSettingsList _ _ => true
  | profile _ => true
  | _ => false

/-- `M_OPT_TYPE_DYNAMIC`. -/
def OptType.dynamic : OptType F → Bool
  | string _ => true
  | stringList _ => true
  | objSettingsList _ _ => true
  | profile _ => true
  | _ => false

/-- The data of a slot that was just allocated. -/
def OptType.zero (fl : Doubles F) : OptType F → OptVal F
  | flag _ => .int 0
  | int _ => .int 0
  | int64 _ => .int 0
  | double _ => .double (fl.ofInt 0)
  | float _ => .double (fl.ofInt 0)
  | position _ => .int 0
  | string _ => .str none
  | stringList _ => .strList none
  | funcParamImmediate _ => .nothing
  | funcParam => .calls []
  | funcFull => .calls []
  | func => .int 0
  | print _ => .nothing
  | printFunc _ => .nothing
  | format _ => .int 0
  | time => .double (fl.ofInt 0)
  | timeSize => .timeSize none
  | objSettingsList _ _ => .objList none
  | objParams _ => .nothing
  | profile _ => .strList none

/-! ## Numbers -/

/-- The parameters that mean yes in a config file. -/
def yesWords : List CStr :=
  ["yes", "on", "ja", "si", "igen", "y", "j", "i", "tak", "ja", "true"].map String.toList

/-- The parameters that mean no in a config file. -/
def noWords : List CStr :=
  ["no", "off", "nein", "nicht", "nem", "n", "nie", "nej", "false"].map String.toList

/-- `parse_flag`. -/
def parseFlag (fl : Doubles F) (range : OptRange F) (param : Option CStr) (mode : ParserMode) :
    Except Int (Nat × OptVal F) :=
  if mode = .configFile then
    match param with
    | none => .error mOptMissingParam
    | some param =>
      if yesWords.any (strcaseeq param) || param = "1".toList then
        .ok (1, .int (toInt32 (fl.toInt range.max)))
      else if noWords.any (strcaseeq param) || param = "0".toList then
        .ok (1, .int (toInt32 (fl.toInt range.min)))
      else .error mOptInvalid
  else .ok (0, .int (toInt32 (fl.toInt range.max)))

/-- Write a number that is in range. -/
def ranged (fl : Doubles F) (range : OptRange F) (x : F) (v : OptVal F) :
    Except Int (Nat × OptVal F) :=
  if range.outside fl x then .error mOptOutOfRange else .ok (1, v)

/-- `parse_int`, where `store` makes the value of the variable. -/
def parseInt (fl : Doubles F) (range : OptRange F) (store : Int → Int) (param : Option CStr) :
    Except Int (Nat × OptVal F) :=
  match param with
  | none => .error mOptMissingParam
  | some param =>
    let (tmp, rest) :=
      if (strtoll 10 param).2 = [] then strtoll 10 param else strtoll 0 param
    if rest ≠ [] then .error mOptInvalid
    else ranged fl range (fl.ofInt tmp) (.int (store tmp))

/-- The number that `parse_double` reads, and what is left of the parameter. -/
def readDouble (fl : Doubles F) (param : CStr) : F × CStr :=
  let (x, rest) := fl.strtod param
  match rest with
  | [] => (x, [])
  | c :: s =>
    if c = ':' ∨ c = '/' then (fl.div x (fl.strtod s).1, (fl.strtod s).2)
    else if c = '.' ∨ c = ',' then
      let (y, rest) := fl.fraction s
      (if fl.lt x (fl.ofInt 0) then fl.sub x y else fl.add x y, rest)
    else (x, c :: s)

/-- `parse_double`, and `parse_float`, where `store` makes the value of the variable. -/
def parseDouble (fl : Doubles F) (range : OptRange F) (store : F → F) (param : Option CStr) :
    Except Int (Nat × OptVal F) :=
  match param with
  | none => .error mOptMissingParam
  | some param =>
    let (x, rest) := readDouble fl param
    if rest ≠ [] then .error mOptInvalid else ranged fl range x (.double (store x))

/-- The conversion `%d` of `sscanf`. -/
def scanD (s : CStr) : Option (Int × CStr) :=
  let (n, rest) := strtoll 10 s
  if rest = s then none else some (n, rest)

/-- `parse_position`. -/
def parsePosition (fl : Doubles F) (range : OptRange F) (param : Option CStr) :
    Except Int (Nat × OptVal F) :=
  match param with
  | none => .error mOptMissingParam
  | some param =>
    match scanD param with
    | some (n, []) => ranged fl range (fl.ofInt n) (.int n)
    | _ => .error mOptInvalid

/-! ## Strings -/

/-- `parse_str`. -/
def parseStr (fl : Doubles F) (range : OptRange F) (param : Option CStr) :
    Except Int (Nat × OptVal F) :=
  match param with
  | none => .error mOptMissingParam
  | some param => ranged fl range (fl.ofInt param.length) (.str (some param))

/-! ## Formats and times -/

/-- The conversion `0x%x` of `sscanf`. -/
def scanHex : CStr → Option Nat
  | '0' :: 'x' :: s =>
    let (n, rest) := strtoll 16 s
    if rest = s then none else some (n % 0x100000000).toNat
  | _ => none

/-- `parse_imgfmt` and `parse_afmt`. -/
def parseFormat (table : List (CStr × Nat)) (param : Option CStr) :
    Except Int (Nat × OptVal F) :=
  match param with
  | none => .error mOptMissingParam
  | some [] => .error mOptMissingParam
  | some param =>
    if param = "help".toList then .error (mOptExit - 1)
    else
      match scanHex param with
      | some fmt => .ok (1, .int fmt)
      | none =>
        match table.find? fun row => strcaseeq param row.1 with
        | some row => .ok (1, .int row.2)
        | none => .error mOptInvalid

/-- A number and a colon, as `%d:` reads them. -/
def scanColon (s : CStr) : Option (Int × CStr) :=
  match scanD s with
  | some (n, ':' :: rest) => some (n, rest)
  | _ => none

/-- The number of seconds in `a` hours, `b` minutes and `d` seconds. -/
def hms (fl : Doubles F) (a b : Int) (d : F) : F := fl.add (fl.ofInt (3600 * a + 60 * b)) d

/-- What the calls of `sscanf` in `parse_timestring` find: the time, and what follows it. -/
def scanTime (fl : Doubles F) (s : CStr) : Option (F × CStr) :=
  let hours := (scanColon s).bind fun (a, s) => (scanColon s).bind fun (b, s) =>
    (fl.scanLf s).map fun (d, s) => (hms fl a b d, s)
  let minutes := (scanColon s).bind fun (a, s) =>
    (fl.scanLf s).map fun (d, s) => (hms fl 0 a d, s)
  let nopts := if strncaseeq s "nopts".toList 5 then some (fl.nopts, s.drop 5) else none
  hours.or (minutes.or ((fl.scanLf s).or nopts))

/-- `parse_timestring` with a NUL as `endchar`, for strings that are not empty. -/
def parseTimestring (fl : Doubles F) (s : CStr) : Option F :=
  match scanTime fl s with
  | some (t, []) => some t
  | _ => none

/-- `parse_time`. -/
def parseTime (fl : Doubles F) (param : Option CStr) : Except Int (Nat × OptVal F) :=
  match param with
  | none => .error mOptMissingParam
  | some [] => .error mOptMissingParam
  | some param =>
    match parseTimestring fl param with
    | some t => .ok (1, .double t)
    | none => .error mOptInvalid

/-- The number of bytes in a unit of `parse_time_size`. -/
def sizeUnit (s : CStr) : Option Nat :=
  if strcaseeq s "b".toList then some 1
  else if strcaseeq s "kb".toList then some 1024
  else if strcaseeq s "mb".toList then some (1024 * 1024)
  else if strcaseeq s "gb".toList then some (1024 * 1024 * 1024)
  else none

/-- The size that `%lf%3s` and the unit give. -/
def scanSize (fl : Doubles F) (s : CStr) : Option F :=
  (fl.scanLf s).bind fun (x, s) =>
    let unit := ((s.dropWhile isSpace).takeWhile fun c => !isSpace c).take 3
    (sizeUnit unit).map fun k => fl.mul x (fl.ofInt k)

/-- `parse_time_size`. -/
def parseTimeSize (fl : Doubles F) (param : Option CStr) : Except Int (Nat × OptVal F) :=
  match param with
  | none => .error mOptMissingParam
  | some [] => .error mOptMissingParam
  | some param =>
    match scanSize fl param with
    | some x => .ok (1, .timeSize (some ⟨x, true⟩))
    | none =>
      match parseTimestring fl param with
      | some t => .ok (1, .timeSize (some ⟨t, false⟩))
      | none => .error mOptInvalid

/-! ## Functions and printing -/

/-- `parse_call_func`, where `r` is the code that the callback returns. -/
def parseCallFunc (r : Int) : Int × Option (OptVal F) := (if r < 0 then r else 1, none)

/-- What `parse_print` returns when it has printed. -/
def parsePrint : PrintPriv → Int
  | .null => mOptExit
  | .noExit => 0
  | .other => 1

/-- `parse_func_pf`. -/
def parseFuncPf (name : CStr) (param : Option CStr) (dst : Option (OptVal F)) :
    Int × Option (OptVal F) :=
  (1, dst.map fun d => .calls (d.toCalls ++ [(name, param)]))

/-- `parse_func`. -/
def parseFunc (dst : Option (OptVal F)) : Int × Option (OptVal F) :=
  (0, dst.map fun d => .int (d.toInt + 1))

/-! ## Structs and profiles -/

/-- `parse_obj_params`.  Data of size zero is nothing that it could write. -/
def parseObjParams (priv : Option (ObjDesc × Char)) (param : Option CStr) :
    Int × Option (OptVal F) :=
  match priv with
  | none => (mOptInvalid, none)
  | some (desc, separator) =>
    match getObjParams desc (param.getD []) separator with
    | .error r => (r, none)
    | .ok _ => (1, none)

/-- `parse_profile`. -/
def parseProfile (fl : Doubles F) (profiles : List CStr) (optName name : CStr)
    (param : Option CStr) (dst : Option (OptVal F)) : Int × Option (OptVal F) :=
  if param = some "help".toList then (mOptExit - 1, none)
  else
    match checkStrList fl (anyRange fl) optName name param none with
    | .error r => (r, none)
    | .ok (r, list) =>
      if list.getD [] = [] then (mOptInvalid, none)
      else
        (if (list.getD []).all fun p => profiles.contains p then r else mOptInvalid,
          dst.map fun _ => .strList list)

/-! ## The types as `m_config` uses them -/

/-- `m_option_type_t.parse`. -/
def OptType.parse (fl : Doubles F) (opt : PlainOption (OptType F)) (name : CStr)
    (param : Option CStr) (dst : Option (OptVal F)) (mode : ParserMode) :
    Int × Option (OptVal F) :=
  match opt.type with
  | flag range => finish dst (parseFlag fl range param mode)
  | int range => finish dst (parseInt fl range toInt32 param)
  | int64 range => finish dst (parseInt fl range id param)
  | double range => finish dst (parseDouble fl range id param)
  | float range => finish dst (parseDouble fl range fl.toFloat param)
  | position range => finish dst (parsePosition fl range param)
  | string range => finish dst (parseStr fl range param)
  | stringList range => parseStrList fl range opt.name name param dst
  | funcParamImmediate call => parseCallFunc (call param)
  | funcParam => parseFuncPf name param dst
  | funcFull => parseFuncPf name param dst
  | func => parseFunc dst
  | print priv => (parsePrint priv, none)
  | printFunc call => (call name param, none)
  | format table => finish dst (parseFormat table param)
  | time => finish dst (parseTime fl param)
  | timeSize => finish dst (parseTimeSize fl param)
  | objSettingsList range priv => parseObjSettingsList fl range priv opt.name name param dst
  | objParams priv => parseObjParams priv param
  | profile profiles => parseProfile fl profiles opt.name name param dst

/-- Whether the type saves and sets the variable by copying it. -/
def OptType.copies : OptType F → Bool
  | funcParamImmediate _ => false
  | funcParam => false
  | funcFull => false
  | func => false
  | print _ => false
  | printFunc _ => false
  | objParams _ => false
  | profile _ => false
  | _ => true

/-- A copy of the attributes of an object: `copy_str_list` stops at the first `NULL`. -/
def ObjSettings.copy (o : ObjSettings) : ObjSettings :=
  { o with attribs := o.attribs.map fun l => l.takeWhile Option.isSome }

/-- A copy of the data of an option: all types but one copy all of it. -/
def OptType.copy : OptType F → OptVal F → OptVal F
  | objSettingsList _ _, .objList l => .objList (l.map fun objs => objs.map ObjSettings.copy)
  | _, v => v

/-- The option types. -/
def mOptionTypes (fl : Doubles F) : MOptionTypes (OptType F) (OptVal F) where
  allowWildcard := OptType.allowWildcard
  dynamic := OptType.dynamic
  zero := OptType.zero fl
  isNull := OptVal.isNull
  parse := OptType.parse fl
  save opt dst src := if opt.type.copies then (src.map opt.type.copy).getD dst else dst
  set opt _ src := if opt.type.copies then some (opt.type.copy src) else none
  copy opt _ src := opt.type.copy src

end MPlayer
