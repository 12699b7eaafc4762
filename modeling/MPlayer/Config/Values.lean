import MPlayer.Config.Options

/-!
# Values of options

What the variables and the save slots of options hold.  The doubles and what the C
library does with them are a parameter.
-/

namespace MPlayer

/-! ## Doubles -/

/-- Doubles, as the parsers use them.  `strtod` gives the number and the string from
`end` on, `scanLf` is the conversion `%lf` of `sscanf`, and `fraction s` is
`1.0/pow(10,strlen(s)) * strtod(s,&end)` with the string from `end` on. -/
structure Doubles (F : Type) where
  ofInt : Int → F
  toInt : F → Int
  toFloat : F → F
  lt : F → F → Bool
  add : F → F → F
  sub : F → F → F
  mul : F → F → F
  div : F → F → F
  strtod : CStr → F × CStr
  scanLf : CStr → Option (F × CStr)
  fraction : CStr → F × CStr
  nopts : F

variable {F : Type}

/-- `min` and `max` of an option, with the flags `M_OPT_MIN` and `M_OPT_MAX`. -/
structure OptRange (F : Type) where
  min : F
  max : F
  hasMin : Bool
  hasMax : Bool
deriving DecidableEq

/-- Whether a number is too small. -/
def OptRange.below (fl : Doubles F) (range : OptRange F) (x : F) : Bool :=
  range.hasMin && fl.lt x range.min

/-- Whether a number is too large. -/
def OptRange.above (fl : Doubles F) (range : OptRange F) (x : F) : Bool :=
  range.hasMax && fl.lt range.max x

/-- Whether a number is out of range. -/
def OptRange.outside (fl : Doubles F) (range : OptRange F) (x : F) : Bool :=
  range.below fl x || range.above fl x

/-! ## Data -/

/-- `m_obj_settings_t`.  The names and values of `attribs` alternate, and a value may be
`NULL`. -/
structure ObjSettings where
  name : CStr
  attribs : Option (List (Option CStr))
deriving DecidableEq

/-- `m_time_size_t`, where `isSize` tells `END_AT_SIZE` from `END_AT_TIME`. -/
structure TimeSize (F : Type) where
  pos : F
  isSize : Bool
deriving DecidableEq

/-- The data of an option.  `nothing` is the data of types of size zero, and `calls` are
the calls that the function types save. -/
inductive OptVal (F : Type) where
  | nothing
  | int (n : Int)
  | double (x : F)
  | str (s : Option CStr)
  | strList (l : Option (List CStr))
  | objList (l : Option (List ObjSettings))
  | timeSize (t : Option (TimeSize F))
  | calls (l : List (CStr × Option CStr))
deriving DecidableEq

/-- The string list that a pointer to one points to. -/
def OptVal.toStrList : OptVal F → Option (List CStr)
  | strList l => l
  | _ => none

/-- The list of objects that a pointer to one points to. -/
def OptVal.toObjList : OptVal F → Option (List ObjSettings)
  | objList l => l
  | _ => none

/-- The saved calls of a function type. -/
def OptVal.toCalls : OptVal F → List (CStr × Option CStr)
  | calls l => l
  | _ => []

/-- The number that an `int` holds. -/
def OptVal.toInt : OptVal F → Int
  | int n => n
  | _ => 0

/-- Whether a pointer is `NULL`. -/
def OptVal.isNull : OptVal F → Bool
  | str none => true
  | strList none => true
  | objList none => true
  | _ => false

/-! ## Parsers that write last -/

/-- How most parsers end: with an error, or by writing a value unless `dst` is `NULL` and
returning the number of arguments they took. -/
def finish (dst : Option (OptVal F)) : Except Int (Nat × OptVal F) → Int × Option (OptVal F)
  | .error r => (r, none)
  | .ok (n, v) => (n, dst.map fun _ => v)

/-- Such a parser that fails writes nothing. -/
theorem finish_written {dst : Option (OptVal F)} {res : Except Int (Nat × OptVal F)}
    (h : (finish dst res).1 < 0) : (finish dst res).2 = none := by
  cases res with
  | error r => rfl
  | ok nv =>
    obtain ⟨n, v⟩ := nv
    simp only [finish] at h
    omega

end MPlayer
