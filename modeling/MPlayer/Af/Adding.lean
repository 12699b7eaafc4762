import MPlayer.Af.Filters

/-!
# Adding an audio filter

`af_add` puts a filter at the begin of a chain, behind a leading `format` filter.  Then it calls
`af_reinit` and `fixup_output_format`, which calls `af_reinit` up to three times.  If one of them
fails, the filters up to the new one are removed, and the chain is initialized once more, whose
result is not looked at.

`af_create` knows the filter by its name, and opens it.  Here only what it returns is of interest.
The new filter is known by its address, and the address of a filter that is freed is not used
again.
-/

namespace MPlayer.Af

open Lib

/-- `AF_FORMAT_UNKNOWN`. -/
def formatUnknown : BitVec 32 := -1

/-- `af_stream_t`. -/
structure AfStream where
  input : AfData
  output : AfData
  mode : InitType
  chain : List AfInstance
  fresh : Nat
  fresh_lt : ∀ f ∈ chain, f.id < fresh

/-! ## Controls -/

/-- `AF_CONTROL_CHANNELS` for the filter `channels`. -/
def setChannels (id : Nat) (nch : Int) : Option AfInstance :=
  if nch ≤ 0 ∨ 8 < nch then none else some (channels id nch)

/-- `AF_CONTROL_FORMAT_FMT` for the filter `format`. -/
def setFormat (id : Nat) (fmt : BitVec 32) : Option AfInstance :=
  if !formatIsAc3 fmt && !checkFormat fmt then none
  else some (format id fmt ((fmt2bits fmt).tdiv 8))

/-! ## The chain of a pass -/

namespace Pass

variable (p : Pass)

def chain : List AfInstance := p.before.reverse ++ p.rest

/-- A pass over this chain that begins at the filters `rest`. -/
def startAt (front rest : List AfInstance) : Pass :=
  { p with before := front.reverse, rest := rest }

end Pass

/-! ## `af_add` -/

/-- The calls of `af_reinit`: from `af_add`, and the three of `fixup_output_format`. -/
inductive Call where
  | all
  | channels
  | format
  | again
  deriving DecidableEq

/-- `af_add` in a call of `af_reinit`, the first time or behind the roll-back, or in front of the
roll-back. -/
inductive AddState where
  | reinit (retry : Bool) (call : Call) (p : Pass) (output : AfData)
  | rollBack (p : Pass) (output : AfData)

/-- What `af_add` returns, with the chain and the output format, or the use of a filter that is not
there. -/
inductive Added where
  | returned (af : Option Nat) (chain : List AfInstance) (output : AfData)
  | invalid

/-- `first_is_format`, and the address of the new filter. -/
structure Addition where
  firstIsFormat : Bool
  new : Nat

namespace Addition

variable (a : Addition)

abbrev Turn := Progress Added AddState

/-- `af_reinit` or `fixup_output_format` failed. -/
def fail (retry : Bool) (p : Pass) (output : AfData) : Turn :=
  if retry then .done (.returned none p.chain output) else .next (.rollBack p output)

/-- The output format, where it leaves open something that the last filter tells. -/
def fill (output data : AfData) : AfData :=
  { output with
    format := if output.format = formatUnknown then data.format else output.format
    nch := if output.nch = 0 then data.nch else output.nch
    rate := if output.rate = 0 then data.rate else output.rate }

/-- The last part of `fixup_output_format`. -/
def check (retry : Bool) (p : Pass) (output : AfData) : Turn :=
  match p.chain.getLast? with
  | none => .done .invalid
  | some last =>
    let output := fill output last.data
    if last.data.format ≠ output.format ∨ last.data.nch ≠ output.nch ∨
        last.data.rate ≠ output.rate then fail retry p output
    else .done (.returned (if retry then none else some a.new) p.chain output)

/-- "Re init again just in case". -/
def again (retry : Bool) (p : Pass) (output : AfData) : Turn :=
  .next (.reinit retry .again (p.startAt [] p.chain) output)

/-- "Init the new filter", which stands behind `front`: it is set to what the output needs, and
initialized if it takes this. -/
def initNew (retry : Bool) (call : Call) (p : Pass) (front behind : List AfInstance)
    (new : AfInstance) (set : Option AfInstance) (output : AfData) : Turn :=
  match set with
  | none => fail retry (p.startAt front (new :: behind)) output
  | some af => .next (.reinit retry call (p.startAt front (af :: behind)) output)

/-- The part of `fixup_output_format` for the format. -/
def fixFormat (retry : Bool) (p : Pass) (output : AfData) : Turn :=
  if output.format = formatUnknown then again retry p output
  else
    match p.chain.getLast? with
    | none => .done .invalid
    | some last =>
      if last.data.format = output.format then again retry p output
      else
        let output := { output with format := output.format ||| bits2fmt (output.bps * 8) }
        if last.name = "format" then
          initNew retry .format p p.chain.dropLast [] last (setFormat last.id output.format) output
        else
          initNew retry .format { p with fresh := p.fresh + 1 } p.chain [] (format p.fresh 0 0)
            (setFormat p.fresh output.format) output

/-- The part of `fixup_output_format` for the channels. -/
def fixChannels (retry : Bool) (p : Pass) (output : AfData) : Turn :=
  if output.nch = 0 then fixFormat retry p output
  else
    match p.chain.getLast? with
    | none => .done .invalid
    | some last =>
      if last.data.nch = output.nch then fixFormat retry p output
      else
        let front := if last.name = "format" then p.chain.dropLast else p.chain
        let behind := if last.name = "format" then [last] else []
        initNew retry .channels { p with fresh := p.fresh + 1 } front behind (channels p.fresh 0)
          (setChannels p.fresh output.nch) output

/-- Behind a call of `af_reinit`.  Behind the roll-back its result is not looked at. -/
def after (retry : Bool) (call : Call) (rv : Int) (p : Pass) (output : AfData) : Turn :=
  match call with
  | .all => if rv = 1 ∨ retry then fixChannels retry p output else fail retry p output
  | .channels => if rv = 1 then fixFormat retry p output else fail retry p output
  | .format => if rv = 1 then again retry p output else fail retry p output
  | .again => if rv = 1 then a.check retry p output else fail retry p output

/-- What follows a call of `af_reinit` that returned `AF_OK`. -/
theorem after_ok (retry : Bool) (call : Call) (p : Pass) (output : AfData) :
    a.after retry call 1 p output =
      match call with
      | .all => fixChannels retry p output
      | .channels => fixFormat retry p output
      | .format => again retry p output
      | .again => a.check retry p output := by
  cases call with
  | all => simp only [after, true_or, if_true]
  | channels => rfl
  | format => rfl
  | again => rfl

theorem after_failed {call : Call} {rv : Int} (hrv : rv ≠ 1) (p : Pass) (output : AfData) :
    a.after false call rv p output = .next (.rollBack p output) := by
  cases call with
  | all => simp [after, hrv, fail]
  | channels => simp [after, hrv, fail]
  | format => simp [after, hrv, fail]
  | again => simp [after, hrv, fail]

/-- The filters behind the new one, if it is there. -/
def behind (chain : List AfInstance) : Option (List AfInstance) :=
  match chain.dropWhile fun f => f.id ≠ a.new with
  | [] => none
  | _ :: fs => some fs

/-- The removal of the filters from the begin of the chain up to the new one. -/
def removeNew (chain : List AfInstance) : Option (List AfInstance) :=
  if a.firstIsFormat then
    match chain with
    | [] => none
    | first :: fs => (a.behind fs).map (first :: ·)
  else a.behind chain

/-- A turn of the loop that runs at this time. -/
def turn : AddState → Turn
  | .reinit retry call p output =>
    match p.turn with
    | .next q => .next (.reinit retry call q output)
    | .done (rv, q) => a.after retry call rv q output
  | .rollBack p output =>
    match a.removeNew p.chain with
    | none => .done .invalid
    | some chain => .next (.reinit true .all (p.startAt [] chain) output)

end Addition

namespace AfStream

variable (s : AfStream)

/-- The addition of a filter to a chain with this first filter. -/
def addition (first : AfInstance) : Addition := ⟨first.name = "format", s.fresh⟩

/-- The chain with the new filter. -/
def addFirst (first : AfInstance) (fs : List AfInstance) (new : AfInstance) : AddState :=
  let new := { new with id := s.fresh }
  let chain := if first.name = "format" then first :: new :: fs else new :: first :: fs
  .reinit false .all ⟨s.input, s.mode, [], chain, s.fresh + 1⟩ s.output

/-- `af_add`, where `af_create` returned `created`. -/
def Adds (created : Option AfInstance) (result : Added) : Prop :=
  match s.chain, created with
  | first :: fs, some new => HaltsWith (s.addition first).turn (s.addFirst first fs new) result
  | _, _ => result = .returned none s.chain s.output

end AfStream

end MPlayer.Af
