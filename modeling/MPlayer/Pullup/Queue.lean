import MPlayer.Pullup.Metrics

/-!
# The field queue of inverse telecine

`pullup` keeps the fields in a ring.  From `first` to `last` there are the fields of the queue, and
from `head` on the free ones.  `pullup_submit_field` fills the one at `head` and measures it
against its neighbours.  `pullup_get_frame` looks at the first fields of the queue, decides how many
of them are a frame, and frees them.

A buffer is known by the address of its metric plane.  The locks of buffers, which only decide
which buffer is given out next, are left out.  The parity of a field is 0 or 1.
-/

namespace MPlayer.Pullup

/-- `struct pullup_field`.  The bits of `flags` and `breaks` are fields of their own. -/
structure Field where
  parity : Fin 2
  buffer : Option Int
  haveBreaks : Bool
  haveAffinity : Bool
  breakLeft : Bool
  breakRight : Bool
  affinity : Int
  diffs : List Int
  comb : List Int
  var : List Int
  deriving DecidableEq

/-- What the fields of `struct pullup_context` that don't change say. -/
structure Params where
  bpp : Nat
  stride : Int
  metricW : Nat
  metricH : Nat
  metricOffset : Int
  strictBreaks : Int
  strictPairs : Bool
  diff : Memory → Int → Int → Int → Int
  comb : Memory → Int → Int → Int → Int
  var : Memory → Int → Int → Int → Int

/-- `metric_len`. -/
def Params.metricLen (c : Params) : Nat := c.metricW * c.metricH

/-- `struct pullup_frame`. -/
structure Frame where
  length : Nat
  parity : Fin 2
  ifields : List (Option Int)
  ofields : Fin 2 → Option Int

/-- The fields of `struct pullup_context` that change: the fields from `first` to `last`, the ones
from `head` to the one in front of `first`, and the lock of the frame. -/
structure Context where
  queue : List Field
  head : Field
  free : List Field
  lock : Int

namespace Context

/-- The fields that are not in the queue. -/
def rest (s : Context) : List Field := s.head :: s.free

/-- `first->prev`. -/
def prev (s : Context) : Field := s.rest.getLast (List.cons_ne_nil _ _)

end Context

variable (c : Params)

/-- A field of `make_field_queue`. -/
def emptyField : Field where
  parity := 0
  buffer := none
  haveBreaks := false
  haveAffinity := false
  breakLeft := false
  breakRight := false
  affinity := 0
  diffs := List.replicate c.metricLen 0
  comb := List.replicate c.metricLen 0
  var := List.replicate c.metricLen 0

/-- `pullup_init_context`. -/
def initContext : Context where
  queue := []
  head := emptyField c
  free := List.replicate 8 (emptyField c)
  lock := 0

/-! ## Submitting fields -/

/-- `compute_metric` for the fields in two buffers. -/
def computeMetric (func : Memory → Int → Int → Int → Int) (mem : Memory) (fa : Option Int)
    (pa : Int)
    (fb : Option Int) (pb : Int) (dest : List Int) : List Int :=
  match fa, fb with
  | some fa, some fb =>
    -- fields that are the same
    if fa = fb ∧ pa = pb then List.replicate c.metricLen 0
    else
      let a := fa + pa * c.stride + c.metricOffset
      let b := fb + pb * c.stride + c.metricOffset
      (List.range c.metricH).flatMap fun y => (List.range c.metricW).map fun x =>
        func mem (a + y * (8 * c.stride) + x * c.bpp) (b + y * (8 * c.stride) + x * c.bpp)
          (2 * c.stride)
  | _, _ => dest

/-- `check_field_queue`. -/
def checkFieldQueue (s : Context) : Context :=
  if s.queue ≠ [] ∧ s.free = [] then { s with free := [emptyField c] } else s

/-- The field at `head` with the new picture, measured against the two fields in front of it. -/
def fillField (mem : Memory) (b : Int) (parity : Fin 2) (f prev prev' : Field) : Field :=
  let buffer := some b
  { parity := parity
    buffer := buffer
    haveBreaks := false
    haveAffinity := false
    breakLeft := false
    breakRight := false
    affinity := 0
    diffs := computeMetric c c.diff mem buffer parity.val prev'.buffer parity.val f.diffs
    comb :=
      if parity = 0 then computeMetric c c.comb mem buffer 0 prev.buffer 1 f.comb
      else computeMetric c c.comb mem prev.buffer 0 buffer 1 f.comb
    var := computeMetric c c.var mem buffer parity.val buffer (-1) f.var }

/-- `pullup_submit_field`. -/
def submitField (mem : Memory) (b : Int) (parity : Fin 2) (s : Context) : Context :=
  let s := checkFieldQueue c s
  if s.queue.getLast?.map Field.parity = some parity then s
  else
    -- the ring in front of `head`, backwards
    let back := s.queue.reverse ++ s.rest.reverse
    let f := fillField c mem b parity s.head (back.getD 0 s.head) (back.getD 1 s.head)
    match s.free with
    | [] => s
    | head :: free => { s with queue := s.queue ++ [f], head := head, free := free }

/-- `pullup_flush_fields`. -/
def flushFields (s : Context) : Context :=
  { s with queue := [], free := s.free ++ s.queue.map fun f => { f with buffer := none } }

/-! ## Deciding the length of a frame -/

/-- The maxima of the numbers that `l` gives and of their negatives. -/
def maxima (l : Nat → Int) : Int × Int :=
  (List.range c.metricLen).foldl (fun m i => (max m.1 (l i), max m.2 (-l i))) (0, 0)

/-- `compute_breaks`: what becomes of the first three of four fields. -/
def computeBreaks (f0 f1 f2 f3 : Field) : Field × Field × Field :=
  if f0.haveBreaks then (f0, f1, f2)
  else
    let f0 := { f0 with haveBreaks := true }
    if f0.buffer = f2.buffer ∧ f1.buffer ≠ f3.buffer then (f0, f1, { f2 with breakRight := true })
    else if f0.buffer ≠ f2.buffer ∧ f1.buffer = f3.buffer then
      (f0, { f1 with breakLeft := true }, f2)
    else
      let m := maxima c fun i => f2.diffs.getD i 0 - f3.diffs.getD i 0
      if m.1 + m.2 < 128 then (f0, f1, f2)
      else
        let f1 := if m.1 > 4 * m.2 then { f1 with breakLeft := true } else f1
        let f2 := if m.2 > 4 * m.1 then { f2 with breakRight := true } else f2
        (f0, f1, f2)

/-- The affinity that the metrics say, with the variation in the field in front. -/
def metricAffinity (prevVar : List Int) (f next : Field) : Int :=
  let m := maxima c fun i =>
    let lv := prevVar.getD i 0
    let rv := next.var.getD i 0
    let v := f.var.getD i 0
    let lc := f.comb.getD i 0 - (v + lv) + abs32 (v - lv)
    let rc := next.comb.getD i 0 - (v + rv) + abs32 (v - rv)
    max lc 0 - max rc 0
  if m.1 + m.2 < 64 then f.affinity
  else if m.2 > 6 * m.1 then -1
  else if m.1 > 6 * m.2 then 1
  else f.affinity

/-- `compute_affinity`: what becomes of a field and the two behind it. -/
def computeAffinity (prevVar : List Int) (f next next' : Field) : Field × Field × Field :=
  if f.haveAffinity then (f, next, next')
  else if f.buffer = next'.buffer then
    ({ f with haveAffinity := true, affinity := 1 },
      { next with haveAffinity := true, affinity := 0 },
      { next' with haveAffinity := true, affinity := -1 })
  else ({ f with haveAffinity := true, affinity := metricAffinity c prevVar f next }, next, next')

/-- The loop of `foo`, with the number of its turns, over the queue and the field behind it. -/
def foo : Nat → List Int → List Field → List Field
  | turns + 1, prevVar, f0 :: f1 :: f2 :: fs =>
    let (f0, f1, f2) := match fs with
      | f3 :: _ => if 2 ≤ turns then computeBreaks c f0 f1 f2 f3 else (f0, f1, f2)
      | [] => (f0, f1, f2)
    let (f0, f1, f2) := computeAffinity c prevVar f0 f1 f2
    f0 :: foo turns f0.var (f1 :: f2 :: fs)
  | _, _, fs => fs

/-- `find_first_break`. -/
def findFirstBreak : Nat → List Field → Nat
  | max + 1, f :: next :: fs =>
    if f.breakRight || next.breakLeft then 1
    else match findFirstBreak max (next :: fs) with
      | 0 => 0
      | n + 1 => n + 2
  | _, _ => 0

/-- What `decide_frame_length` does behind `foo`. -/
def frameLength (prev f0 f1 f2 : Field) (fs : List Field) : Nat :=
  if f0.affinity = -1 then 1
  else
    let l := findFirstBreak 3 (f0 :: f1 :: f2 :: fs)
    let l := if l = 1 ∧ c.strictBreaks < 0 then 0 else l
    match l with
    | 1 => if c.strictBreaks < 1 ∧ f0.affinity = 1 ∧ f1.affinity = -1 then 2 else 1
    | 2 =>
      if c.strictPairs ∧ prev.breakRight ∧ f2.breakLeft ∧
          (f0.affinity ≠ 1 ∨ f1.affinity ≠ -1) then 1
      else if f1.affinity = 1 then 1
      else 2
    | 3 => if f2.affinity = 1 then 2 else 3
    | _ =>
      if f1.affinity = 1 then 1
      else if f1.affinity = -1 then 2
      else if f2.affinity = -1 then
        if f0.affinity = 1 then 3 else 1
      else 2

/-- `decide_frame_length`, for a queue that is not empty. -/
def decideFrameLength (s : Context) : Nat × Context :=
  if s.queue.length < 4 then (0, s)
  else
    let fs := foo c (s.queue.length - 1) s.prev.var (s.queue ++ [s.head])
    let s := { s with queue := fs.dropLast, head := fs.getLast?.getD s.head }
    match s.queue with
    | f0 :: f1 :: f2 :: fs => (frameLength c s.prev f0 f1 f2 fs, s)
    | _ => (0, s)

/-! ## Frames -/

/-- The frame of the first `n` fields. -/
def makeFrame (n : Nat) (fs : List Field) : Frame :=
  let parity := (fs.head?.map Field.parity).getD 0
  let ifields := (fs.take n).map Field.buffer
  let aff := ((fs[1]?).map Field.affinity).getD 0
  let field (i : Nat) := (ifields[i]?).join
  let aff := if aff = 0 then if field 0 = field 1 then -1 else 1 else aff
  { length := n
    parity := parity
    ifields := ifields
    ofields := fun p =>
      if n = 1 then if p = parity then field 0 else none
      else if n = 2 then if p = parity then field 0 else field 1
      else if p = parity then field (1 + aff).toNat else field 1 }

/-- `pullup_get_frame`.  Without a field it follows a null pointer. -/
def getFrame (s : Context) : Option (Option Frame × Context) :=
  if s.queue = [] then none
  else
    let (n, s) := decideFrameLength c s
    if n = 0 ∨ s.lock ≠ 0 then some (none, s)
    else
      some (some (makeFrame n s.queue),
        { s with
          queue := s.queue.drop n
          free := s.free ++ (s.queue.take n).map fun f => { f with buffer := none }
          lock := s.lock + 1 })

/-! ## Runs -/

/-- A call of one of the functions.  `pullup_submit_field` gets a buffer, whose contents are in
the memory. -/
inductive Call where
  | submit (mem : Memory) (b : Int) (parity : Fin 2)
  | getFrame
  | release
  | flush

/-- What a call returns, and what becomes of the context. -/
def step (s : Context) : Call → Option (Option Frame × Context)
  | .submit mem b parity => some (none, submitField c mem b parity s)
  | .getFrame => getFrame c s
  | .release => some (none, { s with lock := s.lock - 1 })
  | .flush => some (none, flushFields s)

/-- The frames that a sequence of calls returns, and the last context, unless a call follows
a null pointer. -/
def run : List Call → Context → Option (List (Option Frame) × Context)
  | [], s => some ([], s)
  | call :: calls, s => do
    let (frame, s) ← step c s call
    let (frames, s) ← run calls s
    return (frame :: frames, s)

end MPlayer.Pullup
