import MPlayer.Lib.Find
import MPlayer.Config.Options

/-!
# Strings of bytes

A C string of bytes is the list of its bytes up to the NUL.  Letters are written as characters
(`ascii`).
-/

namespace MPlayer

/-- The byte of an ASCII character. -/
def ascii (c : Char) : UInt8 := UInt8.ofNat c.toNat

/-- The bytes of an ASCII string. -/
def asciis (s : String) : List UInt8 := s.toList.map ascii

/-- `av_tolower`. -/
def avTolower (c : UInt8) : UInt8 := if ascii 'A' ≤ c ∧ c ≤ ascii 'Z' then c ^^^ 0x20 else c

/-- Whether `av_strncasecmp` finds the first `n` bytes of two strings equal. -/
def avStrncaseeq : List UInt8 → List UInt8 → Nat → Bool
  | _, _, 0 => true
  | [], [], _ + 1 => true
  | a :: as, b :: bs, n + 1 => avTolower a = avTolower b && avStrncaseeq as bs n
  | _, _, _ + 1 => false

/-- Whether `av_strcasecmp` finds two strings equal. -/
def avStrcaseeq (a b : List UInt8) : Bool := a.map avTolower = b.map avTolower

/-- The bytes of memory up to the NUL. -/
def cstr (mem : List UInt8) : List UInt8 := mem.takeWhile (· ≠ 0)

theorem cstr_cons {c : UInt8} (h : c ≠ 0) (s : List UInt8) : cstr (c :: s) = c :: cstr s :=
  List.takeWhile_cons_of_pos (decide_eq_true h)

theorem cstr_append {a : List UInt8} (h : 0 ∉ a) (b : List UInt8) :
    cstr (a ++ b) = a ++ cstr b :=
  List.takeWhile_append_of_pos fun _ hc => decide_eq_true fun e => h (e ▸ hc)

theorem cstr_eq_self {a : List UInt8} (h : 0 ∉ a) : cstr a = a := by
  have happ := cstr_append h []
  rwa [List.append_nil, show cstr [] = [] from rfl, List.append_nil] at happ

/-- A string ends at its first NUL. -/
theorem cstr_append_of_mem {a : List UInt8} (h : 0 ∈ a) (b : List UInt8) :
    cstr (a ++ b) = cstr a := by
  obtain ⟨pre, suf, rfl, hpre⟩ := List.eq_append_cons_of_mem h
  rw [List.append_assoc, List.cons_append, cstr_append hpre, cstr_append hpre]
  rfl

theorem zero_not_mem_cstr (a : List UInt8) : 0 ∉ cstr a := fun h => by
  have hall : (cstr a).all (· ≠ 0) = true := List.all_takeWhile
  exact of_decide_eq_true (List.all_eq_true.mp hall 0 h) rfl

theorem cstr_length_le (mem : List UInt8) : (cstr mem).length ≤ mem.length :=
  (List.takeWhile_prefix _).length_le

theorem cstr_length_lt {a : List UInt8} (h : 0 ∈ a) : (cstr a).length < a.length := by
  obtain ⟨pre, suf, rfl, hpre⟩ := List.eq_append_cons_of_mem h
  rw [cstr_append hpre, List.length_append, List.length_append, List.length_cons]
  exact Nat.add_lt_add_left (Nat.succ_pos _) _

def isDigit (c : UInt8) : Bool := ascii '0' ≤ c ∧ c ≤ ascii '9'

/-- The number that decimal digits stand for. -/
def decimalValue (ds : List UInt8) : Nat := ds.foldl (fun n d => n * 10 + (d.toNat - 48)) 0

/-- A sign in front of a number. -/
def splitSign : List UInt8 → Bool × List UInt8
  | [] => (false, [])
  | c :: s =>
    if c = ascii '-' then (true, s)
    else if c = ascii '+' then (false, s)
    else (false, c :: s)

/-- `strtol` with base 10, if there are digits, and what follows them. -/
def strtolDecimal (s : List UInt8) : Option (Int × List UInt8) :=
  let body := splitSign (s.dropWhile fun c => c = 32 ∨ 9 ≤ c ∧ c ≤ 13)
  let ds := body.2.takeWhile isDigit
  let n : Int := decimalValue ds
  if ds = [] then none
  else some (if body.1 then max (-n) (-llongMax - 1) else min n llongMax, body.2.dropWhile isDigit)

/-- `atoi`. -/
def atoi (s : List UInt8) : Int := toInt32 (((strtolDecimal s).map Prod.fst).getD 0)

/-- What `%d` prints. -/
def printInt (n : Int) : List UInt8 :=
  (if n < 0 then [ascii '-'] else []) ++ (Nat.toDigits 10 n.natAbs).map ascii

/-- The letters and digits that are compared for, whatever the locale. -/
def isAlnum (c : UInt8) : Bool :=
  (ascii 'A' ≤ c ∧ c ≤ ascii 'Z') ∨ (ascii 'a' ≤ c ∧ c ≤ ascii 'z') ∨ isDigit c

/-- The value of a hexadecimal digit, of either case. -/
def hexVal (c : UInt8) : Option UInt8 :=
  if isDigit c then some (c - ascii '0')
  else if ascii 'A' ≤ c ∧ c ≤ ascii 'F' then some (c - (ascii 'A' - 10))
  else if ascii 'a' ≤ c ∧ c ≤ ascii 'f' then some (c - (ascii 'a' - 10))
  else none

/-- The upper-case hexadecimal digit of a value below 16. -/
def hexDigit (n : UInt8) : UInt8 := if n < 10 then n + ascii '0' else n + (ascii 'A' - 10)

/-- What holds of the first 256 numbers as bytes holds of every byte. -/
theorem forall_byte {P : UInt8 → Prop} (h : ∀ n < 256, P (UInt8.ofNat n)) (c : UInt8) : P c := by
  have hc := h c.toNat c.toNat_lt
  rwa [UInt8.ofNat_toNat] at hc

theorem avStrncaseeq_iff : ∀ (a b : List UInt8) (n : Nat),
    avStrncaseeq a b n = true ↔ (a.take n).map avTolower = (b.take n).map avTolower
  | _, _, 0 => by simp [avStrncaseeq]
  | [], [], _ + 1 => by simp [avStrncaseeq]
  | [], _ :: _, _ + 1 => by simp [avStrncaseeq]
  | _ :: _, [], _ + 1 => by simp [avStrncaseeq]
  | a :: as, b :: bs, n + 1 => by
    rw [avStrncaseeq, Bool.and_eq_true, decide_eq_true_iff, avStrncaseeq_iff as bs n]
    exact List.cons_eq_cons.symm

theorem isDigit_front {c : UInt8} : isDigit c = true →
    ¬ (c = 32 ∨ 9 ≤ c ∧ c ≤ 13) ∧ c ≠ ascii '-' ∧ c ≠ ascii '+' :=
  forall_byte (P := fun c => isDigit c = true →
    ¬ (c = 32 ∨ 9 ≤ c ∧ c ≤ 13) ∧ c ≠ ascii '-' ∧ c ≠ ascii '+') (by decide +kernel) c

/-- A run of letters of one class is taken up to its end. -/
theorem takeWhile_run {p : UInt8 → Bool} {run rest : List UInt8} (hrun : ∀ c ∈ run, p c = true)
    (hrest : ∀ c, rest.head? = some c → p c = false) : (run ++ rest).takeWhile p = run := by
  rw [List.takeWhile_append_of_pos hrun]
  cases rest with
  | nil => rw [List.takeWhile_nil, List.append_nil]
  | cons c t =>
    rw [List.takeWhile_cons_of_neg (Bool.eq_false_iff.mp (hrest c rfl)), List.append_nil]

theorem dropWhile_run {p : UInt8 → Bool} {run rest : List UInt8} (hrun : ∀ c ∈ run, p c = true)
    (hrest : ∀ c, rest.head? = some c → p c = false) : (run ++ rest).dropWhile p = rest := by
  rw [List.dropWhile_append_of_pos hrun]
  cases rest with
  | nil => rfl
  | cons c t => exact List.dropWhile_cons_of_neg (Bool.eq_false_iff.mp (hrest c rfl))

theorem strtolDecimal_digits {ds rest : List UInt8} (hds : ds ≠ [])
    (hd : ∀ c ∈ ds, isDigit c = true) (hrest : ∀ c, rest.head? = some c → isDigit c = false) :
    strtolDecimal (ds ++ rest) = some (min (decimalValue ds : Int) llongMax, rest) := by
  cases ds with
  | nil => exact absurd rfl hds
  | cons d t =>
    obtain ⟨hspace, hminus, hplus⟩ := isDigit_front (hd d List.mem_cons_self)
    have hdrop : (d :: t ++ rest).dropWhile (fun c => c = 32 ∨ 9 ≤ c ∧ c ≤ 13) =
        d :: t ++ rest := List.dropWhile_cons_of_neg fun h => hspace (of_decide_eq_true h)
    have hsign : splitSign (d :: t ++ rest) = (false, d :: t ++ rest) := by
      rw [List.cons_append, splitSign, if_neg hminus, if_neg hplus]
    rw [strtolDecimal, hdrop, hsign]
    dsimp only
    rw [takeWhile_run hd hrest, dropWhile_run hd hrest, if_neg (List.cons_ne_nil d t)]
    rfl

end MPlayer
