import MPlayer.Stream.Redirect

/-!
# The grammar of URLs

A URL is a scheme, a user name and a password, a host that is a name or an IPv6 address in
brackets, a port and a path.  `url_new` gives these parts of the escaped URL back
(`urlNew_escaped`).  What it escapes are brackets, and number signs, behind the part with an IPv6
address that is copied as it is.  So the parts are right exactly if there are none
(`urlNew_splits_iff`): a bracket in the path becomes an escape, and so does the bracket of an IPv6
address with a user name in front of it.

A URL that starts with `sip:` has its protocol right exactly if two slashes follow.
-/

namespace MPlayer

/-! ## Grammar -/

/-- The marks that need no escape. -/
def isMark (c : UInt8) : Bool := c ∈ asciis "-_.!~*'()"

/-- The characters without a meaning of their own. -/
def isUnreserved (c : UInt8) : Bool := isAlnum c || isMark c

/-- The characters with a meaning of their own in a URL. -/
def isReserved (c : UInt8) : Bool := c ∈ asciis ";/?:@&=+$,[]#"

/-- The characters of an IPv6 address. -/
def isIpv6Char (c : UInt8) : Bool := (hexVal c).isSome || c = ascii ':' || c = ascii '.'

/-- A user name and a password. -/
structure UserInfo where
  user : List UInt8
  password : Option (List UInt8)
  user_chars : ∀ c ∈ user, isUnreserved c = true
  password_chars : ∀ p, password = some p → ∀ c ∈ p, isUnreserved c = true

/-- A host. -/
inductive Address where
  | named (host : List UInt8) (chars : ∀ c ∈ host, isUnreserved c = true)
  | ipv6 (address : List UInt8) (chars : ∀ c ∈ address, isIpv6Char c = true)

/-- A port, as its digits. -/
structure PortDigits where
  digits : List UInt8
  decimal : ∀ c ∈ digits, isDigit c = true
  bound : decimalValue digits < 65536

/-- A URL as the grammar has it, where the path is what is behind the slash. -/
structure UrlGrammar where
  scheme : List UInt8
  userinfo : Option UserInfo
  address : Address
  port : Option PortDigits
  path : Option (List UInt8)
  scheme_chars : ∀ c ∈ scheme, isUnreserved c = true
  path_chars : ∀ p, path = some p → ∀ c ∈ p, isUnreserved c = true ∨ isReserved c = true

/-- The host without brackets. -/
def Address.host : Address → List UInt8
  | .named host _ => host
  | .ipv6 address _ => address

/-- The host as it is written, an IPv6 address in brackets. -/
def Address.text : Address → List UInt8
  | .named host _ => host
  | .ipv6 address _ => ascii '[' :: address ++ [ascii ']']

/-- The password behind its colon. -/
def passwordText : Option (List UInt8) → List UInt8
  | none => []
  | some password => ascii ':' :: password

/-- The user information up to its `@`. -/
def userText : Option UserInfo → List UInt8
  | none => []
  | some info => info.user ++ passwordText info.password ++ [ascii '@']

/-- The port behind its colon. -/
def portText : Option PortDigits → List UInt8
  | none => []
  | some port => ascii ':' :: port.digits

/-- A URL up to its host. -/
def UrlGrammar.front (g : UrlGrammar) : List UInt8 :=
  g.scheme ++ asciis "://" ++ userText g.userinfo

/-- A URL up to its path. -/
def UrlGrammar.site (g : UrlGrammar) : List UInt8 :=
  g.front ++ g.address.text ++ portText g.port

/-- The whole URL. -/
def UrlGrammar.text (g : UrlGrammar) : List UInt8 := g.site ++ pathText g.path

/-- The URL has these parts, and this file. -/
structure HasParts (u : Url) (g : UrlGrammar) (file : List UInt8) : Prop where
  protocol : u.protocol = g.scheme
  username : u.username = g.userinfo.map UserInfo.user
  password : u.password = g.userinfo.bind UserInfo.password
  hostname : u.hostname = g.address.host
  port : u.port = (g.port.map fun p => decimalValue p.digits).getD 0
  file : u.file = file

/-- `url_new` gives the parts back. -/
def Splits (g : UrlGrammar) : Prop :=
  ∃ u, urlNew g.text = .ok u ∧ HasParts u g (ascii '/' :: g.path.getD [])

/-- A character that is escaped. -/
def isEscaped (c : UInt8) : Bool := c ∈ asciis "[]#"

/-- What has to be escaped is in the part that is copied. -/
def BracketsRaw (g : UrlGrammar) : Prop :=
  ∀ c ∈ g.text.drop (rawLength g.text), isEscaped c = false

/-! ## Characters -/

set_option synthInstance.maxSize 1024 in
/-- What keeps the characters of the parts apart. -/
theorem partChar_class (c : UInt8) :
    (isUnreserved c = true → isEscaped c = false ∧ c ≠ ascii '/' ∧ c ≠ ascii ':' ∧
      c ≠ ascii '@' ∧ c ≠ ascii '[' ∧ c ≠ ascii ']' ∧ c ≠ 0 ∧ c ≠ ascii '%') ∧
    (isIpv6Char c = true → isEscaped c = false ∧ c ≠ ascii '/' ∧ c ≠ ascii '%' ∧
      c ≠ ascii '@' ∧ c ≠ ascii '[' ∧ c ≠ ascii ']') :=
  forall_byte (P := fun c =>
    (isUnreserved c = true → isEscaped c = false ∧ c ≠ ascii '/' ∧ c ≠ ascii ':' ∧
      c ≠ ascii '@' ∧ c ≠ ascii '[' ∧ c ≠ ascii ']' ∧ c ≠ 0 ∧ c ≠ ascii '%') ∧
    (isIpv6Char c = true → isEscaped c = false ∧ c ≠ ascii '/' ∧ c ≠ ascii '%' ∧
      c ≠ ascii '@' ∧ c ≠ ascii '[' ∧ c ≠ ascii ']')) (by decide +kernel) c

set_option synthInstance.maxSize 1024 in
/-- The characters of a URL, and those that are written for them. -/
theorem urlChar_class (c : UInt8) :
    (isDigit c = true → isEscaped c = false ∧ c ≠ ascii '/' ∧ c ≠ ascii ':' ∧ c ≠ ascii '@' ∧
      c ≠ ascii '[' ∧ c ≠ ascii ']') ∧
    (isUnreserved c = true ∨ isReserved c = true → isEscaped c = false →
      isAlnum c = true ∨ isKept c = true) ∧
    (isEscaped c = true → ¬ (c = ascii '%' ∨ isAlnum c = true ∨ isKept c = true)) ∧
    (isAlnum c = true → c ≠ 0) :=
  forall_byte (P := fun c =>
    (isDigit c = true → isEscaped c = false ∧ c ≠ ascii '/' ∧ c ≠ ascii ':' ∧ c ≠ ascii '@' ∧
      c ≠ ascii '[' ∧ c ≠ ascii ']') ∧
    (isUnreserved c = true ∨ isReserved c = true → isEscaped c = false →
      isAlnum c = true ∨ isKept c = true) ∧
    (isEscaped c = true → ¬ (c = ascii '%' ∨ isAlnum c = true ∨ isKept c = true)) ∧
    (isAlnum c = true → c ≠ 0)) (by decide +kernel) c

variable {c : UInt8} {pre tail s t : List UInt8}

theorem isUnreserved_plain (h : isUnreserved c = true) :
    isEscaped c = false ∧ c ≠ ascii '/' ∧ c ≠ ascii ':' ∧ c ≠ ascii '@' ∧ c ≠ ascii '[' ∧
      c ≠ ascii ']' ∧ c ≠ 0 := by
  obtain ⟨he, hs, hc, ha, ho, hb, h0, -⟩ := (partChar_class c).1 h
  exact ⟨he, hs, hc, ha, ho, hb, h0⟩

theorem isIpv6Char_plain (h : isIpv6Char c = true) :
    isEscaped c = false ∧ c ≠ ascii '/' ∧ c ≠ ascii '%' ∧ c ≠ ascii '@' ∧ c ≠ ascii '[' ∧
      c ≠ ascii ']' := (partChar_class c).2 h

theorem isDigit_plain (h : isDigit c = true) :
    isEscaped c = false ∧ c ≠ ascii '/' ∧ c ≠ ascii ':' ∧ c ≠ ascii '@' ∧ c ≠ ascii '[' ∧
      c ≠ ascii ']' := (urlChar_class c).1 h

/-- The characters of URLs that are not escaped are those the code leaves as they are. -/
theorem isUrlChar_cases (h : isUnreserved c = true ∨ isReserved c = true)
    (he : isEscaped c = false) : isAlnum c = true ∨ isKept c = true :=
  (urlChar_class c).2.1 h he

theorem isEscaped_not_written (h : isEscaped c = true) :
    ¬ (c = ascii '%' ∨ isAlnum c = true ∨ isKept c = true) := (urlChar_class c).2.2.1 h

theorem isUnreserved_apart (h : isUnreserved c = true) : c ≠ ascii '%' := by
  obtain ⟨-, -, -, -, -, -, -, hne⟩ := (partChar_class c).1 h
  exact hne

/-! ## Escaping -/

theorem noEscape_of_not_mem : ∀ {s : List UInt8}, ascii '%' ∉ s → NoEscape s
  | [], _ => fun t ht => by rw [List.suffix_nil.mp ht]; rfl
  | c :: s, h => NoEscape.cons_iff.mpr
      ⟨escapeAt_of_ne s fun e => h (e ▸ List.mem_cons_self),
        noEscape_of_not_mem fun hm => h (List.mem_cons_of_mem c hm)⟩

theorem part_alnum : ∀ {s : List UInt8}, (∀ c ∈ s, isAlnum c = true) → urlEscapeStringPart s = s
  | [], _ => rfl
  | c :: s, h => by
    rw [part_of_alnum s (h c List.mem_cons_self),
      part_alnum fun d hd => h d (List.mem_cons_of_mem c hd)]

theorem isAlnum_ne_zero (h : isAlnum c = true) : c ≠ 0 :=
  (urlChar_class c).2.2.2 h

/-- Letters and digits stay as they are. -/
theorem escapeRun_alnum {run : List UInt8} (h : ∀ c ∈ run, isAlnum c = true) :
    escapeRun run = run := by
  have hno : NoEscape run := noEscape_of_not_mem fun hm => isAlnum_ne (h _ hm) rfl
  rw [escapeRun, hno.unescape, cstr_eq_self fun hm => isAlnum_ne_zero (h _ hm) rfl, part_alnum h]

/-- What is not escaped stays as it is. -/
theorem escapeRuns_plain : ∀ {run s : List UInt8}, (∀ c ∈ run, isAlnum c = true) →
    (∀ c ∈ s, isAlnum c = true ∨ isKept c = true) → escapeRuns run s = run ++ s
  | run, [], hrun, _ => by rw [List.append_nil]; exact escapeRun_alnum hrun
  | run, c :: s, hrun, hs => by
    have hs' : ∀ d ∈ s, isAlnum d = true ∨ isKept d = true := fun d hd =>
      hs d (List.mem_cons_of_mem c hd)
    rw [escapeRuns]
    split
    · rw [escapeRun_alnum hrun, escapeRuns_plain (fun _ hm => absurd hm List.not_mem_nil) hs',
        List.nil_append]
    · rename_i hc
      have hc' : isAlnum c = true := (hs c List.mem_cons_self).resolve_right hc
      have hrun' : ∀ d ∈ run ++ [c], isAlnum d = true := fun d hd => by
        rcases List.mem_append.mp hd with hd | hd
        · exact hrun d hd
        · rw [List.mem_singleton.mp hd]
          exact hc'
      rw [escapeRuns_plain hrun' hs', List.append_assoc]
      rfl

/-! ## Pointers -/

/-- Nothing, or a path. -/
def PathLike (tail : List UInt8) : Prop := tail = [] ∨ ∃ p, tail = ascii '/' :: p

/-- The slash found is that of the path. -/
theorem find_slash (h : ascii '/' ∉ pre) (ht : PathLike tail) :
    Lib.findSub [ascii '/'] (pre ++ tail) = if tail = [] then none else some pre.length := by
  rcases ht with rfl | ⟨p, rfl⟩
  · rw [List.append_nil, Lib.findSub_letter_none_iff.mpr h]
    rfl
  · rw [Lib.findSub_letter p h]
    rfl

/-- Another character is found in the path only. -/
theorem find_behind (hc : c ≠ ascii '/') (h : c ∉ pre) (ht : PathLike tail) {j : Nat}
    (hj : Lib.findSub [c] (pre ++ tail) = some j) : pre.length < j ∧ tail ≠ [] := by
  obtain ⟨i, hi, rfl⟩ := Option.map_eq_some_iff.mp ((Lib.findSub_append tail h).symm.trans hj)
  rcases ht with rfl | ⟨p, rfl⟩
  · cases hi
  · refine ⟨?_, List.cons_ne_nil _ _⟩
    cases i with
    | zero =>
      obtain ⟨pre, suf, hs, -, hlen⟩ := Lib.findSub_letter_split hi
      rw [List.length_eq_zero_iff.mp hlen, List.nil_append] at hs
      exact absurd (List.cons.inj hs).1.symm hc
    | succ i => omega

/-- Without a user name. -/
theorem urlCredentials_none (hat : ascii '@' ∉ pre) (hslash : ascii '/' ∉ pre)
    (ht : PathLike tail) : urlCredentials (pre ++ tail) = (none, none, pre ++ tail) := by
  obtain ⟨r, hr⟩ : ∃ r, Lib.findSub [ascii '@'] (pre ++ tail) = r := ⟨_, rfl⟩
  rw [urlCredentials, find_slash hslash ht, hr]
  cases r with
  | none =>
    have hfalse : isBefore (if tail = [] then none else some pre.length) none = false := by
      split
      · rfl
      · rfl
    rw [hfalse]
    rfl
  | some j =>
    obtain ⟨hlt, hne⟩ := find_behind (by decide) hat ht hr
    have htrue : isBefore (some pre.length) (some j) = true := decide_eq_true hlt
    rw [if_neg hne, htrue]
    rfl

/-- A place is not in front of one that is found first. -/
theorem isBefore_find {d : UInt8} {a : List UInt8} (b : List UInt8) (h : d ∉ a) :
    isBefore (Lib.findSub [d] (a ++ c :: b)) (some a.length) = false := by
  rw [Lib.findSub_append _ h]
  obtain ⟨r, hr⟩ : ∃ r, Lib.findSub [d] (c :: b) = r := ⟨_, rfl⟩
  rw [hr]
  cases r with
  | none => rfl
  | some i => exact decide_eq_false (Nat.not_lt.mpr (Nat.le_add_left a.length i))

theorem unescaped_plain (h : ∀ c ∈ s, isUnreserved c = true) : unescaped s = s := by
  have hno : NoEscape s := noEscape_of_not_mem fun hm => isUnreserved_apart (h _ hm) rfl
  rw [unescaped, hno.unescape]
  exact cstr_eq_self fun hm => (isUnreserved_plain (h _ hm)).2.2.2.2.2.2 rfl

/-- A user name, and a password if there is one. -/
theorem urlCredentials_some (info : UserInfo) (q : List UInt8) :
    urlCredentials (info.user ++ passwordText info.password ++ ascii '@' :: q) =
      (some info.user, info.password, q) := by
  have hpassword : ∀ c ∈ passwordText info.password, c ≠ ascii '@' ∧ c ≠ ascii '/' := by
    intro c hc
    obtain ⟨r, hr⟩ : ∃ r, info.password = r := ⟨_, rfl⟩
    rw [hr] at hc
    cases r with
    | none => exact absurd hc List.not_mem_nil
    | some p =>
      rcases List.mem_cons.mp hc with rfl | hc
      · exact ⟨by decide, by decide⟩
      · have hplain := isUnreserved_plain (info.password_chars p hr c hc)
        exact ⟨hplain.2.2.2.1, hplain.2.1⟩
  have hpre : ∀ c ∈ info.user ++ passwordText info.password, c ≠ ascii '@' ∧ c ≠ ascii '/' := by
    intro c hc
    rcases List.mem_append.mp hc with hc | hc
    · have hplain := isUnreserved_plain (info.user_chars c hc)
      exact ⟨hplain.2.2.2.1, hplain.2.1⟩
    · exact hpassword c hc
  have hat : Lib.findSub [ascii '@'] (info.user ++ passwordText info.password ++ ascii '@' :: q) =
      some (info.user ++ passwordText info.password).length :=
    Lib.findSub_letter q fun hm => (hpre _ hm).1 rfl
  have hbefore : isBefore (Lib.findSub [ascii '/']
      (info.user ++ passwordText info.password ++ ascii '@' :: q))
      (some (info.user ++ passwordText info.password).length) = false :=
    isBefore_find q fun hm => (hpre _ hm).2 rfl
  have hcolon : ascii ':' ∉ info.user := fun hm =>
    (isUnreserved_plain (info.user_chars _ hm)).2.2.1 rfl
  have huser := unescaped_plain info.user_chars
  obtain ⟨r, hr⟩ : ∃ r, info.password = r := ⟨_, rfl⟩
  rw [urlCredentials, hat, hbefore]
  rw [if_neg Bool.false_ne_true, hr]
  dsimp only
  have hrest : ∀ pre : List UInt8, (pre ++ ascii '@' :: q).drop (pre.length + 1) = q :=
    fun pre => by rw [← List.drop_drop, List.drop_left]; rfl
  rw [hrest]
  cases r with
  | none =>
    rw [passwordText, List.append_nil]
    have hnone : (Lib.findSub [ascii ':'] (info.user ++ ascii '@' :: q)).filter
        (· < info.user.length) = none := by
      rw [Lib.findSub_append _ hcolon]
      obtain ⟨r, hr⟩ : ∃ r, Lib.findSub [ascii ':'] (ascii '@' :: q) = r := ⟨_, rfl⟩
      rw [hr]
      cases r with
      | none => rfl
      | some i =>
        exact Option.filter_some_neg
          (decide_eq_false (Nat.not_lt.mpr (Nat.le_add_left info.user.length i)))
    rw [hnone]
    dsimp only
    rw [List.take_left, huser]
  | some p =>
    have hp := unescaped_plain (info.password_chars p hr)
    have hassoc : info.user ++ passwordText (some p) ++ ascii '@' :: q =
        info.user ++ ascii ':' :: (p ++ ascii '@' :: q) := by
      rw [passwordText, List.append_assoc]
      rfl
    have hlen : (info.user ++ passwordText (some p)).length =
        info.user.length + 1 + p.length := by
      rw [List.length_append, passwordText, List.length_cons]
      omega
    have hsome : (Lib.findSub [ascii ':']
      (info.user ++ ascii ':' :: (p ++ ascii '@' :: q))).filter
        (· < info.user.length + 1 + p.length) = some info.user.length := by
      rw [Lib.findSub_letter _ hcolon]
      exact Option.filter_some_pos (decide_eq_true (by omega))
    have hsub : info.user.length + 1 + p.length - info.user.length - 1 = p.length := by omega
    rw [hassoc, hlen, hsome]
    dsimp only
    rw [List.take_left, hsub, ← List.drop_drop, List.drop_left]
    show (some (unescaped info.user), some (unescaped ((p ++ ascii '@' :: q).take p.length)), q) = _
    rw [List.take_left, huser, hp]

/-! ## Hosts and ports -/

/-- The port is read back. -/
theorem atoi_port (port : PortDigits) (ht : PathLike tail) :
    (atoi (port.digits ++ tail) % 0x100000000).toNat = decimalValue port.digits := by
  have hhead : ∀ c, tail.head? = some c → isDigit c = false := by
    intro c hc
    rcases ht with rfl | ⟨p, rfl⟩
    · cases hc
    · cases hc
      decide
  have hbound := port.bound
  by_cases hds : port.digits = []
  · have hnone : strtolDecimal tail = none := by
      rcases ht with rfl | ⟨p, rfl⟩
      · rfl
      · rfl
    rw [hds, List.nil_append, atoi, hnone]
    rfl
  · rw [atoi, strtolDecimal_digits hds port.decimal hhead, llongMax]
    show (toInt32 (min (decimalValue port.digits : Int) _) % 0x100000000).toNat = _
    rw [toInt32]
    omega

theorem urlFile_pathLike (h : ascii '/' ∉ pre) (ht : PathLike tail) :
    urlFile (pre ++ tail) = if tail = [] then [ascii '/'] else tail := by
  rw [urlFile, find_slash h ht]
  rcases ht with rfl | ⟨p, rfl⟩
  · rfl
  · rw [if_neg (List.cons_ne_nil _ _), if_neg (List.cons_ne_nil _ _)]
    dsimp only
    rw [List.drop_left]
    cases p with
    | nil => rfl
    | cons c p => exact if_pos (Nat.succ_lt_succ (Nat.succ_pos _))

/-- No colon in front of the path. -/
theorem urlPort_none {ptr2 : Option Nat} (h : ascii '/' ∉ pre) (ht : PathLike tail)
    (hptr : ∀ j, ptr2 = some j → pre.length < j ∧ tail ≠ []) :
    urlPort (pre ++ tail) ptr2 = (0, pre.length) := by
  have hlen : (if tail = [] then none else some pre.length).getD (pre ++ tail).length =
      pre.length := by
    split
    · rename_i hnil
      rw [hnil, List.append_nil]
      rfl
    · rfl
  rw [urlPort, find_slash h ht]
  cases ptr2 with
  | none =>
    have hnone : (if isBefore (if tail = [] then none else some pre.length) none = true then none
        else none) = (none : Option Nat) := ite_self none
    rw [hnone]
    exact congrArg (Prod.mk 0) hlen
  | some j =>
    obtain ⟨hlt, hne⟩ := hptr j rfl
    have htrue : isBefore (some pre.length) (some j) = true := decide_eq_true hlt
    rw [if_neg hne, htrue]
    rfl

/-- A colon in front of the port. -/
theorem urlPort_some (port : PortDigits) (h : ascii '/' ∉ pre) (ht : PathLike tail) :
    urlPort (pre ++ ascii ':' :: port.digits ++ tail) (some pre.length) =
      (decimalValue port.digits, pre.length) := by
  have hassoc : pre ++ ascii ':' :: port.digits ++ tail =
      pre ++ ascii ':' :: (port.digits ++ tail) := by
    rw [List.append_assoc]
    rfl
  have hbefore : isBefore (Lib.findSub [ascii '/'] (pre ++ ascii ':' :: (port.digits ++ tail)))
      (some pre.length) = false := isBefore_find _ h
  have hdrop : (pre ++ ascii ':' :: (port.digits ++ tail)).drop (pre.length + 1) =
      port.digits ++ tail := by
    rw [← List.drop_drop, List.drop_left]
    rfl
  rw [hassoc, urlPort, hbefore]
  show ((atoi ((pre ++ ascii ':' :: (port.digits ++ tail)).drop (pre.length + 1)) %
    0x100000000).toNat, pre.length) = _
  rw [hdrop, atoi_port port ht]

theorem portText_chars (port : Option PortDigits) : ∀ c ∈ portText port,
    isEscaped c = false ∧ c ≠ ascii '/' ∧ c ≠ ascii '@' ∧ c ≠ ascii '[' ∧ c ≠ ascii ']' := by
  intro c hc
  cases port with
  | none => exact absurd hc List.not_mem_nil
  | some port =>
    rcases List.mem_cons.mp hc with rfl | hc
    · decide
    · have hplain := isDigit_plain (port.decimal c hc)
      exact ⟨hplain.1, hplain.2.1, hplain.2.2.2.1, hplain.2.2.2.2.1, hplain.2.2.2.2.2⟩

/-- Brackets in the path are not those of an address. -/
theorem ipv6End_none (hopen : ascii '[' ∉ pre) (hclose : ascii ']' ∉ pre)
    (hslash : ascii '/' ∉ pre) (ht : PathLike tail) : ipv6End (pre ++ tail) = none := by
  obtain ⟨r, hr⟩ : ∃ r, Lib.findSub [ascii '['] (pre ++ tail) = r := ⟨_, rfl⟩
  obtain ⟨q, hq⟩ : ∃ q, Lib.findSub [ascii ']'] (pre ++ tail) = q := ⟨_, rfl⟩
  rw [ipv6End, hr, hq, find_slash hslash ht]
  cases r with
  | none => rfl
  | some i =>
    obtain ⟨-, hne⟩ := find_behind (by decide) hopen ht hr
    cases q with
    | none => rfl
    | some j =>
      obtain ⟨hlt, -⟩ := find_behind (by decide) hclose ht hq
      have hfalse : isBefore (some j) (some pre.length) = false :=
        decide_eq_false (Nat.not_lt.mpr (Nat.le_of_lt hlt))
      rw [if_neg hne, hfalse]
      refine if_neg fun h => Bool.false_ne_true ?_
      rw [Bool.and_eq_true, Bool.or_false] at h
      exact h.2

/-- The number of a port, or 0. -/
def portNumber (port : Option PortDigits) : Nat :=
  (port.map fun p => decimalValue p.digits).getD 0

/-- The file that a tail stands for. -/
def fileOf (tail : List UInt8) : List UInt8 := if tail = [] then [ascii '/'] else tail

/-- What a host may be followed by: a port behind `pre`, and the place of its colon. -/
theorem urlPort_portText {ptr2 : Option Nat} (port : Option PortDigits) (h : ascii '/' ∉ pre)
    (ht : PathLike tail) (hnone : port = none → ∀ j, ptr2 = some j → pre.length < j ∧ tail ≠ [])
    (hsome : port ≠ none → ptr2 = some pre.length) :
    urlPort (pre ++ portText port ++ tail) ptr2 = (portNumber port, pre.length) := by
  cases port with
  | none =>
    rw [portText, List.append_nil]
    exact urlPort_none h ht (hnone rfl)
  | some port =>
    rw [hsome (Option.some_ne_none port)]
    exact urlPort_some port h ht

theorem urlHost_named {host : List UInt8} (chars : ∀ c ∈ host, isUnreserved c = true)
    (port : Option PortDigits) (ht : PathLike tail) :
    urlHost (host ++ portText port ++ tail) = (host, portNumber port, fileOf tail) := by
  have hpre : ∀ c ∈ host ++ portText port,
      c ≠ ascii '/' ∧ c ≠ ascii '[' ∧ c ≠ ascii ']' := by
    intro c hc
    rcases List.mem_append.mp hc with hc | hc
    · have hplain := isUnreserved_plain (chars c hc)
      exact ⟨hplain.2.1, hplain.2.2.2.2.1, hplain.2.2.2.2.2.1⟩
    · have hplain := portText_chars port c hc
      exact ⟨hplain.2.1, hplain.2.2.2.1, hplain.2.2.2.2⟩
  have hslash : ascii '/' ∉ host ++ portText port := fun hm => (hpre _ hm).1 rfl
  have hv6 : ipv6End (host ++ portText port ++ tail) = none :=
    ipv6End_none (fun hm => (hpre _ hm).2.1 rfl) (fun hm => (hpre _ hm).2.2 rfl) hslash ht
  have hhost : ascii '/' ∉ host := fun hm => (isUnreserved_plain (chars _ hm)).2.1 rfl
  have hcolon : ascii ':' ∉ host := fun hm => (isUnreserved_plain (chars _ hm)).2.2.1 rfl
  have hport : urlPort (host ++ portText port ++ tail)
      (Lib.findSub [ascii ':'] (host ++ portText port ++ tail)) =
        (portNumber port, host.length) := by
    refine urlPort_portText port hhost ht ?_ ?_
    · rintro rfl j hj
      rw [portText, List.append_nil] at hj
      exact find_behind (by decide) hcolon ht hj
    · intro hne
      obtain ⟨p, rfl⟩ := Option.ne_none_iff_exists'.mp hne
      rw [portText, List.append_assoc]
      exact Lib.findSub_letter _ hcolon
  rw [urlHost, hv6]
  dsimp only
  rw [hport, urlFile_pathLike hslash ht, List.append_assoc, List.take_left]
  rfl

theorem urlHost_ipv6 {address : List UInt8} (chars : ∀ c ∈ address, isIpv6Char c = true)
    (port : Option PortDigits) (ht : PathLike tail) :
    urlHost (ascii '[' :: address ++ [ascii ']'] ++ portText port ++ tail) =
      (address, portNumber port, fileOf tail) := by
  have haddress : ∀ c ∈ address, c ≠ ascii '/' ∧ c ≠ ascii ']' := fun c hc =>
    ⟨(isIpv6Char_plain (chars c hc)).2.1, (isIpv6Char_plain (chars c hc)).2.2.2.2.2⟩
  have hpre : ascii '/' ∉ address ++ [ascii ']'] := fun hm => by
    rcases List.mem_append.mp hm with hm | hm
    · exact (haddress _ hm).1 rfl
    · exact absurd (List.mem_singleton.mp hm) (by decide)
  have hport : ascii '/' ∉ address ++ [ascii ']'] ++ portText port := fun hm => by
    rcases List.mem_append.mp hm with hm | hm
    · exact hpre hm
    · exact (portText_chars port _ hm).2.1 rfl
  have htext : ascii '[' :: address ++ [ascii ']'] ++ portText port ++ tail =
      ascii '[' :: (address ++ [ascii ']'] ++ portText port ++ tail) := rfl
  have hclose : Lib.findSub [ascii ']']
      (ascii '[' :: (address ++ [ascii ']'] ++ portText port ++ tail)) =
        some (address.length + 1) := by
    have hnot : ascii ']' ∉ ascii '[' :: address := fun hm => by
      rcases List.mem_cons.mp hm with e | hm
      · exact absurd e (by decide)
      · exact (haddress _ hm).2 rfl
    rw [List.append_assoc, List.append_assoc]
    exact Lib.findSub_letter (portText port ++ tail) hnot
  have hv6 : ipv6End (ascii '[' :: (address ++ [ascii ']'] ++ portText port ++ tail)) =
      some (address.length + 1) := by
    have hbracket : ascii '/' ∉ ascii '[' :: (address ++ [ascii ']'] ++ portText port) := fun hm =>
      (List.mem_cons.mp hm).elim (fun e => absurd e (by decide)) hport
    have hopen : Lib.findSub [ascii '[']
        (ascii '[' :: (address ++ [ascii ']'] ++ portText port ++ tail)) = some 0 :=
      Lib.findSub_letter _ List.not_mem_nil
    have hslash : Lib.findSub [ascii '/']
        (ascii '[' :: (address ++ [ascii ']'] ++ portText port ++ tail)) =
          if tail = [] then none
          else some (ascii '[' :: (address ++ [ascii ']'] ++ portText port)).length :=
      find_slash hbracket ht
    rw [ipv6End, hopen, hclose, hslash]
    refine if_pos ?_
    split
    · rfl
    · refine decide_eq_true ?_
      simp only [List.length_cons, List.length_append, List.length_nil]
      omega
  have hplain : (ascii '[' :: (address ++ [ascii ']'] ++ portText port ++ tail)).drop
      (address.length + 1) = ascii ']' :: portText port ++ tail := by
    rw [List.drop_succ_cons, List.append_assoc, List.append_assoc, List.drop_left]
    rfl
  have hurlPort : urlPort (address ++ [ascii ']'] ++ portText port ++ tail)
      ((Lib.findSub [ascii ':'] (ascii ']' :: portText port ++ tail)).map
        (· + (address.length + 1 - 1))) = (portNumber port, (address ++ [ascii ']']).length) := by
    have hlen : (address ++ [ascii ']']).length = address.length + 1 := List.length_append
    refine urlPort_portText port hpre ht ?_ ?_
    · rintro rfl j hj
      obtain ⟨i, hi, rfl⟩ := Option.map_eq_some_iff.mp hj
      obtain ⟨hlt, hne⟩ : 1 < i ∧ tail ≠ [] :=
        find_behind (by decide) (show ascii ':' ∉ [ascii ']'] by decide) ht hi
      refine ⟨?_, hne⟩
      rw [hlen]
      show address.length + 1 < i + address.length
      omega
    · intro hne
      obtain ⟨p, rfl⟩ := Option.ne_none_iff_exists'.mp hne
      have hfind : Lib.findSub [ascii ':'] ([ascii ']'] ++ ascii ':' :: (p.digits ++ tail)) =
          some 1 := Lib.findSub_letter _ (by decide)
      have htext : ascii ']' :: portText (some p) ++ tail =
          [ascii ']'] ++ ascii ':' :: (p.digits ++ tail) := rfl
      rw [htext, hfind, hlen]
      exact congrArg some (Nat.add_comm 1 address.length)
  rw [htext, urlHost, hv6]
  dsimp only
  rw [hplain, List.drop_succ_cons, List.drop_zero, hurlPort, urlFile_pathLike hport ht]
  dsimp only
  have hlen : (address ++ [ascii ']']).length - 1 = address.length := by
    rw [List.length_append, List.length_singleton, Nat.add_sub_cancel]
  rw [hlen, List.append_assoc, List.append_assoc, List.take_left]
  rfl

theorem urlHost_eq (address : Address) (port : Option PortDigits) (ht : PathLike tail) :
    urlHost (address.text ++ portText port ++ tail) =
      (address.host, portNumber port, fileOf tail) := by
  cases address with
  | named host chars => exact urlHost_named chars port ht
  | ipv6 address chars => exact urlHost_ipv6 chars port ht

/-! ## Splitting -/

theorem UrlGrammar.colon_not_mem_scheme (g : UrlGrammar) : ascii ':' ∉ g.scheme := fun hm =>
  (isUnreserved_plain (g.scheme_chars _ hm)).2.2.1 rfl

theorem findSub_scheme (g : UrlGrammar) (rest : List UInt8) :
    Lib.findSub (asciis "://") (g.scheme ++ asciis "://" ++ rest) = some g.scheme.length := by
  have hpre : asciis "://" <+: asciis "://" ++ rest := List.prefix_append _ _
  rw [List.append_assoc]
  exact (Lib.findSub_append _ g.colon_not_mem_scheme).trans
    ((congrArg (Option.map _) (Lib.findSub_at_front hpre)).trans (congrArg some (Nat.zero_add _)))

theorem Address.text_chars (a : Address) : ascii '@' ∉ a.text ∧ ascii '/' ∉ a.text := by
  cases a with
  | named host chars =>
    exact ⟨fun hm => (isUnreserved_plain (chars _ hm)).2.2.2.1 rfl,
      fun hm => (isUnreserved_plain (chars _ hm)).2.1 rfl⟩
  | ipv6 address chars =>
    have hchars : ∀ c ∈ (Address.ipv6 address chars).text, c ≠ ascii '@' ∧ c ≠ ascii '/' := by
      intro c hc
      rcases List.mem_append.mp hc with hc | hc
      · rcases List.mem_cons.mp hc with rfl | hc
        · decide
        · have hplain := isIpv6Char_plain (chars c hc)
          exact ⟨hplain.2.2.2.1, hplain.2.1⟩
      · rw [List.mem_singleton.mp hc]
        decide
    exact ⟨fun hm => (hchars _ hm).1 rfl, fun hm => (hchars _ hm).2 rfl⟩

/-- The user name and the password are found. -/
theorem urlCredentials_userText (g : UrlGrammar) (ht : PathLike tail) :
    urlCredentials (userText g.userinfo ++ (g.address.text ++ portText g.port ++ tail)) =
      (g.userinfo.map UserInfo.user, g.userinfo.bind UserInfo.password,
        g.address.text ++ portText g.port ++ tail) := by
  obtain ⟨r, hr⟩ : ∃ r, g.userinfo = r := ⟨_, rfl⟩
  rw [hr]
  cases r with
  | none =>
    have hpre : ∀ c ∈ g.address.text ++ portText g.port, c ≠ ascii '@' ∧ c ≠ ascii '/' := by
      intro c hc
      rcases List.mem_append.mp hc with hc | hc
      · exact ⟨fun e => g.address.text_chars.1 (e ▸ hc), fun e => g.address.text_chars.2 (e ▸ hc)⟩
      · exact ⟨(portText_chars g.port c hc).2.2.1, (portText_chars g.port c hc).2.1⟩
    show urlCredentials (g.address.text ++ portText g.port ++ tail) = _
    exact urlCredentials_none (fun hm => (hpre _ hm).1 rfl) (fun hm => (hpre _ hm).2 rfl) ht
  | some info =>
    rw [userText, List.append_assoc]
    exact urlCredentials_some info _

/-- What is in front of the path is split as the grammar has it. -/
theorem urlParts_site (g : UrlGrammar) (ht : PathLike tail) :
    HasParts (urlParts (g.site ++ tail) g.scheme.length) g (fileOf tail) := by
  have hsplit : g.site ++ tail = g.scheme ++ asciis "://" ++
      (userText g.userinfo ++ (g.address.text ++ portText g.port ++ tail)) := by
    rw [UrlGrammar.site, UrlGrammar.front]
    simp only [List.append_assoc]
  have hlen : (g.scheme ++ asciis "://").length = g.scheme.length + 3 := List.length_append
  have hrest : (g.site ++ tail).drop (g.scheme.length + 3) =
      userText g.userinfo ++ (g.address.text ++ portText g.port ++ tail) := by
    rw [hsplit, List.drop_left' hlen]
  have hscheme : (g.site ++ tail).take g.scheme.length = g.scheme := by
    rw [hsplit, List.append_assoc, List.take_left]
  have hcred := urlCredentials_userText g ht
  have hhost := urlHost_eq g.address g.port ht
  constructor
  · exact hscheme
  · show (urlCredentials ((g.site ++ tail).drop (g.scheme.length + 3))).1 = _
    rw [hrest, hcred]
  · show (urlCredentials ((g.site ++ tail).drop (g.scheme.length + 3))).2.1 = _
    rw [hrest, hcred]
  · show (urlHost (urlCredentials ((g.site ++ tail).drop (g.scheme.length + 3))).2.2).1 = _
    rw [hrest, hcred, hhost]
  · show (urlHost (urlCredentials ((g.site ++ tail).drop (g.scheme.length + 3))).2.2).2.1 = _
    rw [hrest, hcred, hhost]
    rfl
  · show (urlHost (urlCredentials ((g.site ++ tail).drop (g.scheme.length + 3))).2.2).2.2 = _
    rw [hrest, hcred, hhost]

/-! ## What is escaped -/

/-- The characters are not escaped. -/
def Plain (s : List UInt8) : Prop := ∀ c ∈ s, isAlnum c = true ∨ isKept c = true

theorem Plain.append (hs : Plain s) (ht : Plain t) : Plain (s ++ t) :=
  fun c hc => (List.mem_append.mp hc).elim (hs c) (ht c)

theorem Plain.of_kept (h : s.all isKept = true) : Plain s := fun c hc =>
  Or.inr (List.all_eq_true.mp h c hc)

theorem Plain.of_unreserved (h : ∀ c ∈ s, isUnreserved c = true) : Plain s :=
  fun c hc => isUrlChar_cases (Or.inl (h c hc)) (isUnreserved_plain (h c hc)).1

theorem Plain.of_portText (port : Option PortDigits) : Plain (portText port) := by
  intro c hc
  cases port with
  | none => exact absurd hc List.not_mem_nil
  | some port =>
    rcases List.mem_cons.mp hc with rfl | hc
    · exact Or.inr (by decide)
    · refine Or.inl ?_
      have hd := port.decimal c hc
      rw [isAlnum, hd, decide_eq_true_iff]
      exact Or.inr (Or.inr rfl)

/-- A URL has nothing to escape in front of its host. -/
theorem UrlGrammar.plain_front (g : UrlGrammar) : Plain g.front := by
  have hscheme : Plain (g.scheme ++ asciis "://") :=
    (Plain.of_unreserved g.scheme_chars).append (Plain.of_kept rfl)
  refine hscheme.append ?_
  cases g.userinfo with
  | none => exact fun c hc => absurd hc List.not_mem_nil
  | some info =>
    have hpassword : Plain (passwordText info.password) := by
      obtain ⟨r, hr⟩ : ∃ r, info.password = r := ⟨_, rfl⟩
      rw [hr]
      cases r with
      | none => exact fun c hc => absurd hc List.not_mem_nil
      | some p =>
        intro c hc
        rcases List.mem_cons.mp hc with rfl | hc
        · exact Or.inr (by decide)
        · exact Plain.of_unreserved (info.password_chars p hr) c hc
    exact ((Plain.of_unreserved info.user_chars).append hpassword).append (Plain.of_kept rfl)

/-- The path keeps its slash, and only what is behind the copied part is escaped. -/
def escapedTail (g : UrlGrammar) : List UInt8 :=
  (pathText g.path).take (rawLength g.text - g.site.length) ++
    escapeRuns [] ((pathText g.path).drop (rawLength g.text - g.site.length))

theorem pathLike_pathText (path : Option (List UInt8)) : PathLike (pathText path) := by
  cases path with
  | none => exact Or.inl rfl
  | some p => exact Or.inr ⟨p, rfl⟩

theorem escapeRuns_plain_append (hs : Plain s) (ht : PathLike tail) :
    escapeRuns [] (s ++ tail) = s ++ escapeRuns [] tail := by
  have hnil : ∀ c ∈ ([] : List UInt8), isAlnum c = true := fun _ hm => absurd hm List.not_mem_nil
  rcases ht with rfl | ⟨p, rfl⟩
  · rw [List.append_nil, escapeRuns_plain hnil hs]
    exact (List.append_nil s).symm
  · rw [escapeRuns_append_kept [] s p (by decide), escapeRuns_plain hnil hs,
      escapeRuns_kept [] p (by decide)]
    rfl

/-- If nothing in front of the path has to be escaped, only the path changes. -/
theorem urlEscapeString_site (g : UrlGrammar) (h : Plain (g.site.drop (rawLength g.text))) :
    urlEscapeString g.text = g.site ++ escapedTail g := by
  obtain ⟨n, hn⟩ : ∃ n, rawLength g.text = n := ⟨_, rfl⟩
  rw [urlEscapeString, escapedTail, hn, UrlGrammar.text, List.take_append, List.drop_append]
  rw [hn] at h
  rcases Nat.le_total n g.site.length with hle | hle
  · rw [Nat.sub_eq_zero_of_le hle, List.drop_zero, List.take_zero, List.append_nil,
      escapeRuns_plain_append h (pathLike_pathText g.path), ← List.append_assoc,
      List.take_append_drop]
    rfl
  · rw [List.drop_of_length_le hle, List.take_of_length_le hle, List.nil_append, List.append_assoc]

/-- A letter that a list doesn't have stands behind it. -/
theorem length_le_of_not_mem {x : UInt8} {a b p q : List UInt8} (h : a ++ x :: b = p ++ q)
    (hx : x ∉ p) : p.length ≤ a.length := by
  refine Nat.le_of_not_lt fun hlt => hx ?_
  have hpre : a ++ [x] <+: p := by
    have h1 : a ++ [x] <+: p ++ q := ⟨b, by rw [← h, List.append_assoc]; rfl⟩
    refine List.prefix_of_prefix_length_le h1 (List.prefix_append p q) ?_
    rw [List.length_append, List.length_singleton]
    exact hlt
  exact hpre.subset (List.mem_append_right a List.mem_cons_self)

/-- The copied part covers the address, if there is one. -/
theorem rawLength_address {front address rest : List UInt8}
    (hfront : ascii '[' ∉ front) (haddress : ∀ c ∈ address, c ≠ ascii '[' ∧ c ≠ ascii ']')
    (hpos : 0 < rawLength (front ++ ascii '[' :: (address ++ ascii ']' :: rest))) :
    front.length + address.length + 2 ≤
      rawLength (front ++ ascii '[' :: (address ++ ascii ']' :: rest)) := by
  obtain ⟨tmp, k, htmp, hk, hraw, -⟩ := rawLength_pos hpos
  obtain ⟨a, b, hab, rfl⟩ := Lib.findSub_split htmp
  have hlen : (a ++ asciis "://").length = a.length + 3 := List.length_append
  have hsplit : (a ++ asciis "://") ++ ascii '[' :: b =
      front ++ ascii '[' :: (address ++ ascii ']' :: rest) := by
    rw [hab, List.append_assoc, List.append_assoc]
    rfl
  have hle := length_le_of_not_mem hsplit hfront
  rcases Nat.lt_or_eq_of_le hle with hlt | heq
  · obtain ⟨c, hc⟩ : ∃ c, a ++ asciis "://" = front ++ ascii '[' :: c := by
      have hpre : front ++ [ascii '['] <+: a ++ asciis "://" := by
        have h1 : front ++ [ascii '['] <+: (a ++ asciis "://") ++ ascii '[' :: b :=
          ⟨address ++ ascii ']' :: rest, by rw [hsplit, List.append_assoc]; rfl⟩
        refine List.prefix_of_prefix_length_le h1 (List.prefix_append _ _) ?_
        rw [List.length_append, List.length_singleton]
        exact hlt
      obtain ⟨c, hc⟩ := hpre
      exact ⟨c, by rw [← hc, List.append_assoc]; rfl⟩
    rw [hc, List.append_assoc, List.cons_append] at hsplit
    have hrest := (List.cons.inj (List.append_cancel_left hsplit)).2
    have hpre : address ++ ascii ']' :: rest = (address ++ [ascii ']']) ++ rest := by
      rw [List.append_assoc]
      rfl
    rw [hpre] at hrest
    have hle' := length_le_of_not_mem hrest fun hm => by
      rcases List.mem_append.mp hm with hm | hm
      · exact (haddress _ hm).1 rfl
      · exact absurd (List.mem_singleton.mp hm) (by decide)
    have hclen := congrArg List.length hc
    rw [hlen, List.length_append, List.length_cons] at hclen
    rw [List.length_append, List.length_singleton] at hle'
    omega
  · have hdrop : (front ++ ascii '[' :: (address ++ ascii ']' :: rest)).drop (a.length + 4) =
        address ++ ascii ']' :: rest := by
      have h4 : a.length + 4 = front.length + 1 := by omega
      rw [h4, ← List.drop_drop, List.drop_left]
      rfl
    rw [hdrop, Lib.findSub_letter rest fun hm => (haddress _ hm).2 rfl] at hk
    cases hk
    omega

/-- In front of the path nothing has to be escaped but an IPv6 address that is not copied. -/
theorem plain_site_or (g : UrlGrammar) : Plain (g.site.drop (rawLength g.text)) ∨
    rawLength g.text = 0 ∧ ∃ address chars, g.address = .ipv6 address chars := by
  obtain ⟨r, hr⟩ : ∃ r, g.address = r := ⟨_, rfl⟩
  cases r with
  | named host chars =>
    have hsite : Plain g.site := by
      rw [UrlGrammar.site, hr]
      exact (g.plain_front.append (Plain.of_unreserved chars)).append (Plain.of_portText g.port)
    exact Or.inl fun c hc => hsite c (List.mem_of_mem_drop hc)
  | ipv6 address chars =>
    rcases Nat.eq_zero_or_pos (rawLength g.text) with h0 | hpos
    · exact Or.inr ⟨h0, address, chars, hr⟩
    · have hsite : g.site =
          (g.front ++ (ascii '[' :: address ++ [ascii ']'])) ++ portText g.port := by
        rw [UrlGrammar.site, hr]
        rfl
      have htext : g.text = g.front ++ ascii '[' ::
          (address ++ ascii ']' :: (portText g.port ++ pathText g.path)) := by
        rw [UrlGrammar.text, hsite]
        simp only [List.append_assoc, List.cons_append, List.nil_append]
      have hfront : ascii '[' ∉ g.front := fun hm =>
        absurd (g.plain_front _ hm) (by decide)
      have haddress : ∀ c ∈ address, c ≠ ascii '[' ∧ c ≠ ascii ']' := fun c hc =>
        (isIpv6Char_plain (chars c hc)).2.2.2.2
      have hle := rawLength_address hfront haddress (htext ▸ hpos)
      rw [← htext] at hle
      have hlen : (g.front ++ (ascii '[' :: address ++ [ascii ']'])).length =
          g.front.length + address.length + 2 := by
        simp only [List.length_append, List.length_cons, List.length_nil]
        omega
      refine Or.inl fun c hc => Plain.of_portText g.port c ?_
      rw [hsite, List.drop_append, List.drop_of_length_le (by omega), List.nil_append] at hc
      exact List.mem_of_mem_drop hc

theorem pathLike_escapedTail (g : UrlGrammar) : PathLike (escapedTail g) := by
  rw [escapedTail]
  cases g.path with
  | none => exact Or.inl (by rw [pathText, List.take_nil, List.drop_nil]; rfl)
  | some p =>
    refine Or.inr ?_
    cases rawLength g.text - g.site.length with
    | zero =>
      have hslash : isKept (ascii '/') = true := by decide
      exact ⟨escapeRuns [] p, escapeRuns_kept [] p hslash⟩
    | succ m => exact ⟨_, rfl⟩

theorem fileOf_inj (hs : PathLike s) (ht : PathLike t) (hst : s = [] ↔ t = [])
    (h : fileOf s = fileOf t) : s = t := by
  rcases hs with rfl | ⟨p, rfl⟩
  · exact (hst.mp rfl).symm
  · rcases ht with rfl | ⟨q, rfl⟩
    · exact absurd (hst.mpr rfl) (List.cons_ne_nil _ _)
    · exact h

theorem fileOf_pathText (path : Option (List UInt8)) :
    fileOf (pathText path) = ascii '/' :: path.getD [] := by
  cases path with
  | none => rfl
  | some p => rfl

theorem escapedTail_nil_iff (g : UrlGrammar) : escapedTail g = [] ↔ pathText g.path = [] := by
  rw [escapedTail]
  cases g.path with
  | none => rw [pathText, List.take_nil, List.drop_nil]; exact ⟨fun _ => rfl, fun _ => rfl⟩
  | some p =>
    constructor
    · intro h
      obtain ⟨h1, h2⟩ := List.append_eq_nil_iff.mp h
      cases hm : rawLength g.text - g.site.length with
      | zero =>
        rw [hm, List.drop_zero, pathText, escapeRuns_kept [] p (by decide)] at h2
        cases h2
      | succ m =>
        rw [hm] at h1
        cases h1
    · intro h
      cases h

/-- The path is the same exactly if nothing in it is escaped. -/
theorem escapedTail_eq_iff (g : UrlGrammar) : escapedTail g = pathText g.path ↔
    ∀ c ∈ (pathText g.path).drop (rawLength g.text - g.site.length), isEscaped c = false := by
  constructor
  · intro h c hc
    have hdrop : escapeRuns [] ((pathText g.path).drop (rawLength g.text - g.site.length)) =
        (pathText g.path).drop (rawLength g.text - g.site.length) := by
      refine List.append_cancel_left ((show escapedTail g = _ from h).trans ?_)
      exact (List.take_append_drop _ _).symm
    rw [← hdrop] at hc
    exact Bool.eq_false_iff.mpr fun he => isEscaped_not_written he (mem_escapeRuns hc)
  · intro h
    have hplain : Plain ((pathText g.path).drop (rawLength g.text - g.site.length)) := by
      intro c hc
      have hchar : isUnreserved c = true ∨ isReserved c = true := by
        have hm := List.mem_of_mem_drop hc
        obtain ⟨r, hr⟩ : ∃ r, g.path = r := ⟨_, rfl⟩
        rw [hr] at hm
        cases r with
        | none => exact absurd hm List.not_mem_nil
        | some p =>
          rcases List.mem_cons.mp hm with rfl | hm
          · exact Or.inr (by decide)
          · exact g.path_chars p hr c hm
      exact isUrlChar_cases hchar (h c hc)
    rw [escapedTail, escapeRuns_plain (fun _ hm => absurd hm List.not_mem_nil) hplain,
      List.nil_append, List.take_append_drop]

theorem splits_iff_of_plain (g : UrlGrammar) (h : Plain (g.site.drop (rawLength g.text))) :
    Splits g ↔ BracketsRaw g := by
  have hesc := urlEscapeString_site g h
  have hnew : urlNew g.text = .ok (urlParts (g.site ++ escapedTail g) g.scheme.length) := by
    have hsite : g.site ++ escapedTail g = g.scheme ++ asciis "://" ++
        (userText g.userinfo ++ g.address.text ++ portText g.port ++ escapedTail g) := by
      rw [UrlGrammar.site, UrlGrammar.front]
      simp only [List.append_assoc]
    have hfind := findSub_scheme g
      (userText g.userinfo ++ g.address.text ++ portText g.port ++ escapedTail g)
    rw [← hsite] at hfind
    rw [urlNew, hesc, hfind]
  have hparts := urlParts_site g (pathLike_escapedTail g)
  have hraw : BracketsRaw g ↔
      ∀ c ∈ (pathText g.path).drop (rawLength g.text - g.site.length), isEscaped c = false := by
    have hdrop : g.text.drop (rawLength g.text) = g.site.drop (rawLength g.text) ++
        (pathText g.path).drop (rawLength g.text - g.site.length) := List.drop_append
    rw [BracketsRaw, hdrop]
    constructor
    · exact fun hall c hc => hall c (List.mem_append_right _ hc)
    · intro hall c hc
      rcases List.mem_append.mp hc with hc | hc
      · refine Bool.eq_false_iff.mpr fun he => isEscaped_not_written he ?_
        exact Or.inr (h c hc)
      · exact hall c hc
  rw [hraw, ← escapedTail_eq_iff]
  constructor
  · rintro ⟨u, hu, hhas⟩
    rw [hnew] at hu
    cases hu
    refine fileOf_inj (pathLike_escapedTail g) (pathLike_pathText g.path) (escapedTail_nil_iff g) ?_
    rw [fileOf_pathText, ← hhas.file, hparts.file]
  · intro heq
    rw [heq, fileOf_pathText] at hparts
    exact ⟨_, hnew, heq ▸ hparts⟩

/-! ## Addresses that are escaped -/

/-- The bracket of an address becomes an escape. -/
theorem escapeRuns_bracket : ∀ (run s : List UInt8),
    ∃ t, escapeRuns (ascii '[' :: run) s = ascii '%' :: t := by
  have hrun : ∀ run, ∃ t, escapeRun (ascii '[' :: run) = ascii '%' :: t := fun run => by
    rw [escapeRun, unescape_of_none (escapeAt_of_ne run (by decide)), cstr_cons (by decide),
      part_of_other (by decide) (escapeAt_of_ne _ (by decide))]
    exact ⟨_, rfl⟩
  intro run s
  induction s generalizing run with
  | nil => exact hrun run
  | cons c s ih =>
    rw [escapeRuns]
    split
    · obtain ⟨t, ht⟩ := hrun run
      exact ⟨t ++ c :: escapeRuns [] s, by rw [ht]; rfl⟩
    · exact ih (run ++ [c])

theorem urlCredentials_rest {p : List UInt8} (h : (urlCredentials p).1 = none) :
    (urlCredentials p).2.2 = p := by
  rw [urlCredentials] at h ⊢
  split
  · rfl
  · rename_i len hlen
    rw [hlen] at h
    dsimp only at h
    split at h
    · cases h
    · cases h

theorem findSub_percent {i : Nat} (hc : c ≠ ascii '%')
    (h : Lib.findSub [c] (ascii '%' :: t) = some i) : 0 < i := by
  obtain ⟨pre, suf, hs, -, rfl⟩ := Lib.findSub_letter_split h
  cases pre with
  | nil => exact absurd (List.cons.inj hs).1.symm hc
  | cons d pre => exact Nat.succ_pos _

/-- A host that begins with an escape. -/
theorem urlHost_percent {t : List UInt8} (h : ascii '[' ∉ t) :
    ∃ s, (urlHost (ascii '%' :: t)).1 = ascii '%' :: s := by
  have hopen : Lib.findSub [ascii '['] (ascii '%' :: t) = none :=
    Lib.findSub_letter_none_iff.mpr fun hm =>
      (List.mem_cons.mp hm).elim (fun e => absurd e (by decide)) h
  have hv6 : ipv6End (ascii '%' :: t) = none := by
    rw [ipv6End, hopen]
    rfl
  have hpos : 0 < (urlPort (ascii '%' :: t) (Lib.findSub [ascii ':'] (ascii '%' :: t))).2 := by
    rw [urlPort]
    split
    · obtain ⟨r, hr⟩ : ∃ r, Lib.findSub [ascii '/'] (ascii '%' :: t) = r := ⟨_, rfl⟩
      rw [hr]
      cases r with
      | none => exact Nat.succ_pos _
      | some i => exact findSub_percent (by decide) hr
    · rename_i colon hcolon
      split at hcolon
      · cases hcolon
      · exact findSub_percent (by decide) hcolon
  rw [urlHost, hv6]
  dsimp only
  obtain ⟨n, hn⟩ : ∃ n, (urlPort (ascii '%' :: t)
      (Lib.findSub [ascii ':'] (ascii '%' :: t))).2 = n + 1 :=
        ⟨_, (Nat.succ_pred_eq_of_pos hpos).symm⟩
  rw [hn]
  exact ⟨t.take n, rfl⟩

/-- The front of a URL ends with a character that is kept. -/
theorem UrlGrammar.front_kept (g : UrlGrammar) : ∃ a x, g.front = a ++ [x] ∧ isKept x = true := by
  rw [UrlGrammar.front]
  cases g.userinfo with
  | none =>
    refine ⟨g.scheme ++ asciis ":/", ascii '/', ?_, by decide⟩
    rw [userText, List.append_nil, List.append_assoc]
    rfl
  | some info =>
    exact ⟨_, ascii '@', (List.append_assoc _ _ _).symm, by decide⟩

/-- An IPv6 address that is not copied is not read back. -/
theorem not_splits_of_ipv6 (g : UrlGrammar) {address : List UInt8}
    {chars : ∀ c ∈ address, isIpv6Char c = true} (haddress : g.address = .ipv6 address chars)
    (hraw : rawLength g.text = 0) : ¬ Splits g := by
  obtain ⟨z, hz⟩ : ∃ z, g.text = g.front ++ ascii '[' :: z := by
    refine ⟨address ++ [ascii ']'] ++ portText g.port ++ pathText g.path, ?_⟩
    rw [UrlGrammar.text, UrlGrammar.site, haddress]
    simp only [Address.text, List.append_assoc, List.cons_append]
  obtain ⟨a, x, hfront, hx⟩ := g.front_kept
  obtain ⟨t, ht⟩ := escapeRuns_bracket [] z
  have hplain : Plain a := fun c hc => g.plain_front c (hfront ▸ List.mem_append_left _ hc)
  have hesc : urlEscapeString g.text = g.front ++ ascii '%' :: t := by
    have hbracket : escapeRuns [] (ascii '[' :: z) = ascii '%' :: t := by
      rw [escapeRuns, if_neg (by decide)]
      exact ht
    rw [urlEscapeString, hraw, List.take_zero, List.nil_append, List.drop_zero, hz, hfront,
      List.append_assoc, List.singleton_append, escapeRuns_append_kept [] a _ hx, hbracket,
      escapeRuns_plain (fun _ hm => absurd hm List.not_mem_nil) hplain, List.nil_append,
      List.append_assoc]
    rfl
  have hnot : ascii '[' ∉ t := fun hm => by
    have hmem : ascii '[' ∈ urlEscapeString g.text :=
      hesc ▸ List.mem_append_right _ (List.mem_cons_of_mem _ hm)
    rw [urlEscapeString, hraw, List.take_zero, List.nil_append] at hmem
    exact isEscaped_not_written (by decide) (mem_escapeRuns hmem)
  have hsplit : g.front ++ ascii '%' :: t =
      g.scheme ++ asciis "://" ++ (userText g.userinfo ++ ascii '%' :: t) := List.append_assoc _ _ _
  have hlen : (g.scheme ++ asciis "://").length = g.scheme.length + 3 := List.length_append
  rintro ⟨u, hu, hhas⟩
  rw [urlNew, hesc, hsplit, findSub_scheme g] at hu
  cases hu
  obtain ⟨s, hs⟩ := urlHost_percent hnot
  have hrest : (urlCredentials (userText g.userinfo ++ ascii '%' :: t)).2.2 = ascii '%' :: t := by
    have huser := hhas.username
    change (urlCredentials ((g.scheme ++ asciis "://" ++ _).drop (g.scheme.length + 3))).1 = _
      at huser
    rw [List.drop_left' hlen] at huser
    obtain ⟨r, hr⟩ : ∃ r, g.userinfo = r := ⟨_, rfl⟩
    rw [hr] at huser ⊢
    cases r with
    | none => exact urlCredentials_rest huser
    | some info =>
      rw [userText, List.append_assoc]
      exact congrArg (fun r => r.2.2) (urlCredentials_some info (ascii '%' :: t))
  have hhost := hhas.hostname
  change (urlHost (urlCredentials ((g.scheme ++ asciis "://" ++ _).drop
    (g.scheme.length + 3))).2.2).1 = _ at hhost
  rw [List.drop_left' hlen, hrest, hs, haddress] at hhost
  change ascii '%' :: s = address at hhost
  have hmem : ascii '%' ∈ address := hhost ▸ List.mem_cons_self
  exact (isIpv6Char_plain (chars _ hmem)).2.2.1 rfl

theorem splits_iff (g : UrlGrammar) : Splits g ↔ BracketsRaw g := by
  rcases plain_site_or g with h | ⟨hraw, address, chars, haddress⟩
  · exact splits_iff_of_plain g h
  · refine ⟨fun h => absurd h (not_splits_of_ipv6 g haddress hraw), fun h => ?_⟩
    have hmem : ascii '[' ∈ g.text.drop (rawLength g.text) := by
      rw [hraw, List.drop_zero, UrlGrammar.text, UrlGrammar.site, haddress]
      exact List.mem_append_left _ (List.mem_append_left _ (List.mem_append_right _
        List.mem_cons_self))
    exact absurd (h _ hmem) (by decide)

/-! ## The sip protocol -/

/-- A URL that starts with `sip:`. -/
structure SipUrl where
  rest : List UInt8
  nul : 0 ∉ rest

/-- The whole URL. -/
def SipUrl.text (s : SipUrl) : List UInt8 := asciis "sip:" ++ s.rest

/-- `url_new` gives a URL with this protocol. -/
def SipUrl.Accepted (s : SipUrl) : Prop := ∃ u, urlNew s.text = .ok u ∧ u.protocol = asciis "sip"

/-- Nothing is written for a run that is empty or begins with an escaped NUL. -/
def Vanishes (run : List UInt8) : Prop := KeptFree run ∧ (run = [] ∨ asciis "%00" <+: run)

/-- Two slashes follow.  In a part that is escaped runs that vanish may be between them. -/
def SipUrl.Slashes (s : SipUrl) : Prop :=
  if rawLength s.text = 0 then
    ∃ r1 r2 t, s.rest = r1 ++ ascii '/' :: (r2 ++ ascii '/' :: t) ∧ Vanishes r1 ∧ Vanishes r2
  else asciis "//" <+: s.rest

theorem hexVal_small {h : UInt8} (hc : hexVal c = some h) : h < 16 ∧ (h = 0 → c = ascii '0') := by
  have hall := forall_byte
    (P := fun c => (hexVal c).all fun v => v < 16 ∧ (v = 0 → c = ascii '0')) (by decide +kernel) c
  rw [hc] at hall
  exact of_decide_eq_true hall

/-- Only one escape stands for a NUL. -/
theorem escapeAt_zero_iff : escapeAt s = some 0 ↔ asciis "%00" <+: s := by
  constructor
  · intro h
    obtain ⟨c1, c2, q, hi, lo, rfl, h1, h2, h0⟩ := escapeAt_eq_some h
    obtain ⟨hlt1, hz1⟩ := hexVal_small h1
    obtain ⟨hlt2, hz2⟩ := hexVal_small h2
    have hnat := congrArg UInt8.toNat h0
    rw [UInt8.toNat_add, UInt8.toNat_mul] at hnat
    rw [UInt8.lt_iff_toNat_lt] at hlt1 hlt2
    have h16 : (16 : UInt8).toNat = 16 := rfl
    have hzero : (0 : UInt8).toNat = 0 := rfl
    rw [h16] at hlt1 hlt2 hnat
    rw [hzero] at hnat
    have hhi : hi = 0 := UInt8.toNat_inj.mp (by rw [hzero]; omega)
    have hlo : lo = 0 := UInt8.toNat_inj.mp (by rw [hzero]; omega)
    rw [hz1 hhi, hz2 hlo]
    exact ⟨q, rfl⟩
  · rintro ⟨q, rfl⟩
    rfl

theorem part_eq_nil_iff : urlEscapeStringPart s = [] ↔ s = [] := by
  constructor
  · intro h
    cases s with
    | nil => rfl
    | cons c s =>
      rw [urlEscapeStringPart] at h
      have hpart := (List.append_eq_nil_iff.mp h).1
      split at hpart
      · cases hpart
      · cases hpart
  · rintro rfl
    rfl

/-- Nothing is written for a run that begins with a NUL. -/
theorem escapeRun_eq_nil_iff {run : List UInt8} (h0 : 0 ∉ run) :
    escapeRun run = [] ↔ run = [] ∨ asciis "%00" <+: run := by
  rw [escapeRun, part_eq_nil_iff]
  cases run with
  | nil => exact ⟨fun _ => Or.inl rfl, fun _ => rfl⟩
  | cons c s =>
    rw [← escapeAt_zero_iff, or_iff_right (List.cons_ne_nil c s)]
    obtain ⟨r, hr⟩ : ∃ r, escapeAt (c :: s) = r := ⟨_, rfl⟩
    rw [hr]
    cases r with
    | none =>
      rw [unescape_of_none hr, cstr_cons fun e => h0 (e ▸ List.mem_cons_self)]
      constructor
      · intro h
        cases h
      · intro h
        cases h
    | some v =>
      rw [unescape_of_some hr]
      by_cases hv : v = 0
      · rw [hv]
        exact ⟨fun _ => rfl, fun _ => rfl⟩
      · rw [cstr_cons hv]
        constructor
        · intro h
          cases h
        · intro h
          exact absurd (Option.some.inj h) hv

/-- A slash is written first if what is in front of it vanishes. -/
theorem escapeRuns_slash_iff : ∀ {run : List UInt8} (s X : List UInt8), KeptFree run →
    (escapeRuns run s = ascii '/' :: X ↔ ∃ r t, s = r ++ ascii '/' :: t ∧ KeptFree r ∧
      escapeRun (run ++ r) = [] ∧ X = escapeRuns [] t)
  | run, [], X, hrun => by
    constructor
    · intro h
      have hmem : ascii '/' ∈ escapeRun run :=
        (show escapeRun run = ascii '/' :: X from h) ▸ List.mem_cons_self
      exact absurd hmem ((escapeRun_keptFree run).not_mem (by decide))
    · rintro ⟨r, t, h, -⟩
      exact absurd h.symm (by simp)
  | run, c :: s, X, hrun => by
    by_cases hc : isKept c = true
    · rw [escapeRuns_kept run s hc]
      constructor
      · intro h
        cases he : escapeRun run with
        | nil =>
          rw [he] at h
          obtain ⟨rfl, rfl⟩ := List.cons.inj h
          exact ⟨[], s, rfl, fun _ hm => absurd hm List.not_mem_nil,
            by rw [List.append_nil, he], rfl⟩
        | cons d e =>
          rw [he] at h
          have hmem : ascii '/' ∈ escapeRun run := by
            rw [he, (List.cons.inj h).1]
            exact List.mem_cons_self
          exact absurd hmem ((escapeRun_keptFree run).not_mem (by decide))
      · rintro ⟨r, t, hs, hr, he, rfl⟩
        cases r with
        | nil =>
          obtain ⟨rfl, rfl⟩ := List.cons.inj hs
          rw [List.append_nil] at he
          rw [he]
          rfl
        | cons d r =>
          obtain ⟨rfl, -⟩ := List.cons.inj hs
          cases (hr c List.mem_cons_self).symm.trans hc
    · have hfalse := Bool.eq_false_iff.mpr hc
      have hrun' : KeptFree (run ++ [c]) := fun x hx => by
        rcases List.mem_append.mp hx with hx | hx
        · exact hrun x hx
        · rw [List.mem_singleton.mp hx]
          exact hfalse
      rw [escapeRuns, if_neg hc, escapeRuns_slash_iff s X hrun']
      constructor
      · rintro ⟨r, t, rfl, hr, he, hX⟩
        have hassoc : run ++ [c] ++ r = run ++ c :: r := List.append_assoc run [c] r
        refine ⟨c :: r, t, rfl, fun x hx => ?_, hassoc ▸ he, hX⟩
        rcases List.mem_cons.mp hx with rfl | hx
        · exact hfalse
        · exact hr x hx
      · rintro ⟨r, t, hs, hr, he, hX⟩
        cases r with
        | nil =>
          obtain ⟨rfl, -⟩ := List.cons.inj hs
          exact absurd (by decide) hc
        | cons d r =>
          obtain ⟨rfl, rfl⟩ := List.cons.inj hs
          have hassoc : run ++ [c] ++ r = run ++ c :: r := List.append_assoc run [c] r
          exact ⟨r, t, rfl, fun x hx => hr x (List.mem_cons_of_mem _ hx), hassoc ▸ he, hX⟩

theorem slashes_escapeRuns_iff (h0 : 0 ∉ s) :
    asciis "//" <+: escapeRuns [] s ↔ ∃ r1 r2 t,
      s = r1 ++ ascii '/' :: (r2 ++ ascii '/' :: t) ∧ Vanishes r1 ∧ Vanishes r2 := by
  have hnil : KeptFree [] := fun _ hm => absurd hm List.not_mem_nil
  constructor
  · rintro ⟨X, hX⟩
    obtain ⟨r1, t1, rfl, hr1, he1, hX1⟩ := (escapeRuns_slash_iff s (ascii '/' :: X) hnil).mp hX.symm
    obtain ⟨r2, t2, rfl, hr2, he2, -⟩ := (escapeRuns_slash_iff t1 X hnil).mp hX1.symm
    have h1 : 0 ∉ r1 := fun hm => h0 (List.mem_append_left _ hm)
    have h2 : 0 ∉ r2 := fun hm =>
      h0 (List.mem_append_right _ (List.mem_cons_of_mem _ (List.mem_append_left _ hm)))
    exact ⟨r1, r2, t2, rfl, ⟨hr1, (escapeRun_eq_nil_iff h1).mp he1⟩,
      ⟨hr2, (escapeRun_eq_nil_iff h2).mp he2⟩⟩
  · rintro ⟨r1, r2, t, rfl, ⟨hr1, he1⟩, ⟨hr2, he2⟩⟩
    have h1 : 0 ∉ r1 := fun hm => h0 (List.mem_append_left _ hm)
    have h2 : 0 ∉ r2 := fun hm =>
      h0 (List.mem_append_right _ (List.mem_cons_of_mem _ (List.mem_append_left _ hm)))
    have hs2 := (escapeRuns_slash_iff (r2 ++ ascii '/' :: t) (escapeRuns [] t) hnil).mpr
      ⟨r2, t, rfl, hr2, (escapeRun_eq_nil_iff h2).mpr he2, rfl⟩
    have hs1 := (escapeRuns_slash_iff (r1 ++ ascii '/' :: (r2 ++ ascii '/' :: t)) _ hnil).mpr
      ⟨r1, _, rfl, hr1, (escapeRun_eq_nil_iff h1).mpr he1, rfl⟩
    rw [hs1, hs2]
    exact ⟨escapeRuns [] t, rfl⟩

/-- The escaped URL still begins with `sip:`. -/
theorem SipUrl.escaped (s : SipUrl) : ∃ X, urlEscapeString s.text = asciis "sip:" ++ X ∧
    (asciis "//" <+: X ↔ s.Slashes) := by
  have htext : s.text = asciis "sip" ++ ascii ':' :: s.rest := rfl
  rw [SipUrl.Slashes]
  split
  · rename_i h0
    refine ⟨escapeRuns [] s.rest, ?_, slashes_escapeRuns_iff s.nul⟩
    rw [urlEscapeString, h0, List.take_zero, List.nil_append, List.drop_zero, htext,
      escapeRuns_append_kept [] _ s.rest (by decide)]
    rfl
  · rename_i h0
    obtain ⟨tmp, k, htmp, -, hraw, -⟩ := rawLength_pos (Nat.pos_of_ne_zero h0)
    have hsip : ascii ':' ∉ asciis "sip" := by decide
    have h3 : 3 ≤ tmp := by
      have happ := (Lib.findSub_append (ascii ':' :: s.rest) hsip).symm.trans (htext ▸ htmp)
      obtain ⟨i, -, rfl⟩ := Option.map_eq_some_iff.mp happ
      exact Nat.le_add_left 3 i
    obtain ⟨m, hm⟩ : ∃ m, rawLength s.text = m + 6 := ⟨rawLength s.text - 6, by omega⟩
    rw [urlEscapeString, hm]
    refine ⟨s.rest.take (m + 2) ++ escapeRuns [] (s.rest.drop (m + 2)), rfl, ?_⟩
    have hle := rawLength_le s.text
    have hlen : s.text.length = s.rest.length + 4 := by
      rw [SipUrl.text, List.length_append, Nat.add_comm]
      rfl
    have htake : (s.rest.take (m + 2) ++ escapeRuns [] (s.rest.drop (m + 2))).take 2 =
        s.rest.take 2 := by
      have h2 : 2 ≤ (s.rest.take (m + 2)).length := by
        rw [List.length_take]
        omega
      rw [List.take_append_of_le_length h2, List.take_take, Nat.min_eq_left (by omega)]
    have hpat : (asciis "//").length = 2 := rfl
    rw [List.prefix_iff_eq_take, List.prefix_iff_eq_take, hpat, htake]

/-- The protocol is right exactly if two slashes follow. -/
theorem SipUrl.accepted_iff (s : SipUrl) : s.Accepted ↔ s.Slashes := by
  obtain ⟨X, hX, hiff⟩ := s.escaped
  have hsip : ascii ':' ∉ asciis "sip" := by decide
  have hcolon : urlEscapeString s.text = asciis "sip" ++ ascii ':' :: X := hX
  have hfind : Lib.findSub (asciis "://") (urlEscapeString s.text) =
      (Lib.findSub (asciis "://") (ascii ':' :: X)).map (· + 3) :=
    hcolon ▸ Lib.findSub_append (ascii ':' :: X) hsip
  have hpre : asciis "://" <+: ascii ':' :: X ↔ asciis "//" <+: X :=
    List.cons_prefix_cons.trans (and_iff_right rfl)
  rw [← hiff, ← hpre]
  constructor
  · rintro ⟨u, hu, hprotocol⟩
    rw [urlNew, hfind] at hu
    obtain ⟨r, hr⟩ : ∃ r, Lib.findSub (asciis "://") (ascii ':' :: X) = r := ⟨_, rfl⟩
    rw [hr] at hu
    cases r with
    | none =>
      dsimp only [Option.map_none] at hu
      split at hu
      · cases hu
      · cases hu
    | some i =>
      cases hu
      have hlen := congrArg List.length hprotocol
      change ((urlEscapeString s.text).take (i + 3)).length = 3 at hlen
      rw [List.length_take, hcolon] at hlen
      have hlen' : (asciis "sip" ++ ascii ':' :: X).length = X.length + 1 + 3 := by
        rw [List.length_append, Nat.add_comm]
        rfl
      have hi : i = 0 := by omega
      rw [hi] at hr
      exact (Lib.findSub_eq_some_iff.mp hr).2.1
  · intro hslashes
    rw [Lib.findSub_at_front hslashes] at hfind
    refine ⟨urlParts (urlEscapeString s.text) 3, by rw [urlNew, hfind]; rfl, ?_⟩
    show (urlEscapeString s.text).take 3 = asciis "sip"
    rw [hcolon]
    rfl

/-! ## Both -/

/-- The parts of a URL are right exactly if what has to be escaped is copied, and the protocol of
a URL with `sip:` exactly if two slashes follow. -/
theorem urlNew_splits_iff (g : UrlGrammar) (s : SipUrl) :
    (Splits g ↔ BracketsRaw g) ∧ (s.Accepted ↔ s.Slashes) :=
  ⟨splits_iff g, s.accepted_iff⟩

/-- An IPv6 host with a user name in front of it. -/
def userAtIpv6 : UrlGrammar where
  scheme := asciis "http"
  userinfo := some ⟨asciis "u", none, List.all_eq_true.mp rfl,
    fun _ h => absurd h.symm (Option.some_ne_none _)⟩
  address := .ipv6 (asciis "::1") (List.all_eq_true.mp rfl)
  port := none
  path := none
  scheme_chars := List.all_eq_true.mp rfl
  path_chars := fun _ h => absurd h.symm (Option.some_ne_none _)

/-- The user name hides the address, and `sip:` alone has no protocol. -/
theorem urlNew_not_splits :
    ¬ Splits userAtIpv6 ∧ ¬ SipUrl.Accepted ⟨asciis "a", by decide⟩ := by
  constructor
  · rintro ⟨u, hu, hparts⟩
    have hcode : (urlNew userAtIpv6.text).toOption.map Url.hostname = some (asciis "%5B") := by
      decide
    rw [hu] at hcode
    have hhost := (Option.some.inj hcode).symm.trans hparts.hostname
    exact absurd hhost (by decide)
  · rintro ⟨u, hu, -⟩
    have hcode : (urlNew (SipUrl.text ⟨asciis "a", by decide⟩)).toOption.isSome = false := by
      decide
    rw [hu] at hcode
    cases hcode

end MPlayer
