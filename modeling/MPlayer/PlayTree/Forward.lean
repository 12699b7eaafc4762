import MPlayer.PlayTree.Step

/-!
# Forward traversal

Stepping forward from the root visits the leaves of the tree in order, those below
a node as often as it loops (`Forest.expand`).

`Visits` is the sequence of entries that repeated steps stop at.  `Leads` says that
one call leads to another one with some entries in between, so traversals of parts
of the tree compose.  `Leads.drive` walks along some siblings and everything below
them.  It is an induction on the forest, with one more on the loop counter for the
passes over a node's children (`Leads.passes`).
-/

namespace MPlayer

open Lib

variable {rand : Nat → Nat → Nat} {dir : Int}

/-! ## Visiting entries -/

/-- `play_tree_iter_step(iter, d, 0)` returns `ret`. -/
def IterStep (rand : Nat → Nat → Nat) (iter : PlayTreeIter) (d : Int) (ret : IterRet)
    (iter' : PlayTreeIter) : Prop :=
  Returns (fun fuel => playTreeIterStep rand false fuel iter d) (ret, iter')

/-- The entries that a step by `d` and then steps by `dir` stop at, and the first
result that is not an entry. -/
inductive Visits (rand : Nat → Nat → Nat) (dir : Int) :
    PlayTreeIter → Int → List Nat → IterRet → PlayTreeIter → Prop where
  | stop {iter iter' : PlayTreeIter} {d : Int} {ret : IterRet} :
      IterStep rand iter d ret iter' → ret ≠ .entry → Visits rand dir iter d [] ret iter'
  | entry {iter iter1 iter' : PlayTreeIter} {d : Int} {p : Nat} {ps : List Nat} {ret : IterRet} :
      IterStep rand iter d .entry iter1 → iter1.tree = some p →
      Visits rand dir iter1 dir ps ret iter' → Visits rand dir iter d (p :: ps) ret iter'

variable {iter t iter' : PlayTreeIter} {d : Int} {ps : List Nat} {ret : IterRet} {N p : Nat}

/-- A call comes, after visiting `ps`, to another call. -/
def Leads (rand : Nat → Nat → Nat) (dir : Int) (iter : PlayTreeIter) (d : Int) (ps : List Nat)
    (iter' : PlayTreeIter) (d' : Int) : Prop :=
  ∀ qs ret t, Visits rand dir iter' d' qs ret t → Visits rand dir iter d (ps ++ qs) ret t

theorem Leads.trans {s u : PlayTreeIter} {e f : Int} {qs : List Nat}
    (h : Leads rand dir s d ps t e) (h' : Leads rand dir t e qs u f) :
    Leads rand dir s d (ps ++ qs) u f := by
  intro rs ret v hv
  rw [List.append_assoc]
  exact h _ _ _ (h' _ _ _ hv)

/-- A step that returns what another step returns. -/
theorem IterStep.of_eq {iter iter' t : PlayTreeIter} {d d' : Int} {ret : IterRet} {N : Nat}
    (heq : ∀ n, N ≤ n → playTreeIterStep rand false (n + 1) iter d
      = playTreeIterStep rand false n iter' d')
    (h : IterStep rand iter' d' ret t) : IterStep rand iter d ret t := by
  obtain ⟨M, hM⟩ := h
  refine ⟨max N M + 1, fun n hn => ?_⟩
  obtain ⟨n, rfl⟩ : ∃ m, n = m + 1 := ⟨n - 1, by omega⟩
  simp only [heq n (by omega)]
  exact hM n (by omega)

/-- A step that returns at once. -/
theorem IterStep.of_some
    (heq : ∀ n, N ≤ n → playTreeIterStep rand false (n + 1) iter d = some (ret, t)) :
    IterStep rand iter d ret t := by
  refine ⟨N + 1, fun n hn => ?_⟩
  obtain ⟨n, rfl⟩ : ∃ m, n = m + 1 := ⟨n - 1, by omega⟩
  exact heq n (by omega)

theorem Leads.of_eq {iter iter' : PlayTreeIter} {d d' : Int} {N : Nat}
    (heq : ∀ n, N ≤ n → playTreeIterStep rand false (n + 1) iter d
      = playTreeIterStep rand false n iter' d') : Leads rand dir iter d [] iter' d' := by
  intro qs ret t h
  cases h with
  | stop hstep hret => exact .stop (IterStep.of_eq heq hstep) hret
  | entry hstep htree hrest => exact .entry (IterStep.of_eq heq hstep) htree hrest

theorem Leads.of_entry
    (heq : ∀ n, N ≤ n → playTreeIterStep rand false (n + 1) iter d = some (.entry, iter'))
    (htree : iter'.tree = some p) : Leads rand dir iter d [p] iter' dir :=
  fun _ _ _ h => .entry (IterStep.of_some heq) htree h

/-! ## Matched calls -/

/-- The number of pushed configurations after some calls, or `none` if there was
none left to pop. -/
def configDepth : List ConfigCall → Nat → Option Nat
  | [], n => some n
  | .push :: calls, n => configDepth calls (n + 1)
  | .set _ _ :: calls, n => configDepth calls n
  | .pop :: _, 0 => none
  | .pop :: calls, n + 1 => configDepth calls n

/-- Every push is matched by one pop, and every pop by a push before it. -/
def Matched (calls : List ConfigCall) : Prop := ∀ n, configDepth calls n = some n

theorem configDepth_append (as bs : List ConfigCall) :
    ∀ n, configDepth (as ++ bs) n = (configDepth as n).bind (configDepth bs) := by
  induction as with
  | nil => exact fun _ => rfl
  | cons a as ih =>
    intro n
    cases a with
    | push => exact ih (n + 1)
    | set name value => exact ih n
    | pop =>
      cases n with
      | zero => rfl
      | succ n => exact ih n

theorem Matched.append {as bs : List ConfigCall} (ha : Matched as) (hb : Matched bs) :
    Matched (as ++ bs) := by
  intro n
  rw [configDepth_append, ha n]
  exact hb n

theorem paramCalls_matched (heap : Nat → PlayTree) (p : Nat) : Matched (paramCalls heap p) := by
  unfold paramCalls
  induction (heap p).params.getD [] with
  | nil => exact fun _ => rfl
  | cons _ _ ih => exact fun n => ih n

/-- An item's calls around matched ones are matched. -/
theorem Matched.item {heap : Nat → PlayTree} {config : Bool} {calls : List ConfigCall}
    (h : Matched calls) : Matched (openCalls heap config p ++ calls ++ closeCalls config) := by
  cases config with
  | false =>
    simp only [openCalls, closeCalls, Bool.false_eq_true, if_false, List.nil_append,
      List.append_nil]
    exact h
  | true =>
    intro n
    rw [configDepth_append, configDepth_append]
    have hopen : configDepth (openCalls heap true p) n = some (n + 1) :=
      paramCalls_matched heap p (n + 1)
    rw [hopen, Option.bind_some, h (n + 1)]
    rfl

/-! ## Walking along siblings -/

variable {heap : Nat → PlayTree} {root : Nat} {config : Bool}

/-- A forward call that finds `q`. -/
def Arrives (rand : Nat → Nat → Nat) (heap : Nat → PlayTree) (root : Nat) (config : Bool)
    (iter : PlayTreeIter) (d : Int) (q : Nat) (stack : List Int) (loop : Int)
    (calls : List ConfigCall) : Prop :=
  ∃ iter' d', 0 ≤ d' ∧ Ready heap root config iter' stack loop calls ∧
    ∀ n, playTreeIterStep rand false (n + 1) iter d
      = playTreeIterVisit (playTreeIterStep rand false n) n iter' q d' false

variable {stack : List Int} {loop : Int} {calls : List ConfigCall}

theorem Stands.arrives_zero (h : Stands heap root config iter p stack loop calls)
    (hparent : ∀ q, (heap p).parent = some q → (heap q).rnd = false) :
    Arrives rand heap root config iter 0 p stack loop calls :=
  ⟨_, 0, Int.le_refl 0, h.ready hparent, fun n => h.step_eq hparent n 0⟩

theorem Stands.arrives_next {q : Nat} (h : Stands heap root config iter p stack loop calls)
    (hparent : ∀ q, (heap p).parent = some q → (heap q).rnd = false)
    (hnext : (heap p).next = some q) : Arrives rand heap root config iter 1 q stack loop calls := by
  refine ⟨_, 1, by decide, h.ready hparent, fun n => ?_⟩
  rw [h.step_eq hparent, playTreeIterAim_one, hnext]

/-- How a walk over siblings ends: at the last of them, with the loop counter and
the status stack as before. -/
def Walked (rand : Nat → Nat → Nat) (heap : Nat → PlayTree) (root : Nat) (config : Bool)
    (iter : PlayTreeIter) (d : Int) (ps : List Nat) (last : Nat) (stack : List Int) (loop : Int)
    (calls : List ConfigCall) : Prop :=
  ∃ iter' made, Stands heap root config iter' last stack loop (calls ++ made) ∧ Matched made ∧
    Leads rand 1 iter d ps iter' 1

variable (rand)

/-- The passes over the children of a node, given a single pass. -/
theorem Leads.passes {parent c : Nat} {below beside : Forest Nat}
    (hl : (playTreeLinks heap).Linked (some parent) none (.cons c below beside))
    (hrnd : (heap parent).rnd = false) (hlast : (heap (beside.lastOr c)).parent = some parent)
    (hend : (heap (beside.lastOr c)).next = none) {ps : List Nat}
    (hpass : ∀ iter k calls, Stands heap root config iter c stack k calls →
      Walked rand heap root config iter 0 ps (beside.lastOr c) stack k calls) :
    ∀ (m : Nat) {iter : PlayTreeIter} {k : Int} {calls : List ConfigCall},
      Stands heap root config iter c stack k calls →
      (((heap parent).loop = 0 ∧ m = 0) ∨ ((heap parent).loop ≠ 0 ∧ k = m)) →
      ∃ k', ((heap parent).loop = 0 ∨ k' = 0) ∧
        Walked rand heap root config iter 0 (List.replicate (m + 1) ps).flatten
          (beside.lastOr c) stack k' calls
  | 0, iter, k, calls, h, hk => by
    refine ⟨k, by omega, ?_⟩
    have hone : (List.replicate (0 + 1) ps).flatten = ps := by simp
    rw [hone]
    exact hpass iter k calls h
  | m + 1, iter, k, calls, h, hk => by
    obtain ⟨iter1, made1, h1, hm1, hl1⟩ := hpass iter k calls h
    have hcalm := calm_of hlast hrnd
    obtain ⟨iter2, h2, N, hN⟩ := (h1.ready hcalm).again hlast hl.chain_prev (by omega) (by omega)
    have hback : Leads rand 1 iter1 1 [] iter2 0 := by
      refine Leads.of_eq (N := N) fun n hn => ?_
      rw [h1.step_eq hcalm, playTreeIterAim_one, hend]
      exact hN n hn _
    obtain ⟨k', hk', iter3, made3, h3, hm3, hl3⟩ :=
      Leads.passes hl hrnd hlast hend hpass m h2 (by omega)
    refine ⟨k', hk', iter3, made1 ++ made3, ?_, hm1.append hm3, ?_⟩
    · rw [← List.append_assoc]
      exact h3
    · have hlead := (hl1.trans hback).trans hl3
      rw [List.append_nil] at hlead
      rw [List.replicate_succ, List.flatten_cons]
      exact hlead

/-- How often the children of a node are played. -/
def playTimes (heap : Nat → PlayTree) (p : Nat) : Nat := max 1 (heap p).loop.toNat

/-- A walk over one item. -/
theorem Leads.item {parent prev : Option Nat} {p : Nat} {below beside : Forest Nat}
    (hroot : (heap root).parent = none)
    (hl : (playTreeLinks heap).Linked parent prev (.cons p below beside))
    (hp : Playable heap (.cons p below beside))
    (hbelow : ∀ {c : Nat} {iter : PlayTreeIter} {stack : List Int} {k : Int}
      {calls : List ConfigCall}, below.head? = some c →
      Arrives rand heap root config iter 0 c stack k calls →
      Walked rand heap root config iter 0 (below.expand (playTimes heap)) (below.lastOr c) stack k
        calls)
    {iter : PlayTreeIter} {d : Int} (h : Arrives rand heap root config iter d p stack loop calls) :
    Walked rand heap root config iter d ((Forest.cons p below .nil).expand (playTimes heap)) p
      stack loop calls := by
  obtain ⟨iter0, d', hd, hready, heq⟩ := h
  cases below with
  | nil =>
    obtain ⟨iter1, h1, N, hN⟩ := hready.visit_entry hl hp d'
    refine ⟨iter1, _, by rw [← List.append_assoc]; exact h1, ?_, ?_⟩
    · have hm : Matched (openCalls heap config p ++ [] ++ closeCalls config) :=
        Matched.item fun _ => rfl
      rw [List.append_nil] at hm
      exact hm
    · exact Leads.of_entry (N := N) (fun n hn => (heq n).trans (hN n hn _)) h1.tree_eq
  | cons c ds cs =>
    obtain ⟨iter1, h1, N, hN⟩ := hready.visit_node hl hp d'
    rw [if_pos hd] at h1
    obtain ⟨hlast, hend⟩ := hl.2.1.last
    have hrnd : (heap p).rnd = false := hp.1.1
    have hloop0 : 0 ≤ (heap p).loop := hp.1.2.1
    obtain ⟨k', hk', iter2, made, h2, hm, hl2⟩ := Leads.passes rand hl.2.1 hrnd hlast
      hend (fun iter k calls h => hbelow rfl (h.arrives_zero (calm_of hl.2.1.1.1 hrnd)))
      ((heap p).loop - 1).toNat h1 (by omega)
    obtain ⟨iter3, h3, hup⟩ :=
      (h2.ready (calm_of hlast hrnd)).up (d := 1) hroot hlast rfl (by omega)
    refine ⟨iter3, openCalls heap config p ++ made ++ closeCalls config, ?_, hm.item, ?_⟩
    · simp only [← List.append_assoc]
      exact h3
    · have hdown : Leads rand 1 iter d [] iter1 0 :=
        Leads.of_eq (N := N) fun n hn => (heq n).trans (hN n hn _)
      have hclimb : Leads rand 1 iter2 1 [] iter3 1 := by
        refine Leads.of_eq (N := 0) fun n _ => ?_
        have hnone : (heap (cs.lastOr c)).next = none := hend
        rw [h2.step_eq (calm_of hlast hrnd), playTreeIterAim_one, hnone]
        exact hup n _
      have hlead := (hdown.trans hl2).trans hclimb
      have htimes : ((heap p).loop - 1).toNat + 1 = playTimes heap p := by
        unfold playTimes
        omega
      rw [List.nil_append, List.append_nil, htimes] at hlead
      rw [Forest.expand, Forest.expand, List.append_nil]
      exact hlead

/-- A walk over some siblings. -/
theorem Leads.drive (hroot : (heap root).parent = none) (f : Forest Nat) :
    ∀ {parent prev : Option Nat} {p : Nat} {iter : PlayTreeIter} {d : Int} {stack : List Int}
      {loop : Int} {calls : List ConfigCall}, f.head? = some p →
      (playTreeLinks heap).Linked parent prev f → Playable heap f →
      (∀ q, parent = some q → (heap q).rnd = false) →
      Arrives rand heap root config iter d p stack loop calls →
      Walked rand heap root config iter d (f.expand (playTimes heap)) (f.lastOr p) stack loop
        calls := by
  induction f with
  | nil =>
    intro _ _ _ _ _ _ _ _ hhead
    cases hhead
  | cons p below beside ihbelow ihbeside =>
    intro parent prev p' iter d stack loop calls hhead hl hp hparent h
    cases hhead
    obtain ⟨iter1, made1, h1, hm1, hl1⟩ := Leads.item rand hroot hl hp
      (fun hc h => ihbelow hc hl.2.1 hp.2.1 (fun q hq => by cases hq; exact hp.1.1) h) h
    have hexpand : (Forest.cons p below beside).expand (playTimes heap)
        = (Forest.cons p below .nil).expand (playTimes heap) ++ beside.expand (playTimes heap) := by
      cases below with
      | nil => rfl
      | cons c ds cs => simp only [Forest.expand, List.append_nil]
    rw [hexpand]
    cases beside with
    | nil =>
      rw [Forest.expand, List.append_nil]
      exact ⟨iter1, made1, h1, hm1, hl1⟩
    | cons b ds bs =>
      have hcalm : ∀ q, (heap p).parent = some q → (heap q).rnd = false :=
        fun q hq => hparent q (hl.1.1.symm.trans hq)
      obtain ⟨iter2, made2, h2, hm2, hl2⟩ :=
        ihbeside rfl hl.2.2 hp.2.2 hparent (h1.arrives_next hcalm hl.1.2.2.2)
      refine ⟨iter2, made1 ++ made2, ?_, hm1.append hm2, hl1.trans hl2⟩
      rw [← List.append_assoc]
      exact h2

/-! ## The whole tree -/

/-- Stepping forward through a tree visits its leaves in order, those below a node
as often as it loops.  In the end the status stack is empty and all pushed
configurations are popped. -/
theorem play_tree_forward (config : Bool) {below : Forest Nat}
    (hl : (playTreeLinks heap).Linked none none (.cons root below .nil))
    (hp : Playable heap (.cons root below .nil)) :
    ∃ iter', Visits rand 1 (playTreeIterNew heap root config) 0
        ((Forest.cons root below .nil).expand fun p => max 1 (heap p).loop.toNat) .finish iter' ∧
      iter'.statusStack = [] ∧ Matched iter'.calls := by
  have hroot : (heap root).parent = none := hl.1.1
  have hnext : (heap root).next = none := hl.1.2.2.2
  have hcalm := calm_of_none heap hroot
  have h0 : Stands heap root config { playTreeIterNew heap root config with tree := some root }
      root [] 0 [] := by
    refine ⟨rfl, rfl, rfl, rfl, rfl, ?_, ?_⟩
    · simp [playTreeIterNew, hroot]
    · simp [playTreeIterNew, playTreeIterPopEntry]
  have hstart : Leads rand 1 (playTreeIterNew heap root config) 0 []
      { playTreeIterNew heap root config with tree := some root } 0 :=
    Leads.of_eq (N := 0) fun _ _ => rfl
  obtain ⟨iter1, made, h1, hm, hl1⟩ := Leads.drive rand hroot _ rfl hl hp
    (fun q hq => by cases hq) (h0.arrives_zero hcalm)
  obtain ⟨iter2, hstack, hcalls, hfinish⟩ := (h1.ready hcalm).finish hroot hroot 1
  refine ⟨iter2, ?_, hstack, ?_⟩
  · have hstop : Visits rand 1 iter1 1 [] .finish iter2 := by
      refine .stop (IterStep.of_some (N := 0) fun n _ => ?_) (by decide)
      have hstands : Stands heap root config iter1 root [] 0 ([] ++ made) := h1
      rw [hstands.step_eq hcalm, playTreeIterAim_one, hnext]
      exact hfinish n _
    have hvisits := (hstart.trans hl1) _ _ _ hstop
    rw [List.nil_append, List.append_nil] at hvisits
    exact hvisits
  · rw [hcalls]
    exact hm

/-! ## A small tree -/

/-- A node with children. -/
def playNode (parent child next prev : Option Nat) (loop : Int) : PlayTree where
  parent := parent
  child := child
  next := next
  prev := prev
  params := none
  loop := loop
  files := []
  entryType := .node
  rnd := false
  rndPlayed := false

/-- A file to play. -/
def playEntry (parent next prev : Option Nat) (file : String) : PlayTree where
  parent := parent
  child := none
  next := next
  prev := prev
  params := none
  loop := 0
  files := [file]
  entryType := .file
  rnd := false
  rndPlayed := false

/-- Two files in a node that loops, and a third one behind it. -/
def loopHeap (loop : Int) : Nat → PlayTree
  | 0 => playNode none (some 1) none none 0
  | 1 => playNode (some 0) (some 2) (some 4) none loop
  | 2 => playEntry (some 1) (some 3) none "a"
  | 3 => playEntry (some 1) none (some 2) "b"
  | _ => playEntry (some 0) none (some 1) "c"

/-- The shape of `loopHeap`. -/
def loopForest : Forest Nat :=
  .cons 1 (.cons 2 .nil (.cons 3 .nil .nil)) (.cons 4 .nil .nil)

theorem loopHeap_linked (loop : Int) :
    (playTreeLinks (loopHeap loop)).Linked none none (.cons 0 loopForest .nil) :=
  ⟨⟨rfl, rfl, rfl, rfl⟩, ⟨⟨rfl, rfl, rfl, rfl⟩,
    ⟨⟨rfl, rfl, rfl, rfl⟩, trivial, ⟨rfl, rfl, rfl, rfl⟩, trivial, trivial⟩,
    ⟨rfl, rfl, rfl, rfl⟩, trivial, trivial⟩, trivial⟩

theorem loopHeap_playable {loop : Int} (h : 0 ≤ loop) :
    Playable (loopHeap loop) (.cons 0 loopForest .nil) := by
  simp [Playable, loopForest, loopHeap, playNode, playEntry, Forest.head?, h]

/-- The first two files are played twice. -/
theorem play_tree_forward_loop :
    ∃ iter', Visits (fun _ _ => 0) 1 (playTreeIterNew (loopHeap 2) 0 true) 0 [2, 3, 2, 3, 4]
        .finish iter' ∧
      iter'.statusStack = [] ∧ Matched iter'.calls :=
  play_tree_forward (fun _ _ => 0) true (loopHeap_linked 2) (loopHeap_playable (by decide))

end MPlayer
