import MPlayer.Config.Plan
import MPlayer.Config.Scope

/-!
# Failing sets

What a call of `m_config_set_option` that fails leaves behind: the parsers of most types
write only when nothing can fail any more, two of them do not, and the members of a group
are set one by one.  The parser of some types calls a function of the program, which may set other
options before it fails (`mConfigSetOptionCalling`).
-/

namespace MPlayer

open Lib

variable {F : Type} {fl : Doubles F}

/-! ## Removing entries of an object list -/

/-- Whether a string begins with a number. -/
def IsIndex (d : CStr) : Prop := (strtoll 0 d).2 ≠ d

/-- The entry of a list of `len` entries that an index stands for. -/
def entryAt (len : Nat) (d : CStr) : Option Nat :=
  let id := toInt32 (strtoll 0 d).1
  if (len : Int) ≤ id ∨ id < -len then none
  else some (if id < 0 then len + id else id).toNat

/-- The marker left for an entry that is removed. -/
def removedEntry : ObjSettings := ⟨remId, none⟩

/-- An index that removes an entry stands before a string that is no index. -/
def RemovesBeforeBad (del : List CStr) (lst : List ObjSettings) : Prop :=
  ∃ pre bad post, del = pre ++ bad :: post ∧ (∀ d ∈ pre, IsIndex d) ∧ ¬ IsIndex bad ∧
    ∃ d ∈ pre, ∃ k, entryAt lst.length d = some k ∧ lst[k]? ≠ some removedEntry

theorem markRemoved_cons (d : CStr) (del : List CStr) (lst : List ObjSettings) :
    markRemoved (d :: del) lst =
      if (strtoll 0 d).2 = d then (false, lst)
      else match entryAt lst.length d with
        | none => markRemoved del lst
        | some k => markRemoved del (lst.set k removedEntry) := by
  rw [markRemoved]
  unfold entryAt
  simp only
  split
  · rfl
  · split
    · rfl
    · rfl

theorem entryAt_lt {len : Nat} {d : CStr} {k : Nat} (h : entryAt len d = some k) : k < len := by
  simp only [entryAt] at h
  split at h
  · cases h
  case isFalse hin =>
    cases h
    split
    · omega
    · omega

/-- The entries after the marking loop: those that an index before the first bad one stands
for are marked. -/
theorem markRemoved_getElem? :
    ∀ {del : List CStr} {lst : List ObjSettings}, (markRemoved del lst).1 = false →
      ∃ pre bad post, del = pre ++ bad :: post ∧ (∀ d ∈ pre, IsIndex d) ∧ ¬ IsIndex bad ∧
        ∀ k, ((∃ d ∈ pre, entryAt lst.length d = some k) →
            (markRemoved del lst).2[k]? = some removedEntry) ∧
          ((¬ ∃ d ∈ pre, entryAt lst.length d = some k) → (markRemoved del lst).2[k]? = lst[k]?)
  | [], lst, h => by cases h
  | d :: del, lst, h => by
    rw [markRemoved_cons] at h ⊢
    split at h
    case isTrue hbad =>
      refine ⟨[], d, del, rfl, by simp, fun hidx => hidx hbad, fun k => ⟨?_, fun _ => ?_⟩⟩
      · rintro ⟨x, hx, _⟩
        cases hx
      · rw [if_pos hbad]
    case isFalse hidx =>
      rw [if_neg hidx]
      cases hent : entryAt lst.length d with
      | none =>
        simp only [hent] at h ⊢
        obtain ⟨pre, bad, post, rfl, hpre, hbad, hk⟩ := markRemoved_getElem? h
        refine ⟨d :: pre, bad, post, rfl, ?_, hbad, fun k => ⟨?_, fun hno => ?_⟩⟩
        · intro x hx
          cases List.mem_cons.mp hx with
          | inl hx => exact hx ▸ hidx
          | inr hx => exact hpre x hx
        · rintro ⟨x, hx, hxk⟩
          cases List.mem_cons.mp hx with
          | inl hx =>
            rw [hx, hent] at hxk
            cases hxk
          | inr hx => exact (hk k).1 ⟨x, hx, hxk⟩
        · refine (hk k).2 fun ⟨x, hx, hxk⟩ => hno ⟨x, List.mem_cons_of_mem _ hx, hxk⟩
      | some j =>
        simp only [hent] at h ⊢
        obtain ⟨pre, bad, post, rfl, hpre, hbad, hk⟩ := markRemoved_getElem? h
        simp only [List.length_set] at hk
        have hj : j < lst.length := entryAt_lt hent
        refine ⟨d :: pre, bad, post, rfl, ?_, hbad, fun k => ⟨?_, fun hno => ?_⟩⟩
        · intro x hx
          cases List.mem_cons.mp hx with
          | inl hx => exact hx ▸ hidx
          | inr hx => exact hpre x hx
        · rintro ⟨x, hx, hxk⟩
          cases List.mem_cons.mp hx with
          | inr hx => exact (hk k).1 ⟨x, hx, hxk⟩
          | inl hx =>
            rw [hx, hent] at hxk
            cases hxk
            by_cases hmore : ∃ x ∈ pre, entryAt lst.length x = some j
            · exact (hk j).1 hmore
            · rw [(hk j).2 hmore, List.getElem?_set_self hj]
        · rw [(hk k).2 fun ⟨x, hx, hxk⟩ => hno ⟨x, List.mem_cons_of_mem _ hx, hxk⟩,
            List.getElem?_set_ne]
          rintro rfl
          exact hno ⟨d, List.mem_cons_self, hent⟩

/-- When the marking loop fails, it has changed the list exactly if an index removed an
entry before. -/
theorem markRemoved_changes {del : List CStr} {lst : List ObjSettings}
    (h : (markRemoved del lst).1 = false) :
    (markRemoved del lst).2 ≠ lst ↔ RemovesBeforeBad del lst := by
  obtain ⟨pre, bad, post, hdel, hpre, hbad, hk⟩ := markRemoved_getElem? h
  constructor
  · intro hne
    refine ⟨pre, bad, post, hdel, hpre, hbad, ?_⟩
    refine Classical.byContradiction fun hno => ?_
    refine hne (List.ext_getElem? fun k => ?_)
    by_cases hhit : ∃ d ∈ pre, entryAt lst.length d = some k
    · obtain ⟨d, hd, hdk⟩ := hhit
      rw [(hk k).1 ⟨d, hd, hdk⟩]
      refine Classical.byContradiction fun hkne => ?_
      exact hno ⟨d, hd, k, hdk, fun heq => hkne heq.symm⟩
    · exact (hk k).2 hhit
  · rintro ⟨pre', bad', post', hdel', hpre', hbad', d, hd, k, hdk, hne⟩ heq
    have hsame : pre' = pre := by
      rw [hdel] at hdel'
      rcases List.append_eq_append_iff.mp hdel' with ⟨as, ha, hb⟩ | ⟨as, ha, hb⟩
      · cases as with
        | nil => simpa using ha
        | cons x as =>
          cases hb
          exact absurd (hpre' bad (by rw [ha]; simp)) hbad
      · cases as with
        | nil => simpa using ha.symm
        | cons x as =>
          cases hb
          exact absurd (hpre bad' (by rw [ha]; simp)) hbad'
    rw [hsame] at hd
    have hmark := (hk k).1 ⟨d, hd, hdk⟩
    rw [heq] at hmark
    exact hne hmark

/-! ## Parsers that fail after they have written -/

/-- The failures of parsers that come too late: an object list that isn't there any more
when its replacement is refused, one with removed entries when an index is bad, and a list
of profiles of which one is unknown. -/
inductive Clobbers (fl : Doubles F) (opt : PlainOption (OptType F)) (name : CStr)
    (param : Option CStr) (old : OptVal F) : Prop where
  | replace {range : OptRange F} {list : List ObjInfo} {lst : List ObjSettings} {p : CStr}
      {r : Int} (htype : opt.type = .objSettingsList range (some list))
      (hop : listOp opt.name name = some .none) (hold : old = .objList (some lst))
      (hparam : param = some p) (hp : p ≠ [])
      (hrefused : checkObjs fl range list p true = .error r) : Clobbers fl opt name param old
  | remove {range : OptRange F} {list : List ObjInfo} {lst : List ObjSettings} {p : CStr}
      {n : Nat} {del : List CStr} (htype : opt.type = .objSettingsList range (some list))
      (hop : listOp opt.name name = some .del) (hold : old = .objList (some lst))
      (hparam : param = some p) (hp : p ≠ [])
      (hdel : checkStrList fl (anyRange fl) name name (some p) none = .ok (n, some del))
      (hbad : RemovesBeforeBad del lst) : Clobbers fl opt name param old
  | profile {profiles : List CStr} {n : Nat} {list : List CStr}
      (htype : opt.type = .profile profiles) (hhelp : param ≠ some "help".toList)
      (hlist : checkStrList fl (anyRange fl) opt.name name param none = .ok (n, some list))
      (hunknown : ∃ p ∈ list, p ∉ profiles) (hne : list ≠ []) (hold : old ≠ .strList (some list)) :
      Clobbers fl opt name param old

theorem OptVal.toObjList_eq {v : OptVal F} {l : List ObjSettings} (h : v.toObjList = some l) :
    v = .objList (some l) := by
  cases v with
  | objList l' =>
    cases h
    rfl
  | nothing => cases h
  | int _ => cases h
  | double _ => cases h
  | str _ => cases h
  | strList _ => cases h
  | timeSize _ => cases h
  | calls _ => cases h

variable {opt : PlainOption (OptType F)} {param : Option CStr} {old : OptVal F} {mode : ParserMode}

theorem Clobbers.objSettings {range : OptRange F} {priv : Option (List ObjInfo)}
    (htype : opt.type = .objSettingsList range priv) {name : CStr}
    (h : Clobbers fl opt name param old) :
    ∃ list lst p, priv = some list ∧ old = .objList (some lst) ∧ param = some p ∧ p ≠ [] ∧
      (listOp opt.name name = some .none ∧ (∃ r, checkObjs fl range list p true = .error r) ∨
        listOp opt.name name = some .del ∧ ∃ n del,
          checkStrList fl (anyRange fl) name name (some p) none = .ok (n, some del) ∧
            RemovesBeforeBad del lst) := by
  cases h with
  | replace htype' hop hold hparam hp hrefused =>
    rw [htype] at htype'
    cases htype'
    exact ⟨_, _, _, rfl, hold, hparam, hp, Or.inl ⟨hop, _, hrefused⟩⟩
  | remove htype' hop hold hparam hp hdel hbad =>
    rw [htype] at htype'
    cases htype'
    exact ⟨_, _, _, rfl, hold, hparam, hp, Or.inr ⟨hop, _, _, hdel, hbad⟩⟩
  | profile htype' _ _ _ _ _ =>
    rw [htype] at htype'
    cases htype'

/-- A removal that fails has written exactly if an index removed an entry before the bad
one. -/
theorem objSettingsListDel_clobbers {range : OptRange F} {list : List ObjInfo}
    (htype : opt.type = .objSettingsList range (some list)) {name p : CStr} (hp : p ≠ [])
    (hop : listOp opt.name name = some .del) (h : (objSettingsListDel fl name p (some old)).1 < 0) :
    (objSettingsListDel fl name p (some old)).2.getD old ≠ old ↔
      Clobbers fl opt name (some p) old := by
  cases hlst : old.toObjList with
  | none =>
    simp only [objSettingsListDel, Option.bind_some, hlst] at h
    exact absurd h (by decide)
  | some lst =>
    have hold := OptVal.toObjList_eq hlst
    -- what the indices must be for the removal to fail too late
    have hinv : Clobbers fl opt name (some p) old → ∃ n del,
        checkStrList fl (anyRange fl) name name (some p) none = .ok (n, some del) ∧
          RemovesBeforeBad del lst := by
      intro hc
      obtain ⟨_, lst', p', _, hold', hparam, _, hcase⟩ := hc.objSettings htype
      rw [hold] at hold'
      cases hold'
      cases hparam
      rcases hcase with ⟨hnone, _⟩ | ⟨_, hdel⟩
      · rw [hop] at hnone
        cases hnone
      · exact hdel
    simp only [objSettingsListDel, Option.bind_some, hlst] at h ⊢
    cases hcheck : checkStrList fl (anyRange fl) name name (some p) none with
    | error r =>
      simp only [hcheck] at h ⊢
      refine ⟨fun hne => absurd rfl hne, fun hc => ?_⟩
      obtain ⟨n, del, hok, _⟩ := hinv hc
      rw [hcheck] at hok
      cases hok
    | ok nd =>
      obtain ⟨n, del⟩ := nd
      cases del with
      | none => simp [hcheck, markRemoved] at h
      | some del =>
        simp only [hcheck, Option.getD_some, Option.map_some] at h ⊢
        cases hok : (markRemoved del lst).1 with
        | true => simp [hok] at h
        | false =>
          simp only [Bool.not_false, if_true, Option.getD_some]
          have hiff := markRemoved_changes hok
          constructor
          · intro hne
            refine .remove htype hop hold rfl hp hcheck (hiff.mp fun heq => hne ?_)
            rw [heq, hold]
          · intro hc heq
            obtain ⟨n', del', hok', hbad⟩ := hinv hc
            rw [hcheck] at hok'
            cases hok'
            rw [hold] at heq
            injection heq with heq
            injection heq with heq
            exact hiff.mpr hbad heq

section ObjSettingsList

variable {range : OptRange F} {list : List ObjInfo} {optName name : CStr}
  {dst : Option (OptVal F)} {op : ListOp}

/-- All operations but `-clr` read the parameter. -/
theorem parseObjSettingsList_param (param : Option CStr) :
    listOp optName name = some op → op ≠ .clr →
      parseObjSettingsList fl range (some list) optName name param dst =
        match param with
        | none => (mOptMissingParam, none)
        | some [] => (mOptMissingParam, none)
        | some (c :: p) =>
          if op = .del then objSettingsListDel fl name (c :: p) dst
          else
            match checkObjs fl range list (c :: p) dst.isSome with
            | .error r => (r, objListFreed op (dst.bind OptVal.toObjList))
            | .ok res =>
              let objs :=
                match op with
                | .add => (dst.bind OptVal.toObjList).getD [] ++ res
                | .pre => res ++ (dst.bind OptVal.toObjList).getD []
                | _ => res
              (1, dst.map fun _ => .objList (some objs)) := by
  intro hop hclr
  unfold parseObjSettingsList
  generalize listOp optName name = o at hop ⊢
  subst hop
  cases op with
  | clr => exact absurd rfl hclr
  | none => rcases param with _ | _ | ⟨c, p⟩ <;> rfl
  | add => rcases param with _ | _ | ⟨c, p⟩ <;> rfl
  | pre => rcases param with _ | _ | ⟨c, p⟩ <;> rfl
  | del => rcases param with _ | _ | ⟨c, p⟩ <;> rfl

theorem parseObjSettingsList_noParam {param : Option CStr}
    (hop : listOp optName name = some op) (hclr : op ≠ .clr)
    (hparam : param = none ∨ param = some []) :
    parseObjSettingsList fl range (some list) optName name param dst =
      (mOptMissingParam, none) := by
  rw [parseObjSettingsList_param _ hop hclr]
  rcases hparam with rfl | rfl
  · rfl
  · rfl

variable {c : Char} {p : CStr}

theorem parseObjSettingsList_del (hop : listOp optName name = some .del) :
    parseObjSettingsList fl range (some list) optName name (some (c :: p)) dst =
      objSettingsListDel fl name (c :: p) dst := by
  rw [parseObjSettingsList_param _ hop (by decide)]
  exact if_pos rfl

theorem parseObjSettingsList_error {r : Int} (hop : listOp optName name = some op)
    (hclr : op ≠ .clr) (hdel : op ≠ .del)
    (hcheck : checkObjs fl range list (c :: p) dst.isSome = .error r) :
    parseObjSettingsList fl range (some list) optName name (some (c :: p)) dst =
      (r, objListFreed op (dst.bind OptVal.toObjList)) := by
  rw [parseObjSettingsList_param _ hop hclr]
  dsimp only
  rw [if_neg hdel, hcheck]

theorem parseObjSettingsList_ok (dst : Option (OptVal F)) {res : List ObjSettings}
    (hop : listOp optName name = some op) (hclr : op ≠ .clr) (hdel : op ≠ .del)
    (hcheck : checkObjs fl range list (c :: p) dst.isSome = .ok res) :
    (parseObjSettingsList fl range (some list) optName name (some (c :: p)) dst).1 = 1 := by
  rw [parseObjSettingsList_param _ hop hclr]
  dsimp only
  rw [if_neg hdel, hcheck]

end ObjSettingsList

theorem parseObjSettingsList_clobbers {range : OptRange F} {priv : Option (List ObjInfo)}
    (htype : opt.type = .objSettingsList range priv) {name : CStr}
    (h : (parseObjSettingsList fl range priv opt.name name param (some old)).1 < 0) :
    (parseObjSettingsList fl range priv opt.name name param (some old)).2.getD old ≠ old ↔
      Clobbers fl opt name param old := by
  have hinv := fun hc : Clobbers fl opt name param old => hc.objSettings htype
  cases priv with
  | none =>
    refine ⟨fun hne => absurd rfl hne, fun hc => ?_⟩
    obtain ⟨_, _, _, hpriv, _⟩ := hinv hc
    cases hpriv
  | some list =>
    cases hop : listOp opt.name name with
    | none =>
      simp only [parseObjSettingsList, hop]
      refine ⟨fun hne => absurd rfl hne, fun hc => ?_⟩
      obtain ⟨_, _, _, _, _, _, _, hcase⟩ := hinv hc
      rw [hop] at hcase
      rcases hcase with ⟨hno, _⟩ | ⟨hno, _⟩
      · cases hno
      · cases hno
    | some op =>
      by_cases hclr : op = .clr
      · subst hclr
        simp [parseObjSettingsList, hop] at h
      · rcases param with _ | _ | ⟨c, p⟩
        · rw [parseObjSettingsList_noParam hop hclr (Or.inl rfl)]
          refine ⟨fun hne => absurd rfl hne, fun hc => ?_⟩
          obtain ⟨_, _, _, _, _, hparam, _⟩ := hinv hc
          cases hparam
        · rw [parseObjSettingsList_noParam hop hclr (Or.inr rfl)]
          refine ⟨fun hne => absurd rfl hne, fun hc => ?_⟩
          obtain ⟨_, _, _, _, _, hparam, hp, _⟩ := hinv hc
          cases hparam
          exact absurd rfl hp
        · have hp : c :: p ≠ [] := List.cons_ne_nil c p
          by_cases hdel : op = .del
          · subst hdel
            rw [parseObjSettingsList_del hop] at h ⊢
            exact objSettingsListDel_clobbers htype hp hop h
          · cases hcheck : checkObjs fl range list (c :: p) true with
            | ok res =>
              have hone := parseObjSettingsList_ok (some old) hop hclr hdel hcheck
              rw [hone] at h
              exact absurd h (by decide)
            | error r =>
              rw [parseObjSettingsList_error hop hclr hdel hcheck]
              simp only [objListFreed, Option.bind_some]
              constructor
              · intro hne
                split at hne
                case isTrue hfreed =>
                  obtain ⟨hnone, hsome⟩ := hfreed
                  obtain ⟨lst, hlst⟩ := Option.isSome_iff_exists.mp hsome
                  exact .replace htype (hnone ▸ hop) (OptVal.toObjList_eq hlst) rfl hp hcheck
                case isFalse => exact absurd rfl hne
              · intro hc
                obtain ⟨_, lst, _, _, hold, _, _, hcase⟩ := hinv hc
                rw [hop] at hcase
                rcases hcase with ⟨hno, _⟩ | ⟨hno, _⟩
                · cases hno
                  rw [hold]
                  simp [OptVal.toObjList]
                · exact absurd (Option.some.inj hno) hdel

theorem parseProfile_clobbers {profiles : List CStr} (htype : opt.type = .profile profiles)
    {name : CStr} (h : (parseProfile fl profiles opt.name name param (some old)).1 < 0) :
    (parseProfile fl profiles opt.name name param (some old)).2.getD old ≠ old ↔
      Clobbers fl opt name param old := by
  have hinv : Clobbers fl opt name param old → ∃ n list, param ≠ some "help".toList ∧
      checkStrList fl (anyRange fl) opt.name name param none = .ok (n, some list) ∧
        (∃ p ∈ list, p ∉ profiles) ∧ list ≠ [] ∧ old ≠ .strList (some list) := by
    intro hc
    cases hc with
    | replace htype' _ _ _ _ _ =>
      rw [htype] at htype'
      cases htype'
    | remove htype' _ _ _ _ _ _ =>
      rw [htype] at htype'
      cases htype'
    | profile htype' hhelp hlist hunknown hne hold =>
      rw [htype] at htype'
      cases htype'
      exact ⟨_, _, hhelp, hlist, hunknown, hne, hold⟩
  by_cases hhelp : param = some "help".toList
  · rw [parseProfile, if_pos hhelp]
    exact ⟨fun hne => absurd rfl hne, fun hc => absurd hhelp (hinv hc).choose_spec.choose_spec.1⟩
  · rw [parseProfile, if_neg hhelp] at h ⊢
    cases hcheck : checkStrList fl (anyRange fl) opt.name name param none with
    | error r =>
      simp only
      refine ⟨fun hne => absurd rfl hne, fun hc => ?_⟩
      obtain ⟨n, list, _, hok, _⟩ := hinv hc
      rw [hcheck] at hok
      cases hok
    | ok nl =>
      obtain ⟨n, l⟩ := nl
      simp only [hcheck] at h ⊢
      cases l with
      | none =>
        simp only [Option.getD_none, if_true]
        refine ⟨fun hne => absurd rfl hne, fun hc => ?_⟩
        obtain ⟨n, list, _, hok, _⟩ := hinv hc
        rw [hcheck] at hok
        cases hok
      | some list =>
        simp only [Option.getD_some] at h ⊢
        by_cases hnil : list = []
        · rw [if_pos hnil]
          refine ⟨fun hne => absurd rfl hne, fun hc => ?_⟩
          obtain ⟨n, list', _, hok, _, hne, _⟩ := hinv hc
          rw [hcheck] at hok
          cases hok
          exact absurd hnil hne
        · simp only [if_neg hnil] at h ⊢
          have hunknown : ∃ p ∈ list, p ∉ profiles := by
            refine Classical.byContradiction fun hno => ?_
            have hall : (list.all fun p => profiles.contains p) = true := by
              refine List.all_eq_true.mpr fun p hp => ?_
              refine List.contains_iff_mem.mpr (Classical.byContradiction fun hnot => ?_)
              exact hno ⟨p, hp, hnot⟩
            rw [if_pos hall] at h
            exact absurd h (Int.not_lt.mpr (Int.natCast_nonneg n))
          simp only [Option.map_some, Option.getD_some]
          constructor
          · intro hne
            exact .profile htype hhelp hcheck hunknown hnil fun heq => hne heq.symm
          · intro hc heq
            obtain ⟨n', list', _, hok, _, _, hold⟩ := hinv hc
            rw [hcheck] at hok
            cases hok
            exact hold heq.symm

/-- The types whose parser may write before it fails. -/
def OptType.writesEarly : OptType F → Bool
  | objSettingsList _ _ => true
  | profile _ => true
  | _ => false

theorem OptType.writesEarly_cases {t : OptType F} (h : t.writesEarly = true) :
    (∃ range priv, t = .objSettingsList range priv) ∨ ∃ profiles, t = .profile profiles := by
  cases t with
  | objSettingsList range priv => exact Or.inl ⟨range, priv, rfl⟩
  | profile profiles => exact Or.inr ⟨profiles, rfl⟩
  | _ => cases h

theorem Clobbers.writesEarly {name : CStr} (h : Clobbers fl opt name param old) :
    opt.type.writesEarly = true := by
  cases h with
  | replace htype _ _ _ _ _ =>
    rw [htype]
    rfl
  | remove htype _ _ _ _ _ _ =>
    rw [htype]
    rfl
  | profile htype _ _ _ _ _ =>
    rw [htype]
    rfl

/-- The other parsers write nothing when they fail. -/
theorem OptType.parse_unwritten {name : CStr} {dst : Option (OptVal F)}
    (hlate : opt.type.writesEarly = false) (h : (OptType.parse fl opt name param dst mode).1 < 0) :
    (OptType.parse fl opt name param dst mode).2 = none := by
  unfold OptType.parse at h ⊢
  cases htype : opt.type with
  | flag range => simp only [htype] at h ⊢; exact finish_written h
  | int range => simp only [htype] at h ⊢; exact finish_written h
  | int64 range => simp only [htype] at h ⊢; exact finish_written h
  | double range => simp only [htype] at h ⊢; exact finish_written h
  | float range => simp only [htype] at h ⊢; exact finish_written h
  | position range => simp only [htype] at h ⊢; exact finish_written h
  | string range => simp only [htype] at h ⊢; exact finish_written h
  | stringList range => simp only [htype] at h ⊢; exact finish_written h
  | format table => simp only [htype] at h ⊢; exact finish_written h
  | time => simp only [htype] at h ⊢; exact finish_written h
  | timeSize => simp only [htype] at h ⊢; exact finish_written h
  | funcParamImmediate call => rfl
  | funcParam => simp [htype, parseFuncPf] at h
  | funcFull => simp [htype, parseFuncPf] at h
  | func => simp [htype, parseFunc] at h
  | print priv => rfl
  | printFunc call => rfl
  | objParams priv =>
    simp only [parseObjParams]
    split
    · rfl
    · split
      · rfl
      · rfl
  | objSettingsList range priv => rw [htype] at hlate; cases hlate
  | profile profiles => rw [htype] at hlate; cases hlate

/-- A parser that fails has changed what it writes to exactly in the cases of
`Clobbers`. -/
theorem OptType.parse_clobbers {name : CStr}
    (h : (OptType.parse fl opt name param (some old) mode).1 < 0) :
    (OptType.parse fl opt name param (some old) mode).2.getD old ≠ old ↔
      Clobbers fl opt name param old := by
  cases hlate : opt.type.writesEarly with
  | false =>
    rw [OptType.parse_unwritten hlate h]
    refine ⟨fun hne => absurd rfl hne, fun hc => ?_⟩
    rw [hc.writesEarly] at hlate
    cases hlate
  | true =>
    rcases OptType.writesEarly_cases hlate with ⟨range, priv, htype⟩ | ⟨profiles, htype⟩
    · simp only [OptType.parse, htype] at h ⊢
      exact parseObjSettingsList_clobbers htype h
    · simp only [OptType.parse, htype] at h ⊢
      exact parseProfile_clobbers htype h

/-! ## Calls that fail in time -/

/-- Whether the data of a type has size zero: such an option has nothing to set. -/
def OptType.sizeZero : OptType F → Bool
  | funcParamImmediate _ => true
  | print _ => true
  | printFunc _ => true
  | objParams _ => true
  | _ => false

/-- A parser call that succeeds whatever the variables and slots hold. -/
def ParserCall.Accepts (fl : Doubles F) (mode : ParserMode) :
    ParserCall (OptType F) → Prop
  | refuse => False
  | check opt arg param => 0 ≤ (OptType.parse fl opt arg param none mode).1
  | store opt _ arg param => ∀ old, 0 ≤ (OptType.parse fl opt arg param (some old) mode).1

/-- Parser calls of which none fails after one that has set an option, or fails after it
has written. -/
def FailsInTime (fl : Doubles F) (mode : ParserMode) (m : Store (OptVal F)) :
    List (ParserCall (OptType F)) → Prop
  | [] => True
  | .refuse :: _ => True
  | .check opt arg param :: as =>
    0 ≤ (OptType.parse fl opt arg param none mode).1 → FailsInTime fl mode m as
  | .store opt slots arg param :: as =>
    ∀ top old, slots.head? = some top → m.data top.id = some old →
      ((OptType.parse fl opt arg param (some old) mode).1 < 0 → ¬ Clobbers fl opt arg param old) ∧
      (0 ≤ (OptType.parse fl opt arg param (some old) mode).1 →
        if opt.type.sizeZero then FailsInTime fl mode m as
        else ∀ a ∈ as, a.Accepts fl mode)

/-- Accepted parser calls do not fail. -/
theorem runCalls_accepts :
    ∀ {as : List (ParserCall (OptType F))} {m m' : Store (OptVal F)} {ok : Bool},
      (∀ a ∈ as, a.Accepts fl mode) →
      runCalls (mOptionTypes fl) mode as m = some (ok, m') → ok = true
  | [], _, _, _, _, h => by
    cases h
    rfl
  | a :: as, m, m', ok, hall, h => by
    obtain ⟨⟨r, m1⟩, hrun, h⟩ := Option.bind_eq_some_iff.mp h
    have hge : 0 ≤ r := by
      have ha := hall a List.mem_cons_self
      cases a with
      | refuse => exact ha.elim
      | check opt arg param =>
        cases hrun
        exact ha
      | store opt slots arg param =>
        obtain ⟨top, rest, old, d, _, _, hparse, _⟩ := parsePlain_stores hrun
        have hold := ha old
        change (mOptionTypes fl).parse opt arg param (some old) mode = (r, d) at hparse
        rw [show OptType.parse fl opt arg param (some old) mode = (r, d) from hparse] at hold
        exact hold
    simp only [if_neg (Int.not_lt.mpr hge)] at h
    exact runCalls_accepts (fun b hb => hall b (List.mem_cons_of_mem _ hb)) h

theorem Store.write_self {V : Type} {m : Store V} {id : Nat} {d : V}
    (h : m.data id = some d) : m.write id d = m := by
  have hdata : (fun i => if i = id then some d else m.data i) = m.data := by
    funext i
    split
    case isTrue heq => rw [heq, h]
    case isFalse => rfl
  rw [Store.write, hdata]

theorem OptType.sizeZero_copies {t : OptType F} (h : t.sizeZero = true) : t.copies = false := by
  cases t with
  | funcParamImmediate _ => rfl
  | print _ => rfl
  | printFunc _ => rfl
  | objParams _ => rfl
  | _ => cases h

theorem parseObjParams_unwritten (priv : Option (ObjDesc × Char)) (param : Option CStr) :
    (parseObjParams (F := F) priv param).2 = none := by
  unfold parseObjParams
  split
  · rfl
  · split
    · rfl
    · rfl

theorem OptType.sizeZero_unwritten (h : opt.type.sizeZero = true) {arg : CStr}
    {dst : Option (OptVal F)} : (OptType.parse fl opt arg param dst mode).2 = none := by
  unfold OptType.parse
  cases htype : opt.type with
  | funcParamImmediate _ => rfl
  | print _ => rfl
  | printFunc _ => rfl
  | objParams priv => exact parseObjParams_unwritten priv param
  | _ =>
    rw [htype] at h
    cases h

theorem setVar_of_not_copies (h : opt.type.copies = false) {d : OptVal F} {m : Store (OptVal F)} :
    (mOptionTypes fl).setVar opt d m = m := by
  simp only [MOptionTypes.setVar, mOptionTypes, h, Bool.false_eq_true, if_false]
  unfold Store.assign
  split
  case h_1 heq => cases heq
  case h_2 => rfl

/-- Parser calls that fail in time leave the variables and the slots as they were. -/
theorem runCalls_failsInTime :
    ∀ {as : List (ParserCall (OptType F))} {m m' : Store (OptVal F)}, FailsInTime fl mode m as →
      runCalls (mOptionTypes fl) mode as m = some (false, m') → m' = m
  | [], m, m', _, h => by cases h
  | .refuse :: as, m, m', _, h => by
    cases h
    rfl
  | .check opt arg param :: as, m, m', htime, h => by
    rw [runCalls, ParserCall.run, Option.bind_some] at h
    by_cases hr : ((mOptionTypes fl).parse opt arg param none mode).1 < 0
    · simp only [if_pos hr] at h
      cases h
      rfl
    · simp only [if_neg hr] at h
      exact runCalls_failsInTime (htime (Int.not_lt.mp hr)) h
  | .store opt slots arg param :: as, m, m', htime, h => by
    obtain ⟨⟨r, m1⟩, hrun, h⟩ := Option.bind_eq_some_iff.mp h
    obtain ⟨top, rest, old, d, hslots, hold, hparse, hm1⟩ := parsePlain_stores hrun
    have hparse' : OptType.parse fl opt arg param (some old) mode = (r, d) := hparse
    obtain ⟨hfail, hgo⟩ := htime top old (by rw [hslots]; rfl) hold
    rw [hparse'] at hfail hgo
    by_cases hr : r < 0
    · simp only [if_pos hr] at h hm1
      cases h
      have hneg : (OptType.parse fl opt arg param (some old) mode).1 < 0 := by
        rw [hparse']
        exact hr
      have hiff := OptType.parse_clobbers hneg
      rw [hparse'] at hiff
      have hsame : d.getD old = old := Classical.byContradiction fun hne =>
        hfail hr (hiff.mp hne)
      rw [hm1, hsame, Store.write_self hold]
    · simp only [if_neg hr] at h hm1
      have hrest := hgo (Int.not_lt.mp hr)
      split at hrest
      case isTrue hzero =>
        have hd : (OptType.parse fl opt arg param (some old) mode).2 = none :=
          OptType.sizeZero_unwritten hzero
        rw [hparse'] at hd
        change d = none at hd
        have hsame : m1 = m := by
          rw [hm1, setVar_of_not_copies (OptType.sizeZero_copies hzero), hd, Option.getD_none,
            Store.write_self hold]
        rw [hsame] at h
        exact runCalls_failsInTime hrest h
      case isFalse =>
        have hok := runCalls_accepts hrest h
        cases hok

/-! ## The call as a whole -/

/-- The variables behind the options and the save slots hold the same. -/
def SameValues {T V : Type} (c c' : MConfig T V) : Prop :=
  c'.store.data = c.store.data ∧ c'.store.vars = c.store.vars

/-- The plan for an option without children is a single parser call. -/
theorem callPlan_plain (fuel : Nat) (param : Option CStr) {i : Nat}
    {c : MConfig (OptType F) (OptVal F)} {arg : CStr} {co : ConfigOption (OptType F)}
    (hget : mConfigGetCo (mOptionTypes fl) c arg = some i) (hco : c.opts[i]? = some co)
    (hopt : co.opt = .plain opt) :
    ∃ a, (callPlan (mOptionTypes fl) (fuel + 1) c arg param true).1 = [a] ∧
      (a = .refuse ∨ a = .check opt arg param ∨ a = .store opt co.slots arg param) := by
  rw [callPlan, hget]
  simp only [hco, hopt]
  split
  · exact ⟨_, rfl, Or.inl rfl⟩
  · refine ⟨_, rfl, Or.inr ?_⟩
    split
    · exact Or.inr rfl
    · exact Or.inl rfl

/-- For a single parser call, not failing in time means to change a slot. -/
theorem failsInTime_of_same {m m' : Store (OptVal F)} {a : ParserCall (OptType F)}
    (h : runCalls (mOptionTypes fl) mode [a] m = some (false, m')) (hsame : m'.data = m.data) :
    FailsInTime fl mode m [a] := by
  cases a with
  | refuse => trivial
  | check opt arg param => exact fun _ => trivial
  | store opt slots arg param =>
    intro top old htop hold
    refine ⟨fun hneg hclob => ?_, fun _ => by split <;> simp [FailsInTime]⟩
    obtain ⟨⟨r, m1⟩, hrun, h⟩ := Option.bind_eq_some_iff.mp h
    obtain ⟨top', rest, old', d, hslots, hold', hparse, hm1⟩ := parsePlain_stores hrun
    rw [hslots] at htop
    cases htop
    rw [hold] at hold'
    cases hold'
    have hparse' : OptType.parse fl opt arg param (some old) mode = (r, d) := hparse
    have hiff := OptType.parse_clobbers hneg
    rw [hparse'] at hneg hiff
    simp only [if_pos hneg] at h hm1
    cases h
    have hdata := congrFun hsame top.id
    rw [hm1, hold] at hdata
    simp only [Store.write, if_pos, Option.some.injEq] at hdata
    exact hiff.mpr hclob hdata

/-- Setting an option is atomic on failure as long as the parser calls that it comes down
to fail in time.  For an option without children this is exactly when it is atomic. -/
theorem sameValues_of_set {fuel : Nat} {c c' : MConfig (OptType F) (OptVal F)} {arg : CStr}
    {param : Option CStr} {r : Int}
    (h : mConfigSetOption (mOptionTypes fl) fuel c arg param = some (r, c')) (hr : r < 0) :
    (FailsInTime fl c.mode c.store (callPlan (mOptionTypes fl) fuel c arg param true).1 →
      SameValues c c') ∧
    ∀ i co opt, mConfigGetCo (mOptionTypes fl) c arg = some i → c.opts[i]? = some co →
      co.opt = .plain opt → SameValues c c' →
      FailsInTime fl c.mode c.store (callPlan (mOptionTypes fl) fuel c arg param true).1 := by
  have hrun := (mConfigParseOption_follows (p := c) rfl rfl h).run
  rw [decide_eq_false (Int.not_le.mpr hr)] at hrun
  refine ⟨fun htime => ?_, fun i co opt hget hco hopt hsame => ?_⟩
  · have heq := runCalls_failsInTime htime hrun
    rw [SameValues, heq]
    exact ⟨rfl, rfl⟩
  · cases fuel with
    | zero => cases h
    | succ fuel =>
      obtain ⟨a, hplan, _⟩ := callPlan_plain fuel param hget hco hopt
      rw [hplan] at hrun ⊢
      exact failsInTime_of_same hrun hsame.1

/-! ## Functions that a parser calls -/

/-- The types whose parser calls a function of the program, also where it only checks. -/
def OptType.callsNow : OptType F → Bool
  | funcParamImmediate _ => true
  | printFunc _ => true
  | _ => false

mutual

/-- Whether an option, or one of its children, has such a type. -/
def MOption.callsNow : MOption (OptType F) → Bool
  | .plain opt => opt.type.callsNow
  | .group _ children _ => anyCallsNow children

def anyCallsNow : List (MOption (OptType F)) → Bool
  | [] => false
  | opt :: opts => opt.callsNow || anyCallsNow opts

end

/-- Whether a parser call calls a function of the program. -/
def ParserCall.callsNow : ParserCall (OptType F) → Bool
  | refuse => false
  | check opt _ _ => opt.type.callsNow
  | store opt _ _ _ => opt.type.callsNow

/-- The option without children whose function a call of `m_config_set_option` calls. -/
def calledOption (fl : Doubles F) (c : MConfig (OptType F) (OptVal F)) (arg : CStr) :
    Option (PlainOption (OptType F)) :=
  (mConfigGetCo (mOptionTypes fl) c arg).bind fun i => c.opts[i]?.bind fun co =>
    match co.opt with
    | .plain opt => if co.opt.forbidden c.mode || !opt.type.callsNow then none else some opt
    | .group _ _ _ => none

/-- `m_config_set_option` of an option whose function does `callback` to the variables and the
slots, before its parser returns.  The functions that members of a group call are left out. -/
def mConfigSetOptionCalling (fl : Doubles F)
    (callback : PlainOption (OptType F) → Option CStr → Store (OptVal F) → Store (OptVal F))
    (fuel : Nat) (c : MConfig (OptType F) (OptVal F)) (arg : CStr) (param : Option CStr) :
    Option (Int × MConfig (OptType F) (OptVal F)) :=
  match calledOption fl c arg with
  | some opt =>
    mConfigSetOption (mOptionTypes fl) fuel { c with store := callback opt param c.store } arg param
  | none => mConfigSetOption (mOptionTypes fl) fuel c arg param

/-- A call is in time: the function that it calls leaves the variables and the slots as they were,
no member of a group calls one, and the parser calls that it comes down to fail in time. -/
structure SetsInTime (fl : Doubles F)
    (callback : PlainOption (OptType F) → Option CStr → Store (OptVal F) → Store (OptVal F))
    (fuel : Nat) (c : MConfig (OptType F) (OptVal F)) (arg : CStr) (param : Option CStr) :
    Prop where
  called : ∀ opt, calledOption fl c arg = some opt →
    SameValues c { c with store := callback opt param c.store }
  members : ∀ i co name children flags, mConfigGetCo (mOptionTypes fl) c arg = some i →
    c.opts[i]? = some co → co.opt = .group name children flags →
      anyCallsNow children = false ∧
        ∀ a ∈ (callPlan (mOptionTypes fl) fuel c arg param true).1, a.callsNow = false
  inTime : FailsInTime fl c.mode c.store (callPlan (mOptionTypes fl) fuel c arg param true).1

variable {fuel : Nat} {c c' : MConfig (OptType F) (OptVal F)} {arg : CStr} {param : Option CStr}

theorem OptType.callsNow_late {t : OptType F} (h : t.callsNow = true) : t.writesEarly = false := by
  cases t with
  | funcParamImmediate _ => rfl
  | printFunc _ => rfl
  | _ => cases h

/-- What a parser call does itself that calls a function is in time. -/
theorem failsInTime_callsNow (h : opt.type.callsNow = true) {a : ParserCall (OptType F)}
    {slots : List SaveSlot}
    (ha : a = .refuse ∨ a = .check opt arg param ∨ a = .store opt slots arg param)
    (m : Store (OptVal F)) : FailsInTime fl mode m [a] := by
  rcases ha with rfl | rfl | rfl
  · trivial
  · exact fun _ => trivial
  · intro top old _ _
    refine ⟨fun _ hclob => ?_, fun _ => by split <;> simp [FailsInTime]⟩
    exact absurd hclob.writesEarly (by rw [OptType.callsNow_late h]; decide)

theorem calledOption_some (h : calledOption fl c arg = some opt) :
    ∃ i co, mConfigGetCo (mOptionTypes fl) c arg = some i ∧ c.opts[i]? = some co ∧
      co.opt = .plain opt ∧ opt.type.callsNow = true := by
  obtain ⟨i, hget, h⟩ := Option.bind_eq_some_iff.mp h
  obtain ⟨co, hco, h⟩ := Option.bind_eq_some_iff.mp h
  split at h
  case h_1 opt' hopt =>
    split at h
    · cases h
    case isFalse hcalls =>
      cases h
      simp only [Bool.or_eq_true, not_or, Bool.not_eq_true', Bool.not_eq_false] at hcalls
      exact ⟨i, co, hget, hco, hopt, hcalls.2⟩
  case h_2 => cases h

/-- Setting an option is atomic on failure as long as it is in time.  For an option without children
this is exactly when it is atomic. -/
theorem set_option_atomic
    {callback : PlainOption (OptType F) → Option CStr → Store (OptVal F) → Store (OptVal F)}
    {r : Int} (h : mConfigSetOptionCalling fl callback fuel c arg param = some (r, c'))
    (hr : r < 0) :
    (SetsInTime fl callback fuel c arg param → SameValues c c') ∧
    ∀ i co opt, mConfigGetCo (mOptionTypes fl) c arg = some i → c.opts[i]? = some co →
      co.opt = .plain opt → (SameValues c c' ↔ SetsInTime fl callback fuel c arg param) := by
  unfold mConfigSetOptionCalling at h
  cases hcalled : calledOption fl c arg with
  | none =>
    rw [hcalled] at h
    obtain ⟨henough, honly⟩ := sameValues_of_set h hr
    refine ⟨fun hs => henough hs.inTime, fun i co opt hget hco hopt =>
      ⟨fun hsame => ⟨fun opt' hopt' => ?_, fun j co' name children flags hj hco' hgroup => ?_,
        honly i co opt hget hco hopt hsame⟩, fun hs => henough hs.inTime⟩⟩
    · rw [hcalled] at hopt'
      cases hopt'
    · rw [hget] at hj
      cases hj
      rw [hco] at hco'
      cases hco'
      rw [hopt] at hgroup
      cases hgroup
  | some opt =>
    rw [hcalled] at h
    obtain ⟨i, co, hget, hco, hopt, hcalls⟩ := calledOption_some hcalled
    cases fuel with
    | zero => cases h
    | succ fuel =>
      have htime : ∀ (c₁ : MConfig (OptType F) (OptVal F)), mConfigGetCo (mOptionTypes fl) c₁ arg =
          some i → c₁.opts[i]? = some co → FailsInTime fl c₁.mode c₁.store
            (callPlan (mOptionTypes fl) (fuel + 1) c₁ arg param true).1 := by
        intro c₁ hget₁ hco₁
        obtain ⟨a, hplan, ha⟩ := callPlan_plain fuel param hget₁ hco₁ hopt
        rw [hplan]
        exact failsInTime_callsNow hcalls ha _
      -- the parser itself changes nothing, so what is left is what the function did
      obtain ⟨hdata, hvars⟩ := (sameValues_of_set h hr).1 (htime _ hget hco)
      have hiff : SameValues c c' ↔
          SameValues c { c with store := callback opt param c.store } := by
        rw [SameValues, SameValues, hdata, hvars]
      refine ⟨fun hs => hiff.mpr (hs.called opt hcalled), fun j co' opt' hget' hco' hopt' =>
        ⟨fun hsame => ⟨fun opt₁ hopt₁ => ?_, fun j' co₁ name children flags hj hco₁ hgroup => ?_,
          htime c hget hco⟩, fun hs => hiff.mpr (hs.called opt hcalled)⟩⟩
      · rw [hcalled] at hopt₁
        cases hopt₁
        exact hiff.mp hsame
      · rw [hget'] at hj
        cases hj
        rw [hco'] at hco₁
        cases hco₁
        rw [hopt'] at hgroup
        cases hgroup

/-! ## `-vf` and a group -/

/-- The option `vf*` with two filters, and a group `g` of the flags `a` and `b`. -/
def vfOptions : List (MOption (OptType Int)) :=
  [.plain ⟨"vf*".toList, some 0, .objSettingsList ⟨0, 0, false, false⟩
      (some [⟨"flip".toList, none⟩, ⟨"scale".toList, none⟩]), {}⟩,
    .group "g".toList [.plain ⟨"a".toList, some 1, .flag ⟨0, 1, false, false⟩, {}⟩,
      .plain ⟨"b".toList, some 2, .flag ⟨0, 1, false, false⟩, {}⟩] {}]

/-- A config with these options. -/
def vfNew (mode : ParserMode) : MConfig (OptType Int) (OptVal Int) :=
  { mConfigRegisterOptions (mOptionTypes intDoubles) vfOptions
      (.new fun p => if p = 0 then .objList none else .int 0) with mode := mode }

theorem vfNew_reachable (mode : ParserMode) :
    (vfNew mode).Reachable (mOptionTypes intDoubles) :=
  ⟨_, _, ⟨_, rfl⟩, (Run.single (.register vfOptions _)).tail (.mode mode _)⟩

/-- The config after `-vf flip`. -/
def vfFlip : MConfig (OptType Int) (OptVal Int) :=
  ((mConfigSetOption (mOptionTypes intDoubles) 1 (vfNew .commandLine) "vf".toList
    (some "flip".toList)).get (by decide)).2

theorem vfFlip_eq : mConfigSetOption (mOptionTypes intDoubles) 1 (vfNew .commandLine) "vf".toList
    (some "flip".toList) = some (1, vfFlip) :=
  rfl

theorem vfFlip_reachable : vfFlip.Reachable (mOptionTypes intDoubles) :=
  (vfNew_reachable .commandLine).extend (.set vfFlip_eq)

/-- The config after `-vf-add bogus`. -/
def vfAdded : MConfig (OptType Int) (OptVal Int) :=
  ((mConfigSetOption (mOptionTypes intDoubles) 1 vfFlip "vf-add".toList
    (some "bogus".toList)).get (by decide)).2

theorem vfAdded_eq : mConfigSetOption (mOptionTypes intDoubles) 1 vfFlip "vf-add".toList
    (some "bogus".toList) = some (mOptInvalid, vfAdded) :=
  rfl

/-- `-vf-add` of an unknown filter leaves `-vf flip` in place. -/
theorem set_option_atomic_vf_add : mOptInvalid < 0 ∧ SameValues vfFlip vfAdded := by
  have hset : mConfigSetOptionCalling intDoubles (fun _ _ m => m) 1 vfFlip "vf-add".toList
      (some "bogus".toList) = some (mOptInvalid, vfAdded) := vfAdded_eq
  refine ⟨mOptInvalid_neg, (set_option_atomic hset mOptInvalid_neg).1 ⟨?_, ?_, ?_⟩⟩
  · intro opt hopt
    cases hopt
  · intro i co name children flags hget hco hgroup
    cases Option.some.inj (hget.symm.trans (rfl : _ = some 3))
    cases hco
    cases hgroup
  · intro top old _ _
    refine ⟨fun _ hclob => ?_, fun _ a ha => ?_⟩
    · obtain ⟨_, _, _, _, _, _, _, ⟨hop, _⟩ | ⟨hop, _⟩⟩ := hclob.objSettings rfl
      · cases hop
      · cases hop
    · cases ha

/-- `-vf` with an unknown filter drops the list of filters that was set before, and a group
in a config file sets `a` although `b` has no parameter. -/
theorem set_option_not_atomic :
    (∃ c c' : MConfig (OptType Int) (OptVal Int), ∃ r, c.Reachable (mOptionTypes intDoubles) ∧
      mConfigSetOption (mOptionTypes intDoubles) 1 c "vf".toList (some "bogus".toList) =
        some (r, c') ∧ r < 0 ∧
      c.store.data 1 = some (.objList (some [⟨"flip".toList, none⟩])) ∧
      c'.store.data 1 = some (.objList none)) ∧
    ∃ c c' : MConfig (OptType Int) (OptVal Int), ∃ r, c.Reachable (mOptionTypes intDoubles) ∧
      mConfigSetOption (mOptionTypes intDoubles) 2 c "g".toList (some "a=yes:b".toList) =
        some (r, c') ∧ r < 0 ∧ c.store.vars 1 = .int 0 ∧ c'.store.vars 1 = .int 1 := by
  have hvf : (mConfigSetOption (mOptionTypes intDoubles) 1 vfFlip "vf".toList
      (some "bogus".toList)).isSome := by decide
  have hgroup : (mConfigSetOption (mOptionTypes intDoubles) 2 (vfNew .configFile) "g".toList
      (some "a=yes:b".toList)).isSome := by decide +kernel
  have hpair : ∀ {α β : Type} {x : Option (α × β)} (h : x.isSome),
      x = some ((x.get h).1, (x.get h).2) := fun h => (Option.some_get h).symm
  refine ⟨⟨vfFlip, _, _, vfFlip_reachable, hpair hvf, ?_⟩,
    ⟨vfNew .configFile, _, _, vfNew_reachable .configFile, hpair hgroup, ?_⟩⟩
  · exact ⟨by decide +revert, by decide, by decide +revert⟩
  · exact ⟨by decide +kernel +revert, by decide, by decide +kernel +revert⟩

end MPlayer
