import MPlayer.Stream.Url

/-!
# Redirections

A redirection to an absolute path keeps the authority, and one to a name keeps the directory too.
`url_redirect` cuts the old URL behind the slash that starts the path, or behind the last slash.
If the old URL has no path, there is no such slash, or it belongs to the `://`, and the authority
gets lost (`redirect_resolves_iff`).  The two URLs differ in how many slashes they have, and
escaping keeps their number (`count_urlEscapeString`).
-/

namespace MPlayer

/-! ## URLs and targets -/

/-- A URL with its authority and path, where the path is what is behind the slash. -/
structure BaseUrl where
  scheme : List UInt8
  authority : List UInt8
  path : Option (List UInt8)
  scheme_colon : ascii ':' ∉ scheme
  authority_slash : ascii '/' ∉ authority

/-- The part of a URL in front of its path. -/
def BaseUrl.site (b : BaseUrl) : List UInt8 := b.scheme ++ asciis "://" ++ b.authority

/-- A path behind its slash, if there is one. -/
def pathText : Option (List UInt8) → List UInt8
  | none => []
  | some path => ascii '/' :: path

def BaseUrl.text (b : BaseUrl) : List UInt8 := b.site ++ pathText b.path

/-- What a redirection leads to: an absolute path, given behind its slash, or a name. -/
inductive RedirectTarget where
  | absolute (p : List UInt8) (slash : p.head? ≠ some (ascii '/'))
  | relative (name : List UInt8) (slash : ascii '/' ∉ name)

def RedirectTarget.text : RedirectTarget → List UInt8
  | .absolute p _ => ascii '/' :: p
  | .relative name _ => name

/-- A path up to its last slash. -/
def directory (path : List UInt8) : List UInt8 :=
  (path.reverse.dropWhile (· ≠ ascii '/')).reverse

/-- Where the redirection should lead. -/
def BaseUrl.resolved (b : BaseUrl) : RedirectTarget → List UInt8
  | .absolute p _ => b.site ++ ascii '/' :: p
  | .relative name _ => b.site ++ ascii '/' :: directory (b.path.getD []) ++ name

/-- The redirection leads there. -/
def Resolves (u : Url) (b : BaseUrl) (target : RedirectTarget) : Prop :=
  urlRedirect u target.text = urlNew (b.resolved target)

/-! ## Slashes -/

theorem strrchr_append {c : UInt8} (a : List UInt8) {b : List UInt8} (h : c ∉ b) :
    strrchr (a ++ c :: b) c = some a.length := by
  have hrev : (a ++ c :: b).reverse = b.reverse ++ c :: a.reverse := by
    rw [List.reverse_append, List.reverse_cons, List.append_assoc]
    rfl
  rw [strrchr, hrev, Lib.findSub_letter _ fun hm => h (List.mem_reverse.mp hm), Option.map_some,
    List.length_append, List.length_cons, List.length_reverse]
  congr 1
  omega

/-- A path is its directory and a name. -/
theorem directory_append (path : List UInt8) :
    ∃ file, path = directory path ++ file ∧ ascii '/' ∉ file := by
  refine ⟨(path.reverse.takeWhile (· ≠ ascii '/')).reverse, ?_, fun hm => ?_⟩
  · rw [directory, ← List.reverse_append, List.takeWhile_append_dropWhile, List.reverse_reverse]
  · have hall : (path.reverse.takeWhile (· ≠ ascii '/')).all (· ≠ ascii '/') = true :=
      List.all_takeWhile
    exact of_decide_eq_true (List.all_eq_true.mp hall _ (List.mem_reverse.mp hm)) rfl

/-- A directory ends with a slash. -/
theorem directory_slash (path : List UInt8) :
    ∃ a, ascii '/' :: directory path = a ++ [ascii '/'] := by
  obtain ⟨r, hr⟩ : ∃ r, path.reverse.dropWhile (· ≠ ascii '/') = r := ⟨_, rfl⟩
  rw [directory, hr]
  cases r with
  | nil => exact ⟨[], rfl⟩
  | cons c s =>
    have hc : c = ascii '/' := by
      have hhead := List.head?_dropWhile_not (· ≠ ascii '/') path.reverse
      rw [hr] at hhead
      exact Decidable.of_not_not (of_decide_eq_false hhead)
    exact ⟨ascii '/' :: s.reverse, by rw [List.reverse_cons, hc]; rfl⟩

theorem BaseUrl.findSub_site (b : BaseUrl) (t : List UInt8) :
    Lib.findSub (asciis "://") (b.site ++ t) = some b.scheme.length := by
  rw [BaseUrl.site, List.append_assoc, List.append_assoc]
  have hpre : asciis "://" <+: asciis "://" ++ (b.authority ++ t) := List.prefix_append _ _
  exact (Lib.findSub_append _ b.scheme_colon).trans
    ((congrArg (Option.map _) (Lib.findSub_at_front hpre)).trans (congrArg some (Nat.zero_add _)))

theorem BaseUrl.pathSlash_site (b : BaseUrl) (t : List UInt8) :
    pathSlash (b.site ++ t) = (Lib.findSub [ascii '/'] t).map (b.site.length + ·) := by
  have hdrop : (b.site ++ t).drop (b.scheme.length + 3) = b.authority ++ t := by
    have hlen : (b.scheme ++ asciis "://").length = b.scheme.length + 3 := List.length_append
    rw [BaseUrl.site, List.append_assoc, List.drop_left' hlen]
  rw [pathSlash, b.findSub_site t, Option.bind_some, hdrop,
    Lib.findSub_append t b.authority_slash, Option.map_map, BaseUrl.site]
  refine congrArg (fun f => Option.map f _) (funext fun i => ?_)
  show b.scheme.length + 3 + (i + b.authority.length) = _
  have h3 : (asciis "://").length = 3 := rfl
  rw [List.length_append, List.length_append, h3]
  omega

/-! ## Resolving -/

theorem resolve_absolute (b : BaseUrl) (p : List UInt8) :
    resolve b.text (ascii '/' :: p) =
      b.site ++ (if b.path.isSome then [ascii '/'] else []) ++ p := by
  have hresolve : resolve b.text (ascii '/' :: p) = cutBehind b.text (pathSlash b.text) ++ p :=
    if_pos rfl
  rw [hresolve, BaseUrl.text, b.pathSlash_site]
  congr 1
  cases b.path with
  | none => rfl
  | some path =>
    have hfind : Lib.findSub [ascii '/'] (pathText (some path)) = some 0 :=
      Lib.findSub_letter path List.not_mem_nil
    rw [hfind]
    show (b.site ++ ascii '/' :: path).take (b.site.length + 1) = b.site ++ [ascii '/']
    rw [List.take_length_add_append]
    rfl

/-- A URL is cut behind its last slash. -/
theorem cutBehind_last (a : List UInt8) {b : List UInt8} (h : ascii '/' ∉ b) :
    cutBehind (a ++ ascii '/' :: b) (strrchr (a ++ ascii '/' :: b) (ascii '/')) =
      a ++ [ascii '/'] := by
  rw [strrchr_append a h]
  show (a ++ ascii '/' :: b).take (a.length + 1) = _
  rw [List.take_length_add_append]
  rfl

/-- What is kept in front of a name. -/
def BaseUrl.kept (b : BaseUrl) : List UInt8 :=
  match b.path with
  | none => b.scheme ++ asciis "://"
  | some path => b.site ++ ascii '/' :: directory path

theorem resolve_relative (b : BaseUrl) {name : List UInt8} (h : ascii '/' ∉ name) :
    resolve b.text name = b.kept ++ name := by
  have hhead : ¬ name.head? = some (ascii '/') := fun e => h (List.mem_of_head? e)
  rw [resolve, if_neg hhead, if_pos h, BaseUrl.text, BaseUrl.kept]
  congr 1
  cases b.path with
  | none =>
    have hsite : b.site ++ pathText none =
        (b.scheme ++ asciis ":/") ++ ascii '/' :: b.authority := by
      rw [pathText, List.append_nil, BaseUrl.site, List.append_assoc, List.append_assoc]
      rfl
    rw [hsite, cutBehind_last _ b.authority_slash, List.append_assoc]
    rfl
  | some path =>
    obtain ⟨file, hfile, hslash⟩ := directory_append path
    obtain ⟨a, ha⟩ := directory_slash path
    have hpath : ascii '/' :: path = a ++ ascii '/' :: file := by
      rw [List.append_cons, ← ha, List.cons_append, ← hfile]
    rw [pathText, hpath, ← List.append_assoc, cutBehind_last _ hslash, List.append_assoc, ← ha]

/-! ## What the redirection leads to -/

theorem urlNew_ok {s : List UInt8} (h : asciis "://" <:+: s) :
    ∃ u, urlNew s = .ok u ∧ u.url = urlEscapeString s := by
  obtain ⟨pos, hpos⟩ := Option.isSome_iff_exists.mp
    (Lib.findSub_isSome_of_part (urlEscapeString_scheme h))
  exact ⟨urlParts (urlEscapeString s) pos, by rw [urlNew, hpos], rfl⟩

/-- URLs with different numbers of slashes are not parsed to the same. -/
theorem urlNew_ne {s t : List UInt8} (hs : asciis "://" <:+: s) (ht : asciis "://" <:+: t)
    (hcount : s.count (ascii '/') ≠ t.count (ascii '/')) : urlNew s ≠ urlNew t := by
  intro h
  obtain ⟨u, hu, husu⟩ := urlNew_ok hs
  obtain ⟨v, hv, hvsv⟩ := urlNew_ok ht
  rw [hu, hv] at h
  cases h
  have hesc := congrArg (List.count (ascii '/')) (husu.symm.trans hvsv)
  rw [count_urlEscapeString (by decide), count_urlEscapeString (by decide)] at hesc
  exact hcount hesc

theorem BaseUrl.scheme_part (b : BaseUrl) (t : List UInt8) :
    asciis "://" <:+: b.scheme ++ asciis "://" ++ t := ⟨b.scheme, t, rfl⟩

/-- The redirection leads where it should exactly if the old URL has a path. -/
theorem redirect_resolves_iff (u : Url) (b : BaseUrl) (target : RedirectTarget)
    (hu : u.url = b.text) (hproxy : isProxy u = false) :
    Resolves u b target ↔ b.path.isSome := by
  have hredirect : urlRedirect u target.text = urlNew (resolve b.text target.text) := by
    rw [urlRedirect, hproxy, hu]
    rfl
  rw [Resolves, hredirect]
  obtain ⟨path, hpath⟩ : ∃ p, b.path = p := ⟨_, rfl⟩
  cases target with
  | absolute p slash =>
    rw [RedirectTarget.text, resolve_absolute, BaseUrl.resolved, hpath]
    cases path with
    | some q =>
      refine ⟨fun _ => rfl, fun _ => ?_⟩
      rw [List.append_assoc]
      rfl
    | none =>
      refine ⟨fun h => absurd h ?_, fun h => absurd h Bool.false_ne_true⟩
      refine urlNew_ne ?_ ?_ ?_
      · rw [BaseUrl.site, List.append_assoc, List.append_assoc]
        exact b.scheme_part _
      · rw [BaseUrl.site, List.append_assoc]
        exact b.scheme_part _
      · rw [List.count_append, List.count_append, List.count_append, List.count_cons_self]
        show _ + 0 + _ ≠ _
        omega
  | relative n slash =>
    rw [RedirectTarget.text, resolve_relative b slash, BaseUrl.resolved, BaseUrl.kept, hpath]
    cases path with
    | some q =>
      exact ⟨fun _ => rfl, fun _ => rfl⟩
    | none =>
      refine ⟨fun h => absurd h ?_, fun h => absurd h Bool.false_ne_true⟩
      refine urlNew_ne ?_ ?_ ?_
      · exact b.scheme_part _
      · rw [BaseUrl.site, List.append_assoc, List.append_assoc]
        exact b.scheme_part _
      · rw [BaseUrl.site]
        simp only [List.count_append, List.count_cons_self]
        omega

/-- A URL without a path. -/
def pathlessUrl : BaseUrl := ⟨asciis "http", asciis "a", none, by decide, by decide⟩

/-- Without a path the target is put behind the authority. -/
theorem redirect_not_resolves :
    ¬ Resolves (urlParts pathlessUrl.text 4) pathlessUrl (.absolute (asciis "p") (by decide)) := by
  have hcode : (urlRedirect (urlParts pathlessUrl.text 4) (asciis "/p")).toOption.map
      Url.hostname = some (asciis "ap") := by decide
  have hnew : (urlNew (asciis "http://a/p")).toOption.map Url.hostname = some (asciis "a") := by
    decide
  intro h
  have hhost := congrArg (fun r => r.toOption.map Url.hostname) h
  exact absurd ((hcode.symm.trans hhost).trans hnew) (by decide)

theorem redirect_resolves_iff_sample :
    Resolves (urlParts (asciis "http://a/d/f") 4)
      ⟨asciis "http", asciis "a", some (asciis "d/f"), by decide, by decide⟩
      (.relative (asciis "g") (by decide)) :=
  (redirect_resolves_iff _ _ _ (by decide) (by decide)).mpr rfl

end MPlayer
