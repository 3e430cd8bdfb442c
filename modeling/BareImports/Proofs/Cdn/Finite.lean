import BareImports.Proofs.Cdn.Pinning
import BareImports.Proofs.Cdn.Requests
import Mathlib.Data.List.Sublists
import Mathlib.Data.Set.Finite.Lattice

/-!
# What finitely many downloads can answer

* `Cache.won c` : the downloads that have succeeded;
* `Written base D x` : a text that is written in the keys of such downloads, or in those of their final URLs;
  finitely many texts are (`finite_written`);
* `Answers.written` : where a file is there for a location, its package, its version and its path are such texts;
* `finite_won` : if finitely many URLs succeed as a cache grows, then so do finitely many downloads.
-/

namespace BareImports

namespace Location

theorem dropFinalSlash_isPrefix (s : List Char) : s <+: dropFinalSlash s ++ ['/'] := by
  unfold dropFinalSlash
  split
  · next h =>
    rw [endsWith_slash, beq_iff_eq] at h
    obtain ⟨s', rfl⟩ := List.getLast?_eq_some_iff.1 h
    simp
  · exact List.prefix_append _ _

/-- A location is written in its key, but for a slash at the end. -/
theorem written_key (l : Location) : l.pkgVersion.toList <:+: l.key.toList ++ ['/'] ∧
    l.path.toList <:+: l.key.toList ++ ['/'] := by
  have hprefix : l.pkgVersion.toList ++ '/' :: dropLeadingSlash l.path.toList <+: l.key.toList ++ ['/'] := by
    rw [key, String.toList_ofList]
    exact dropFinalSlash_isPrefix _
  refine ⟨(List.prefix_append _ _).isInfix.trans hprefix.isInfix, ?_⟩
  refine List.IsInfix.trans ?_ ((List.suffix_append _ _).isInfix.trans hprefix.isInfix)
  generalize l.path.toList = path
  unfold dropLeadingSlash
  split
  · exact List.infix_refl _
  · exact (List.suffix_cons _ _).isInfix

/-- Its package and its version are written in that. -/
theorem written_pkgVersion (l : Location) : l.pkg.toList <:+: l.pkgVersion.toList ∧
    l.version.toList <:+: l.pkgVersion.toList := by
  unfold pkgVersion
  rw [String.toList_append, String.toList_append]
  refine ⟨((List.prefix_append _ _).trans (List.prefix_append _ _)).isInfix, ?_⟩
  split
  · next h =>
    rw [String.isEmpty_iff.1 h]
    exact List.nil_infix
  · exact (List.suffix_append _ _).isInfix

end Location

namespace Cdn

open Location

/-- The locations that a download is about: the one that it was started for, and the one that its final URL names. -/
def Download.names (base : String) (d : Download) : List Location :=
  d.location :: match d.outcome with
    | some (.ok f) => (parseUrl? base f.url).toList
    | _ => []

/-- A text that is written in the key of a location that some download is about. -/
def Written (base : String) (D : Set Download) (x : String) : Prop :=
  ∃ d ∈ D, ∃ l ∈ d.names base, x.toList <:+: l.key.toList ++ ['/']

theorem Written.mono {base : String} {D D' : Set Download} {x : String} (h : Written base D x) (hD : D ⊆ D') :
    Written base D' x := by
  obtain ⟨d, hd, hx⟩ := h
  exact ⟨d, hD hd, hx⟩

/-- Finitely many texts are written in one. -/
theorem finite_infixes (t : List Char) : {x : String | x.toList <:+: t}.Finite := by
  refine Set.Finite.subset ((List.finite_toSet t.sublists).image String.ofList) fun x hx => ⟨x.toList, ?_, String.ofList_toList⟩
  exact List.mem_sublists.2 (List.IsInfix.sublist hx)

/-- Finitely many texts are written in the keys of finitely many downloads. -/
theorem finite_written (base : String) {D : Set Download} (hD : D.Finite) : {x | Written base D x}.Finite := by
  have hunion : {x | Written base D x} =
      ⋃ d ∈ D, ⋃ l ∈ {l | l ∈ d.names base}, {x : String | x.toList <:+: l.key.toList ++ ['/']} := by
    ext x
    simp [Written]
  rw [hunion]
  exact hD.biUnion fun d _ => (List.finite_toSet (d.names base)).biUnion fun l _ => finite_infixes _

namespace Cache

variable {c c' : Cache} {l m : Location} {d : Download} {n : Nat} {a : Answer}

/-- The downloads that have succeeded. -/
def won (c : Cache) : Set Download := {d | d ∈ c.downloads ∧ ∃ f, d.outcome = some (.ok f)}

theorem exists_won {f : Fetched} (h : c.outcome? n = some (.ok f)) :
    ∃ d ∈ c.won, c.downloads[n]? = some d ∧ d.outcome = some (.ok f) := by
  obtain ⟨d, hd, ho⟩ := Option.bind_eq_some_iff.1 h
  exact ⟨d, ⟨List.mem_of_getElem? hd, f, ho⟩, hd, ho⟩

/-- A version that was found out is that of a range with which a download was started. -/
theorem Resolves.written (h : c.Resolves l m) : l = m ∨ Written c.base c.won l.version := by
  cases h with
  | exact => exact Or.inl rfl
  | pinned hx hn hv =>
    obtain ⟨f, k, hf, -, -⟩ := versionOf?_eq_some hv
    obtain ⟨d, hwon, hd, -⟩ := exists_won hf
    obtain ⟨d', hd', -, hrange⟩ := hn
    obtain rfl := Option.some.inj (hd.symm.trans hd')
    refine Or.inr ⟨d, hwon, d.location, List.mem_cons_self, ?_⟩
    exact (hrange ▸ l.written_pkgVersion.2).trans d.location.written_key.1

/-- What is written in a key that a file was served for. -/
theorem Served.written (hc : c.Sound) {k : String} {f : Fetched} (h : c.Served k (.ok f)) {x : String}
    (hx : x.toList <:+: k.toList ++ ['/']) : Written c.base c.won x := by
  rcases h with ⟨n, d, hd, rfl, ho⟩ | ⟨f', hf, -⟩
  · exact ⟨d, ⟨List.mem_of_getElem? hd, f, ho⟩, d.location, List.mem_cons_self, hx⟩
  · obtain ⟨⟨l, hl, rfl⟩, n, hn⟩ := hc.known k f' hf
    obtain ⟨d, hwon, -, ho⟩ := exists_won hn
    refine ⟨d, hwon, l, ?_, hx⟩
    simp [Download.names, ho, hl]

/-- Where a file is there for a location, the parts of the location are written in the keys of what has succeeded. -/
theorem Answers.written (hc : c.Sound) {f : File} (h : c.Answers l .file (.ok f)) :
    Written c.base c.won l.pkg ∧ Written c.base c.won l.version ∧ Written c.base c.won l.path := by
  generalize hres : (Except.ok f : Except Failure (Goal.Result .file)) = result at h
  cases h with
  | immediate _ _ ha => exact absurd ha (by simp [Goal.immediate?])
  | @served m r hm hr =>
    rcases r with e | f'
    · exact absurd hres (by simp [Goal.finish, Except.map])
    have hkey : ∀ x : String, x.toList <:+: m.key.toList ++ ['/'] → Written c.base c.won x := fun x hx => hr.written hc hx
    obtain ⟨hpkg, hpath⟩ := Reaches.package hm
    refine ⟨?_, ?_, ?_⟩
    · rw [← hpkg]
      exact hkey _ (m.written_pkgVersion.1.trans m.written_key.1)
    · refine Relation.ReflTransGen.head_induction_on (motive := fun l _ => Written c.base c.won l.version) hm ?_ ?_
      · exact hkey _ (m.written_pkgVersion.2.trans m.written_key.1)
      · intro l l' hstep _ ih
        rcases hstep.written with rfl | h
        · exact ih
        · exact h
    · rw [← hpath]
      exact hkey _ m.written_key.2

/-! ## Caches that grow -/

theorem Extends.won (h : Extends c c') : c.won ⊆ c'.won := by
  rintro ⟨location, resolves, outcome⟩ ⟨hd, f, rfl⟩
  obtain ⟨n, hn⟩ := List.mem_iff_getElem?.1 hd
  obtain ⟨⟨location', resolves', outcome'⟩, hn', rfl, rfl, ho⟩ := h.downloads n _ hn
  obtain rfl := ho _ rfl
  exact ⟨List.mem_of_getElem? hn', f, rfl⟩

/-- A call makes nothing succeed. -/
theorem Goes.won {g : Goal} {o : Cache × Status g} (h : c.Goes l o) : o.1.won = c.won := by
  rcases h.started with hsame | ⟨m, exact, hstart, -⟩
  · rw [hsame]
  · rw [hstart]
    ext d
    unfold Cache.won startDownload
    constructor
    · rintro ⟨hd, f, hf⟩
      rcases List.mem_append.1 hd with hd | hd
      · exact ⟨hd, f, hf⟩
      · rw [List.mem_singleton.1 hd] at hf
        exact absurd hf (by simp)
    · rintro ⟨hd, hf⟩
      exact ⟨List.mem_append_left _ hd, hf⟩

/-- What an answer makes succeed was in flight, and the answer has status 200. -/
theorem won_complete (h : d ∈ (c.complete n a).won) : d ∈ c.won ∨
    (n, c.urlOf d) ∈ c.inFlight ∧ ∃ r, a = .ok r ∧ r.status = 200 := by
  by_cases hflight : ∃ e, c.downloads[n]? = some e ∧ e.outcome = none
  · obtain ⟨e, he, ho⟩ := hflight
    obtain ⟨hd, f, hf⟩ := h
    obtain ⟨k, hk⟩ := List.mem_iff_getElem?.1 hd
    rw [getElem?_complete he ho] at hk
    split at hk
    · obtain rfl := Option.some.inj hk
      obtain ⟨r, ha, h200, -⟩ := judge_eq_ok (Option.some.inj hf)
      exact Or.inr ⟨mem_inFlight.2 ⟨e, he, ho, rfl⟩, r, ha, h200⟩
    · exact Or.inl ⟨List.mem_of_getElem? hk, f, hf⟩
  · rw [complete_eq_self fun e he ho => hflight ⟨e, he, ho⟩] at h
    exact Or.inl h

/-- If finitely many URLs succeed as a cache grows, then finitely many downloads do. -/
theorem finite_won {caches : Nat → Cache} (hsound : ∀ n, (caches n).Sound)
    (hgrows : ∀ n m, n ≤ m → Extends (caches n) (caches m)) {urls : List String}
    (hurls : ∀ n, ∀ d ∈ (caches n).won, (caches n).urlOf d ∈ urls) : (⋃ n, (caches n).won).Finite := by
  refine Set.Finite.of_finite_image (f := (caches 0).urlOf) ?_ ?_
  · refine (List.finite_toSet urls).subset ?_
    rintro url ⟨d, hd, rfl⟩
    obtain ⟨n, hn⟩ := Set.mem_iUnion.1 hd
    have hurl := hurls n d hn
    rwa [urlOf, (hgrows 0 n (Nat.zero_le n)).base] at hurl
  · intro d hd e he hsame
    obtain ⟨n, hn⟩ := Set.mem_iUnion.1 hd
    obtain ⟨m, hm⟩ := Set.mem_iUnion.1 he
    -- both have succeeded at the later moment
    obtain ⟨i, hi⟩ := List.mem_iff_getElem?.1 ((hgrows n (max n m) (le_max_left n m)).won hn).1
    obtain ⟨j, hj⟩ := List.mem_iff_getElem?.1 ((hgrows m (max n m) (le_max_right n m)).won hm).1
    obtain rfl := (hsound (max n m)).eq_of_key hi hj (urlOf_eq.1 hsame)
    exact Option.some.inj (hi.symm.trans hj)

end Cache

end Cdn

end BareImports
