import BareImports.Proofs.Build.Faithful
import BareImports.Proofs.Url.Join

/-!
# A specifier comes to what the site makes of it

* `target x` : the location that a result leads to, `Stage.owed` the one that a stage has still to find;
* `Site.Provides` : every range that a manifest gives can be asked for;
* `Pursues c m referrer st x` : stage `st` will come to the result `x`;
* `begins_ofSpecifier` : it begins so, and owes the location that the result leads to;
* `Pursues.step` : a step keeps it, and finds the location that was owed or goes on owing it.
-/

namespace BareImports.Build

open Text Cdn Location

/-- The location that a result leads to. -/
def target (x : Except Failure (String × Option Location)) : Option Location := x.toOption.bind (·.2)

/-- The location that a stage with some result has still to find. -/
def Stage.owed (x : Except Failure (String × Option Location)) : Stage → Option Location
  | .done _ => none
  | _ => target x

namespace Site

variable {S : Site} {project m : Option Value} {c c' : Cache} {referrer specifier : String} {l : Location}

/-- Every range that a manifest gives can be asked for. -/
def Provides (S : Site) (project m : Option Value) : Prop :=
  ∀ pkg range, Manifest.range? m pkg = some range → S.Names project pkg range

theorem provides_none : S.Provides project none := fun pkg range h => by simp [Manifest.range?] at h

theorem provides_project : S.Provides project project := fun _ _ h => Or.inr (Or.inl h)

theorem provides_manifest (l : Location) : S.Provides project (S.manifest l).toOption := by
  intro pkg range h
  rcases hf : S.fetch { l with path := Manifest.fileName } with e | f
  · simp [manifest, hf, Except.bind, Except.toOption, Manifest.range?] at h
  · rcases hm : readManifest f with e | v
    · simp [manifest, hf, hm, Except.bind, Except.toOption, Manifest.range?] at h
    · refine Or.inr (Or.inr ⟨_, f, v, hf, hm, ?_⟩)
      simpa [manifest, hf, hm, Except.bind, Except.toOption] using h

/-- A stage that will come to a result. -/
inductive Pursues (S : Site) (project : Option Value) (c : Cache) (m : Option Value) (referrer : String) :
    Stage → Except Failure (String × Option Location) → Prop
  /-- A manifest is to tell the range. -/
  | range {l : Location} (hl : IsPackage l.pkg) (hp : l.path.toList.head? ≠ some '/') :
    Pursues S project c m referrer (.range l) (S.withManifest referrer m l)
  /-- The package's own manifest is to tell the entry. -/
  | entry {l : Location} {w : Wait} (hl : S.Asked project l) (hw : c.Expects { l with path := Manifest.fileName } w) :
    Pursues S project c m referrer (.entry l w) (S.withEntry referrer l)
  /-- The CDN is to tell the exact version and path. -/
  | canonical {l : Location} {w : Wait} (hl : S.Asked project l) (hw : c.Expects l w) :
    Pursues S project c m referrer (.canonical w) (S.canonical referrer l)
  /-- The file has to be there. -/
  | content {l : Location} {w : Wait} {replacement : String} (hl : S.Asked project l) (hs : l.Shaped)
      (hw : c.Expects l w) : Pursues S project c m referrer (.content l w replacement) (S.content l replacement)
  /-- It is resolved. -/
  | done {x : Except Failure (String × Option Location)} : Pursues S project c m referrer (.done (x.map (·.1))) x

theorem Pursues.mono {st : Stage} {x : Except Failure (String × Option Location)}
    (h : S.Pursues project c m referrer st x) (he : c.Extends c') : S.Pursues project c' m referrer st x := by
  cases h with
  | range hl hp => exact .range hl hp
  | entry hl hw => exact .entry hl (hw.mono he)
  | canonical hl hw => exact .canonical hl (hw.mono he)
  | content hl hs hw => exact .content hl hs (hw.mono he)
  | done => exact .done

/-- A stage that is done has its result. -/
theorem Pursues.of_done {r : Except Failure String} {x : Except Failure (String × Option Location)}
    (h : S.Pursues project c m referrer (.done r) x) : r = x.map (·.1) := by
  cases h with
  | done => rfl

/-! ## Where a resolution begins -/

/-- A stage that will come to a result and has still to find the location that the result leads to. -/
structure Begins (S : Site) (project : Option Value) (c : Cache) (m : Option Value) (referrer : String) (st : Stage)
    (x : Except Failure (String × Option Location)) : Prop where
  /-- It will come to the result. -/
  pursues : S.Pursues project c m referrer st x
  /-- The location is still to be found. -/
  owed : st.owed x = target x

theorem asked_manifest (h : S.Asked project l) : S.Asked project { l with path := Manifest.fileName } :=
  ⟨h.package, h.range, show Manifest.fileName.toList.head? ≠ some '/' by decide⟩

theorem begins_atContent (hl : S.Asked project l) (hs : l.Shaped) :
    S.Begins project c m referrer (.atContent referrer l) (S.content l (Stage.reaching referrer l)) :=
  ⟨.content hl hs .turn, rfl⟩

theorem begins_withPath (hl : S.Asked project l) :
    S.Begins project c m referrer (.withPath referrer l) (S.withPath referrer l) := by
  unfold Stage.withPath withPath
  split
  · exact ⟨.canonical hl .turn, rfl⟩
  · next h =>
    simp only [Bool.or_eq_true, Bool.not_eq_true', not_or, Bool.not_eq_false] at h
    exact begins_atContent hl (hl.shaped h.2)

theorem begins_withVersion (hl : S.Asked project l) :
    S.Begins project c m referrer (.withVersion referrer l) (S.withVersion referrer l) := by
  unfold Stage.withVersion withVersion
  split
  · exact ⟨.entry hl .turn, rfl⟩
  · exact begins_withPath hl

theorem names_withManifest {m' : Option Value} (hm : S.Provides project m') (pkg : String) :
    S.Names project pkg ((Manifest.range? m' pkg).getD defaultVersion) := by
  rcases h : Manifest.range? m' pkg with _ | range
  · exact Or.inl (by decide)
  · exact hm pkg range h

theorem begins_withManifest {m' : Option Value} (hm : S.Provides project m') (hl : IsPackage l.pkg)
    (hp : l.path.toList.head? ≠ some '/') :
    S.Begins project c m referrer (.withManifest referrer m' l) (S.withManifest referrer m' l) :=
  begins_withVersion ⟨hl, names_withManifest hm l.pkg, hp⟩

/-- `m'` is the manifest that may tell the range. -/
theorem begins_ofBare {m' : Option Value} {ranged : Bool} (hm : m' = if ranged then m else none)
    (hp : ∀ l, parse? specifier.toList = some l → l.path.toList.head? ≠ some '/') :
    S.Begins project c m referrer (.ofBare referrer specifier ranged) (S.ofBare referrer specifier m') := by
  unfold Stage.ofBare ofBare
  rcases hl : parse? specifier.toList with _ | l
  · exact ⟨.done (x := .error (.badSpecifier specifier)), rfl⟩
  have hs := parse?_shaped hl
  dsimp only
  by_cases hv : (!l.version.isEmpty) = true
  · rw [if_pos hv, if_pos hv]
    exact begins_withVersion (asked_of_shaped hs (hp l hl))
  · rw [if_neg hv, if_neg hv, hm]
    cases ranged
    · exact begins_withManifest provides_none hs.package (hp l hl)
    · exact ⟨.range hs.package (hp l hl), rfl⟩

theorem begins_ofRelative (hk : Specifier.kind specifier.toList = .relative) :
    S.Begins project c m referrer (.ofRelative referrer specifier) (S.ofRelative referrer specifier) := by
  unfold Stage.ofRelative ofRelative
  rcases hpath : Url.resolvePath? referrer.toList specifier.toList with _ | path
  · exact ⟨.done (x := .error (.badSpecifier specifier)), rfl⟩
  -- what is left of the path has no empty step either
  have hsingle : Url.Single (path.drop (modulesFolder.length + 1)) :=
    (Url.resolvePath?_single hk hpath).within (List.drop_suffix _ _).isInfix
  dsimp only
  by_cases he : (FileName.extension specifier.toList).isEmpty = true
  · rw [if_pos he, if_pos he]
    refine begins_ofBare rfl fun l hl => ?_
    rw [String.toList_ofList] at hl
    exact Url.head?_path_of_single hsingle hl
  · rw [if_neg he, if_neg he]
    rcases hl : parse? (path.drop (modulesFolder.length + 1)) with _ | l
    · exact ⟨.done (x := .error (.badSpecifier specifier)), rfl⟩
    · have hs := parse?_shaped hl
      exact ⟨.content (asked_of_shaped hs (Url.head?_path_of_single hsingle hl)) hs .turn, rfl⟩

/-- A specifier begins at a stage that will come to what the site makes of it. -/
theorem begins_ofSpecifier (map : ImportMap) (hp : Specifier.kind specifier.toList = .bare →
    ∀ l, parse? specifier.toList = some l → l.path.toList.head? ≠ some '/') :
    S.Begins project c m referrer (.ofSpecifier map referrer specifier) (S.resolve map m referrer specifier) := by
  unfold Stage.ofSpecifier resolve
  rcases hk : Specifier.kind specifier.toList with _ | _ | _
  · exact ⟨.done (x := .ok (specifier, none)), rfl⟩
  · rcases hr : map.resolve specifier with _ | t
    · exact begins_ofBare rfl (hp hk)
    · exact ⟨.done (x := .ok (t, none)), rfl⟩
  · dsimp only
    by_cases hf : startsWith modulesFolder referrer.toList = true
    · rw [if_pos hf, if_pos hf]
      exact begins_ofRelative hk
    · rw [if_neg hf, if_neg hf]
      exact ⟨.done (x := .ok (specifier, none)), rfl⟩

/-! ## Where a result leads -/

/-- A result leads to a shaped location, if it leads to one. -/
def Leads (x : Except Failure (String × Option Location)) : Prop := ∀ l, target x = some l → l.Shaped

theorem leads_error (f : Failure) : Leads (.error f) := fun l h => by simp [target, Except.toOption] at h

theorem leads_text (t : String) : Leads (.ok (t, none)) := fun l h => by simp [target, Except.toOption] at h

theorem leads_bind {α : Type} {x : Except Failure α} {f : α → Except Failure (String × Option Location)}
    (h : ∀ a, x = .ok a → Leads (f a)) : Leads (x.bind f) := by
  rcases hx : x with e | a
  · exact leads_error e
  · exact h a hx

theorem leads_content (hs : l.Shaped) (t : String) : Leads (S.content l t) := by
  unfold content
  rcases S.fetch l with e | f
  · exact leads_error e
  · intro k hk
    obtain rfl : l = k := Option.some.inj hk
    exact hs

theorem leads_canonical (referrer : String) (l : Location) : Leads (S.canonical referrer l) := by
  refine leads_bind fun k hk => leads_content ?_ _
  rcases hf : S.fetch l with e | f
  · rw [hf] at hk
    exact absurd hk (by simp [Except.bind])
  · rw [hf] at hk
    have hread : readUrl S.base f.url = .ok k := hk
    unfold readUrl at hread
    split at hread
    · next k' hk' =>
      obtain rfl := Except.ok.inj hread
      exact Cache.parseUrl?_shaped hk'
    · exact absurd hread (by simp)

theorem leads_withPath (referrer : String) (hl : IsPackage l.pkg) : Leads (S.withPath referrer l) := by
  unfold withPath
  split
  · exact leads_canonical referrer l
  · next h =>
    simp only [Bool.or_eq_true, Bool.not_eq_true', not_or, Bool.not_eq_false] at h
    exact leads_content ⟨hl, not_mem_of_isExact h.2⟩ _

theorem leads_withVersion (referrer : String) (hl : IsPackage l.pkg) : Leads (S.withVersion referrer l) := by
  unfold withVersion
  split
  · exact leads_bind fun v _ => leads_withPath referrer hl
  · exact leads_withPath referrer hl

theorem leads_ofBare (referrer specifier : String) (m : Option Value) : Leads (S.ofBare referrer specifier m) := by
  unfold ofBare
  split
  · exact leads_error _
  · next l hl =>
    have hs := parse?_shaped hl
    split
    · exact leads_withVersion referrer hs.package
    · exact leads_withVersion referrer hs.package

theorem leads_ofRelative (referrer specifier : String) : Leads (S.ofRelative referrer specifier) := by
  unfold ofRelative
  split
  · exact leads_error _
  · dsimp only
    split
    · exact leads_ofBare referrer _ none
    · split
      · exact leads_error _
      · next l hl => exact leads_content (parse?_shaped hl) _

theorem leads_resolve (map : ImportMap) (m : Option Value) (referrer specifier : String) :
    Leads (S.resolve map m referrer specifier) := by
  unfold resolve
  split
  · exact leads_text _
  · split
    · exact leads_text _
    · exact leads_ofBare referrer specifier m
  · split
    · exact leads_ofRelative referrer specifier
    · exact leads_text _

theorem shaped_of_needs {map : ImportMap} {f : File} (h : l ∈ S.needs map m f) : l.Shaped := by
  rw [needs] at h
  generalize Script.imports f.content = read at h
  cases read with
  | error e => exact absurd h (by simp [needsRead])
  | ok imports =>
    obtain ⟨o, -, ho⟩ := List.mem_filterMap.1 h
    exact leads_resolve map m f.name o.name l ho

/-- What the outputs of a project lead to is shaped. -/
theorem Reachable.shaped {map : ImportMap} {items : List Output} (h : S.Reachable map items l) : l.Shaped := by
  cases h with
  | @project o _ ho hl =>
    unfold projectNeeds at hl
    split at hl
    · split at hl
      · exact shaped_of_needs hl
      · exact absurd hl (by simp)
    · exact absurd hl (by simp)
  | dependency hk hl =>
    unfold dependencyNeeds at hl
    split at hl
    · exact shaped_of_needs hl
    · exact absurd hl (by simp)

/-! ## One step -/

/-- What a step of a stage that pursues a result does. -/
structure Advances (S : Site) (project : Option Value) (c : Cache) (m : Option Value) (referrer : String) (st : Stage)
    (x : Except Failure (String × Option Location)) (o : Cache × Stage × Option Location) : Prop where
  /-- The cache stays faithful. -/
  faithful : S.Faithful project o.1
  /-- The cache goes on to know what it knows. -/
  grows : c.Extends o.1
  /-- The stage goes on to pursue its result. -/
  pursues : S.Pursues project o.1 m referrer o.2.1 x
  /-- The location that was owed is found, or it is still owed. -/
  owed : (st.owed x).toList = o.2.2.toList ++ (o.2.1.owed x).toList
  /-- A location that is found is shaped and may be asked for. -/
  found : ∀ l, o.2.2 = some l → l.Shaped ∧ S.Asked project l

variable {st : Stage} {x : Except Failure (String × Option Location)} {known : Option (Option Value)}

/-- A step that finds no location. -/
theorem Begins.advances (h : S.Begins project c' m referrer st x) (hc : S.Faithful project c') (he : c.Extends c')
    {st' : Stage} (ho : st'.owed x = target x) : S.Advances project c m referrer st' x (c', st, none) :=
  ⟨hc, he, h.pursues, by rw [ho, h.owed]; rfl, fun l hl => absurd hl (by simp)⟩

/-- A step of a stage that pursues a result, with the manifest or without it. -/
theorem Pursues.step (h : S.Pursues project c m referrer st x) (hc : S.Faithful project c) (hS : S.Consistent project)
    (hm : S.Provides project m) (hk : ∀ v, known = some v → v = m) :
    S.Advances project c m referrer st x (st.step referrer known c) := by
  cases h with
  | @range l hl hp =>
    rcases known with _ | v
    · exact Begins.advances ⟨.range hl hp, rfl⟩ hc (.refl c) rfl
    · obtain rfl := hk v rfl
      exact (begins_withManifest hm hl hp).advances hc (.refl c) rfl
  | @entry l w hl hw =>
    have hask := asked_manifest hl
    have hr := hc.resume (g := .manifest) hS hask hw
    rcases ho : c.resume .manifest w with ⟨c', r | w'⟩
    · -- the manifest tells the entry, or why there is none
      obtain ⟨hc', he, hstands⟩ := ho ▸ hr
      have hr : r = S.manifest l := hc'.answers hS hask (fun _ => rfl) hstands
      unfold withEntry
      rw [← hr]
      rcases r with f | v
      · rw [show (Stage.entry l w).step referrer known c = (c', .done (.error f), none) by simp only [Stage.step, ho]]
        exact Begins.advances ⟨.done (x := .error f), rfl⟩ hc' he rfl
      · rw [show (Stage.entry l w).step referrer known c =
          (c', .withPath referrer { l with path := Manifest.entry v }, none) by simp only [Stage.step, ho]]
        have hpath : S.Asked project { l with path := Manifest.entry v } :=
          ⟨hl.package, hl.range, Manifest.head?_entry v⟩
        exact (begins_withPath hpath).advances hc' he rfl
    · obtain ⟨hc', he, hstands⟩ := ho ▸ hr
      rw [show (Stage.entry l w).step referrer known c = (c', .entry l w', none) by simp only [Stage.step, ho]]
      exact Begins.advances ⟨.entry hl hstands, rfl⟩ hc' he rfl
  | @canonical l w hl hw =>
    have hr := hc.resume (g := .location) hS hl hw
    rcases ho : c.resume .location w with ⟨c', r | w'⟩
    · obtain ⟨hc', he, hstands⟩ := ho ▸ hr
      obtain ⟨hx, hfound⟩ := hc'.answers_location hS hl hstands referrer
      rw [← hx]
      rcases r with f | k
      · rw [show (Stage.canonical w).step referrer known c = (c', .done (.error f), none) by simp only [Stage.step, ho]]
        exact Begins.advances ⟨.done (x := .error f), rfl⟩ hc' he rfl
      · rw [show (Stage.canonical w).step referrer known c = (c', .atContent referrer k, none) by
          simp only [Stage.step, ho]]
        obtain ⟨hk', hs⟩ := hfound k rfl
        exact (begins_atContent hk' hs).advances hc' he rfl
    · obtain ⟨hc', he, hstands⟩ := ho ▸ hr
      rw [show (Stage.canonical w).step referrer known c = (c', .canonical w', none) by simp only [Stage.step, ho]]
      exact Begins.advances ⟨.canonical hl hstands, rfl⟩ hc' he rfl
  | @content l w t hl hs hw =>
    have hr := hc.resume (g := .file) hS hl hw
    rcases ho : c.resume .file w with ⟨c', r | w'⟩
    · obtain ⟨hc', he, hstands⟩ := ho ▸ hr
      have hr : r = (S.fetch l).map (·.file) := hc'.answers hS hl (fun _ => rfl) hstands
      unfold Site.content
      rcases hf : S.fetch l with e | f
      · obtain rfl : r = .error e := by rw [hr, hf]; rfl
        rw [show (Stage.content l w t).step referrer known c = (c', .done (.error e), none) by
          simp only [Stage.step, ho]]
        exact Begins.advances ⟨.done (x := .error e), rfl⟩ hc' he rfl
      · obtain rfl : r = .ok f.file := by rw [hr, hf]; rfl
        rw [show (Stage.content l w t).step referrer known c = (c', .done (.ok t), some l) by
          simp only [Stage.step, ho]]
        exact ⟨hc', he, .done (x := .ok (t, some l)), rfl, fun k hk => Option.some.inj hk ▸ ⟨hs, hl⟩⟩
    · obtain ⟨hc', he, hstands⟩ := ho ▸ hr
      rw [show (Stage.content l w t).step referrer known c = (c', .content l w' t, none) by simp only [Stage.step, ho]]
      exact Begins.advances ⟨.content hl hs hstands, rfl⟩ hc' he rfl
  | @done x => exact ⟨hc, .refl c, .done, rfl, fun l hl => absurd hl (by simp [Stage.step])⟩

end Site

end BareImports.Build
