import BareImports.Placement
import Mathlib.Data.List.Basic

/-!
# Looking packages up in nested directories

Paths name the packages from the top-level directory down.

* `PackageTree.version? t path` : the version of the copy at a path;
* `PackageTree.resolve? t path pkg` : what looking a package up from a copy outwards finds;
* `PackageTree.chain t path` : the package versions from the top-level entry down to a copy;
* `version?_insert` : a copy that is added changes nothing else.
-/

namespace BareImports.PackageTree

/-- The version of the copy at a path. -/
def version? : PackageTree → List String → Option String
  | _, [] => none
  | .dir entries, [name] => (entries.lookup name).map (·.1)
  | .dir entries, name :: next :: path => (entries.lookup name).bind fun (_, t) => version? t (next :: path)

/-- What looking a package up from the copy at a path finds: in its own directory, else in the directories that
enclose it, the innermost first. -/
def resolve? : PackageTree → List String → String → Option String
  | .dir entries, [], pkg => (entries.lookup pkg).map (·.1)
  | .dir entries, name :: path, pkg =>
    ((entries.lookup name).bind fun (_, t) => resolve? t path pkg).or ((entries.lookup pkg).map (·.1))

/-- The package versions from the top-level entry down to the copy at a path. -/
def chain : PackageTree → List String → List (String × String)
  | _, [] => []
  | .dir entries, name :: path => match entries.lookup name with
    | some (v, t) => (name, v) :: chain t path
    | none => []

/-! ## Paths that grow at their end -/

theorem version?_cons_append (entries : List (String × String × PackageTree)) (name next : String)
    (path : List String) : (PackageTree.dir entries).version? (name :: (path ++ [next])) =
      (entries.lookup name).bind fun (_, t) => t.version? (path ++ [next]) := by
  cases path <;> rfl

/-- Looking a package up from a copy goes on from the copy that encloses it. -/
theorem resolve?_append (t : PackageTree) (path : List String) (name pkg : String) :
    t.resolve? (path ++ [name]) pkg = (t.version? (path ++ [name, pkg])).or (t.resolve? path pkg) := by
  induction path generalizing t with
  | nil =>
    obtain ⟨entries⟩ := t
    simp only [List.nil_append, resolve?, version?]
    cases entries.lookup name with
    | none => rfl
    | some e => obtain ⟨v, ⟨es⟩⟩ := e; rfl
  | cons first path ih =>
    obtain ⟨entries⟩ := t
    have hv : (PackageTree.dir entries).version? (first :: (path ++ [name, pkg])) =
        (entries.lookup first).bind fun (_, t) => t.version? (path ++ [name, pkg]) := by
      cases path <;> rfl
    rw [List.cons_append, List.cons_append, hv]
    simp only [resolve?]
    cases entries.lookup first with
    | none => rfl
    | some e =>
      obtain ⟨v, t⟩ := e
      simp only [Option.bind_some, ih, Option.or_assoc]

theorem chain_append (t : PackageTree) (path : List String) (name : String) :
    t.chain (path ++ [name]) = t.chain path ++ ((t.version? (path ++ [name])).map (name, ·)).toList := by
  induction path generalizing t with
  | nil =>
    obtain ⟨entries⟩ := t
    simp only [List.nil_append, chain, version?]
    cases entries.lookup name with
    | none => rfl
    | some e => obtain ⟨v, ⟨es⟩⟩ := e; rfl
  | cons first path ih =>
    obtain ⟨entries⟩ := t
    rw [List.cons_append, version?_cons_append]
    simp only [chain]
    cases entries.lookup first with
    | none => rfl
    | some e =>
      obtain ⟨v, t⟩ := e
      simp only [ih, Option.bind_some, List.cons_append]

/-! ## A copy is added -/

theorem lookup_insertBelow (version name : String) (path : List String)
    (entries : List (String × String × PackageTree)) (n : String) :
    (insertBelow version name path entries).lookup n =
      if n = name then (entries.lookup n).map fun (v, t) => (v, insert version path t) else entries.lookup n := by
  induction entries with
  | nil => simp [insertBelow]
  | cons e entries ih =>
    obtain ⟨k, v, t⟩ := e
    unfold insertBelow
    by_cases hk : k = name
    · subst hk
      rw [if_pos (by simp), List.lookup_cons, List.lookup_cons]
      by_cases hn : n = k
      · subst hn; simp
      · rw [beq_eq_false_iff_ne.2 hn, if_neg hn]
    · rw [if_neg (by simpa using hk), List.lookup_cons, List.lookup_cons, ih]
      by_cases hn : n = k
      · subst hn
        rw [if_neg hk]
        simp [hk]
      · rw [beq_eq_false_iff_ne.2 hn]

/-- A copy that is added at a new path below a copy that is there changes nothing else. -/
theorem version?_insert (version : String) (t : PackageTree) (path q : List String) (hpath : path ≠ [])
    (hnew : t.version? path = none) (hparent : path.dropLast ≠ [] → t.version? path.dropLast ≠ none) :
    (insert version path t).version? q = if q = path then some version else t.version? q := by
  induction path generalizing t q with
  | nil => exact absurd rfl hpath
  | cons name path ih =>
    obtain ⟨entries⟩ := t
    cases path with
    | nil =>
      have hnone : entries.lookup name = none := by simpa [version?] using hnew
      have hlook : ∀ n, (entries ++ [(name, version, PackageTree.dir [])]).lookup n =
          if n = name then some (version, PackageTree.dir []) else entries.lookup n := fun n => by
        rw [List.lookup_append, List.lookup_cons]
        by_cases hn : n = name
        · simp [hn, hnone]
        · simp [hn, beq_eq_false_iff_ne.2 hn]
      match q with
      | [] => simp [version?]
      | [n] =>
        simp only [insert, version?, hlook]
        by_cases hn : n = name
        · simp [hn]
        · simp [hn]
      | n :: m :: q =>
        simp only [insert, version?, hlook]
        by_cases hn : n = name
        · rw [if_pos hn, hn, hnone]
          cases q <;> simp [version?]
        · simp [hn]
    | cons next path =>
      -- the enclosing copies are there
      obtain ⟨v, below, hbelow⟩ : ∃ v below, entries.lookup name = some (v, below) := by
        by_contra hno
        refine hparent (by simp) ?_
        have hnone : entries.lookup name = none := by
          rw [Option.eq_none_iff_forall_ne_some]
          exact fun e he => hno ⟨e.1, e.2, he⟩
        rw [List.dropLast_cons_of_ne_nil (by simp)]
        cases (next :: path).dropLast <;> simp [version?, hnone]
      have hnew' : below.version? (next :: path) = none := by simpa [version?, hbelow] using hnew
      have hparent' : (next :: path).dropLast ≠ [] → below.version? (next :: path).dropLast ≠ none := by
        intro hne
        have hp := hparent (by simp)
        rw [List.dropLast_cons_of_ne_nil (by simp)] at hp
        obtain ⟨m, rest, hm⟩ := List.exists_cons_of_ne_nil hne
        rw [hm] at hp ⊢
        simpa [version?, hbelow] using hp
      match q with
      | [] => simp [version?]
      | [n] =>
        simp only [insert, version?, lookup_insertBelow]
        by_cases hn : n = name
        · simp [hn, hbelow]
        · simp [hn]
      | n :: m :: q =>
        simp only [insert, version?, lookup_insertBelow]
        by_cases hn : n = name
        · simp only [hn, if_true, hbelow, Option.map_some, Option.bind_some, ih below _ (by simp) hnew' hparent',
            List.cons.injEq, true_and]
        · simp [hn]

end BareImports.PackageTree
