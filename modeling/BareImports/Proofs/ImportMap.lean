import BareImports.ImportMap
import BareImports.Proofs.Table
import Mathlib.Data.List.Nodup

/-!
# The longest key counts

* `isValid` : an entry that counts; `tableOf`, the table of entries of an import map;
* `Means entries s r` : what the entries map a specifier to, said without an order of the entries;
* `Means.unique`, `Means.congr` : there is no more than one, and only the valid entries count;
* `mem_exact`, `mem_folders` : what is kept of the entries; `bestFolder?_some`, `bestFolder?_none`, the key that is found;
* `means_resolve` : this is what a specifier is mapped to;
* `mapped`, `mapped_declared` : so it is for every mapping that is taken as an import map.
-/

namespace BareImports.ImportMap

open Text

/-- Whether an entry counts: its key and its target are texts, and a key with a slash at its end has such a target. -/
def isValid : Value × Value → Bool
  | (.text key, .text target) => !isFolder key || isFolder target
  | _ => false

/-- The table of entries of a mapping; what is no table counts as an empty one. -/
def tableOf (kvs : List (Value × Value)) : List (Value × Value) :=
  match Value.lookup? "imports" kvs with
  | some (.map entries) => entries
  | _ => []

/-- A valid entry among others. -/
def Has (entries : List (Value × Value)) (key target : String) : Prop :=
  (.text key, .text target) ∈ entries ∧ isValid (.text key, .text target) = true

/-- A valid entry whose key is the beginning of a specifier, up to a slash. -/
structure Covers (entries : List (Value × Value)) (s key target : String) (rest : List Char) : Prop where
  /-- The entry. -/
  has : Has entries key target
  /-- Its key ends with a slash. -/
  folder : isFolder key = true
  /-- The specifier begins with it. -/
  text : s.toList = key.toList ++ rest

/-- What the entries of a table map a specifier to. -/
inductive Means (entries : List (Value × Value)) (s : String) : Option String → Prop
  /-- The target of the equal key. -/
  | equal {target : String} (h : Has entries s target) : Means entries s (some target)
  /-- The target of the longest key up to a slash, and the rest. -/
  | longest {key target : String} {rest : List Char} (hno : ∀ t, ¬ Has entries s t) (h : Covers entries s key target rest)
    (hlongest : ∀ k t r, Covers entries s k t r → k.length ≤ key.length) :
    Means entries s (some (target ++ String.ofList rest))
  /-- Nothing. -/
  | nothing (hno : ∀ t, ¬ Has entries s t) (hnone : ∀ k t r, ¬ Covers entries s k t r) : Means entries s none

section Means

variable {es es' : List (Value × Value)} {s key key' target target' : String} {rest rest' : List Char} {r r' : Option String}

theorem Has.unique (hn : (es.map (·.1)).Nodup) (h : Has es key target) (h' : Has es key target') : target = target' := by
  have heq := List.inj_on_of_nodup_map hn h.1 h'.1 rfl
  exact Value.text.inj (Prod.mk.inj heq).2

/-- Of keys with which a specifier begins one length has no more than one. -/
theorem Covers.unique (hn : (es.map (·.1)).Nodup) (h : Covers es s key target rest) (h' : Covers es s key' target' rest')
    (hlen : key.length = key'.length) : target = target' ∧ rest = rest' := by
  obtain ⟨hkey, hrest⟩ := List.append_inj (h.text.symm.trans h'.text) hlen
  obtain rfl := String.toList_inj.1 hkey
  exact ⟨h.has.unique hn h'.has, hrest⟩

/-- A specifier is mapped to one thing only. -/
theorem Means.unique (hn : (es.map (·.1)).Nodup) (h : Means es s r) (h' : Means es s r') : r = r' := by
  cases h with
  | equal h =>
    cases h' with
    | equal h' => rw [h.unique hn h']
    | longest hno _ _ => exact absurd h (hno _)
    | nothing hno _ => exact absurd h (hno _)
  | longest hno h hlongest =>
    cases h' with
    | equal h' => exact absurd h' (hno _)
    | longest _ h' hlongest' =>
      obtain ⟨rfl, rfl⟩ := h.unique hn h' (Nat.le_antisymm (hlongest' _ _ _ h) (hlongest _ _ _ h'))
      rfl
    | nothing _ hnone => exact absurd h (hnone _ _ _)
  | nothing hno hnone =>
    cases h' with
    | equal h' => exact absurd h' (hno _)
    | longest _ h' _ => exact absurd h' (hnone _ _ _)
    | nothing => rfl

/-- Only the valid entries count. -/
theorem Means.congr (hsame : ∀ e, isValid e = true → (e ∈ es ↔ e ∈ es')) (h : Means es s r) : Means es' s r := by
  have hhas : ∀ {k t}, Has es k t ↔ Has es' k t := fun {k t} => and_congr_left fun hv => hsame _ hv
  have hcovers : ∀ {k t u}, Covers es s k t u ↔ Covers es' s k t u := fun {k t u} =>
    ⟨fun h => ⟨hhas.1 h.has, h.folder, h.text⟩, fun h => ⟨hhas.2 h.has, h.folder, h.text⟩⟩
  cases h with
  | equal h => exact .equal (hhas.1 h)
  | longest hno h hlongest =>
    exact .longest (fun t ht => hno t (hhas.2 ht)) (hcovers.1 h) fun k t u hk => hlongest k t u (hcovers.2 hk)
  | nothing hno hnone => exact .nothing (fun t ht => hno t (hhas.2 ht)) fun k t u hk => hnone k t u (hcovers.2 hk)

end Means

/-! ## What is kept of the entries -/

section Kept

variable {es : List (Value × Value)} {e : Value × Value} {s key target : String}

/-- What one entry adds. -/
theorem mem_addEntry (acc : ImportMap × List Log.Entry) (e : Value × Value) (key target : String) :
    ((key, target) ∈ (addEntry acc e).1.exact ↔
      (key, target) ∈ acc.1.exact ∨ e = (.text key, .text target) ∧ isFolder key = false) ∧
    ((key, target) ∈ (addEntry acc e).1.folders ↔
      (key, target) ∈ acc.1.folders ∨ e = (.text key, .text target) ∧ isFolder key = true ∧ isFolder target = true) := by
  obtain ⟨m, log⟩ := acc
  unfold addEntry
  dsimp only
  split
  · next k t =>
    have hentry : ((.text k, .text t) : Value × Value) = (.text key, .text target) ↔ (key, target) = (k, t) := by
      simp only [Prod.mk.injEq, Value.text.injEq, eq_comm]
    rw [hentry]
    cases hkey : isFolder k <;> cases htarget : isFolder t <;> grind
  · next k t hno =>
    have hentry : (k, t) ≠ (.text key, .text target) := fun h => hno _ _ (Prod.mk.inj h).1 (Prod.mk.inj h).2
    simp only [hentry, false_and, or_false, and_self]

/-- What all of them add. -/
theorem mem_foldl_addEntry (es : List (Value × Value)) (acc : ImportMap × List Log.Entry) (key target : String) :
    ((key, target) ∈ (es.foldl addEntry acc).1.exact ↔
      (key, target) ∈ acc.1.exact ∨ (.text key, .text target) ∈ es ∧ isFolder key = false) ∧
    ((key, target) ∈ (es.foldl addEntry acc).1.folders ↔
      (key, target) ∈ acc.1.folders ∨ (.text key, .text target) ∈ es ∧ isFolder key = true ∧ isFolder target = true) := by
  induction es generalizing acc with
  | nil => simp
  | cons e es ih =>
    obtain ⟨hexact, hfolders⟩ := mem_addEntry acc e key target
    rw [List.foldl_cons, (ih _).1, (ih _).2, hexact, hfolders, List.mem_cons, or_assoc, or_assoc, or_and_right, or_and_right,
      eq_comm (a := e)]
    exact ⟨Iff.rfl, Iff.rfl⟩

theorem mem_exact : (key, target) ∈ (ofEntries es).1.exact ↔ Has es key target ∧ isFolder key = false := by
  unfold ofEntries Has isValid
  rw [(mem_foldl_addEntry es _ key target).1]
  grind

theorem mem_folders : (key, target) ∈ (ofEntries es).1.folders ↔ Has es key target ∧ isFolder key = true := by
  unfold ofEntries Has isValid
  rw [(mem_foldl_addEntry es _ key target).2]
  grind

/-! ## The key that is found -/

/-- A search that has found a key goes on to one that is as long as it and all others. -/
theorem foldl_longer (entries : List (String × String)) (b : String × String) : ∃ best ∈ b :: entries,
    entries.foldl (fun best entry => some (match best with
      | none => entry
      | some b => longer b entry)) (some b) = some best ∧ ∀ e ∈ b :: entries, e.1.length ≤ best.1.length := by
  induction entries generalizing b with
  | nil => exact ⟨b, by simp, rfl, by simp⟩
  | cons e entries ih =>
    obtain ⟨best, hmem, hbest, hlongest⟩ := ih (longer b e)
    have hb : b.1.length ≤ (longer b e).1.length ∧ e.1.length ≤ (longer b e).1.length ∧
        (longer b e = b ∨ longer b e = e) := by
      unfold longer
      split <;> simp <;> omega
    refine ⟨best, ?_, hbest, ?_⟩
    · rcases List.mem_cons.1 hmem with rfl | hmem
      · rcases hb.2.2 with h | h <;> rw [h] <;> simp
      · simp [hmem]
    · have hle := hlongest _ List.mem_cons_self
      intro x hx
      rcases List.mem_cons.1 hx with rfl | hx
      · omega
      rcases List.mem_cons.1 hx with rfl | hx
      · omega
      · exact hlongest x (List.mem_cons_of_mem _ hx)

theorem mem_candidates : (key, target) ∈ ((ofEntries es).1.folders.filter fun (k, _) => startsWith k s.toList) ↔
    ∃ rest, Covers es s key target rest := by
  rw [List.mem_filter, mem_folders]
  show _ ∧ key.toList.isPrefixOf s.toList = true ↔ _
  rw [List.isPrefixOf_iff_prefix]
  constructor
  · rintro ⟨⟨h, hkey⟩, rest, htext⟩
    exact ⟨rest, h, hkey, htext.symm⟩
  · rintro ⟨rest, h, hkey, htext⟩
    exact ⟨⟨h, hkey⟩, rest, htext.symm⟩

/-- The key that is found covers the specifier, and no longer one does. -/
theorem bestFolder?_some (h : (ofEntries es).1.bestFolder? s = some (key, target)) :
    (∃ rest, Covers es s key target rest) ∧ ∀ k t r, Covers es s k t r → k.length ≤ key.length := by
  unfold bestFolder? at h
  rw [← mem_candidates]
  have hall : ∀ k t r, Covers es s k t r →
      (k, t) ∈ ((ofEntries es).1.folders.filter fun (k, _) => startsWith k s.toList) := fun k t r hk => mem_candidates.2 ⟨r, hk⟩
  generalize ((ofEntries es).1.folders.filter fun (k, _) => startsWith k s.toList) = candidates at h hall
  cases candidates with
  | nil => exact absurd h (by simp)
  | cons b candidates =>
    obtain ⟨best, hmem, hbest, hlongest⟩ := foldl_longer candidates b
    obtain rfl : best = (key, target) := Option.some.inj (hbest.symm.trans h)
    exact ⟨hmem, fun k t r hk => hlongest _ (hall k t r hk)⟩

theorem bestFolder?_none (h : (ofEntries es).1.bestFolder? s = none) : ∀ k t r, ¬ Covers es s k t r := by
  intro k t r hk
  have hmem := mem_candidates.2 ⟨r, hk⟩
  unfold bestFolder? at h
  obtain ⟨b, candidates, hcons⟩ := List.exists_cons_of_ne_nil (List.ne_nil_of_mem hmem)
  rw [hcons, List.foldl_cons] at h
  obtain ⟨best, -, hbest, -⟩ := foldl_longer candidates b
  exact absurd (hbest.symm.trans h) (by simp)

/-- What a specifier is mapped to is what the entries map it to. -/
theorem means_resolve (es : List (Value × Value)) (s : String) : Means es s ((ofEntries es).1.resolve s) := by
  unfold resolve
  split
  · next target hlook => exact .equal (mem_exact.1 (Table.mem_of_lookup hlook)).1
  · next hlook =>
    have hno : ∀ t, Has es s t → isFolder s = true := by
      intro t h
      by_contra hfolder
      exact absurd (List.lookup_eq_none_iff.1 hlook _ (mem_exact.2 ⟨h, by simpa using hfolder⟩)) (by simp)
    cases hbest : (ofEntries es).1.bestFolder? s with
    | none =>
      have hnone := bestFolder?_none hbest
      refine .nothing (fun t h => hnone s t [] ⟨h, hno t h, by simp⟩) hnone
    | some e =>
      obtain ⟨key, target⟩ := e
      obtain ⟨⟨rest, hcovers⟩, hlongest⟩ := bestFolder?_some hbest
      have hrest : s.toList.drop key.length = rest := by
        rw [hcovers.text, ← String.length_toList, List.drop_left]
      rw [Option.map_some]
      dsimp only
      rw [hrest]
      by_cases hequal : ∃ t, Has es s t
      · -- the equal key ends with a slash, and is the longest one
        obtain ⟨t, h⟩ := hequal
        have hle := hlongest s t [] ⟨h, hno t h, by simp⟩
        have hlen := congrArg List.length hcovers.text
        rw [List.length_append, String.length_toList, String.length_toList] at hlen
        obtain rfl : rest = [] := List.length_eq_zero_iff.1 (by omega)
        obtain rfl : s = key := String.toList_inj.1 (by simpa using hcovers.text)
        simpa using Means.equal hcovers.has
      · exact .longest (fun t h => hequal ⟨t, h⟩) hcovers hlongest

end Kept

/-! ## Import maps -/

/-- What a mapping, taken as an import map, maps a specifier to. -/
def mapped (kvs : List (Value × Value)) (s : String) : Option String :=
  (ofValue? (.map kvs)).bind fun m => m.1.resolve s

section Maps

variable {kvs kvs' : List (Value × Value)}

theorem tableOf_eq_nil {v : Value} (h : Value.lookup? "imports" kvs = some v) (hv : v.pairs? = none) : tableOf kvs = [] := by
  unfold tableOf
  rw [h]
  cases v with
  | map => exact absurd hv (by simp [Value.pairs?])
  | _ => rfl

/-- Every mapping is an import map, with the usable entries of its table. -/
theorem ofValue?_map (kvs : List (Value × Value)) : ∃ log, ofValue? (.map kvs) = some ((ofEntries (tableOf kvs)).1, log) := by
  unfold ofValue? Value.truthy
  cases kvs with
  | nil => exact ⟨[], rfl⟩
  | cons e kvs =>
    show ∃ log, some (ofPairs (e :: kvs)) = _
    unfold ofPairs
    split
    · next h =>
      unfold tableOf
      rw [h]
      exact ⟨[], rfl⟩
    · next entries h =>
      unfold tableOf
      rw [h]
      exact ⟨(ofEntries entries).2, rfl⟩
    · next v hno h =>
      have hv : v.pairs? = none := by
        cases v with
        | map entries => exact absurd rfl (hno entries)
        | _ => rfl
      rw [tableOf_eq_nil h hv]
      exact ⟨_, rfl⟩

theorem mapped_eq (kvs : List (Value × Value)) (s : String) : mapped kvs s = (ofEntries (tableOf kvs)).1.resolve s := by
  obtain ⟨log, h⟩ := ofValue?_map kvs
  unfold mapped
  rw [h]
  rfl

/-- Mappings with the same valid entries map a specifier to the same. -/
theorem mapped_congr (hn : ((tableOf kvs).map (·.1)).Nodup)
    (hsame : ∀ e, isValid e = true → (e ∈ tableOf kvs' ↔ e ∈ tableOf kvs)) (s : String) : mapped kvs' s = mapped kvs s := by
  rw [mapped_eq, mapped_eq]
  exact ((means_resolve _ s).congr hsame).unique hn (means_resolve _ s)

/-- Every mapping is an import map. It maps a specifier to what its table does, the longest valid key being the one that
counts; neither the order of the entries nor an invalid one nor a table that is none makes a difference. -/
theorem mapped_declared :
    (∀ kvs, (ofValue? (.map kvs)).isSome = true) ∧
    (∀ kvs s, Means (tableOf kvs) s (mapped kvs s)) ∧
    (∀ kvs kvs' s, ((tableOf kvs).map (·.1)).Nodup → (tableOf kvs').Perm (tableOf kvs) → mapped kvs' s = mapped kvs s) ∧
    (∀ kvs kvs' s, ((tableOf kvs).map (·.1)).Nodup → tableOf kvs' = (tableOf kvs).filter isValid →
      mapped kvs' s = mapped kvs s) ∧
    ∀ kvs kvs' s v, Value.lookup? "imports" kvs = some v → v.pairs? = none →
      Value.lookup? "imports" kvs' = some (.map []) → mapped kvs' s = mapped kvs s := by
  refine ⟨fun kvs => ?_, fun kvs s => ?_, fun kvs kvs' s hn hperm => ?_, fun kvs kvs' s hn hfilter => ?_,
    fun kvs kvs' s v hv hno hempty => ?_⟩
  · obtain ⟨log, h⟩ := ofValue?_map kvs
    rw [h]
    rfl
  · rw [mapped_eq]
    exact means_resolve _ s
  · exact mapped_congr hn (fun e _ => hperm.mem_iff) s
  · refine mapped_congr hn (fun e he => ?_) s
    rw [hfilter, List.mem_filter]
    exact and_iff_left he
  · have hnil : tableOf kvs' = [] := by
      unfold tableOf
      rw [hempty]
    rw [mapped_eq, mapped_eq, hnil, tableOf_eq_nil hv hno]

/-- A table in which a longer key does not count. -/
def lodge : List (Value × Value) :=
  [(.text "a/", .text "x/"), (.text "a/b/", .text "y"), (.text "a", .int 1)]

theorem mapped_declared_lodge :
    mapped [(.text "imports", .map lodge)] "a/b/c" = some "x/b/c" ∧
    mapped [(.text "imports", .map lodge.reverse)] "a/b/c" = some "x/b/c" ∧
    mapped [(.text "imports", .map (lodge.filter isValid))] "a/b/c" = some "x/b/c" ∧
    mapped [(.text "imports", .map [])] "a" = mapped [(.text "imports", .list [])] "a" := by
  have htable : ∀ es, tableOf [(.text "imports", .map es)] = es := fun es => rfl
  have hn : ((tableOf [(.text "imports", .map lodge)]).map (·.1)).Nodup := by
    rw [htable]
    simp [lodge]
  have hbase : mapped [(.text "imports", .map lodge)] "a/b/c" = some "x/b/c" := by decide +kernel
  refine ⟨hbase, ?_, ?_, ?_⟩
  · rw [mapped_declared.2.2.1 [(.text "imports", .map lodge)] _ _ hn (by rw [htable, htable]; exact List.reverse_perm _), hbase]
  · rw [mapped_declared.2.2.2.1 [(.text "imports", .map lodge)] _ _ hn (by rw [htable, htable]), hbase]
  · exact mapped_declared.2.2.2.2 _ _ _ (.list []) rfl rfl rfl

end Maps

end BareImports.ImportMap
