import BareImports.Proofs.Build.Ledger
import Mathlib.Data.List.ReduceOption

/-!
# A build accounts for all that it gives

* `Ledger items ms L` : after some moves the producers are as their entries tell; `Ledger.step` : a move keeps that;
* `Ledger.accounts`, `Accounts items ms L` : what the consumer has taken when the stream is over, by the producers that gave it.
-/

namespace BareImports.Build.Run

open Text Cdn

/-! ## The ledger -/

/-- The manifest of a project can be read, if it has one. -/
def Readable (items : List Output) : Prop :=
  ∀ f, (items.filterMap Output.manifest?).head? = some f → ∀ e, readProject f.content ≠ .error e

/-- The outputs of the project are passed on up to some of them. -/
structure Passes (items : List Output) (L : List Entry) (r : Run) (done rest : List Output) : Prop where
  /-- The others are left. -/
  all : items = done ++ rest
  /-- Those that are no scripts were given. -/
  given : L[0]? = some ⟨.source, done.filter Output.passes⟩
  /-- The scripts have become producers. -/
  scripts : L.filterMap Entry.script? = done.filterMap Output.script?
  /-- The source has the others, or has ended. -/
  left : (∃ fails, r.producers[0]? = some (.source rest fails)) ∨ rest = [] ∧ r.producers[0]? = some .ended
  /-- The manifest is known when it was passed on. -/
  manifest : r.project = none → done.filterMap Output.manifest? = []

/-- After some moves the producers are as their entries tell. -/
structure Ledger (r₀ : Run) (items : List Output) (ms : List Move) (L : List Entry) : Prop where
  /-- The import map stays. -/
  map : (r₀.play ms).map = r₀.map
  /-- There is an entry for each producer. -/
  length : L.length = (r₀.play ms).producers.length
  /-- A producer is as its entry tells. -/
  tells : ∀ i e p, L[i]? = some e → (r₀.play ms).producers[i]? = some p → Tells r₀ ms (r₀.play ms).handled i e p
  /-- What was taken and what is in the stream is what the producers gave. -/
  given : (r₀.taken ms ++ (r₀.play ms).merge.queue.reduceOption).Perm (L.flatMap Entry.given)
  /-- The outputs of the project are passed on up to some of them. -/
  source : ∃ done rest, Passes items L (r₀.play ms) done rest
  /-- The dependencies that were begun are those of the entries and those that were begun before. -/
  begun : ((L.flatMap fun e => e.begun?.toList) ++ r₀.handled).Perm (r₀.play ms).handled
  /-- What the fetches of dependencies have come to is in their entries. -/
  fetched : ∀ i l x, Fetched r₀ ms i l x → ∃ e, L[i]? = some e ∧ e.origin = .dependency l (.came x)
  /-- There is an entry for each location that was found to be there. -/
  found : ∀ i k l, Finds r₀ ms i k l → ∃ e ∈ L, e.location? = some l

section Ledger

variable {r₀ : Run} {items : List Output} {ms : List Move} {L : List Entry} {m : Move}

/-- A move that changes no producer. -/
theorem Ledger.keep (h : Ledger r₀ items ms L) (hp : (r₀.play (ms ++ [m])).producers = (r₀.play ms).producers)
    (hhandled : (r₀.play (ms ++ [m])).handled = (r₀.play ms).handled)
    (hmap : (r₀.play (ms ++ [m])).map = (r₀.play ms).map)
    (hproject : (r₀.play (ms ++ [m])).project = (r₀.play ms).project)
    (hgiven : r₀.taken (ms ++ [m]) ++ (r₀.play (ms ++ [m])).merge.queue.reduceOption =
      r₀.taken ms ++ (r₀.play ms).merge.queue.reduceOption)
    (hfetched : ∀ i l x, Fetched r₀ (ms ++ [m]) i l x → Fetched r₀ ms i l x)
    (hfinds : ∀ i k l, Finds r₀ (ms ++ [m]) i k l → Finds r₀ ms i k l) : Ledger r₀ items (ms ++ [m]) L where
  map := hmap.trans h.map
  length := by rw [hp, h.length]
  tells i e p he hi := by
    rw [hp] at hi
    rw [hhandled]
    exact (h.tells i e p he hi).concat (List.Subset.refl _) m
  given := by
    rw [hgiven]
    exact h.given
  source := by
    obtain ⟨done, rest, hs⟩ := h.source
    exact ⟨done, rest, hs.all, hs.given, hs.scripts, by rw [hp]; exact hs.left, by rw [hproject]; exact hs.manifest⟩
  begun := by
    rw [hhandled]
    exact h.begun
  fetched i l x hx := h.fetched i l x (hfetched i l x hx)
  found i k l hl := h.found i k l (hfinds i k l hl)

/-- A move that does nothing. -/
theorem Ledger.stay (h : Ledger r₀ items ms L) (hsame : r₀.play (ms ++ [m]) = r₀.play ms)
    (htook : (r₀.play ms).took m = []) (hfetched : ∀ i l x, Fetched r₀ (ms ++ [m]) i l x → Fetched r₀ ms i l x)
    (hfinds : ∀ i k l, Finds r₀ (ms ++ [m]) i k l → Finds r₀ ms i k l) : Ledger r₀ items (ms ++ [m]) L :=
  h.keep (by rw [hsame]) (by rw [hsame]) (by rw [hsame]) (by rw [hsame])
    (by rw [taken_concat, htook, hsame, List.append_nil]) hfetched hfinds

theorem flatMap_set_perm {α β : Type} {F : α → List β} {l : List α} {i : Nat} {a b : α} (h : l[i]? = some a)
    {extra : List β} (hF : (F b).Perm (F a ++ extra)) : ((l.set i b).flatMap F).Perm (l.flatMap F ++ extra) := by
  induction l generalizing i with
  | nil => simp at h
  | cons x l ih =>
    cases i with
    | zero =>
      obtain rfl : x = a := by simpa using h
      rw [List.set_cons_zero, List.flatMap_cons, List.flatMap_cons, List.append_assoc]
      refine (hF.append_right _).trans ?_
      rw [List.append_assoc]
      exact List.perm_append_comm.append_left _
    | succ i =>
      rw [List.set_cons_succ, List.flatMap_cons, List.flatMap_cons, List.append_assoc]
      exact (ih (by simpa using h)).append_left _

theorem filterMap_set {α β : Type} {F : α → Option β} {l : List α} {i : Nat} {a b : α} (h : l[i]? = some a)
    (hF : F b = F a) : (l.set i b).filterMap F = l.filterMap F := by
  induction l generalizing i with
  | nil => rfl
  | cons x l ih =>
    cases i with
    | zero =>
      obtain rfl : x = a := by simpa using h
      rw [List.set_cons_zero, List.filterMap_cons, List.filterMap_cons, hF]
    | succ i => rw [List.set_cons_succ, List.filterMap_cons, List.filterMap_cons, ih (by simpa using h)]

theorem Follows.script? {e e' : Entry} (h : Follows e.origin e'.origin) : e'.script? = e.script? := by
  obtain ⟨o, given⟩ := e
  obtain ⟨o', given'⟩ := e'
  cases h <;> rfl

theorem Follows.location? {e e' : Entry} (h : Follows e.origin e'.origin) : e'.location? = e.location? := by
  obtain ⟨o, given⟩ := e
  obtain ⟨o', given'⟩ := e'
  cases h <;> rfl

/-- A producer that is added is as its entry tells. -/
theorem Acts.tells_child {r : Run} {t : Turn} (h : r.Acts t) {p : Producer} (hp : t.child = some p)
    (handled : List String) (i : Nat) : Tells r₀ ms handled i (.ofChild p) p := by
  cases h with
  | read hs =>
    obtain rfl := Option.some.inj hp
    exact .script
  | resolve hk hm hs =>
    obtain ⟨l, -, rfl⟩ := Option.map_eq_some_iff.1 hp
    exact .dependency
  | _ => exact absurd hp (by simp)

/-- A producer that is added has given nothing, and has begun nothing. -/
theorem flatMap_ofChild {β : Type} {F : Entry → List β} (hF : ∀ p, F (.ofChild p) = []) (child : Option Producer) :
    (child.map Entry.ofChild).toList.flatMap F = [] := by
  cases child with
  | none => rfl
  | some p => simp [hF]

theorem ofChild_given (p : Producer) : (Entry.ofChild p).given = [] := by
  cases p <;> rfl

theorem ofChild_begun? (p : Producer) : (Entry.ofChild p).begun?.toList = [] := by
  cases p <;> rfl

/-- What the source of the project does in a turn. -/
inductive Sources (r : Run) (t : Turn) (fails : Bool) : List Output → Prop
  /-- No output is left. -/
  | finish (ha : t.after = .ended) (hi : t.items = []) (hc : t.child = none) : Sources r t fails []
  /-- An output is passed on, or becomes a producer. -/
  | pass {o : Output} {rest : List Output} (ha : t.after = .source rest fails) (hi : t.items = [o].filter Output.passes)
    (hc : t.child = o.script?.map (.script · .project)) (hp : t.project = none → o.manifest? = none) :
    Sources r t fails (o :: rest)
  /-- The manifest of the project cannot be read. -/
  | crash {f : File} {rest : List Output} {e : Json.Fault} (hn : f.name = Manifest.fileName) (hp : r.project = none)
    (hm : readProject f.content = .error e) : Sources r t fails (.file f :: rest)

theorem Acts.sources {r : Run} {t : Turn} (h : r.Acts t) {rest : List Output} {fails : Bool}
    (hb : t.before = .source rest fails) : Sources r t fails rest := by
  cases h with
  | finish =>
    obtain ⟨rfl, rfl⟩ := Producer.source.inj hb
    exact .finish rfl rfl rfl
  | report =>
    obtain ⟨rfl, rfl⟩ := Producer.source.inj hb
    exact .pass rfl rfl rfl fun _ => rfl
  | @read f rest fails hs =>
    obtain ⟨rfl, rfl⟩ := Producer.source.inj hb
    refine .pass rfl (by simp [Output.passes, hs]) (by simp [Output.script?, hs]) fun _ => ?_
    have hne : f.name ≠ Manifest.fileName := by
      intro hn
      rw [isScript, hn] at hs
      exact absurd hs (by decide)
    simp [Output.manifest?, hne]
  | manifest hs hn hp hm =>
    obtain ⟨rfl, rfl⟩ := Producer.source.inj hb
    exact .pass rfl (by simp [Output.passes, hs]) (by simp [Output.script?, hs]) fun h => absurd h (by simp)
  | crash hs hn hp hm =>
    obtain ⟨rfl, rfl⟩ := Producer.source.inj hb
    exact .crash hn hp hm
  | @copy f rest fails hs hn =>
    obtain ⟨rfl, rfl⟩ := Producer.source.inj hb
    refine .pass rfl (by simp [Output.passes, hs]) (by simp [Output.script?, hs]) fun hp => ?_
    have hne : f.name ≠ Manifest.fileName := fun h => hn h hp
    simp [Output.manifest?, hne]
  | _ => exact absurd hb (by simp)

/-- Scripts of the project become producers by its source only. -/
theorem Acts.script?_child {r : Run} {t : Turn} (h : r.Acts t) (hb : ∀ rest fails, t.before ≠ .source rest fails)
    {p : Producer} (hp : t.child = some p) : (Entry.ofChild p).script? = none := by
  cases h with
  | read hs => exact absurd rfl (hb _ _)
  | resolve hk hm hs =>
    obtain ⟨l, -, rfl⟩ := Option.map_eq_some_iff.1 hp
    rfl
  | _ => exact absurd hp (by simp)

theorem Tells.of_source {handled : List String} {i : Nat} {e : Entry} {rest : List Output} {fails : Bool}
    (h : Tells r₀ ms handled i e (.source rest fails)) : i = 0 := by
  cases h with
  | source hi => exact hi

/-- An entry and the entry of a producer that is added, after a turn. -/
theorem getElem?_books {L : List Entry} {i : Nat} (hlt : i < L.length) (e' : Entry) (child : Option Entry) (j : Nat) :
    (L.set i e' ++ child.toList)[j]? = if j = i then some e' else if j = L.length then child else L[j]? := by
  by_cases hj : j < L.length
  · rw [List.getElem?_append_left (by simpa using hj), List.getElem?_set]
    by_cases hji : j = i
    · rw [if_pos hji.symm, if_pos hji, if_pos (by omega)]
    · rw [if_neg (Ne.symm hji), if_neg hji, if_neg (by omega)]
  · rw [List.getElem?_append_right (by simpa using hj), if_neg (by omega), List.length_set]
    by_cases hjn : j = L.length
    · rw [if_pos hjn, hjn, Nat.sub_self]
      cases child <;> rfl
    · have hone : child.toList.length ≤ 1 := by cases child <;> simp
      have hout : L[j]? = none := List.getElem?_eq_none (by omega)
      rw [if_neg hjn, hout]
      exact List.getElem?_eq_none (by omega)

/-- The source of the project passes an output on, or comes to its end. -/
theorem Passes.source {r r' : Run} {t : Turn} {done rest : List Output} {fails : Bool} (h : Passes items L r done rest)
    (hread : Readable items) (ht : r.Turns 0 t r') {e e' : Entry} (he : L[0]? = some e) (hbooks : Books r t e e')
    (hb : t.before = .source rest fails) :
    ∃ done rest, Passes items (L.set 0 e' ++ (t.child.map Entry.ofChild).toList) r' done rest := by
  have hlt : 0 < L.length := (List.getElem?_eq_some_iff.1 he).1
  obtain rfl : e = ⟨.source, done.filter Output.passes⟩ := Option.some.inj (he.symm.trans h.given)
  obtain ⟨o', given'⟩ := e'
  obtain rfl : o' = .source := by
    have horigin := hbooks.origin
    cases horigin
    rfl
  have hgiven : given' = done.filter Output.passes ++ t.items := hbooks.given
  have hscripts := filterMap_set (F := Entry.script?) (b := ⟨.source, given'⟩) he rfl
  have hafter : r'.producers[0]? = some t.after := by rw [ht.getElem?, if_pos rfl]
  have hset := getElem?_books hlt ⟨.source, given'⟩ (t.child.map Entry.ofChild) 0
  rw [if_pos rfl] at hset
  cases ht.acts.sources hb with
  | finish ha hi hc =>
    refine ⟨done, [], h.all, ?_, ?_, Or.inr ⟨rfl, ha ▸ hafter⟩, fun hp => ?_⟩
    · rw [hset, hgiven, hi, List.append_nil]
    · rw [hc, Option.map_none, Option.toList_none, List.append_nil, hscripts, h.scripts]
    · exact h.manifest (ht.acts.project (ht.project ▸ hp)).1
  | @pass o rest ha hi hc hp =>
    refine ⟨done ++ [o], rest, ?_, ?_, ?_, Or.inl ⟨fails, ha ▸ hafter⟩, fun hnone => ?_⟩
    · rw [h.all, List.append_assoc]
      rfl
    · rw [hset, hgiven, hi, List.filter_append]
    · rw [List.filterMap_append, List.filterMap_append, hscripts, h.scripts, hc]
      cases hs : o.script? <;> simp [hs, Entry.ofChild, Entry.script?]
    · rw [ht.project] at hnone
      rw [List.filterMap_append, h.manifest (ht.acts.project hnone).1]
      simp [hp hnone]
  | @crash f rest x hn hp hm =>
    refine absurd hm (hread f ?_ x)
    rw [h.all, List.filterMap_append, h.manifest hp]
    simp [Output.manifest?, hn]

/-- Another producer has a turn. -/
theorem Passes.other {r r' : Run} {i : Nat} {t : Turn} {done rest : List Output} (h : Passes items L r done rest)
    (ht : r.Turns i t r') {e e' : Entry} (he : L[i]? = some e) (hbooks : Books r t e e') (hi : i ≠ 0)
    (hb : ∀ rest fails, t.before ≠ .source rest fails) :
    Passes items (L.set i e' ++ (t.child.map Entry.ofChild).toList) r' done rest := by
  have hlt : i < L.length := (List.getElem?_eq_some_iff.1 he).1
  have hhere : r'.producers[0]? = r.producers[0]? := by
    have hlt' := ht.lt
    rw [ht.getElem?, if_neg (Ne.symm hi), if_neg (by omega)]
  refine ⟨h.all, ?_, ?_, hhere ▸ h.left, fun hp => h.manifest (ht.acts.project (ht.project ▸ hp)).1⟩
  · rw [getElem?_books hlt, if_neg (Ne.symm hi), if_neg (by omega), h.given]
  · have hchild : (t.child.map Entry.ofChild).toList.filterMap Entry.script? = [] := by
      have hnone := fun p hp => ht.acts.script?_child (p := p) hb hp
      rcases hc : t.child with _ | p
      · rfl
      · simp [hnone p hc]
    rw [List.filterMap_append, hchild, List.append_nil, filterMap_set he hbooks.origin.script?, h.scripts]

/-- A turn keeps the outputs of the project passed on up to some of them. -/
theorem Passes.turn {r r' : Run} {i : Nat} {t : Turn} {done rest : List Output} (h : Passes items L r done rest)
    (hread : Readable items) (ht : r.Turns i t r') {e e' : Entry} (he : L[i]? = some e) (hbooks : Books r t e e')
    (hfirst : ∀ rest fails, t.before = .source rest fails → i = 0) :
    ∃ done rest, Passes items (L.set i e' ++ (t.child.map Entry.ofChild).toList) r' done rest := by
  by_cases hb : ∃ rest fails, t.before = .source rest fails
  · obtain ⟨rest', fails, hb⟩ := hb
    obtain rfl := hfirst rest' fails hb
    have hhere := hb ▸ ht.before
    rcases h.left with ⟨fails', hleft⟩ | ⟨-, hleft⟩
    · obtain ⟨rfl, rfl⟩ := Producer.source.inj (Option.some.inj (hleft.symm.trans hhere))
      exact h.source hread ht he hbooks hb
    · exact absurd (hleft.symm.trans hhere) (by simp)
  · have hb : ∀ rest fails, t.before ≠ .source rest fails := fun rest fails h => hb ⟨rest, fails, h⟩
    refine ⟨done, rest, h.other ht he hbooks ?_ hb⟩
    -- the first producer is the source, or has ended and has no turn
    rintro rfl
    rcases h.left with ⟨fails, hleft⟩ | ⟨-, hleft⟩
    · exact hb rest fails (Option.some.inj (ht.before.symm.trans hleft))
    · have hlive := ht.acts.isLive
      rw [Option.some.inj (ht.before.symm.trans hleft)] at hlive
      exact absurd hlive (by simp [Producer.isLive])

/-- An entry keeps its place in a turn, and its producer stays what it was added for. -/
theorem Books.follows {r : Run} {t : Turn} {i j : Nat} {e e' x : Entry} (h : Books r t e e') (he : L[i]? = some e)
    (child : Option Entry) (hx : L[j]? = some x) :
    ∃ x', (L.set i e' ++ child.toList)[j]? = some x' ∧ Follows x.origin x'.origin := by
  have hlt : i < L.length := (List.getElem?_eq_some_iff.1 he).1
  have hjlt : j < L.length := (List.getElem?_eq_some_iff.1 hx).1
  rw [getElem?_books hlt]
  by_cases hji : j = i
  · subst hji
    obtain rfl := Option.some.inj (he.symm.trans hx)
    exact ⟨e', if_pos rfl, h.origin⟩
  · exact ⟨x, by rw [if_neg hji, if_neg (by omega), hx], .same _⟩

/-- What a fetch has come to stays. -/
theorem Follows.came {o : Origin} {l : Location} {x : Except Failure Cdn.File}
    (h : Follows (.dependency l (.came x)) o) : o = .dependency l (.came x) := by
  cases h
  rfl

/-- A turn of a producer. -/
theorem Ledger.turn (h : Ledger r₀ items ms L) (hread : Readable items) {i : Nat} {t : Turn}
    (ht : (r₀.play ms).Turns i t (r₀.play (ms ++ [m]))) (htook : (r₀.play ms).took m = [])
    (hfetched : ∀ j l x, Fetched r₀ (ms ++ [m]) j l x → Fetched r₀ ms j l x ∨
      j = i ∧ ∃ w c, t.before = .fetching l w ∧ (r₀.play ms).cache.resume .file w = (c, .done x))
    (hfinds : ∀ j k l, Finds r₀ (ms ++ [m]) j k l → Finds r₀ ms j k l ∨ t.child = some (.dependency l)) :
    ∃ L', Ledger r₀ items (ms ++ [m]) L' := by
  have hlt : i < L.length := h.length ▸ ht.lt
  obtain ⟨e, he⟩ : ∃ e, L[i]? = some e := ⟨L[i], List.getElem?_eq_getElem hlt⟩
  have hbefore := h.tells i e _ he ht.before
  obtain ⟨e', hbooks, htells⟩ := ht.acts.books h.map ht.before hbefore m
  have hset := getElem?_books hlt e' (t.child.map Entry.ofChild)
  refine ⟨L.set i e' ++ (t.child.map Entry.ofChild).toList, ?map, ?length, ?tells, ?given, ?source, ?begun, ?fetched,
    ?found⟩
  case map => exact ht.map.trans h.map
  case length =>
    rw [ht.producers, List.length_append, List.length_append, List.length_set, List.length_set, h.length]
    cases t.child <;> rfl
  case tells =>
    intro j x p hx hp
    rw [hset] at hx
    rw [ht.getElem?, ← h.length] at hp
    split at hx
    · next hji =>
      rw [if_pos hji] at hp
      obtain rfl := Option.some.inj hx
      obtain rfl := Option.some.inj hp
      rw [hji, ht.handled]
      exact htells
    · next hji =>
      rw [if_neg hji] at hp
      split at hx
      · next hjn =>
        rw [if_pos hjn] at hp
        rw [hp] at hx
        obtain rfl := Option.some.inj hx
        exact ht.acts.tells_child hp _ j
      · next hjn =>
        rw [if_neg hjn] at hp
        have hsub : (r₀.play ms).handled ⊆ (r₀.play (ms ++ [m])).handled := by
          rw [ht.handled]
          exact List.subset_append_right _ _
        exact (h.tells j x p hx hp).concat hsub m
  case given =>
    have hqueue : (r₀.play (ms ++ [m])).merge.queue.reduceOption =
        (r₀.play ms).merge.queue.reduceOption ++ t.items := by
      rw [ht.queue, List.reduceOption_append, List.reduceOption_append]
      split <;> simp [List.reduceOption]
    rw [taken_concat, htook, List.append_nil, hqueue, List.flatMap_append, flatMap_ofChild ofChild_given,
      List.append_nil, ← List.append_assoc]
    exact (h.given.append_right _).trans (flatMap_set_perm he (.of_eq hbooks.given)).symm
  case source =>
    obtain ⟨done, rest, hs⟩ := h.source
    exact hs.turn hread ht he hbooks fun rest fails hb => Tells.of_source (hb ▸ hbefore)
  case begun =>
    rw [List.flatMap_append, flatMap_ofChild ofChild_begun?, List.append_nil, ht.handled]
    have hbegun : e'.begun?.toList.Perm (e.begun?.toList ++ (t.begun.map written).toList) :=
      (List.Perm.of_eq hbooks.begun).trans List.perm_append_comm
    have hperm := flatMap_set_perm (F := fun e : Entry => e.begun?.toList) he hbegun
    have hfirst := ((hperm.trans List.perm_append_comm).append_right r₀.handled)
    rw [List.append_assoc] at hfirst
    exact hfirst.trans (h.begun.append_left _)
  case fetched =>
    intro j l x hx
    rcases hfetched j l x hx with hx | ⟨rfl, w, c, hb, hr⟩
    · obtain ⟨y, hy, horigin⟩ := h.fetched j l x hx
      obtain ⟨y', hy', hfollows⟩ := hbooks.follows he (t.child.map Entry.ofChild) hy
      exact ⟨y', hy', (horigin ▸ hfollows).came⟩
    · exact ⟨e', by rw [hset, if_pos rfl], hbooks.comes l w c x hb hr⟩
  case found =>
    intro j k l hl
    rcases hfinds j k l hl with hl | hl
    · obtain ⟨x, hx, hloc⟩ := h.found j k l hl
      obtain ⟨n, hn⟩ := List.mem_iff_getElem?.1 hx
      obtain ⟨x', hx', hfollows⟩ := hbooks.follows he (t.child.map Entry.ofChild) hn
      exact ⟨x', List.mem_of_getElem? hx', hfollows.location?.trans hloc⟩
    · exact ⟨.ofChild (.dependency l), by simp [hl], rfl⟩

/-! ## Any move -/

theorem Fetched.of_concat {i : Nat} {l : Location} {x : Except Failure Cdn.File} (h : Fetched r₀ (ms ++ [m]) i l x) :
    Fetched r₀ ms i l x ∨ m = .produce i ∧ ∃ w c, (r₀.play ms).producers[i]? = some (.fetching l w) ∧
      (r₀.play ms).cache.resume .file w = (c, .done x) := by
  obtain ⟨before, w, c, hb, hw, hr⟩ := h
  rcases List.prefix_concat_iff.1 hb with hb | hb
  · obtain ⟨rfl, hm⟩ := List.append_inj' hb rfl
    exact Or.inr ⟨(List.singleton_inj.1 hm).symm, w, c, hw, hr⟩
  · exact Or.inl ⟨before, w, c, hb, hw, hr⟩

theorem Finds.of_concat {i k : Nat} {l : Location} (h : Finds r₀ (ms ++ [m]) i k l) :
    Finds r₀ ms i k l ∨ m = .resolve i k ∧ ∃ w m' o w' replacement c f,
      (r₀.play ms).producers[i]? = some (.rewriting w m') ∧ w.left[k]? = some o ∧
      o.stage = .content l w' replacement ∧ (r₀.play ms).cache.resume .file w' = (c, .done (.ok f)) := by
  obtain ⟨before, w, m', o, w', t, c, f, hb, hw, hk, ho, hr⟩ := h
  rcases List.prefix_concat_iff.1 hb with hb | hb
  · obtain ⟨rfl, hm⟩ := List.append_inj' hb rfl
    exact Or.inr ⟨(List.singleton_inj.1 hm).symm, w, m', o, w', t, c, f, hw, hk, ho, hr⟩
  · exact Or.inl ⟨before, w, m', o, w', t, c, f, hb, hw, hk, ho, hr⟩

/-- Fetches come to results in the turns of their producers. -/
theorem Fetched.of_other {i : Nat} {l : Location} {x : Except Failure Cdn.File} (h : Fetched r₀ (ms ++ [m]) i l x)
    (hm : ∀ j, m ≠ .produce j) : Fetched r₀ ms i l x :=
  h.of_concat.resolve_right fun ⟨he, _⟩ => hm i he

/-- Locations are found in the steps of specifiers. -/
theorem Finds.of_other {i k : Nat} {l : Location} (h : Finds r₀ (ms ++ [m]) i k l) (hm : ∀ j n, m ≠ .resolve j n) :
    Finds r₀ ms i k l :=
  h.of_concat.resolve_right fun ⟨he, _⟩ => hm i k he

/-- A fetch that comes to a result changes its producer. -/
theorem produce_fetching {r : Run} {i : Nat} {l : Location} {w : Wait} {c : Cache} {x : Except Failure Cdn.File}
    (h : r.producers[i]? = some (.fetching l w)) (hr : r.cache.resume .file w = (c, .done x)) : r.produce i ≠ r := by
  have hlt : i < r.producers.length := (List.getElem?_eq_some_iff.1 h).1
  intro heq
  have hi : (r.produce i).producers[i]? = some (.fetching l w) := by rw [heq, h]
  unfold produce at hi
  rw [h] at hi
  dsimp only at hi
  unfold produceFetching at hi
  rw [hr] at hi
  cases x <;> simp [close, become, note, hlt] at hi

/-- A fetch that comes to a file adds a producer for it. -/
theorem resolve_content {r : Run} {i k : Nat} {w : Rewriting} {m : ManifestSource} {o : Open} {l : Location} {w' : Wait}
    {replacement : String} {c : Cache} {f : Cdn.File} (h : r.producers[i]? = some (.rewriting w m))
    (hk : w.left[k]? = some o) (ho : o.stage = .content l w' replacement)
    (hr : r.cache.resume .file w' = (c, .done (.ok f))) :
    (r.resolve i k).producers[r.producers.length]? = some (.dependency l) := by
  unfold resolve
  rw [h]
  dsimp only
  rw [hk]
  dsimp only
  have hload : load r.cache o.stage.needsManifest m = (r.cache, m) := by
    rw [ho]
    cases m <;> rfl
  rw [hload, ho]
  simp [Stage.step, hr, spawn, become]

/-- A move keeps the ledger. -/
theorem Ledger.step (h : Ledger r₀ items ms L) (hread : Readable items) (m : Move) :
    ∃ L', Ledger r₀ items (ms ++ [m]) L' := by
  have hplay : r₀.play (ms ++ [m]) = (r₀.play ms).step m := play_concat r₀ ms m
  cases m with
  | produce i =>
    have hfinds : ∀ j k l, Finds r₀ (ms ++ [.produce i]) j k l → Finds r₀ ms j k l :=
      fun j k l hl => hl.of_other (by simp)
    rcases (r₀.play ms).produce_turns i with ⟨hsame, -⟩ | ⟨t, ht⟩
    · refine ⟨L, h.stay (hplay.trans hsame) rfl (fun j l x hx => hx.of_concat.resolve_right ?_) hfinds⟩
      rintro ⟨hm, w, c, hw, hr⟩
      obtain rfl := Move.produce.inj hm
      exact produce_fetching hw hr hsame
    · refine h.turn hread (by rw [hplay]; exact ht) rfl (fun j l x hx => ?_) fun j k l hl => Or.inl (hfinds j k l hl)
      rcases hx.of_concat with hx | ⟨hm, w, c, hw, hr⟩
      · exact Or.inl hx
      · obtain rfl := Move.produce.inj hm
        exact Or.inr ⟨rfl, w, c, Option.some.inj (ht.before.symm.trans hw), hr⟩
  | resolve i k =>
    have hfetched : ∀ j l x, Fetched r₀ (ms ++ [.resolve i k]) j l x → Fetched r₀ ms j l x :=
      fun j l x hx => hx.of_other (by simp)
    have hadds : ∀ j k' l, Finds r₀ (ms ++ [.resolve i k]) j k' l → Finds r₀ ms j k' l ∨
        ((r₀.play ms).resolve i k).producers[(r₀.play ms).producers.length]? = some (.dependency l) := by
      intro j k' l hl
      rcases hl.of_concat with hl | ⟨hm, w, m', o, w', t, c, f, hw, hk, ho, hr⟩
      · exact Or.inl hl
      · obtain ⟨rfl, rfl⟩ := Move.resolve.inj hm
        exact Or.inr (resolve_content hw hk ho hr)
    rcases (r₀.play ms).resolve_turns i k with hsame | ⟨t, ht⟩
    · refine ⟨L, h.stay (hplay.trans hsame) rfl hfetched fun j k' l hl => ?_⟩
      refine (hadds j k' l hl).resolve_right fun hnew => ?_
      rw [hsame, List.getElem?_eq_none (Nat.le_refl _)] at hnew
      exact absurd hnew (by simp)
    · refine h.turn hread (by rw [hplay]; exact ht) rfl (fun j l x hx => Or.inl (hfetched j l x hx)) fun j k' l hl => ?_
      rcases hadds j k' l hl with hl | hnew
      · exact Or.inl hl
      · have hlt := ht.lt
        rw [ht.getElem?, if_neg (by omega), if_pos rfl] at hnew
        exact Or.inr hnew
  | answer n a =>
    refine ⟨L, h.keep (by rw [hplay]; rfl) (by rw [hplay]; rfl) (by rw [hplay]; rfl) (by rw [hplay]; rfl) ?_
      (fun j l x hx => hx.of_other (by simp)) fun j k l hl => hl.of_other (by simp)⟩
    rw [taken_concat, hplay]
    exact congrArg (· ++ _) (List.append_nil _)
  | take =>
    have hfetched : ∀ j l x, Fetched r₀ (ms ++ [.take]) j l x → Fetched r₀ ms j l x :=
      fun j l x hx => hx.of_other (by simp)
    have hfinds : ∀ j k l, Finds r₀ (ms ++ [.take]) j k l → Finds r₀ ms j k l :=
      fun j k l hl => hl.of_other (by simp)
    have htook : (r₀.play ms).took .take = ((r₀.play ms).merge.take?.bind (·.1)).toList := rfl
    rcases ht : (r₀.play ms).merge.take? with _ | ⟨e, merge⟩
    · rw [ht] at htook
      exact ⟨L, h.stay (by rw [hplay, Run.step, ht]) htook hfetched hfinds⟩
    · rw [ht] at htook
      have hnext : r₀.play (ms ++ [.take]) = { r₀.play ms with merge } := by
        rw [hplay, Run.step, ht]
      refine ⟨L, h.keep (by rw [hnext]) (by rw [hnext]) (by rw [hnext]) (by rw [hnext]) ?_ hfetched hfinds⟩
      rw [taken_concat, htook, hnext, Option.bind_some, (Merge.take?_eq_some ht).1, List.append_assoc]
      cases e <;> rfl

/-- A build that begins has an entry for its outputs. -/
theorem ledger_begin {r : Run} (hm : r.merge = {}) (items : List Output) (fails : Bool) :
    Ledger (r.begin items fails) items [] [{ origin := .source }] where
  map := rfl
  length := rfl
  tells i e p he hp := by
    rcases i with _ | i
    · obtain rfl := Option.some.inj he
      obtain rfl := Option.some.inj hp
      exact .source rfl
    · exact absurd he (by simp)
  given := by
    have hqueue : (r.begin items fails).merge.queue = [] := by
      show r.merge.queue = []
      rw [hm]
    show (((r.begin items fails).taken []) ++ (r.begin items fails).merge.queue.reduceOption).Perm []
    rw [hqueue]
    exact .refl _
  source := ⟨[], items, rfl, rfl, rfl, Or.inl ⟨fails, rfl⟩, fun _ => rfl⟩
  begun := .refl _
  fetched i l x hx := by
    obtain ⟨before, w, c, hb, -⟩ := hx
    exact absurd (List.prefix_nil.1 hb) (by simp)
  found i k l hl := by
    obtain ⟨before, w, m, o, w', t, c, f, hb, -⟩ := hl
    exact absurd (List.prefix_nil.1 hb) (by simp)

theorem ledger_play {r : Run} (hm : r.merge = {}) (fails : Bool) (hread : Readable items)
    (ms : List Move) : ∃ L, Ledger (r.begin items fails) items ms L := by
  induction ms using List.reverseRecOn with
  | nil => exact ⟨_, ledger_begin hm items fails⟩
  | append_singleton ms m ih =>
    obtain ⟨L, hL⟩ := ih
    exact hL.step hread m

/-! ## The end of the stream -/

/-- What the consumer has taken when the stream is over, by the producers that gave it. -/
structure Accounts (r₀ : Run) (items : List Output) (ms : List Move) (L : List Entry) : Prop where
  /-- What was taken is what the producers gave, each output once. -/
  taken : (r₀.taken ms).Perm (L.flatMap Entry.given)
  /-- The outputs of the project that are no scripts were given as they are. -/
  source : L[0]? = some ⟨.source, items.filter Output.passes⟩ ∧ ∀ i e, L[i]? = some e → e.origin = .source → i = 0
  /-- There is an entry for each script of the project. -/
  scripts : L.filterMap Entry.script? = items.filterMap Output.script?
  /-- For each script of the project, and for the file of each dependency that came to one, the script was given with
  the problems of its specifiers. -/
  wrote : ∀ i e f, L[i]? = some e → e.file? = some f → Wrote r₀ ms i f e.given
  /-- There is one problem for each specifier of a script that came to a failure, and none for another one. -/
  reports : ∀ i e f imports, L[i]? = some e → e.file? = some f → Script.imports f.content = .ok imports →
    ∃ (results : List (Open × Except Failure String)) (problems : List Output) (content : String),
      results.map (·.1) = (Rewriting.start r₀.map f imports).left ∧
      (∀ e ∈ results, Came r₀ ms i e.1 e.2) ∧ List.Forall₂ (Reports f) (failures results) problems ∧
      e.given = problems ++ [.file { f with content }]
  /-- Nothing else was given. -/
  silent : ∀ e ∈ L, e.origin ≠ .source → e.file? = none → e.given = []
  /-- No dependency was begun twice, nor was one that had been begun before. -/
  once : ((L.flatMap fun e => e.begun?.toList) ++ r₀.handled).Nodup
  /-- Each location that was found to be there was begun before, or was begun and its fetch came to a result. -/
  found : ∀ i k l, Finds r₀ ms i k l → written l ∈ r₀.handled ∨
    ∃ e ∈ L, ∃ l' x, e.origin = .dependency l' (.came x) ∧ written l' = written l
  /-- What the fetch of a dependency came to is in its entry. -/
  fetched : ∀ i l x, Fetched r₀ ms i l x → ∃ e, L[i]? = some e ∧ e.origin = .dependency l (.came x)

/-- An output of the project that is no script was taken. -/
theorem Accounts.mem_taken (h : Accounts r₀ items ms L) {o : Output} (ho : o ∈ items) (hp : o.passes = true) :
    o ∈ r₀.taken ms :=
  h.taken.mem_iff.2 (List.mem_flatMap.2 ⟨_, List.mem_of_getElem? h.source.1, List.mem_filter.2 ⟨ho, hp⟩⟩)

/-- The fetch of a producer that has ended has come to a result, if it was begun. -/
theorem came_of_begun {handled : List String} {i : Nat} {e : Entry} {key : String}
    (h : Tells r₀ ms handled i e .ended) (hb : e.begun? = some key) : ∃ l x, e.origin = .dependency l (.came x) := by
  cases h with
  | passed => exact absurd hb (by simp [Entry.begun?])
  | known => exact absurd hb (by simp [Entry.begun?])
  | @missing l x => exact ⟨l, _, rfl⟩
  | wrote hfile =>
    obtain ⟨o, given⟩ := e
    rcases o with _ | f | ⟨l, _ | _ | x⟩
    · exact absurd hfile (by simp [Entry.file?])
    · exact absurd hb (by simp [Entry.begun?])
    · exact absurd hfile (by simp [Entry.file?])
    · exact absurd hfile (by simp [Entry.file?])
    · exact ⟨l, x, rfl⟩

/-- A dependency whose file is rewritten has come to it. -/
theorem came_of_location {e : Entry} {f : File} {l : Location} (hf : e.file? = some f) (hl : e.location? = some l) :
    ∃ x, e.origin = .dependency l (.came x) := by
  obtain ⟨o, given⟩ := e
  rcases o with _ | f | ⟨l', _ | _ | x⟩
  · exact absurd hf (by simp [Entry.file?])
  · exact absurd hl (by simp [Entry.location?])
  · exact absurd hf (by simp [Entry.file?])
  · exact absurd hf (by simp [Entry.file?])
  · obtain rfl := Option.some.inj hl
    exact ⟨x, rfl⟩

/-- When the stream is over, everything was given. -/
theorem Ledger.accounts (h : Ledger r₀ items ms L) (hs : (r₀.play ms).Sound)
    (hover : (r₀.play ms).merge.isOver = true) : Accounts r₀ items ms L := by
  obtain ⟨hlive, hqueue, -⟩ := hs.balanced.over hover
  have hended : ∀ (i : Nat) (p : Producer), (r₀.play ms).producers[i]? = some p → p = Producer.ended := by
    intro i p hp
    have hle := le_sum (fun p => p.isLive.toNat) (List.mem_of_getElem? hp)
    rw [show (r₀.play ms).total (fun p => p.isLive.toNat) = 0 from hlive] at hle
    cases p with
    | ended => rfl
    | _ => exact absurd hle (by simp [Producer.isLive])
  have htells : ∀ i e, L[i]? = some e → Tells r₀ ms (r₀.play ms).handled i e .ended := by
    intro i e he
    have hlt : i < (r₀.play ms).producers.length := h.length ▸ (List.getElem?_eq_some_iff.1 he).1
    have hp := List.getElem?_eq_getElem hlt
    have htell := h.tells i e _ he hp
    rwa [hended i _ hp] at htell
  obtain ⟨done, rest, hsource⟩ := h.source
  obtain ⟨rfl, -⟩ : rest = [] ∧ (r₀.play ms).producers[0]? = some .ended := by
    refine hsource.left.resolve_left ?_
    rintro ⟨fails, hleft⟩
    exact absurd (hended 0 _ hleft) (by simp)
  have hall : done = items := by rw [hsource.all, List.append_nil]
  subst hall
  have hwrote : ∀ i e f, L[i]? = some e → e.file? = some f → Wrote r₀ ms i f e.given := by
    intro i e f he hf
    cases htells i e he with
    | @wrote _ f' hfile hw =>
      obtain rfl := Option.some.inj (hf.symm.trans hfile)
      exact hw
    | _ => exact absurd hf (by simp [Entry.file?])
  refine ⟨?_, ⟨hsource.given, fun i e he ho => ?_⟩, hsource.scripts, hwrote, fun i e f imports he hf hi => ?_,
    fun e he ho hf => ?_, h.begun.nodup_iff.2 hs.distinct, fun i k l hl => ?_, h.fetched⟩
  · have hgiven := h.given
    rwa [hqueue, List.reduceOption_nil, List.append_nil] at hgiven
  · cases htells i e he with
    | passed hi => exact hi
    | wrote hfile => exact absurd hfile (by simp [Entry.file?, ho])
    | _ => exact absurd ho (by simp)
  · exact (hwrote i e f he hf).reports hi
  · obtain ⟨i, hi⟩ := List.mem_iff_getElem?.1 he
    cases htells i e hi with
    | passed => exact absurd rfl ho
    | wrote hfile => exact absurd (hf.symm.trans hfile) (by simp)
    | _ => rfl
  · obtain ⟨e, he, hloc⟩ := h.found i k l hl
    obtain ⟨j, hj⟩ := List.mem_iff_getElem?.1 he
    cases htells j e hj with
    | passed => exact absurd hloc (by simp [Entry.location?])
    | @known l' hknown =>
      obtain rfl := Option.some.inj hloc
      -- the producer that has begun it has ended, so that its fetch has come to a result
      refine ((List.mem_append.1 (h.begun.mem_iff.2 hknown)).symm).imp_right fun hmem => ?_
      obtain ⟨e', he', hbegun⟩ := List.mem_flatMap.1 hmem
      obtain ⟨j', hj'⟩ := List.mem_iff_getElem?.1 he'
      obtain ⟨l₂, x, horigin⟩ := came_of_begun (htells j' e' hj') (Option.mem_toList.1 hbegun)
      refine ⟨e', he', l₂, x, horigin, ?_⟩
      have hkey : written l' = written l₂ := by simpa [Entry.begun?, horigin] using hbegun
      exact hkey.symm
    | @missing l' e => exact Or.inr ⟨_, he, l', _, rfl, congrArg written (Option.some.inj hloc)⟩
    | wrote hfile =>
      obtain ⟨f', horigin⟩ := came_of_location hfile hloc
      exact Or.inr ⟨e, he, l, _, horigin, rfl⟩

end Ledger

end BareImports.Build.Run
