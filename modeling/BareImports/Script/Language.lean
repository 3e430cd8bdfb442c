import BareImports.Script.Automaton
import BareImports.Script.Numbered

/-!
# Languages

A language is the grammar of a dialect with what a reading asks of it again and again.

* `Language`: the positions of all nodes, and what they begin with;
* `Language.first`: the tokens that a node begins with;
* `Language.reach`: the nodes with which a node may begin, at any depth, and what follows them;
* `Language.entries`: the productions that a symbol begins;
* `Language.automaton_ofDialect`, `Language.reach_ofDialect`, `Language.get_byNumber`: what the tables hold for each node;
* `Language.plain`, `Language.typed`: the languages of the two dialects.
-/

namespace BareImports.Script

/-- All nodes in their order. -/
def Node.all : List Node := (List.range (Node.script.ctorIdx + 1)).map Node.ofNat

/-- All tokens in their order. -/
def Token.all : List Token := (List.range (Token.neverWord.ctorIdx + 1)).map Token.ofNat

/-- A node that stands at the beginning of another one. -/
structure Reach where
  /-- The node. -/
  node : Node
  /-- The tokens that may follow it inside the other one. -/
  follow : TokenSet
  /-- Whether what follows the other one may follow it too. -/
  inherits : Bool

/-- A production that a symbol begins. -/
structure Entry where
  /-- The node. -/
  node : Node
  /-- The number of the production. -/
  production : Nat
  /-- The position behind the symbol. -/
  position : Nat

/-- A grammar with what readings ask of it. -/
structure Language where
  /-- The dialect. -/
  dialect : Dialect
  /-- The positions of each node. -/
  automata : Numbered Automaton
  /-- The tokens that each node begins with. -/
  firsts : Numbered TokenSet
  /-- The nodes at the beginning of each node. -/
  reaches : Numbered (Thunk (List Reach))
  /-- The productions that each token begins. -/
  tokenEntries : Numbered (List Entry)
  /-- The productions that each node begins. -/
  nodeEntries : Numbered (List Entry)

namespace Language

/-! ## What nodes begin with -/

/-- One round of adding what the first nodes of a node begin with. -/
def firstRound (automata : List Automaton) (firsts : Numbered TokenSet) : List TokenSet :=
  automata.map fun a => a.firstNodes.foldl (fun s (n, _) => s.union (firsts.get n.ctorIdx)) a.firstTokens

/-- Rounds until nothing is added, no more of them than the fuel. -/
def firstsFrom (automata : List Automaton) : Nat → List TokenSet → List TokenSet
  | 0, firsts => firsts
  | fuel + 1, firsts =>
    let more := firstRound automata (.ofList .empty firsts)
    if more == firsts then firsts else firstsFrom automata fuel more

/-- The tokens that may follow a position, also as the first ones of nodes. -/
def nextTokens (firsts : Numbered TokenSet) (p : Position) : TokenSet :=
  p.onNode.foldl (fun s (n, _) => s.union (firsts.get n.ctorIdx)) (.ofList (p.onToken.map (·.1)))

/-- The positions of a node, with the tokens that may follow each of them. -/
def withNext (firsts : Numbered TokenSet) (a : Automaton) : Automaton :=
  { a with positions := (a.positions.toList.map fun p => { p with next := nextTokens firsts p }).toArray }

/-! ## The nodes at the beginning of a node -/

/-- The first nodes of a node, with the position behind each of them. -/
def heads (a : Automaton) : List (Node × Position) := a.firstNodes.map fun (n, i) => (n, a.position i)

/-- What may follow the nodes that are found so far, by node; nothing may follow one that is not found. -/
abbrev Spread := Numbered (TokenSet × Bool)

/-- Goes on from some nodes to the first nodes of theirs, as long as something is added. -/
def spread (headsOf : Numbered (List (Node × Position))) : Nat → List Node → Spread → Spread
  | 0, _, found => found
  | _, [], found => found
  | fuel + 1, n :: work, found =>
    let (follow, inherits) := found.get n.ctorIdx
    let (work, found) := (headsOf.get n.ctorIdx).foldl (fun (work, found) (m, p) =>
      let (oldFollow, oldInherits) := found.get m.ctorIdx
      let newFollow := oldFollow.union (if p.final then p.next.union follow else p.next)
      let newInherits := oldInherits || (p.final && inherits)
      if newFollow == oldFollow && newInherits == oldInherits then (work, found)
      else (m :: work, found.update m.ctorIdx fun _ => (newFollow, newInherits))) (work, found)
    spread headsOf fuel work found

/-- How many steps a spread may take: in each of them something is added. -/
def spreadFuel : Nat := 100000

/-- The nodes at the beginning of a node, at any depth, itself included. -/
def reachOf (headsOf : Numbered (List (Node × Position))) (n : Node) : List Reach :=
  let found := spread headsOf spreadFuel [n] ((Numbered.all (.empty, false)).update n.ctorIdx fun _ => (.empty, true))
  Node.all.filterMap fun m =>
    let (follow, inherits) := found.get m.ctorIdx
    if inherits || follow != .empty then some ⟨m, follow, inherits⟩ else none

/-! ## The productions that a symbol begins -/

/-- The productions of a node, each with a symbol that it begins with and the position behind it. -/
def entriesOf (pick : Position → List (Nat × Nat)) (n : Node) (a : Automaton) : List (Nat × Entry) :=
  (a.productions.toList.zipIdx).flatMap fun ((_, start), k) =>
    (pick (a.position start)).map fun (s, i) => (s, ⟨n, k, i⟩)

/-- Entries by the number of their symbol, in their order. -/
def byNumber (entries : List (Nat × Entry)) : Numbered (List Entry) :=
  entries.foldr (fun (s, e) table => table.update s (e :: ·)) (.all [])

theorem get_byNumber (entries : List (Nat × Entry)) (n : Nat) :
    (byNumber entries).get n = (entries.filter fun e => e.1 == n).map (·.2) := by
  induction entries with
  | nil => rfl
  | cons e entries ih =>
    show ((byNumber entries).update e.1 (e.2 :: ·)).get n = _
    rw [Numbered.get_update, ih, List.filter_cons]
    by_cases h : e.1 = n
    · simp [h]
    · simp [h, Ne.symm h]

/-! ## Languages -/

/-- The language of a dialect. -/
def ofDialect (d : Dialect) : Language :=
  let drafts := Node.all.map fun n => Automaton.ofProductions (productions d n)
  let firsts := .ofList .empty (firstsFrom drafts Node.all.length (drafts.map Automaton.firstTokens))
  let automata := drafts.map (withNext firsts)
  let headsOf := .ofList [] (automata.map heads)
  let entries := fun pick => (Node.all.zip automata).flatMap fun (n, a) => entriesOf pick n a
  { dialect := d
    automata := .ofList default automata
    firsts
    reaches := .ofList (Thunk.mk fun _ => []) (Node.all.map fun n => Thunk.mk fun _ => reachOf headsOf n)
    tokenEntries := byNumber (entries fun p => p.onToken.map fun (t, i) => (t.ctorIdx, i))
    nodeEntries := byNumber (entries fun p => p.onNode.map fun (n, i) => (n.ctorIdx, i)) }

/-- The language of scripts as they are run. -/
def plain : Language := ofDialect .plain

/-- The language of scripts with types. -/
def typed : Language := ofDialect .typed

/-- The language of a dialect, made once. -/
def of (d : Dialect) : Language := d.pick plain typed

variable (l : Language)

/-- The positions of a node. -/
def automaton (n : Node) : Automaton := l.automata.get n.ctorIdx

/-- The tokens that a node begins with. -/
def first (n : Node) : TokenSet := l.firsts.get n.ctorIdx

/-- The nodes at the beginning of a node, at any depth, itself included. -/
def reach (n : Node) : List Reach := (l.reaches.get n.ctorIdx).get

/-- The productions that a symbol begins. -/
def entries : Symbol → List Entry
  | .token t => l.tokenEntries.get t.ctorIdx
  | .node n => l.nodeEntries.get n.ctorIdx

/-- A production of a node. -/
def production (n : Node) (k : Nat) : Option Production := ((l.automaton n).productions[k]?).map (·.1)

/-! ## What the tables hold -/

theorem getElem?_all (n : Node) : Node.all[n.ctorIdx]? = some n := by
  have hlt : n.ctorIdx < Node.script.ctorIdx + 1 := by cases n <;> decide
  rw [Node.all, List.getElem?_map, List.getElem?_range hlt]
  exact congrArg some (Node.ofNat_ctorIdx n)

theorem get_ofList_all {α : Type} (x : α) (f : Node → α) (n : Node) :
    (Numbered.ofList x (Node.all.map f)).get n.ctorIdx = f n := by
  rw [Numbered.get_ofList, List.getD_eq_getElem?_getD, List.getElem?_map, getElem?_all]
  rfl

/-- The positions of each node are those of its productions, with what may follow them. -/
theorem automaton_ofDialect (d : Dialect) (n : Node) :
    (ofDialect d).automaton n = withNext (ofDialect d).firsts (Automaton.ofProductions (productions d n)) := by
  unfold automaton ofDialect
  dsimp only
  rw [List.map_map, get_ofList_all]
  rfl

/-- The nodes at the beginning of each node are found by going on from their positions. -/
theorem reach_ofDialect (d : Dialect) : ∃ headsOf : Numbered (List (Node × Position)),
    (∀ n, headsOf.get n.ctorIdx = heads ((ofDialect d).automaton n)) ∧ ∀ n, (ofDialect d).reach n = reachOf headsOf n := by
  refine ⟨.ofList [] (Node.all.map fun n => heads ((ofDialect d).automaton n)), fun n => get_ofList_all _ _ n, fun n => ?_⟩
  have hheads : (Node.all.map fun n => heads ((ofDialect d).automaton n)) =
      ((Node.all.map fun n => Automaton.ofProductions (productions d n)).map (withNext (ofDialect d).firsts)).map heads := by
    simp only [automaton_ofDialect, List.map_map, Function.comp_def]
  rw [hheads]
  unfold reach ofDialect
  dsimp only
  rw [get_ofList_all, Thunk.get]

end Language

end BareImports.Script
