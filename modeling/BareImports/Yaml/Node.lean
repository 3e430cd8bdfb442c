import BareImports.Table
import BareImports.Yaml.Kind
import BareImports.Yaml.Token

/-!
# The nodes of a YAML document

* `Node`: scalars, lists and mappings with what they are to be read as;
* `Node.ofTokens`: the node of the one document that the tokens make, `none` if there is no document.
-/

namespace BareImports.Yaml

/-- A node. -/
inductive Node
  /-- A scalar. -/
  | scalar (kind : Kind) (text : List Char)
  /-- A list. -/
  | list (kind : Kind) (items : List Node)
  /-- A mapping. -/
  | map (kind : Kind) (pairs : List (Node × Node))

/-- What the reading of a document has come to. -/
structure Reading where
  /-- The tokens yet to be read. -/
  tokens : List Token
  /-- The handles of tags and what they stand for. -/
  handles : List (List Char × List Char) := [("!".toList, "!".toList), ("!!".toList, Kind.standard)]
  /-- The anchors met so far. -/
  anchors : List (List Char) := []
  /-- The nodes of the anchors whose node has ended. -/
  nodes : List (List Char × Node) := []

/-- A step of reading: it may fail, and it moves on in the tokens. -/
abbrev Step := StateT Reading (Except Fault)

namespace Node

/-- The node that stands where nothing is written. -/
def nothing : Node := .scalar .null []

/-- The next token. -/
def peek? : Step (Option Token) := return (← get).tokens.head?

/-- Passes the next token. -/
def pass : Step Unit := modify fun r => { r with tokens := r.tokens.drop 1 }

/-- Whether the next token passes a test. -/
def isNext (p : Token → Bool) : Step Bool := return (← peek?).any p

/-- The name of a tag in full; none if it leaves the kind to the form. -/
def fullName (t : Tag) : Step (Option (List Char)) := do
  let name ← match t.handle with
    | none => pure t.suffix
    | some h => match (← get).handles.lookup h with
      | some start => pure (start ++ t.suffix)
      | none => throw .malformed
  return if name == ['!'] then none else some name

/-- What may stand in front of a node. -/
structure Properties where
  /-- Its anchor. -/
  anchor : Option (List Char) := none
  /-- Whether it has a tag. -/
  tagged : Bool := false
  /-- The name of its tag, if that names a kind. -/
  name : Option (List Char) := none

/-- The anchor of a node, if one comes next. -/
def readAnchor (p : Properties) : Step Properties := do
  match ← peek? with
  | some (.anchor a) =>
    pass
    return { p with anchor := some a }
  | _ => return p

/-- The tag of a node, if one comes next. -/
def readTag (p : Properties) : Step Properties := do
  match ← peek? with
  | some (.tag t) =>
    pass
    return { p with tagged := true, name := ← fullName t }
  | _ => return p

/-- The anchor and the tag of a node, in either order. -/
def readProperties : Step Properties := do
  let p ← readAnchor {}
  let p ← readTag p
  if p.anchor.isSome then return p else readAnchor p

/-- What a node without tag is read as, or what its tag names. -/
def Properties.kind (p : Properties) (d : Kind) : Kind := p.name.elim d Kind.ofName

/-- The kind of a scalar. -/
def Properties.scalarKind (p : Properties) (plain : Bool) (text : List Char) : Kind :=
  p.kind (if plain || p.tagged then Kind.ofPlain text else .text)

/-- Takes note of an anchor, which no other node may have. -/
def noteAnchor (p : Properties) : Step Unit := do
  match p.anchor with
  | none => return
  | some a =>
    if (← get).anchors.contains a then throw .malformed
    modify fun r => { r with anchors := a :: r.anchors }

/-- Takes note of the node of an anchor. -/
def noteNode (p : Properties) (n : Node) : Step Node := do
  match p.anchor with
  | none => return n
  | some a =>
    modify fun r => { r with nodes := (a, n) :: r.nodes }
    return n

/-- Whether a token ends the entry of an indented list. -/
def endsEntry : Token → Bool
  | .entry | .blockEnd => true
  | _ => false

/-- Whether a token ends a key or a value of an indented mapping. -/
def endsPart : Token → Bool
  | .key | .value | .blockEnd => true
  | _ => false

/-- Whether a token ends the entry of a list that has no indentation of its own. -/
def endsLooseEntry (t : Token) : Bool := endsEntry t || endsPart t

/-- Whether a token ends a member of a list or mapping in brackets. -/
def endsMember (close : Token → Bool) : Token → Bool
  | .comma => true
  | t => close t

/-- Whether a token ends a key of a list or mapping in brackets. -/
def endsKey (close : Token → Bool) : Token → Bool
  | .value => true
  | t => endsMember close t

/-- Whether a token closes a list in brackets. -/
def closesList : Token → Bool
  | .closeList => true
  | _ => false

/-- Whether a token closes a mapping in braces. -/
def closesMap : Token → Bool
  | .closeMap => true
  | _ => false

mutual

/-- A node: `block` says whether indented collections may begin here, `loose` whether also a list without indentation
of its own. -/
def read (block loose : Bool) : Nat → Step Node
  | 0 => throw .malformed
  | fuel + 1 => do
    match ← peek? with
    | some (.alias a) =>
      pass
      match (← get).nodes.lookup a with
      | some n => return n
      | none => throw .malformed
    | _ =>
      let p ← readProperties
      noteAnchor p
      let n ← match ← peek? with
        | some (.scalar plain text) =>
          pass
          pure (.scalar (p.scalarKind plain text) text)
        | some .openList =>
          pass
          pure (.list (p.kind .list) (← members true fuel))
        | some .openMap =>
          pass
          pure (.map (p.kind .map) (← memberPairs true fuel))
        | some .listStart =>
          if !block then throw .malformed
          pass
          pure (.list (p.kind .list) (← entries fuel))
        | some .mapStart =>
          if !block then throw .malformed
          pass
          pure (.map (p.kind .map) (← blockPairs fuel))
        | t =>
          if loose && t.any (fun | .entry => true | _ => false) then pure (.list (p.kind .list) (← looseEntries fuel))
          else if p.anchor.isSome || p.tagged then pure (.scalar (p.kind .null) [])
          else throw .malformed
      noteNode p n

/-- A node, or nothing if the next token ends its place. -/
def readUnless (ends : Token → Bool) (block loose : Bool) : Nat → Step Node
  | 0 => throw .malformed
  | fuel + 1 => do if ← isNext ends then return nothing else read block loose fuel

/-- What stands behind a colon, nothing if there is none. -/
def readValue (ends : Token → Bool) (block : Bool) : Nat → Step Node
  | 0 => throw .malformed
  | fuel + 1 => do
    match ← peek? with
    | some .value =>
      pass
      readUnless ends block block fuel
    | _ => return nothing

/-- The entries of an indented list and its end. -/
def entries : Nat → Step (List Node)
  | 0 => throw .malformed
  | fuel + 1 => do
    match ← peek? with
    | some .entry =>
      pass
      let n ← readUnless endsEntry true false fuel
      return n :: (← entries fuel)
    | some .blockEnd =>
      pass
      return []
    | _ => throw .malformed

/-- The entries of a list without indentation of its own. -/
def looseEntries : Nat → Step (List Node)
  | 0 => throw .malformed
  | fuel + 1 => do
    match ← peek? with
    | some .entry =>
      pass
      let n ← readUnless endsLooseEntry true false fuel
      return n :: (← looseEntries fuel)
    | _ => return []

/-- The pairs of an indented mapping and its end. -/
def blockPairs : Nat → Step (List (Node × Node))
  | 0 => throw .malformed
  | fuel + 1 => do
    match ← peek? with
    | some .key =>
      pass
      let k ← readUnless endsPart true true fuel
      let v ← readValue endsPart true fuel
      return (k, v) :: (← blockPairs fuel)
    | some .blockEnd =>
      pass
      return []
    | _ => throw .malformed

/-- The members of a list in brackets and its end; a comma comes before each but the first. A key among them is a
mapping of one pair. -/
def members (first : Bool) : Nat → Step (List Node)
  | 0 => throw .malformed
  | fuel + 1 => do
    if ← isNext closesList then
      pass
      return []
    if !first then
      match ← peek? with
      | some .comma => pass
      | _ => throw .malformed
    match ← peek? with
    | some .key =>
      pass
      let k ← readUnless (endsKey closesList) false false fuel
      let v ← readValue (endsMember closesList) false fuel
      return .map .map [(k, v)] :: (← members false fuel)
    | some .closeList =>
      pass
      return []
    | _ =>
      let n ← read false false fuel
      return n :: (← members false fuel)

/-- The pairs of a mapping in braces and its end; a comma comes before each but the first. -/
def memberPairs (first : Bool) : Nat → Step (List (Node × Node))
  | 0 => throw .malformed
  | fuel + 1 => do
    if ← isNext closesMap then
      pass
      return []
    if !first then
      match ← peek? with
      | some .comma => pass
      | _ => throw .malformed
    match ← peek? with
    | some .key =>
      pass
      let k ← readUnless (endsKey closesMap) false false fuel
      let v ← readValue (endsMember closesMap) false fuel
      return (k, v) :: (← memberPairs false fuel)
    | some .closeMap =>
      pass
      return []
    | _ =>
      let k ← read false false fuel
      return (k, nothing) :: (← memberPairs false fuel)

end

/-- The handles that the lines in front of a document declare; the version may stand there once. -/
def declared (versioned : Bool) (handles : List (List Char × List Char)) :
    List Directive → Except Fault (List (List Char × List Char))
  | [] => .ok handles
  | .version major :: ds => if versioned || major != 1 then .error .malformed else declared true handles ds
  | .handle name start :: ds =>
    if (handles.lookup name).isSome then .error .malformed else declared versioned ((name, start) :: handles) ds
  | .other :: ds => declared versioned handles ds

/-- The directives in front of the tokens, and the other tokens. -/
def cutDirectives : List Token → List Directive × List Token
  | .directive d :: ts =>
    let (ds, r) := cutDirectives ts
    (d :: ds, r)
  | ts => ([], ts)

/-- Whether a token cannot belong to a document. -/
def endsDocument : Token → Bool
  | .directive _ | .documentStart | .documentEnd => true
  | _ => false

/-- Whether a token is the mark behind a document. -/
def isDocumentEnd : Token → Bool
  | .documentEnd => true
  | _ => false

/-- Reads one node and makes sure that no other document follows. -/
def alone (r : Reading) (n : Step Node) : Except Fault Node := do
  let (n, r) ← n.run r
  if (r.tokens.dropWhile isDocumentEnd).isEmpty then return n else throw .malformed

/-- The node of the one document that the tokens make, `none` if there are no tokens. -/
def ofTokens (tokens : List Token) : Except Fault (Option Node) := do
  let fuel := 4 * tokens.length + 4
  if tokens.isEmpty then return none
  let start : Reading := { tokens }
  let (ds, rest) := cutDirectives tokens
  match ds, rest with
  | ds, .documentStart :: rest =>
    let handles ← declared false [] ds
    let start := { start with tokens := rest, handles := handles ++ start.handles }
    if rest.head?.all endsDocument then return some (← alone start (pure nothing))
    else return some (← alone start (read true false fuel))
  | [], _ => return some (← alone start (read true false fuel))
  | _, _ => throw .malformed

end Node

end BareImports.Yaml
