import BareImports.Script.Imports
import BareImports.Text.Blank
import BareImports.Text.Cut

/-!
# What declaration files refer to

Declaration files are gone through by their trees, faults included, so that broken ones give what they name too.

* `References`: the imports and the three kinds of directives;
* `headComments`: the comments in front of the first token;
* `directive?`: what a comment of three slashes refers to;
* `sourceOf?`, `argumentOf?`: the literals that statements and calls name modules with;
* `Tree.moduleNames`: the modules that a tree names;
* `references`: all that a text refers to, each thing once.
-/

namespace BareImports.Script

open Text

/-- What a declaration file refers to. -/
structure References where
  /-- The modules that it imports. -/
  imports : List String := []
  /-- The files that its directives name. -/
  paths : List String := []
  /-- The packages of types that its directives name. -/
  types : List String := []
  /-- The standard libraries that its directives name. -/
  libs : List String := []
  deriving BEq, DecidableEq, Repr

/-! ## Directives -/

/-- The comments in front of the first token of a text. -/
def headComments : Nat → List Char → List (List Char)
  | 0, _ => []
  | fuel + 1, s => match commentMatcher.longest? s with
    | some n => s.take n :: headComments fuel (s.drop n)
    | none => match s with
      | c :: r => if isSpace c then headComments fuel r else []
      | [] => []

/-- What a directive names. -/
inductive Attribute
  | path
  | types
  | lib
  deriving BEq, DecidableEq, Repr

/-- The attribute with which a text begins, and what follows it. -/
def attribute? (s : List Char) : Option (Attribute × List Char) :=
  (after? "path" s).map (.path, ·) <|> (after? "types" s).map (.types, ·) <|> (after? "lib" s).map (.lib, ·)

/-- The value in quotes with which a text begins. -/
def quotedValue? : List Char → Option (List Char)
  | c :: s => if c == '"' || c == '\'' then
      (cut? c s).bind fun (value, _) => if value.contains '\n' then none else some value
    else none
  | [] => none

/-- What a comment of three slashes refers to: `/// <reference`, white space, an attribute, `=` and a value. -/
def directive? (comment : List Char) : Option (Attribute × String) := do
  let s ← after? "///" comment
  let s ← after? "<reference" (s.dropWhile isBlank)
  let (blank, s) := s.span isBlank
  if blank.isEmpty then none
  let (kind, s) ← attribute? s
  let s ← after? "=" (s.dropWhile isBlank)
  let value ← quotedValue? (s.dropWhile isBlank)
  return (kind, String.ofList value)

/-- The directives in front of the first token of a text. -/
def directives (s : List Char) : List (Attribute × String) := (headComments (s.length + 1) s).filterMap directive?

/-- The values of the directives of one kind, each once. -/
def valuesOf (kind : Attribute) (ds : List (Attribute × String)) : List String :=
  ((ds.filter (·.1 == kind)).map (·.2)).eraseDups

/-! ## Parts of a tree -/

/-- The text of a tree that begins at a place. -/
def Tree.textAt (c : Cursor) (t : Tree) : List Char :=
  (t.facts.first c).rest.take t.facts.span.chars

/-- The text of a literal without its marks. -/
def Tree.literalAt? (c : Cursor) (t : Tree) : Option String :=
  if t.isLiteral || t.kind == .token .stringWord then some (String.ofList ((t.textAt c).drop 1).dropLast) else none

mutual

/-- The first part of a tree that passes a test, where the tree stands for its parts unless it is one of its own. -/
def Tree.firstPart? (p : Kind → Bool) (c : Cursor) : Tree → Option (Cursor × Tree)
  | .mk f children =>
    if f.kind.isShown then if p f.kind then some (c, .mk f children) else none
    else firstPartIn p c children

/-- The first part of some trees that passes a test. -/
def firstPartIn (p : Kind → Bool) (c : Cursor) : List Tree → Option (Cursor × Tree)
  | [] => none
  | t :: ts => t.firstPart? p c <|> firstPartIn p (c.advance t.total.chars) ts

end

/-- The first of some trees of a kind that is no extra one. -/
def firstOf? (p : Kind → Bool) (c : Cursor) : List Tree → Option (Cursor × Tree)
  | [] => none
  | t :: ts =>
    if p t.kind && !t.facts.extra then some (c, t) else firstOf? p (c.advance t.total.chars) ts

/-- The string that names the module of a statement with some parts. -/
def sourceOf? (c : Cursor) (parts : List Tree) : Option String :=
  let isString := fun k => k == Kind.node .stringLiteral
  let found := firstOf? isString c parts <|>
    (firstOf? (· == .node .fromClause) c parts).bind fun (c, t) => firstOf? isString c t.children
  found.bind fun (c, t) => t.literalAt? c

/-- Whether a tree is a word that imports when it is called. -/
def importsWhenCalled (c : Cursor) (t : Tree) : Bool :=
  match t.firstPart? (fun _ => true) c with
  | some (c, t) => t.kind == .node .importCallee ||
      (t.kind == .token .name && t.textAt c == ['r', 'e', 'q', 'u', 'i', 'r', 'e'])
  | none => false

/-- The first argument of a call with some parts, if it imports and the argument is a literal. -/
def argumentOf? (c : Cursor) (parts : List Tree) : Option String := do
  let (place, callee) ← firstOf? (fun _ => true) c parts
  if !importsWhenCalled place callee then none
  let (place, args) ← firstOf? (· == .node .arguments) c parts
  let (place, arg) ← firstPartIn (fun k => !k.isArgumentMark) place args.children
  arg.literalAt? place

/-! ## The modules that a tree names -/

/-- Whether a string in a fault names a module behind something of a kind. -/
def Kind.introducesName : Kind → Bool
  | .token .fromWord | .token .importWord | .node .importCallee => true
  | _ => false

/-- The module that a node names with its parts. -/
def namedBy? (n : Node) (c : Cursor) (parts : List Tree) : Option String :=
  match n with
  | .importStatement | .exportStatement | .importRequireClause => sourceOf? c parts
  | .callExpression | .decoratorCall | .queryCall | .annotatedQueryCall => argumentOf? c parts
  | _ => none

/-- Where a part stands among others: whether they make up a fault, and what stands before it. -/
structure Surroundings where
  /-- Whether the parts make up a fault. -/
  inFault : Bool
  /-- The part before it. -/
  previous : Option Kind

/-- The module that a tree names in its surroundings. -/
def Tree.named? (around : Surroundings) (c : Cursor) (t : Tree) : Option String :=
  match t.kind with
  | .node .stringLiteral | .token .stringWord =>
    if around.inFault && around.previous.any Kind.introducesName then t.literalAt? c else none
  | .node n => namedBy? n c t.children
  | _ => none

mutual

/-- The modules that a tree names, with the place and the surroundings of what follows it. -/
def Tree.moduleNames (around : Surroundings) (c : Cursor) : Tree → List String × Cursor × Surroundings
  | .mk f children =>
    let t := Tree.mk f children
    if children.isEmpty then
      let around' := if t.isShown then { around with previous := some f.kind } else around
      (if t.isShown then (t.named? around c).toList else [], c.advance t.total.chars, around')
    else if t.isShown then
      let (names, c', _) := moduleNamesIn ⟨f.kind == .fault, none⟩ c children
      ((t.named? around c).toList ++ names, c', { around with previous := some f.kind })
    else moduleNamesIn around c children

/-- The modules that trees name which follow one another from a place on. -/
def moduleNamesIn (around : Surroundings) (c : Cursor) : List Tree → List String × Cursor × Surroundings
  | [] => ([], c, around)
  | t :: ts =>
    let (names, c, around) := t.moduleNames around c
    let (more, c, around) := moduleNamesIn around c ts
    (names ++ more, c, around)

end

/-- All that a text refers to, each thing once. Imports of the empty name are left out. -/
def references (text : String) : References :=
  let s := text.toList
  let names := ((parse .typed s).moduleNames ⟨false, none⟩ ⟨0, s⟩).1
  let ds := directives s
  { imports := (names.filter (· != "")).eraseDups
    paths := valuesOf .path ds
    types := valuesOf .types ds
    libs := valuesOf .lib ds }

end BareImports.Script
