import BareImports.Script.Parse
import BareImports.Text.Place

/-!
# The module specifiers of a script

The tree of a script is gone through together with its text, so that places follow from sizes: what is found stands in
the text, in its order, and nothing is looked for inside of a literal that is found.

* `Import`: an occurrence of a module specifier;
* `Wanted`, `Meeting`: what is looked for among the parts of a tree, and what meets it;
* `Walk`, `Tree.walk`: the specifiers of a tree;
* `SyntaxFault`, `Tree.firstFault?`: where a text is no script;
* `imports`: the specifiers of a script.
-/

namespace BareImports.Script

open Text

/-- An occurrence of a module specifier. -/
structure Import where
  /-- The specifier, `none` if it is computed. -/
  name : Option String
  /-- Where its text starts; for a call, where its argument starts. -/
  start : Nat
  /-- Where it ends. -/
  stop : Nat
  /-- Whether it is the argument of a call. -/
  dynamic : Bool
  deriving BEq, DecidableEq, Repr, Inhabited

/-! ## Literals -/

/-- The place a number of characters further on, at most that behind the text. -/
def Cursor.advance : Nat → Cursor → Cursor
  | 0, c => c
  | _, ⟨n, []⟩ => ⟨n, []⟩
  | k + 1, ⟨n, _ :: r⟩ => advance k ⟨n + 1, r⟩

/-- The marks around a string. -/
def quotes : List Char := ['"', '\'']

/-- The marks around a literal: a string, or a template. -/
def literalMarks : List Char := '\x60' :: quotes

/-- The text between two equal ones of some marks. -/
def unquoted? (marks : List Char) : List Char → Option (List Char)
  | [] => none
  | q :: s => if marks.contains q && s.getLast? == some q then some s.dropLast else none

mutual

/-- Whether a tree has a part of some kind that is directly below it. -/
def Tree.hasPart (n : Node) : Tree → Bool
  | .mk _ children => hasPartIn n children

/-- Whether one of some trees is of some kind, or has such a part without being a part of its own. -/
def hasPartIn (n : Node) : List Tree → Bool
  | [] => false
  | t :: ts =>
    t.kind == .node n || (!t.isShown && t.hasPart n) || hasPartIn n ts

end

/-- Whether a tree is a string, or a template without substitutions. -/
def Tree.isLiteral (t : Tree) : Bool :=
  t.kind == .node .stringLiteral || (t.kind == .node .template && !t.hasPart .templateSubstitution)

/-! ## Going through a tree -/

/-- What is looked for among the parts of a tree. -/
inductive Wanted
  /-- Nothing yet. -/
  | nothing
  /-- The string that names the module of a statement. -/
  | source
  /-- The arguments of a call that imports. -/
  | arguments
  /-- The first argument of such a call. -/
  | argument
  deriving DecidableEq

/-- What is looked for among the parts of a node. -/
def Wanted.inside (kind : Kind) (children : List Tree) : Wanted :=
  match kind with
  | .node .importStatement | .node .exportStatement => .source
  | .node .callExpression => if children.any (·.kind == .node .importCallee) then .arguments else .nothing
  | _ => .nothing

/-- Whether a tree is a mark around arguments. -/
def Kind.isArgumentMark : Kind → Bool
  | .token .parenOpen | .token .comma | .token .parenClose => true
  | _ => false

/-- A tree that was gone through. -/
structure Walk where
  /-- The place behind it. -/
  cursor : Cursor
  /-- What is still looked for. -/
  wanted : Wanted
  /-- What was found. -/
  found : List Import

/-- The specifier of a statement: the text of a string between its quotes. -/
def staticImport? (start : Cursor) (length : Nat) : Option Import :=
  (unquoted? quotes (start.rest.take length)).map fun inner =>
    ⟨some (String.ofList inner), start.passed + 1, start.passed + 1 + inner.length, false⟩

/-- The specifier of a call: its first argument. -/
def dynamicImport (start : Cursor) (length : Nat) (literal : Bool) : Import :=
  let text := start.rest.take length
  let name := if literal then unquoted? literalMarks text else none
  ⟨name.map String.ofList, start.passed, start.passed + text.length, true⟩

/-- What a tree is for what is looked for. -/
inductive Meeting
  /-- The string that names a module. -/
  | source
  /-- A mark around arguments. -/
  | mark
  /-- The first argument. -/
  | argument
  /-- Something to look through: what for, and what is looked for behind it, unless what is left. -/
  | through (inner : Wanted) (after : Option Wanted)

/-- What a tree is for what is looked for. -/
def Wanted.meet (wanted : Wanted) (f : Facts) (children : List Tree) : Meeting :=
  let other := Meeting.through (.inside f.kind children) (some wanted)
  match wanted with
  | .nothing => other
  | .source =>
    if f.kind == .node .stringLiteral && !f.extra then .source
    else if f.kind == .node .fromClause then .through .source none
    else other
  | .arguments => if f.kind == .node .arguments then .through .argument (some .nothing) else other
  | .argument =>
    if f.kind.isArgumentMark then .mark
    else if f.kind.isShown then .argument
    else .through .argument none

/-- The place of the first lexeme of a tree that begins at a place. -/
def Facts.first (f : Facts) (c : Cursor) : Cursor := c.advance f.gap.chars

/-- The place behind a tree that begins at a place. -/
def Facts.behind (f : Facts) (c : Cursor) : Cursor := (f.first c).advance f.span.chars

mutual

/-- The specifiers in a tree that begins at a place. -/
def Tree.walk (wanted : Wanted) (c : Cursor) : Tree → Walk
  | .mk f children =>
    match wanted.meet f children with
    | .source => ⟨f.behind c, .nothing, (staticImport? (f.first c) f.span.chars).toList⟩
    | .mark => ⟨f.behind c, wanted, []⟩
    | .argument =>
      let found := dynamicImport (f.first c) f.span.chars (Tree.mk f children).isLiteral
      if found.name.isSome || children.isEmpty then ⟨f.behind c, .nothing, [found]⟩
      else
        let w := walkAll (.inside f.kind children) c children
        ⟨w.cursor, .nothing, found :: w.found⟩
    | .through inner after =>
      if children.isEmpty then ⟨f.behind c, after.getD inner, []⟩
      else
        let w := walkAll inner c children
        { w with wanted := after.getD w.wanted }

/-- The specifiers in trees that follow one another from a place on. -/
def walkAll (wanted : Wanted) (c : Cursor) : List Tree → Walk
  | [] => ⟨c, wanted, []⟩
  | t :: ts =>
    let w := t.walk wanted c
    let rest := walkAll w.wanted w.cursor ts
    { rest with found := w.found ++ rest.found }

end

/-! ## Faults -/

mutual

/-- The offset of the first fault or missing token that is a part of its own, in a tree behind so many characters. -/
def Tree.firstFault? (n : Nat) : Tree → Option Nat
  | .mk f children =>
    if f.kind.isShown && (f.kind == .fault || f.missing) then some (n + f.gap.chars) else firstFaultIn n children

/-- The offset of the first fault in trees behind so many characters. -/
def firstFaultIn (n : Nat) : List Tree → Option Nat
  | [] => none
  | t :: ts => t.firstFault? n <|> firstFaultIn (n + t.total.chars) ts

end

/-- Where a text is no script. -/
structure SyntaxFault where
  /-- The offset of the first fault. -/
  offset : Nat
  /-- The place of it. -/
  place : Place
  deriving BEq, DecidableEq, Repr

/-- A message with a line and a column. -/
def positioned (message : String) (line column : Int) : String :=
  message ++ " @:" ++ toString line ++ ":" ++ toString column

/-- The text of a fault, with its line and column counted from one. -/
def SyntaxFault.message (f : SyntaxFault) : String :=
  positioned "Unexpected syntax" (f.place.line + 1) (f.place.character + 1)

/-! ## Scripts -/

/-- The specifiers of a text with a given tree. A tree whose faults cost something is none of a script. -/
def importsOf (s : List Char) (t : Tree) : Except SyntaxFault (List Import) :=
  if 0 < t.facts.cost then
    let offset := (t.firstFault? 0).getD t.facts.gap.chars
    .error ⟨offset, .ofOffset s offset⟩
  else .ok (t.walk .nothing ⟨0, s⟩).found

/-- The specifiers of a script, in the order of the text, an outer one before those inside it. -/
def imports (text : String) : Except SyntaxFault (List Import) :=
  let s := text.toList
  importsOf s (parse .plain s)

end BareImports.Script
