import BareImports.Build.Output
import BareImports.Build.Resolution
import BareImports.Number.Text
import BareImports.Script.Imports
import BareImports.Version

/-!
# Rewriting a file

The specifiers of a file are resolved in any order and replaced from the last one to the first, so that the offsets of
those still to come stay valid.

* `splice`: a text with a span exchanged;
* `Rewriting`: a file under way, with the specifiers that are left;
* `Rewriting.settle?`: the last specifier that is left is replaced or reported;
* `placeIn?`, `syntaxReport`: a fault is reported at the place that its message ends with.
-/

namespace BareImports.Build

open Text Script

/-- A text with the span between two offsets exchanged. -/
def splice (text : List Char) (start stop : Nat) (replacement : List Char) : List Char :=
  text.take start ++ replacement ++ text.drop stop

/-- A specifier that is left, with the stage of its resolution. -/
structure Open where
  /-- The specifier. -/
  name : String
  /-- Where it stands. -/
  span : Import
  /-- How far it is resolved. -/
  stage : Stage

/-- A file under way. -/
structure Rewriting where
  /-- The file as it was. -/
  file : File
  /-- Its text so far. -/
  text : List Char
  /-- The specifiers that are left, the last one first. -/
  left : List Open

namespace Rewriting

/-- A file whose specifiers are to be replaced. Computed specifiers are left alone. -/
def start (m : ImportMap) (f : File) (imports : List Import) : Rewriting where
  file := f
  text := f.content.toList
  left := imports.reverse.filterMap fun i => i.name.map fun name => ⟨name, i, .ofSpecifier m f.name name⟩

/-- What replaces a specifier: a text between its quotes, or a whole literal. -/
def replacement (o : Open) (target : String) : List Char :=
  if o.span.dynamic then '\'' :: target.toList ++ ['\''] else target.toList

/-- The report of a specifier that could not be resolved. -/
def report (text : List Char) (o : Open) (f : Failure) : Diagnostic where
  message := "Could not resolve module \"" ++ o.name ++ "\": " ++ f.message
  range := .ofOffsets text o.span.start o.span.stop

/-- Replaces or reports the last specifier that is left, once it is resolved. -/
def settle? (r : Rewriting) : Option (Rewriting × Option Output) :=
  match r.left with
  | [] => none
  | o :: left => match o.stage with
    | .done (.error f) => some ({ r with left }, some (.diagnostic r.file.name (report r.text o f)))
    | .done (.ok target) =>
      let text := if target == o.name then r.text
        else splice r.text o.span.start o.span.stop (replacement o target)
      some ({ r with left, text }, none)
    | _ => none

/-- The file with its new text. -/
def output (r : Rewriting) : Output := .file { r.file with content := String.ofList r.text }

end Rewriting

/-- The number that decimal digits of any script write. -/
def decimal? (s : List Char) : Option Nat := if s.isEmpty then none else (s.mapM digitValue?).map Number.ofDigits

/-- The place that a message ends with: behind `@:` a line, a colon and a column, both counted from one. -/
def placeIn? (message : List Char) : Option Place := do
  let (rest, column) ← cutLast? ':' (Version.dropFinalLineFeed message)
  let (rest, line) ← cutLast? ':' rest
  let (line, column) := (← decimal? line, ← decimal? column)
  if rest.getLast? == some '@' then return ⟨line - 1, column - 1⟩ else none

/-- The report of a file that is no script. Its place is read from the message, which ends with one. -/
def syntaxReport (f : SyntaxFault) : Diagnostic :=
  let place := (placeIn? f.message.toList).getD ⟨0, 0⟩
  { message := "Module syntax error: " ++ f.message
    range := ⟨place, { place with character := place.character + 1 }⟩ }

end BareImports.Build
