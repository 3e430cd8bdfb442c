import BareImports.Text.Place

/-!
# What a build gives

* `File`: a named file with its content;
* `Diagnostic`: a problem in a range of a file;
* `Output`: a file or a diagnostic.
-/

namespace BareImports.Build

open Text

/-- A named file. -/
structure File where
  /-- The path of the file. -/
  name : String
  /-- The text. -/
  content : String
  /-- The content type, if it is known. -/
  contentType : Option String := none
  deriving BEq, DecidableEq, Repr, Inhabited

/-- A problem in a range of a file. -/
structure Diagnostic where
  /-- What is wrong. -/
  message : String
  /-- Where it is wrong. -/
  range : Span
  /-- A number for the kind of problem. -/
  code : Option Int := none
  /-- How grave it is. -/
  severity : Option Int := none
  deriving BEq, DecidableEq, Repr

/-- What a build gives. -/
inductive Output
  /-- A file. -/
  | file (f : File)
  /-- A problem in the file with this name. -/
  | diagnostic (name : String) (d : Diagnostic)
  deriving BEq, DecidableEq, Repr

/-- A diagnostic as a line: the file, the line and column counted from one, the message. -/
def Diagnostic.line (name : String) (d : Diagnostic) : String :=
  name ++ ":" ++ toString (d.range.start.line + 1) ++ ":" ++ toString (d.range.start.character + 1) ++ ": " ++ d.message

end BareImports.Build
