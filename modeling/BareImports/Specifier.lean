import BareImports.Text.Cut

/-!
# Module specifiers

* `Specifier.Kind`: a URL, a bare name or a relative reference;
* `Specifier.kind`: what a specifier is.
-/

namespace BareImports.Specifier

open Text

/-- What the text of an import names. -/
inductive Kind
  /-- A URL, or a path from the root of the site. -/
  | url
  /-- A package, or a file in one. -/
  | bare
  /-- A file relative to the importing one. -/
  | relative
  deriving BEq, DecidableEq, Repr

/-- The name of a kind. -/
def Kind.name : Kind → String
  | .url => "url"
  | .bare => "bare"
  | .relative => "relative"

/-- Whether a text begins with a scheme and a colon. -/
def hasScheme (s : List Char) : Bool :=
  match cut? ':' s with
  | some (c :: l, _) => c.isAlpha && l.all fun x => x.isAlphanum || x == '+' || x == '.' || x == '-'
  | _ => false

/-- A specifier with a scheme or a slash in front is a URL; one that begins with a dot segment is relative. -/
def kind (s : List Char) : Kind :=
  if hasScheme s || startsWith "/" s then .url
  else if startsWith "./" s || startsWith "../" s || s == ['.'] || s == ['.', '.'] then .relative
  else .bare

end BareImports.Specifier
