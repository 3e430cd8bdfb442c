import BareImports.Text.LetterCase
import BareImports.Url.Query
import BareImports.Url.Split

/-!
# URLs for logs

* `isSensitive`: names of parameters whose values stay out of logs;
* `redact`: a URL without user information and without the values of sensitive parameters.
-/

namespace BareImports.Url

open Text

/-- Words that make a parameter name sensitive, in any case. -/
def sensitiveWords : List String := ["token", "key", "secret", "password", "auth", "signature"]

/-- The letter that a character counts as when case does not matter. -/
def foldLetter (c : Char) : Char :=
  if c == 'ſ' then 's' else if c == 'ı' then 'i' else (lowerChar c).headD c

/-- Whether a parameter name holds a sensitive word. -/
def isSensitive (name : List Char) : Bool :=
  let folded := name.map foldLetter
  sensitiveWords.any fun w => occursIn w.toList folded

/-- What is logged in the place of a sensitive value. -/
def redacted : List Char := "[REDACTED]".toList

/-- A query with the values of sensitive parameters replaced. -/
def redactQuery (query : List Char) : List Char :=
  if query.isEmpty then query
  else renderPairs ((parsePairs query).map fun (name, value) => (name, if isSensitive name then redacted else value))

/-- An authority without its user information. -/
def dropUser (authority : List Char) : List Char := ((cutLast? '@' authority).map (·.2)).getD authority

/-- A URL without user information and sensitive values; one with a malformed authority stays as it is. -/
def redact (url : List Char) : List Char :=
  match Parts.split? [] url with
  | none => url
  | some u => Parts.render { u with authority := dropUser u.authority, query := redactQuery u.query }

end BareImports.Url
