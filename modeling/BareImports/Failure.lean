/-!
# Failures

Why a module, a manifest or a file of the CDN could not be had.

* `Failure`: the causes;
* `Failure.message`: their texts;
* `Failure.isExpected`: whether a cause is one that callers provide for.
-/

namespace BareImports

/-- Why something could not be fetched, read or resolved. -/
inductive Failure
  /-- The CDN answered with another status than 200; status 0 means that it did not answer. -/
  | refused (status : Int) (body : String)
  /-- A final URL names no file of a package. -/
  | badUrl (url : String)
  /-- A manifest is no JSON object. -/
  | badManifest (url content : String)
  /-- A specifier names no file of a package. -/
  | badSpecifier (specifier : String)
  /-- A number in a manifest is too long to be read. -/
  | numberTooLong
  /-- A number is too great for a delay between requests. -/
  | numberTooGreat
  /-- Any other accident while fetching. -/
  | unexpected (text : String)
  deriving BEq, DecidableEq, Repr, Inhabited

namespace Failure

/-- The text of a failure. -/
def message : Failure → String
  | refused status body => if status == 0 then body else "CDN " ++ toString status ++ " error: " ++ body
  | badUrl url => "Unexpected CDN URL format: " ++ url
  | badManifest url content => "JSON error from " ++ url ++ ": " ++ content
  | badSpecifier specifier => "Invalid specifier: " ++ specifier
  | numberTooLong => "Exceeds the limit (4300 digits) for integer string conversion"
  | numberTooGreat => "int too large to convert to float"
  | unexpected text => text

/-- Whether callers provide for a failure; the others are reported as accidents. -/
def isExpected : Failure → Bool
  | refused .. | badUrl _ | badManifest .. | badSpecifier _ => true
  | numberTooLong | numberTooGreat | unexpected _ => false

end Failure

end BareImports
