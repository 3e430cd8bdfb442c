import BareImports.Failure

/-!
# Answers of the CDN

* `Response`: one HTTP answer after redirects;
* `Answer`: a response or why there is none;
* `File`, `Fetched`: a file of a package and the final URL that it came from.
-/

namespace BareImports.Cdn

/-- A fully read HTTP answer, redirects followed. -/
structure Response where
  /-- The status. -/
  status : Int
  /-- The final URL. -/
  url : String
  /-- The body. -/
  text : String
  /-- The content type, if one was given. -/
  contentType : Option String
  deriving BEq, DecidableEq, Repr, Inhabited

/-- What a request comes to. -/
abbrev Answer := Except Failure Response

/-- A file as the CDN serves it. -/
structure File where
  /-- The text. -/
  content : String
  /-- The content type. -/
  contentType : String
  deriving BEq, DecidableEq, Repr, Inhabited

/-- A file and its final URL. -/
structure Fetched where
  /-- The final URL. -/
  url : String
  /-- The file. -/
  file : File
  deriving BEq, DecidableEq, Repr, Inhabited

/-- The content type of a file that came without one. -/
def defaultContentType : String := "text/plain"

/-- The file of a response with status 200. -/
def Response.fetched (r : Response) : Fetched :=
  ⟨r.url, r.text, match r.contentType with
    | some t => if t.isEmpty then defaultContentType else t
    | none => defaultContentType⟩

end BareImports.Cdn
