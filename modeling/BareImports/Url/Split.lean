import BareImports.Url.Host

/-!
# The parts of a URL

* `Parts`: scheme, authority, path, query and fragment;
* `Parts.split?`: the parts of a text, `none` if its authority is malformed;
* `Parts.render`: the text of the parts.
-/

namespace BareImports.Url

open Text

/-- The parts of a URL, each without its delimiter. -/
structure Parts where
  /-- What stands before the first colon, in lower case. -/
  scheme : List Char
  /-- User information, host and port. -/
  authority : List Char
  /-- What follows the authority. -/
  path : List Char
  /-- What follows the first `?`. -/
  query : List Char
  /-- What follows the first `#`. -/
  fragment : List Char
  deriving BEq, DecidableEq, Repr

/-- Characters that a scheme may hold. -/
def isSchemeChar (c : Char) : Bool := c.isAlphanum || c == '+' || c == '-' || c == '.'

/-- What a URL is cleared of before it is read: controls and spaces in front, tabs and line breaks anywhere. -/
def clean (s : List Char) : List Char :=
  (s.dropWhile (·.toNat ≤ 32)).filter fun c => !(c == '\t' || c == '\x0d' || c == '\n')

/-- The scheme and what follows it, if the text has one. -/
def cutScheme? (s : List Char) : Option (List Char × List Char) :=
  match cut? ':' s with
  | some (c :: l, r) => if c.isAlpha && l.all isSchemeChar then some ((c :: l).map Char.toLower, r) else none
  | _ => none

/-- Whether a character ends an authority. -/
def endsAuthority (c : Char) : Bool := c == '/' || c == '?' || c == '#'

/-- Characters whose compatibility form holds a delimiter; no authority may have one. -/
def hidesDelimiter : List Nat :=
  [0x2047, 0x2048, 0x2049, 0x2100, 0x2101, 0x2105, 0x2106, 0x2A74, 0xFE13, 0xFE16, 0xFE55, 0xFE56, 0xFE5F,
    0xFE6B, 0xFF03, 0xFF0F, 0xFF1A, 0xFF1F, 0xFF20]

/-- Whether brackets, if there are any, are paired and hold a host. -/
def bracketsOk (authority : List Char) : Bool :=
  match authority.contains '[', authority.contains ']' with
  | false, false => true
  | true, true =>
    let inner := ((cut? '[' authority).map (·.2)).getD []
    isBracketedHost (((cut? ']' inner).map (·.1)).getD inner)
  | _, _ => false

/-- Whether a text may stand as an authority. -/
def isAuthority (s : List Char) : Bool := bracketsOk s && !s.any (hidesDelimiter.contains ·.toNat)

/-- Both sides of the first occurrence of a delimiter, the second empty if there is none. -/
def cutOff (c : Char) (s : List Char) : List Char × List Char := (cut? c s).getD (s, [])

/-- The parts of a URL that may leave out its scheme. -/
def Parts.split? (scheme : List Char) (text : List Char) : Option Parts :=
  let s := clean text
  let (scheme, s) := (cutScheme? s).getD (scheme, s)
  let (authority, s) := match s with
    | '/' :: '/' :: r => (r.takeWhile (!endsAuthority ·), r.dropWhile (!endsAuthority ·))
    | _ => ([], s)
  if isAuthority authority then
    let (s, fragment) := cutOff '#' s
    let (path, query) := cutOff '?' s
    some ⟨scheme, authority, path, query, fragment⟩
  else none

/-- Schemes whose URLs have an authority. -/
def authoritySchemes : List String :=
  ["", "ftp", "http", "gopher", "nntp", "telnet", "imap", "wais", "file", "mms", "https", "shttp", "snews",
    "prospero", "rtsp", "rtsps", "rtspu", "rsync", "svn", "svn+ssh", "sftp", "nfs", "git", "git+ssh", "ws", "wss"]

/-- Schemes against which a relative reference is resolved. -/
def hierarchicalSchemes : List String :=
  ["", "ftp", "http", "gopher", "nntp", "imap", "wais", "file", "https", "shttp", "mms", "prospero", "rtsp",
    "rtsps", "rtspu", "sftp", "svn", "svn+ssh", "ws", "wss"]

/-- Whether a scheme is in a list. -/
def isAmong (schemes : List String) (scheme : List Char) : Bool := schemes.contains (String.ofList scheme)

/-- The text of the parts. -/
def Parts.render (u : Parts) : List Char :=
  let needsSlashes := !u.authority.isEmpty || (!u.scheme.isEmpty && isAmong authoritySchemes u.scheme) ||
    startsWith "//" u.path
  let s := if needsSlashes then
      let path := if u.path.isEmpty || u.path.head? == some '/' then u.path else '/' :: u.path
      "//".toList ++ u.authority ++ path
    else u.path
  let s := if u.scheme.isEmpty then s else u.scheme ++ ':' :: s
  let s := if u.query.isEmpty then s else s ++ '?' :: u.query
  if u.fragment.isEmpty then s else s ++ '#' :: u.fragment

end BareImports.Url
