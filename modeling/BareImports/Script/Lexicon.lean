import BareImports.Script.Layout

/-!
# The lexicon of a dialect

* `Lexicon`: the words and punctuation of a dialect, and the sets of tokens that readings ask for;
* `Lexicon.immediate?`: the tokens that admit no white space before them;
* `Lexicon.token?`: the token with which a text continues, of those that may come.
-/

namespace BareImports.Script

/-- The words and punctuation of a dialect. -/
structure Lexicon where
  /-- Punctuation with its characters. -/
  punctuation : List (List Char × Token)
  /-- Words with their characters. -/
  words : List (List Char × Token)
  /-- Words, and names. -/
  wordSet : TokenSet
  /-- Words that are no names. -/
  reservedSet : TokenSet
  /-- The tokens that are read inside of faults. -/
  faultSet : TokenSet

namespace Lexicon

/-- Tokens that are never read inside of faults. -/
def faultless : List Token := [.doubleChars, .singleChars, .doubleMarkup, .singleMarkup, .patternBody, .patternEnd,
  .patternFlags, .markupName, .entity, .slashGreater]

/-- The lexicon of a dialect. -/
def ofDialect (d : Dialect) : Lexicon :=
  let tokens := Token.vocabulary d
  let spelled := tokens.filterMap fun t => t.spelling.map fun s => (s.toList, t)
  let (words, punctuation) := spelled.partition fun (s, _) => s.all Char.isLower
  { punctuation, words
    wordSet := .ofList (.name :: words.map (·.2))
    reservedSet := .ofList (d.pick Token.reserved [])
    faultSet := .ofList (tokens.filter fun t => !faultless.contains t) }

/-- The lexicon of scripts as they are run. -/
def plain : Lexicon := ofDialect .plain

/-- The lexicon of scripts with types. -/
def typed : Lexicon := ofDialect .typed

/-- The lexicon of a dialect, made once. -/
def of (d : Dialect) : Lexicon := d.pick plain typed

/-! ## Tokens without white space before them -/

/-- Characters of a string in some quotes. -/
def stringChars? (quote : Char) : List Char → Option Nat :=
  runLength? fun c => c != quote && c != '\\' && c != '\n' && c != '\x0d'

/-- The tokens that admit no white space before them, with their precedence over others and their lengths. -/
def immediates : List (Token × Int × (List Char → Option Nat)) := [
  (.doubleMarkup, 1, (markupValueMatcher '"').longest?), (.singleMarkup, 1, (markupValueMatcher '\'').longest?),
  (.doubleChars, 1, stringChars? '"'), (.singleChars, 1, stringChars? '\''), (.escape, 0, escapeMatcher.longest?),
  (.patternEnd, 1, fun s => if s.head? == some '/' then some 1 else none), (.patternFlags, 0, runLength? Char.isLower),
  (.patternBody, -1, patternMatcher.longest?)]

/-- The set of the tokens that admit no white space before them. -/
def immediateSet : TokenSet := .ofList (immediates.map (·.1))

/-- A token with its precedence and its length. -/
abbrev Candidate := Token × Int × Nat

/-- The better of a candidate and those so far: by precedence and then by length. -/
def better (best : Option Candidate) (c : Candidate) : Option Candidate :=
  match best with
  | none => some c
  | some b => if b.2.1 < c.2.1 || (b.2.1 == c.2.1 && b.2.2 < c.2.2) then some c else some b

/-- The token without white space before it with which a text continues. -/
def immediate? (valid : TokenSet) (s : List Char) : Option Candidate :=
  if valid &&& immediateSet == 0 then none
  else immediates.foldl (fun best (t, rank, length?) =>
    if valid.has t then
      match length? s with
      | some n => better best (t, rank, n)
      | none => best
    else best) none

/-! ## Other tokens -/

/-- The classes of lexemes that are read by matchers, with their lengths. -/
def classes : List (Token × (List Char → Option Nat)) := [
  (.name, nameMatcher.longest?), (.number, numberMatcher.longest?), (.comment, commentMatcher.longest?),
  (.interpreterLine, interpreterMatcher.longest?), (.privateName, privateMatcher.longest?),
  (.markupName, markupNameMatcher.longest?), (.entity, entityMatcher.longest?),
  (.staticGet, staticGetMatcher.longest?)]

/-- The longer of two tokens, the first one if they are equally long. -/
def longer (best : Option (Token × Nat)) (t : Token) (length : Option Nat) : Option (Token × Nat) :=
  match best, length with
  | _, none => best
  | none, some n => some (t, n)
  | some (u, m), some n => if m < n then some (t, n) else some (u, m)

/-- The punctuation with which a text begins. -/
def punctuation? (x : Lexicon) (valid : TokenSet) (s : List Char) : Option (Token × Nat) :=
  x.punctuation.foldl (fun best (p, t) =>
    longer best t (if p.isPrefixOf s && valid.has t then some p.length else none)) none

/-- The token with which a text begins; words are read as names. -/
def begin? (x : Lexicon) (valid : TokenSet) (s : List Char) : Option (Token × Nat) :=
  let names := valid &&& x.wordSet != 0
  classes.foldl (fun best (t, length?) =>
    longer best t (if (if t == .name then names else valid.has t) then length? s else none)) (x.punctuation? valid s)

/-- The token with which a text continues, of those that may come. -/
def token? (x : Lexicon) (valid : TokenSet) (s : List Char) : Option Found :=
  let behind := Cursor.skipWhile isSpace ⟨0, s⟩
  let spaced : Option Found :=
    match x.begin? valid behind.rest with
    | some (t, n) => some ⟨t, behind.passed, n⟩
    | none => if behind.rest.isEmpty && valid.has .finish then some ⟨.finish, behind.passed, 0⟩ else none
  match immediate? valid s with
  | none => spaced
  | some (t, rank, n) =>
    if rank == 1 then some ⟨t, 0, n⟩
    else match spaced with
      | some f =>
        if f.gap == 0 && n < f.length && (rank == 0 || f.token == .comment) then some f else some ⟨t, 0, n⟩
      | none => some ⟨t, 0, n⟩

/-- The word that a name is. -/
def word? (x : Lexicon) (s : List Char) : Option Token := x.words.lookup s

end Lexicon

end BareImports.Script
