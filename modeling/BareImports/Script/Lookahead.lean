import BareImports.Script.Action
import BareImports.Script.Lexicon
import BareImports.Script.Tree

/-!
# The token before which a reading stands

* `Lookahead`: a token, or characters that are none, with the place behind it;
* `Setting`: what all readings of a text have in common;
* `Setting.lookahead`: the token with which a text continues in a state.
-/

namespace BareImports.Script

/-- A token, or characters that are none. -/
structure Lookahead where
  /-- The token; none for characters that are no lexeme. -/
  token : Option Token
  /-- Its tree. -/
  tree : Tree
  /-- Whether it is spelled like a word. -/
  word : Bool
  /-- The place behind it. -/
  behind : Input

/-- What all readings of a text have in common. -/
structure Setting where
  /-- The language. -/
  language : Language
  /-- The lexicon of its dialect. -/
  lexicon : Lexicon
  /-- The state before the text. -/
  initial : State
  /-- More than a reading can take steps of one kind. -/
  fuel : Nat

namespace Setting

/-- The setting for a text of a dialect. -/
def ofText (d : Dialect) (s : List Char) : Setting :=
  { language := .of d, lexicon := .of d, initial := .initial (.of d), fuel := 64 * (s.length + 64) }

variable (k : Setting)

/-- Whether a word is no name in a state. -/
def reserves (s : State) (t : Token) : Bool := !s.frees && k.lexicon.reservedSet.has t

/-- The tokens that may come in a state, comments included; inside of a fault almost all. -/
def validIn : Option State → TokenSet
  | none => k.lexicon.faultSet
  | some s => (s.valid.union (.single .comment)).union (.single .legacyComment)

/-- Whether a word is read as itself in a state, and not as a name. -/
def readsAsWord (s : Option State) (t : Token) : Bool :=
  (k.validIn s).has t || s.any fun s => k.reserves s t

/-- The lookahead of a token that was found. Names that are words become words where these may come. -/
def ofFound (s : Option State) (i : Input) (f : Found) : Lookahead :=
  let first := i.advance f.gap
  let behind := first.advance f.length
  let word := if f.token == .name then k.lexicon.word? (first.rest.take f.length) else none
  let token := match word with
    | some t => if k.readsAsWord s t then t else f.token
    | none => f.token
  { token := some token
    tree := .leaf token (i.extentTo first) (first.extentTo behind) (token == .finish)
    word := word.isSome
    behind }

/-! ## Characters that are no lexeme -/

/-- How many characters are read as the beginning of a lexeme that does not go on. -/
def brokenLength (s : List Char) : Nat :=
  max (nameMatcher.extent s) (max (privateMatcher.extent s) (escapeMatcher.extent s))

/-- The place behind characters that are no lexeme: at least one of them, up to where a lexeme begins. -/
def skipFault (x : Lexicon) : Nat → Input → Input
  | 0, i => i
  | fuel + 1, i =>
    let first := i.advance (Cursor.skipWhile isSpace ⟨0, i.rest⟩).passed
    match first.rest with
    | [] => first
    | _ :: _ =>
      let behind := first.advance (max 1 (brokenLength first.rest))
      if (x.token? x.faultSet behind.rest).isSome then behind else skipFault x fuel behind

/-- The lookahead inside of a fault. -/
def faultLookahead (s : Option State) (i : Input) : Lookahead :=
  match k.lexicon.token? k.lexicon.faultSet i.rest with
  | some f => k.ofFound s i f
  | none =>
    let first := i.advance (Cursor.skipWhile isSpace ⟨0, i.rest⟩).passed
    let behind := skipFault k.lexicon k.fuel i
    { token := none
      tree := .fault (i.extentTo first) (first.extentTo behind)
      word := false
      behind }

/-! ## Lookaheads -/

/-- The token with which a text continues in a state. An empty one is read only if the reading has advanced since its
last fault. -/
def lookahead (s : Option State) (i : Input) (advanced : Bool) : Lookahead :=
  match s with
  | none => k.faultLookahead s i
  | some st =>
    let valid := k.validIn s
    let layout := (layoutToken? k.language.dialect k.fuel st.valid i.rest).filter fun f =>
      0 < f.gap + f.length || advanced
    match layout <|> k.lexicon.token? valid i.rest with
    | some f => k.ofFound s i f
    | none => k.faultLookahead s i

end Setting

end BareImports.Script
