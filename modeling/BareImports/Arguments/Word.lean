import BareImports.Text.Cut
import BareImports.Text.DecimalDigit

/-!
# Words of a command line

* `Key`: the options; `Names`: how they are spelled;
* `Word`: a word as an option, a plain word or the divider behind which all words are plain;
* `Word.ofTexts`: the words of a command line, read with the names of one command;
* `Given.expand`: the options that one word gives, and the words behind it.
-/

namespace BareImports.Arguments

open Text

/-- Why there is nothing to do. -/
inductive Stop
  /-- Help was asked for. -/
  | help
  /-- The words make no command. -/
  | usage
  deriving BEq, DecidableEq, Repr

/-- The options. -/
inductive Key
  | help
  | output
  | config
  | cdnUrl
  | timeout
  | retries
  | importMap
  | logLevel
  | logFile
  | failOnWarnings
  | manifest
  | lib
  deriving BEq, DecidableEq, Repr

/-- Whether an option has a value. -/
def Key.takesValue : Key → Bool
  | help | failOnWarnings => false
  | _ => true

/-- The spellings of options. -/
abbrev Names := List (String × Key)

/-- The option of a spelling. -/
def Names.find? (names : Names) (s : List Char) : Option Key := names.lookup (String.ofList s)

/-- A word that gives an option. -/
structure Given where
  /-- The option; none if there is no such one. -/
  key : Option Key
  /-- Whether its name has one dash only. -/
  short : Bool
  /-- A value in the same word, and whether an equals sign stands before it. -/
  joined : Option (Bool × List Char)

/-- A word. -/
inductive Word
  /-- An option. -/
  | option (g : Given)
  /-- The two dashes behind which all words are plain. -/
  | divider
  /-- Any other word. -/
  | plain (s : List Char)

/-- Whether a text is a number with a minus sign: digits, with a point before the last ones if it has one. A line break
at the end does not count. -/
def isNegativeNumber (s : List Char) : Bool :=
  let digits := fun (ds : List Char) => ds.all fun c => (digitValue? c).isSome
  let s := match s.reverse with
    | '\n' :: r => r.reverse
    | _ => s
  match s with
  | '-' :: r => match cut? '.' r with
    | some (whole, frac) => digits whole && digits frac && !frac.isEmpty
    | none => digits r && !r.isEmpty
  | _ => false

/-- The name of an option and the value joined to it by an equals sign. -/
def cutJoined (s : List Char) : List Char × Option (Bool × List Char) :=
  match cut? '=' s with
  | some (name, value) => (name, some (true, value))
  | none => (s, none)

/-- The long options whose name begins as a word does. -/
def longMatches (names : Names) (s : List Char) : List Given :=
  let (start, joined) := cutJoined s
  names.filterMap fun (name, k) => if start.isPrefixOf name.toList then some ⟨some k, false, joined⟩ else none

/-- The short options with which a word begins, the rest being their value. -/
def shortMatches (names : Names) (s : List Char) : List Given :=
  names.filterMap fun (name, k) =>
    if name.toList == s.take 2 then some ⟨some k, true, some (false, s.drop 2)⟩ else none

/-- The options that a word may mean. -/
def candidates (names : Names) (s : List Char) : List Given :=
  match s with
  | '-' :: '-' :: _ => longMatches names s
  | _ => shortMatches names s

/-- Whether a name has one dash only. -/
def isShort : List Char → Bool
  | '-' :: '-' :: _ => false
  | _ => true

/-- The option that a word gives, `none` if it is a plain word. -/
def option? (names : Names) (s : List Char) : Except Stop (Option Given) :=
  match s with
  | '-' :: _ :: _ =>
    let (name, joined) := cutJoined s
    match names.find? s, joined, names.find? name with
    | some k, _, _ => .ok (some ⟨some k, isShort s, none⟩)
    | none, some j, some k => .ok (some ⟨some k, isShort name, some j⟩)
    | none, _, _ => match candidates names s with
      | [g] => .ok (some g)
      | _ :: _ :: _ => .error .usage
      | [] => if isNegativeNumber s || s.contains ' ' then .ok none else .ok (some ⟨none, isShort s, none⟩)
  | _ => .ok none

/-- The words of a command line. -/
def Word.ofTexts (names : Names) : List String → Except Stop (List Word)
  | [] => .ok []
  | t :: ts =>
    if t == "--" then .ok (.divider :: ts.map fun s => .plain s.toList)
    else do
      let w := match ← option? names t.toList with
        | some g => Word.option g
        | none => .plain t.toList
      return w :: (← ofTexts names ts)

/-- An option with its value, if it has one. -/
abbrev Setting := Key × Option (List Char)

/-- What one word gives: options, the words behind those that were taken as values, and whether something in it was
not understood. -/
structure Expanded where
  /-- The options. -/
  settings : List Setting
  /-- The words behind. -/
  rest : List Word
  /-- Whether something was not understood. -/
  leftover : Bool := false

/-- What follows a short option without value in its word. -/
def joinedOf : List Char → Option (Bool × List Char)
  | [] => none
  | '=' :: s => some (true, s)
  | s => some (false, s)

/-- The options that one word gives: short options without value may be followed by further ones in the same word. -/
def Given.expand (names : Names) (g : Given) (rest : List Word) : Nat → Except Stop Expanded
  | 0 => .error .usage
  | fuel + 1 =>
    match g.key with
    | none => .ok ⟨[], rest, true⟩
    | some k => match g.joined with
      | some (equals, v) =>
        if k.takesValue then .ok ⟨[(k, some v)], rest, false⟩
        else match v with
          | [] => .error .usage
          | c :: cs =>
            if !g.short || equals || c == '-' then .error .usage
            else match names.find? ['-', c] with
              | none => .ok ⟨[(k, none)], rest, true⟩
              | some k' => do
                let e ← expand names ⟨some k', true, joinedOf cs⟩ rest fuel
                return { e with settings := (k, none) :: e.settings }
      | none =>
        if k.takesValue then match rest with
          | .plain v :: rest => .ok ⟨[(k, some v)], rest, false⟩
          | _ => .error .usage
        else .ok ⟨[(k, none)], rest, false⟩

end BareImports.Arguments
