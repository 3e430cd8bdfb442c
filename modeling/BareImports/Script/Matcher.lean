/-!
# Matchers

A matcher reads a lexeme character by character; the longest beginning of a text that it accepts is the lexeme.

* `Matcher`: a state machine on characters;
* `Matcher.longest?`: the length of the longest beginning that is accepted;
* `Matcher.extent`: how many characters are read before the machine stops;
* `runLength?`: the length of a run of characters of one kind.
-/

namespace BareImports.Script

/-- A state machine on characters. -/
structure Matcher (σ : Type) where
  /-- The state before a lexeme. -/
  start : σ
  /-- The state behind one more character, if the machine goes on with it. -/
  step : σ → Char → Option σ
  /-- Whether a lexeme may end. -/
  accepts : σ → Bool

namespace Matcher

variable {σ : Type} (m : Matcher σ)

/-- The length of the longest accepted beginning, counted on from `n` characters; `best` is the longest one so far. -/
def longestFrom (s : σ) (n : Nat) (best : Option Nat) : List Char → Option Nat
  | [] => if m.accepts s then some n else best
  | c :: r =>
    let best := if m.accepts s then some n else best
    match m.step s c with
    | some t => longestFrom t (n + 1) best r
    | none => best

/-- The length of the longest beginning of a text that is accepted. -/
def longest? (text : List Char) : Option Nat := m.longestFrom m.start 0 none text

/-- How many characters are read from a state on. -/
def extentFrom (s : σ) (n : Nat) : List Char → Nat
  | [] => n
  | c :: r => match m.step s c with
    | some t => extentFrom t (n + 1) r
    | none => n

/-- How many characters are read before the machine stops. -/
def extent (text : List Char) : Nat := m.extentFrom m.start 0 text

end Matcher

/-- The number of characters at the beginning of a text, at least one, that pass a test. -/
def runLength? (p : Char → Bool) (text : List Char) : Option Nat :=
  match (text.takeWhile p).length with
  | 0 => none
  | n => some n

end BareImports.Script
