/-!
# Dates and times

* `Moment`: a date, with a time of day if it has one;
* `Moment.parse?`: its parts as YAML writes them;
* `Moment.isValid`: whether there is such a date and such a time;
* `Moment.text`: its text with a space between date and time.
-/

namespace BareImports.Yaml

/-- A time of day. -/
structure Clock where
  /-- The hour. -/
  hour : Nat
  /-- The minute. -/
  minute : Nat
  /-- The second. -/
  second : Nat
  /-- Millionths of a second. -/
  fraction : Nat
  /-- Whether it is behind the zero meridian, and by how many minutes it differs from it; none if it does not say. -/
  zone : Option (Bool × Nat)
  deriving BEq, DecidableEq, Repr

/-- A date, with a time of day if it has one. -/
structure Moment where
  /-- The year. -/
  year : Nat
  /-- The month. -/
  month : Nat
  /-- The day. -/
  day : Nat
  /-- Whether month and day have two digits each. -/
  padded : Bool
  /-- The time of day. -/
  clock : Option Clock
  deriving BEq, DecidableEq, Repr

namespace Moment

/-- The number that decimal digits write. -/
def number (s : List Char) : Nat := s.foldl (fun n d => n * 10 + (d.toNat - 48)) 0

/-- Up to `most` digits in front of a text, at least `least`, and what follows them. -/
def digits? (least most : Nat) (s : List Char) : Option (List Char × List Char) :=
  let ds := (s.take most).takeWhile Char.isDigit
  if least ≤ ds.length then some (ds, s.drop ds.length) else none

/-- What follows a character. -/
def after? (c : Char) : List Char → Option (List Char)
  | d :: s => if d == c then some s else none
  | [] => none

/-- A distance from the zero meridian, which ends the text. -/
def zone? (s : List Char) : Option (Option (Bool × Nat)) :=
  if s.isEmpty then some none
  else match s.dropWhile fun c => c == ' ' || c == '\t' with
    | ['Z'] => some (some (false, 0))
    | c :: r =>
      if c == '+' || c == '-' then do
        let (h, r) ← digits? 1 2 r
        let m ← match r with
          | [] => some []
          | r => do
            let (m, r) ← digits? 2 2 (← after? ':' r)
            if r.isEmpty then some m else none
        return some (c == '-', number h * 60 + number m)
      else none
    | [] => none

/-- A fraction of a second in millionths, further digits cut off, and what follows. -/
def fraction (s : List Char) : Nat × List Char :=
  match s with
  | '.' :: r =>
    let (ds, r) := r.span Char.isDigit
    (number ((ds ++ List.replicate 6 '0').take 6), r)
  | _ => (0, s)

/-- The time of day in front of which a date stands: a `T` or blanks come first. -/
def clock? (s : List Char) : Option Clock := do
  let r ← match s with
    | 'T' :: r => some r
    | 't' :: r => some r
    | _ => match s.span fun c => c == ' ' || c == '\t' with
      | ([], _) => none
      | (_, r) => some r
  let (h, r) ← digits? 1 2 r
  let (m, r) ← digits? 2 2 (← after? ':' r)
  let (sec, r) ← digits? 2 2 (← after? ':' r)
  let (f, r) := fraction r
  return ⟨number h, number m, number sec, f, ← zone? r⟩

/-- The parts of a date or time. -/
def parse? (s : List Char) : Option Moment := do
  let (y, r) ← digits? 4 4 s
  let (m, r) ← digits? 1 2 (← after? '-' r)
  let (d, r) ← digits? 1 2 (← after? '-' r)
  let padded := m.length == 2 && d.length == 2
  if r.isEmpty then return ⟨number y, number m, number d, padded, none⟩
  else return ⟨number y, number m, number d, padded, some (← clock? r)⟩

/-- Whether a moment is recognised without a tag: a date alone needs two digits for month and day. -/
def isPlain (m : Moment) : Bool := m.clock.isSome || m.padded

/-- How many days a month has. -/
def monthLength (year month : Nat) : Nat :=
  if month == 2 then if year % 4 == 0 && (year % 100 != 0 || year % 400 == 0) then 29 else 28
  else if [4, 6, 9, 11].contains month then 30
  else 31

/-- Whether there is such a time of day. -/
def isClock (c : Clock) : Bool := c.hour < 24 && c.minute < 60 && c.second < 60 && c.zone.all (·.2 < 24 * 60)

/-- Whether there is such a date and such a time. -/
def isValid (m : Moment) : Bool :=
  1 ≤ m.year && 1 ≤ m.month && m.month ≤ 12 && 1 ≤ m.day && m.day ≤ monthLength m.year m.month && m.clock.all isClock

/-- A number with zeros in front. -/
def zeroPadded (width n : Nat) : String :=
  let ds := Nat.toDigits 10 n
  String.ofList (List.replicate (width - ds.length) '0' ++ ds)

/-- The text of a time of day. -/
def clockText (c : Clock) : String :=
  ":".intercalate [zeroPadded 2 c.hour, zeroPadded 2 c.minute, zeroPadded 2 c.second] ++
    (if c.fraction == 0 then "" else "." ++ zeroPadded 6 c.fraction) ++
    match c.zone with
    | none => ""
    | some (behind, n) =>
      (if behind && n != 0 then "-" else "+") ++ zeroPadded 2 (n / 60) ++ ":" ++ zeroPadded 2 (n % 60)

/-- The text of a moment. -/
def text (m : Moment) : String :=
  "-".intercalate [zeroPadded 4 m.year, zeroPadded 2 m.month, zeroPadded 2 m.day] ++
    m.clock.elim "" fun c => " " ++ clockText c

end Moment

end BareImports.Yaml
