import BareImports.Value.Shown

/-!
# The text of log entries

* `Log.Entry.message`: the template of an entry with its arguments in their places;
* `Log.Entry.line`: the line of an entry on standard error.
-/

namespace BareImports.Log

/-- What a fault is called. -/
def Fault.message : Fault → String
  | notJson => "not a JSON text"
  | notYaml => "not a YAML text"
  | notUtf8 => "not a UTF-8 text"
  | badValue => "a text has the wrong form for its value"
  | badType => "a value is of the wrong kind"
  | tooGreat => "a number is too great"
  | notAccessible => "the file cannot be read or written"
  | noDigits => "a number has no digits"
  | noTruthValue => "not a truth value"
  | noMoment => "not a date or time"

/-- The text of an argument. -/
def Arg.shown : Arg → String
  | value v => v.shown
  | failure f => f.message
  | fault f => f.message

/-- The text of an argument that shows whether it is a text. -/
def Arg.quoted : Arg → String
  | value v => v.inner
  | a => a.shown

/-- A template with the arguments in the places of its marks: `%r` shows texts in quotes, the other marks do not. -/
def fill : List Char → List Arg → List Char
  | '%' :: c :: s, a :: args => (if c == 'r' then a.quoted else a.shown).toList ++ fill s args
  | c :: s, args => c :: fill s args
  | [], _ => []

/-- The text of an entry. -/
def Entry.message (e : Entry) : String := String.ofList (fill e.template.toList e.args)

/-- The line of an entry on standard error. -/
def Entry.line (e : Entry) : String := "[" ++ e.level.name ++ "] " ++ e.message

end BareImports.Log
