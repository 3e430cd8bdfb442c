import BareImports.Failure
import BareImports.Text.LetterCase
import BareImports.Value

/-!
# Log entries

* `Log.Level`: how grave an entry is;
* `Log.Entry`: a template with its arguments, and the structured fields that travel with it;
* `Log.threshold`: the level that a setting or the environment names;
* `Log.visible`: the entries that a level lets through.
-/

namespace BareImports.Log

open Text

/-- How grave an entry is. -/
inductive Level
  | debug
  | info
  | warning
  | error
  | critical
  deriving BEq, DecidableEq, Repr, Inhabited

/-- The rank of a level. -/
def Level.rank : Level → Nat
  | debug => 10
  | info => 20
  | warning => 30
  | error => 40
  | critical => 50

/-- The name of a level. -/
def Level.name : Level → String
  | debug => "DEBUG"
  | info => "INFO"
  | warning => "WARNING"
  | error => "ERROR"
  | critical => "CRITICAL"

/-- Why a file of settings or a manifest could not be read. -/
inductive Fault
  /-- The text is no JSON. -/
  | notJson
  /-- The text is no YAML. -/
  | notYaml
  /-- The bytes are no UTF-8. -/
  | notUtf8
  /-- A text has the wrong form for its value. -/
  | badValue
  /-- A value is of the wrong kind. -/
  | badType
  /-- A number is too great to be converted. -/
  | tooGreat
  /-- The file could not be opened. -/
  | notAccessible
  /-- A number has no digits at all. -/
  | noDigits
  /-- A word that is declared a truth value is none. -/
  | noTruthValue
  /-- A word that is declared a date or a time is none. -/
  | noMoment
  deriving BEq, DecidableEq, Repr

/-- An argument of an entry. -/
inductive Arg
  /-- A value. -/
  | value (v : Value)
  /-- A failure of the CDN or of a module. -/
  | failure (f : Failure)
  /-- A fault of a file. -/
  | fault (f : Fault)
  deriving Inhabited

/-- A text as an argument. -/
def Arg.text (s : String) : Arg := .value (.text s)

/-- A count as an argument. -/
def Arg.count (n : Nat) : Arg := .value (.int n)

/-- An entry. -/
structure Entry where
  /-- How grave it is. -/
  level : Level
  /-- The text, with marks in the places of the arguments. -/
  template : String
  /-- The arguments. -/
  args : List Arg
  /-- Structured fields. -/
  fields : List (String × Value) := []
  deriving Inhabited

/-- A warning. -/
def warn (template : String) (args : List Arg) : Entry := ⟨.warning, template, args, []⟩

/-- Fields that have a value. -/
def present (fields : List (String × Value)) : List (String × Value) :=
  fields.filter fun (_, v) => match v with
    | .null => false
    | _ => true

/-- The form of the lines on standard error. -/
def lineFormat : String := "[%(levelname)s] %(message)s"

/-- The ranks of the names that a setting may use. -/
def ranks : List (String × Nat) :=
  [("CRITICAL", 50), ("FATAL", 50), ("ERROR", 40), ("WARNING", 30), ("WARN", 30), ("INFO", 20), ("DEBUG", 10),
    ("NOTSET", 0)]

/-- A text that is given and not empty. -/
def given? : Option String → Option String
  | some s => if s.isEmpty then none else some s
  | none => none

/-- The least rank that is logged: what the setting names, else the environment, else information. An unknown
name stands for information too. -/
def threshold (setting environment : Option String) : Nat :=
  let name := toUpper ((given? setting <|> given? environment).getD "INFO")
  (ranks.lookup name).getD Level.info.rank

/-- The entries that a threshold lets through. -/
def visible (least : Nat) (entries : List Entry) : List Entry := entries.filter fun e => least ≤ e.level.rank

end BareImports.Log
