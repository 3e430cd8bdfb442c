/-!
# Dialects

* `Dialect`: the two languages that scripts are written in.
-/

namespace BareImports.Script

/-- A language that scripts are written in. -/
inductive Dialect
  /-- Scripts as they are run, with markup. -/
  | plain
  /-- Scripts with types. -/
  | typed
  deriving DecidableEq, Repr

/-- One of two values, by dialect. -/
def Dialect.pick {α : Type} (d : Dialect) (plain typed : α) : α :=
  match d with
  | .plain => plain
  | .typed => typed

end BareImports.Script
