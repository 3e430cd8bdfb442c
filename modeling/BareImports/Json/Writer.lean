import BareImports.Text.Hex
import BareImports.Value

/-!
# Writing JSON

* `Json.quote`: a text as a string of ASCII characters;
* `Json.Document`: JSON texts with text keys, and `Json.Document.render` their written form on one line, keys sorted;
* `Json.encode`: a structured value as a document, numbers that a reader could blur set apart as text.
-/

namespace BareImports.Json

open Text

/-- The escape of a code unit. -/
def unitEscape (n : Nat) : List Char := '\\' :: 'u' :: hexPadded 4 n

/-- The written form of a character in a string. -/
def quoteChar (c : Char) : List Char :=
  match c with
  | '"' => ['\\', '"']
  | '\\' => ['\\', '\\']
  | '\n' => ['\\', 'n']
  | '\x0d' => ['\\', 'r']
  | '\t' => ['\\', 't']
  | '\x08' => ['\\', 'b']
  | '\x0c' => ['\\', 'f']
  | _ =>
    let n := c.toNat
    if 32 ≤ n ∧ n < 127 then [c]
    else if n < 0x10000 then unitEscape n
    else unitEscape (0xD800 + (n - 0x10000) / 1024) ++ unitEscape (0xDC00 + (n - 0x10000) % 1024)

/-- A text as a string of ASCII characters. -/
def quote (s : String) : String := String.ofList ('"' :: s.toList.flatMap quoteChar ++ ['"'])

/-- A JSON text. -/
inductive Document
  /-- No value. -/
  | null
  /-- A truth value. -/
  | bool (b : Bool)
  /-- An integer. -/
  | int (n : Int)
  /-- A string. -/
  | text (s : String)
  /-- A list. -/
  | list (xs : List Document)
  /-- An object. -/
  | object (kvs : List (String × Document))
  deriving Inhabited

namespace Document

/-- The members of an object in the order of their keys. -/
def sorted (kvs : List (String × String)) : List (String × String) := kvs.mergeSort fun a b => !(b.1 < a.1)

mutual

/-- The written form on one line, keys sorted. -/
def render : Document → String
  | null => "null"
  | bool true => "true"
  | bool false => "false"
  | int n => toString n
  | text s => quote s
  | list xs => "[" ++ ", ".intercalate (renderAll xs) ++ "]"
  | object kvs =>
    "\x7b" ++ ", ".intercalate ((sorted (renderMembers kvs)).map fun (k, v) => quote k ++ ": " ++ v) ++ "\x7d"

/-- The written forms of a list. -/
def renderAll : List Document → List String
  | [] => []
  | x :: xs => render x :: renderAll xs

/-- The written forms of the values of an object. -/
def renderMembers : List (String × Document) → List (String × String)
  | [] => []
  | (k, x) :: kvs => (k, render x) :: renderMembers kvs

end

/-- A text, or null. -/
def ofText? : Option String → Document
  | some s => .text s
  | none => .null

/-- Documents in the order of their written forms. -/
def sortRendered (ds : List Document) : List Document :=
  ((ds.map fun d => (d.render, d)).mergeSort fun a b => !(b.1 < a.1)).map (·.2)

end Document

/-- A number beyond what every reader keeps exactly is written as text. -/
def encodeInt (n : Int) : Document :=
  if n.natAbs ≤ 0x20000000000000 then .int n else .object [("$int", .text (toString n))]

/-- A floating-point number as text. -/
def encodeFloat (x : Float) : Document := .object [("$float", .text (Number.floatText x))]

/-- The text that stands for a key. -/
def keyText : Value → String
  | .text s => s
  | .other s => s
  | .null => "null"
  | .bool true => "true"
  | .bool false => "false"
  | .int n => toString n
  | .float x => Number.floatText x
  | .list _ | .map _ => ""

mutual

/-- A structured value as a document. -/
def encode : Value → Document
  | .null => .null
  | .bool b => .bool b
  | .int n => encodeInt n
  | .float x => encodeFloat x
  | .text s => .text s
  | .other s => .text s
  | .list xs => .list (encodeAll xs)
  | .map kvs => .object (encodeMembers kvs)

/-- The documents of a list. -/
def encodeAll : List Value → List Document
  | [] => []
  | x :: xs => encode x :: encodeAll xs

/-- The documents of a mapping. -/
def encodeMembers : List (Value × Value) → List (String × Document)
  | [] => []
  | (k, x) :: kvs => (keyText k, encode x) :: encodeMembers kvs

end

end BareImports.Json
