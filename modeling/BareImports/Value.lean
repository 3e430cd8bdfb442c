import BareImports.Number.Text

/-!
# Structured values

What settings files, manifests and import maps hold.

* `Value`: null, truth values, integers, floating-point numbers, texts, lists and mappings in order;
* `Value.get?`: the value of a text key; `Value.put`: a mapping with a key set, in the place it already has;
* `Value.truthy`: whether a value counts as given.
-/

namespace BareImports

/-- A structured value. Keys of a mapping are values too, since settings may use any scalar as a key. -/
inductive Value
  /-- No value. -/
  | null
  /-- A truth value. -/
  | bool (b : Bool)
  /-- An integer of any size. -/
  | int (n : Int)
  /-- A floating-point number. -/
  | float (x : Float)
  /-- A text. -/
  | text (s : String)
  /-- A scalar that only its text can show: a date, a time or bytes. -/
  | other (shown : String)
  /-- A list. -/
  | list (xs : List Value)
  /-- A mapping, in the order in which its keys first came. -/
  | map (kvs : List (Value × Value))
  deriving BEq, Inhabited

namespace Value

/-- A scalar as a number, truth values being 0 and 1. -/
def number? : Value → Option (Int ⊕ Float)
  | .bool b => some (.inl (if b then 1 else 0))
  | .int n => some (.inl n)
  | .float x => some (.inr x)
  | _ => none

/-- Whether two keys are one: numbers by their value, everything else by itself. -/
def sameKey (a b : Value) : Bool :=
  match a.number?, b.number? with
  | some (.inl m), some (.inl n) => m == n
  | some (.inl m), some (.inr y) => Number.truncate? y == some m && Number.intToFloat m == y
  | some (.inr x), some (.inl n) => Number.truncate? x == some n && Number.intToFloat n == x
  | some (.inr x), some (.inr y) => x == y
  | none, none => a == b
  | _, _ => false

/-- A mapping with a key set: in its place if it is there, else at the end. -/
def put (kvs : List (Value × Value)) (k v : Value) : List (Value × Value) :=
  if kvs.any fun (k', _) => sameKey k k' then
    kvs.map fun (k', v') => if sameKey k k' then (k', v) else (k', v')
  else kvs ++ [(k, v)]

/-- The mapping that setting the pairs in order makes. -/
def ofPairs (kvs : List (Value × Value)) : Value := .map (kvs.foldl (fun acc (k, v) => put acc k v) [])

/-- A mapping with text keys. -/
def object (kvs : List (String × Value)) : Value := .map (kvs.map fun (k, v) => (.text k, v))

/-- Whether a key is the given text. -/
def isText (name : String) : Value → Bool
  | .text s => s == name
  | _ => false

/-- The value of a text key in a list of pairs. -/
def lookup? (name : String) (kvs : List (Value × Value)) : Option Value :=
  (kvs.find? fun (k, _) => k.isText name).map (·.2)

/-- The value of a text key, `none` also for what is no mapping. -/
def get? (v : Value) (name : String) : Option Value :=
  match v with
  | .map kvs => lookup? name kvs
  | _ => none

/-- The text, if the value is one. -/
def text? : Value → Option String
  | .text s => some s
  | _ => none

/-- The pairs, if the value is a mapping. -/
def pairs? : Value → Option (List (Value × Value))
  | .map kvs => some kvs
  | _ => none

/-- Whether a value counts as given: not null, false, zero or empty. -/
def truthy : Value → Bool
  | .null => false
  | .bool b => b
  | .int n => n != 0
  | .float x => x != 0.0
  | .text s => !s.isEmpty
  | .other _ => true
  | .list xs => !xs.isEmpty
  | .map kvs => !kvs.isEmpty

end Value

end BareImports
