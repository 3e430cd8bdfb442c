import BareImports.Script.Rule

/-!
# Phrases

Rules without a node of their own: they stand in the rules of other nodes.

* `plainOnly`, `typedOnly`: rules of one dialect;
* `statementEnd`, `anyExpression`, `identifier`: parts of most rules;
* `wordName`, `propertyWord`: words that are names as well;
* `bindingName`, `target`, `signature`, `parameter`, `optionalMark`: what differs between the dialects.
-/

namespace BareImports.Script.Grammar

open Rule Node Token

/-- Rules of scripts as they are run. -/
def plainOnly (d : Dialect) (rs : List Rule) : Rule := d.pick (oneOf rs) never

/-- Rules of scripts with types. -/
def typedOnly (d : Dialect) (rs : List Rule) : Rule := d.pick never (oneOf rs)

/-- The end of a statement. -/
def statementEnd : Rule := oneOf [lineEnd, semicolon]

/-- An expression, or several with commas between them. -/
def anyExpression : Rule := oneOf [expression, sequenceExpression]

/-- A name that stands for a value. -/
def identifier : Rule := oneOf [undefinedWord, name]

/-- Words with a meaning that are names in other places. -/
def wordName : Dialect → Rule
  | .plain => oneOf [getWord, setWord, asyncWord, awaitWord, staticWord, exportWord, letWord]
  | .typed => oneOf [declareWord, namespaceWord, typeWord, publicWord, privateWord, protectedWord, overrideWord,
      readonlyWord, moduleWord, anyWord, numberWord, booleanWord, stringWord, symbolWord, exportWord, objectWord,
      newWord, getWord, setWord, asyncWord, staticWord, letWord]

/-- A name behind a point. -/
def propertyWord : Dialect → Rule
  | .plain => anyName
  | .typed => name

/-- What a declaration gives a value to. -/
def bindingName : Rule := oneOf [name, destructuringPattern]

/-- What an assignment gives a value to. -/
def target (d : Dialect) : Rule :=
  oneOf [memberExpression, subscriptExpression, identifier, wordName d, destructuringPattern,
    typedOnly d [nonNullExpression]]

/-- The parameters of a function, and its types. -/
def signature : Dialect → Rule
  | .plain => formalParameters
  | .typed => callSignature

/-- One parameter of a function. -/
def parameter : Dialect → Rule
  | .plain => oneOf [pattern, assignmentPattern]
  | .typed => formalParameter

/-- The mark of an access that stops at nothing. -/
def optionalMark : Dialect → Rule
  | .plain => optionalDot
  | .typed => optionalChain

/-- An annotation with a type, in scripts with types. -/
def annotated : Dialect → Rule
  | .plain => empty
  | .typed => opt typeAscription

end BareImports.Script.Grammar
