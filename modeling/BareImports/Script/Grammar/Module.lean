import BareImports.Script.Grammar.Phrase

/-!
# Imports and exports

* `moduleRules`: the whole text, and the statements that name other modules.
-/

namespace BareImports.Script.Grammar

open Rule Node Token Production

/-- Marks an import or export as one of types, in scripts with types. -/
def typeMark : Dialect → Rule
  | .plain => empty
  | .typed => opt (oneOf [typeWord, typeofWord])

/-- The name of something imported. -/
def localName : Dialect → Rule
  | .plain => name
  | .typed => importedName

/-- The exports of both dialects. -/
def commonExport : Rule := oneOf [
  seq [exportWord, oneOf [seq [star, fromClause], seq [namespaceExport, fromClause],
    seq [exportClause, fromClause], exportClause], statementEnd],
  seq [opt decorators, exportWord, oneOf [declaration, seq [defaultWord, oneOf [declaration,
    seq [expression, statementEnd]]]]]]

/-- The exports of scripts with types. -/
def typedExport : Rule := oneOf [
  seq [exportWord, typeWord, exportClause, opt fromClause, statementEnd],
  seq [exportWord, importWord, importAlias],
  seq [exportWord, equals, expression, statementEnd],
  seq [exportWord, asWord, namespaceWord, name, statementEnd]]

/-- The whole text, and the statements that name other modules. -/
def moduleRules (d : Dialect) : Node → List Production
  | .script => plain program
  | .program => plain (seq [opt interpreterLine, opt statements])
  | .statements => repetition statements statement
  | .exportStatement => plain (d.pick commonExport (oneOf [commonExport, typedExport]))
  | .decorators => repetition decorators decorator
  | .namespaceExport => plain (seq [star, asWord, exportName])
  | .exportClause => plain (seq [braceOpen, list exportSpecifier exportSpecifiers, opt comma, braceClose])
  | .exportSpecifiers => repetition exportSpecifiers (seq [comma, exportSpecifier])
  | .exportSpecifier => plain (seq [typeMark d, exportName, opt (seq [asWord, exportName])])
  | .exportName => plain (oneOf [name, stringLiteral, defaultWord])
  | .importCallee => plain importWord
  | .importStatement => plain (seq [importWord, typeMark d,
      oneOf [seq [importClause, fromClause], stringLiteral, typedOnly d [importRequireClause]],
      opt importAttribute, statementEnd])
  | .importRequireClause => plain (seq [name, equals, requireWord, parenOpen, stringLiteral, parenClose])
  | .importClause => plain (oneOf [namespaceImport, namedImports,
      seq [localName d, opt (seq [comma, oneOf [namespaceImport, namedImports]])]])
  | .importedName => plain (oneOf [name, typeWord])
  | .fromClause => plain (seq [fromWord, stringLiteral])
  | .namespaceImport => plain (seq [star, asWord, name])
  | .namedImports => plain (seq [braceOpen, list importSpecifier importSpecifiers, opt comma, braceClose])
  | .importSpecifiers => repetition importSpecifiers (seq [comma, importSpecifier])
  | .importSpecifier => plain (d.pick
      (oneOf [name, seq [exportName, asWord, name]])
      (seq [typeMark d, oneOf [importedName, seq [oneOf [exportName, typeWord], asWord, importedName]]]))
  | .importAttribute => plain (seq [withWord, object])
  | .importAlias => plain (seq [importWord, name, equals, oneOf [name, nestedName], statementEnd])
  | _ => []

end BareImports.Script.Grammar
