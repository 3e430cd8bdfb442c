import BareImports.Script.Grammar.Phrase

/-!
# Declarations of types

* `declarationRules`: interfaces, enumerations, aliases, and declarations without a body.
-/

namespace BareImports.Script.Grammar

open Rule Node Token Production

/-- The declarations of scripts with types. -/
def declarationRules : Node → List Production
  | .ambientDeclaration => plain (seq [declareWord, oneOf [declaration, seq [globalWord, statementBlock],
      seq [moduleWord, dot, name, colon, type, statementEnd]]])
  | .moduleDeclaration => plain (seq [moduleWord, moduleRest])
  | .internalModule => plain (seq [namespaceWord, moduleRest])
  | .moduleRest => right .plain (seq [oneOf [stringLiteral, name, nestedName], opt statementBlock])
  | .nestedTypeName => level .member (seq [oneOf [name, nestedName], dot, name])
  | .interfaceDeclaration => plain (seq [interfaceWord, name, opt typeParameters, opt extendsTypeClause, objectType])
  | .extendsTypeClause => plain (seq [extendsWord, oneOf [name, nestedTypeName, genericType], opt extendedTypes])
  | .extendedTypes => repetition extendedTypes (seq [comma, oneOf [name, nestedTypeName, genericType]])
  | .enumDeclaration => plain (seq [opt constWord, enumWord, name, enumBody])
  | .enumBody => plain (seq [braceOpen,
      opt (seq [oneOf [propertyName, enumAssignment], opt enumMembers, opt comma]), braceClose])
  | .enumMembers => repetition enumMembers (seq [comma, oneOf [propertyName, enumAssignment]])
  | .enumAssignment => plain (seq [propertyName, initializer])
  | .typeAliasDeclaration => plain (seq [typeWord, name, opt typeParameters, equals, type, statementEnd])
  | _ => []

end BareImports.Script.Grammar
