/-!
# Nodes

* `Node`: the parts of a script that the grammar knows;
* `Node.isRepetition`, `Node.isShown`: which of them are parts of a tree of their own.
-/

namespace BareImports.Script

/-- A part of a script. The order decides between readings that are equally good. -/
inductive Node
  -- scripts as they are run
  | program | exportStatement | namespaceExport | exportClause | exportSpecifier | exportName
  | declaration | importCallee | importStatement | importClause | fromClause | namespaceImport
  | namedImports | importSpecifier | importAttribute | statement | expressionStatement
  | variableDeclaration | lexicalDeclaration | usingDeclaration | variableDeclarator
  | statementBlock | elseClause | ifStatement | switchStatement | forStatement | forInStatement
  | forHeader | whileStatement | doStatement | tryStatement | withStatement | breakStatement
  | continueStatement | debuggerStatement | returnStatement | throwStatement | emptyStatement
  | labeledStatement | switchBody | switchCase | switchDefault | catchClause | finallyClause
  | parenthesizedExpression | expression | primaryExpression | yieldExpression | object
  | objectPattern | assignmentPattern | objectAssignmentPattern | array | arrayPattern
  | markupElement | markupExpression | markupOpening | nestedName | markupNamespaceName
  | markupClosing | markupSelfClosing | markupAttribute | markupString | classExpression
  | classDeclaration | classHeritage | functionExpression | functionDeclaration | generatorFunction
  | generatorDeclaration | arrowFunction | callSignature | formalParameter | optionalChain
  | callExpression | newExpression | awaitExpression | memberExpression | subscriptExpression
  | assignmentExpression | augmentedTarget | augmentedAssignment | initializer
  | destructuringPattern | spreadElement | conditionalExpression | binaryExpression
  | unaryExpression | updateExpression | sequenceExpression | stringLiteral | template
  | templateSubstitution | regularExpression | metaProperty | arguments | decorator
  | decoratorMember | decoratorCall | classBody | fieldDefinition | formalParameters | staticBlock
  | pattern | restPattern | methodDefinition | pair | pairPattern | propertyName | computedName
  -- types
  | publicFieldDefinition | importedName | nonNullExpression | methodSignature
  | abstractMethodSignature | functionSignature | decoratorParenthesized | typeAssertion
  | asExpression | satisfiesExpression | instantiationExpression | importRequireClause
  | extendsClause | extendedValue | implementsClause | ambientDeclaration
  | abstractClassDeclaration | moduleDeclaration | internalModule | moduleRest | importAlias
  | nestedTypeName | interfaceDeclaration | extendsTypeClause | enumDeclaration | enumBody
  | enumAssignment | typeAliasDeclaration | accessibilityModifier | overrideModifier
  | requiredParameter | optionalParameter | parameterName | omittingTypeAscription
  | addingTypeAscription | optingTypeAscription | typeAscription | annotatedQueryMember
  | annotatedQueryCall | assertion | assertsAscription | type | tupleParameter
  | optionalTupleParameter | optionalType | restType | tupleTypeMember | constructorType
  | primaryType | templateType | templateLiteralType | inferType | conditionalType | genericType
  | typePredicate | typePredicateAscription | queryMember | querySubscript | queryCall
  | queryInstantiation | typeQuery | indexTypeQuery | lookupType | mappedTypeClause | literalType
  | signedNumber | existentialType | flowMaybeType | parenthesizedType | predefinedType
  | typeArguments | objectType | callSignatureMember | propertySignature | typeParameters
  | typeParameter | defaultType | constraint | constructSignature | indexSignature | arrayType
  | tupleType | readonlyType | unionType | intersectionType | functionType
  -- runs of parts of one kind
  | statements | decorators | exportSpecifiers | importSpecifiers | declarators | switchCases
  | objectMembers | patternMembers | listElements | patternElements | markupChildren
  | markupAttributes | doubleMarkupParts | singleMarkupParts | expressions | doubleParts
  | singleParts | templateParts | classMembers | parameters | extendedValues | implementedTypes
  | extendedTypes | enumMembers | templateTypeParts | typeMembers | typeParameterList
  | tupleMembers
  /-- The whole text. -/
  | script
  deriving DecidableEq, Repr

namespace Node

/-- Whether a node is a run of parts of one kind. -/
def isRepetition : Node → Bool
  | .statements | .decorators | .exportSpecifiers | .importSpecifiers | .declarators | .switchCases
  | .objectMembers | .patternMembers | .listElements | .patternElements | .markupChildren
  | .markupAttributes | .doubleMarkupParts | .singleMarkupParts | .expressions | .doubleParts
  | .singleParts | .templateParts | .classMembers | .parameters | .extendedValues
  | .implementedTypes | .extendedTypes | .enumMembers | .templateTypeParts | .typeMembers
  | .typeParameterList | .tupleMembers => true
  | _ => false

/-- Whether a node is a part of a tree of its own. The others only sort their parts. -/
def isShown : Node → Bool
  | .exportName | .declaration | .fromClause | .statement | .forHeader | .expression
  | .primaryExpression | .callSignature | .formalParameter | .augmentedTarget | .initializer
  | .destructuringPattern | .pattern | .propertyName | .importedName | .extendedValue | .moduleRest
  | .parameterName | .type | .tupleTypeMember | .primaryType => false
  | n => !n.isRepetition

end Node

end BareImports.Script
