import BareImports.Script.Grammar.Phrase

/-!
# Functions, classes and patterns

* `functionRules`: functions and their parameters;
* `classRules`: classes and their members;
* `patternRules`: what takes values apart.
-/

namespace BareImports.Script.Grammar

open Rule Node Token Production

/-- The functions and their parameters. -/
def functionRules (d : Dialect) : Node → List Production
  | .functionExpression => level .literal
      (seq [opt asyncWord, functionWord, opt name, signature d, statementBlock])
  | .functionDeclaration => right (.level .declare)
      (seq [opt asyncWord, functionWord, name, signature d, statementBlock, opt lineEnd])
  | .generatorFunction => level .literal
      (seq [opt asyncWord, functionWord, star, opt name, signature d, statementBlock])
  | .generatorDeclaration => right (.level .declare)
      (seq [opt asyncWord, functionWord, star, name, signature d, statementBlock, opt lineEnd])
  | .arrowFunction => plain (seq [opt asyncWord, oneOf [wordName d, name, signature d], arrow,
      oneOf [expression, statementBlock]])
  | .callSignature => plain (seq [opt typeParameters, formalParameters,
      opt (oneOf [typeAscription, assertsAscription, typePredicateAscription])])
  | .formalParameters => plain (seq [parenOpen, opt (seq [parameter d, opt parameters, opt comma]), parenClose])
  | .parameters => repetition parameters (seq [comma, parameter d])
  | .formalParameter => plain (oneOf [requiredParameter, optionalParameter])
  | .requiredParameter => plain (seq [parameterName, opt typeAscription, opt initializer])
  | .optionalParameter => plain (seq [parameterName, question, opt typeAscription, opt initializer])
  | .parameterName => plain (seq [opt decorators, opt accessibilityModifier, opt overrideModifier, opt readonlyWord,
      oneOf [pattern, thisWord]])
  | .functionSignature => plain (seq [opt asyncWord, functionWord, name, callSignature,
      oneOf [statementEnd, signatureEnd]])
  | _ => []

/-- The head of a class behind its name. -/
def classRest (d : Dialect) : Rule := seq [d.pick empty (opt typeParameters), opt classHeritage, classBody]

/-- The modifiers in front of a member of a class or of a type. -/
def memberModifiers : Rule := seq [opt accessibilityModifier, opt staticWord, opt overrideModifier, opt readonlyWord]

/-- The members of a class of a script as it is run. -/
def plainMember : Rule := oneOf [seq [methodDefinition, opt semicolon], seq [fieldDefinition, statementEnd],
  staticBlock, semicolon]

/-- The members of a class of a script with types. -/
def typedMember : Rule := oneOf [seq [opt decorators, methodDefinition, opt statementEnd],
  seq [methodSignature, oneOf [signatureEnd, comma]], staticBlock,
  seq [oneOf [abstractMethodSignature, indexSignature, methodSignature, publicFieldDefinition],
    oneOf [statementEnd, comma]],
  semicolon]

/-- The classes and their members. -/
def classRules (d : Dialect) : Node → List Production
  | .classExpression => level .literal (seq [opt decorators, classWord, opt name, classRest d])
  | .classDeclaration => d.pick
      (level .declare (seq [opt decorators, classWord, name, classRest d, opt lineEnd]))
      (left (.level .declare) (seq [opt decorators, classWord, name, classRest d, opt lineEnd]))
  | .abstractClassDeclaration => level .declare (seq [opt decorators, abstractWord, classWord, name, classRest d])
  | .classHeritage => plain (d.pick (seq [extendsWord, expression])
      (oneOf [seq [extendsClause, opt implementsClause], implementsClause]))
  | .extendsClause => plain (seq [extendsWord, extendedValue, opt extendedValues])
  | .extendedValues => repetition extendedValues (seq [comma, extendedValue])
  | .extendedValue => level .extended (seq [expression, opt typeArguments])
  | .implementsClause => plain (seq [implementsWord, type, opt implementedTypes])
  | .implementedTypes => repetition implementedTypes (seq [comma, type])
  | .classBody => plain (seq [braceOpen, opt classMembers, braceClose])
  | .classMembers => repetition classMembers (d.pick plainMember typedMember)
  | .fieldDefinition => plain (seq [opt decorators, opt staticWord, propertyName, opt initializer])
  | .publicFieldDefinition => plain (seq [opt decorators,
      opt (oneOf [seq [declareWord, opt accessibilityModifier], seq [accessibilityModifier, opt declareWord]]),
      oneOf [seq [opt staticWord, opt overrideModifier, opt readonlyWord], seq [opt abstractWord, opt readonlyWord],
        seq [opt readonlyWord, opt abstractWord], opt accessorWord],
      propertyName, opt (oneOf [question, bang]), opt typeAscription, opt initializer])
  | .staticBlock => plain (seq [staticWord, statementBlock])
  | .methodDefinition =>
    let kind := opt (oneOf [getWord, setWord, star])
    d.pick
      (plain (seq [opt decorators, opt (oneOf [staticWord, staticGet]), opt asyncWord, kind, propertyName,
        formalParameters, statementBlock]))
      (left .plain (seq [memberModifiers, opt asyncWord, kind, propertyName, opt question, callSignature,
        statementBlock]))
  | .methodSignature => plain (seq [memberModifiers, opt asyncWord, opt (oneOf [getWord, setWord, star]), propertyName,
      opt question, callSignature])
  | .abstractMethodSignature => plain (seq [opt accessibilityModifier, abstractWord, opt overrideModifier,
      opt (oneOf [getWord, setWord, star]), propertyName, opt question, callSignature])
  | .accessibilityModifier => plain (oneOf [publicWord, privateWord, protectedWord])
  | .overrideModifier => plain overrideWord
  | .decorator => plain (seq [atSign, oneOf [name, decoratorMember, decoratorCall,
      typedOnly d [decoratorParenthesized]]])
  | .decoratorMember => level .member (seq [oneOf [name, decoratorMember], dot, name])
  | .decoratorCall => level .call (seq [oneOf [name, decoratorMember], d.pick empty (opt typeArguments), arguments])
  | .decoratorParenthesized => plain (seq [parenOpen, oneOf [name, decoratorMember, decoratorCall], parenClose])
  | _ => []

/-- The patterns. -/
def patternRules (d : Dialect) : Node → List Production
  | .destructuringPattern => plain (oneOf [objectPattern, arrayPattern])
  | .objectPattern => level .object (seq [braceOpen,
      list (opt (oneOf [pairPattern, restPattern, objectAssignmentPattern, name, wordName d])) patternMembers,
      braceClose])
  | .patternMembers => repetition patternMembers
      (seq [comma, opt (oneOf [pairPattern, restPattern, objectAssignmentPattern, name, wordName d])])
  | .pairPattern => plain (seq [propertyName, colon, oneOf [pattern, assignmentPattern]])
  | .assignmentPattern => plain (seq [pattern, equals, expression])
  | .objectAssignmentPattern => plain (seq [oneOf [wordName d, name, destructuringPattern], equals, expression])
  | .arrayPattern => plain (seq [bracketOpen, list (opt (oneOf [pattern, assignmentPattern])) patternElements,
      bracketClose])
  | .patternElements => repetition patternElements (seq [comma, opt (oneOf [pattern, assignmentPattern])])
  | .pattern => avoided (oneOf [target d, restPattern])
  | .restPattern => right .plain (seq [ellipsis, target d])
  | _ => []

end BareImports.Script.Grammar
