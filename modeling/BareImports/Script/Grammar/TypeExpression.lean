import BareImports.Script.Grammar.Phrase

/-!
# Types

* `annotationRules`: what follows a colon;
* `typeRules`: types by their form;
* `queryRules`: types of values;
* `memberRules`: the members of object types, and parameters of types.
-/

namespace BareImports.Script.Grammar

open Rule Node Token Production

/-- The annotations. -/
def annotationRules : Node → List Production
  | .omittingTypeAscription => plain (seq [minusQuestionColon, type])
  | .addingTypeAscription => plain (seq [plusQuestionColon, type])
  | .optingTypeAscription => plain (seq [questionColon, type])
  | .typeAscription => plain (seq [colon, type])
  | .assertion => plain (seq [assertsWord, oneOf [typePredicate, name, thisWord]])
  | .assertsAscription => plain (seq [colon, assertion])
  | .typePredicate => plain (seq [oneOf [name, thisWord, predefinedType], isWord, type])
  | .typePredicateAscription => plain (seq [colon, typePredicate])
  | _ => []

/-- The types by their form. -/
def typeRules : Node → List Production
  | .type => plain (oneOf [primaryType, functionType, readonlyType, constructorType, inferType]) ++
      [⟨.low, .none, 0, oneOf [annotatedQueryMember, annotatedQueryCall]⟩]
  | .primaryType => plain (oneOf [parenthesizedType, predefinedType, name, nestedTypeName, genericType, objectType,
      arrayType, tupleType, flowMaybeType, typeQuery, indexTypeQuery, thisWord, existentialType, literalType,
      lookupType, conditionalType, templateLiteralType, intersectionType, unionType, constWord])
  | .tupleParameter => plain (seq [oneOf [name, restPattern], typeAscription])
  | .optionalTupleParameter => plain (seq [name, question, typeAscription])
  | .optionalType => plain (seq [type, question])
  | .restType => plain (seq [ellipsis, type])
  | .tupleTypeMember => plain (oneOf [tupleParameter, optionalTupleParameter, optionalType, restType, type])
  | .constructorType => left .plain (seq [opt abstractWord, newWord, opt typeParameters, formalParameters, arrow, type])
  | .templateType => plain (seq [substitution, oneOf [primaryType, inferType], braceClose])
  | .templateLiteralType => plain (seq [backtick, opt templateTypeParts, backtick])
  | .templateTypeParts => repetition templateTypeParts (oneOf [templateChars, templateType])
  | .inferType => right .plain (seq [inferWord, name, opt (seq [extendsWord, type])])
  | .conditionalType => right .plain (seq [type, extendsWord, type, question, type, colon, type])
  | .genericType => level .call (seq [oneOf [name, nestedTypeName], typeArguments])
  | .indexTypeQuery => plain (seq [keyofWord, primaryType])
  | .lookupType => plain (seq [primaryType, bracketOpen, type, bracketClose])
  | .literalType => plain (oneOf [signedNumber, Token.number, stringLiteral, trueWord, falseWord, nullWord,
      undefinedWord])
  | .signedNumber => left .high (seq [oneOf [minus, plus], Token.number])
  | .existentialType => plain star
  | .flowMaybeType => right .plain (seq [question, primaryType])
  | .parenthesizedType => plain (seq [parenOpen, type, parenClose])
  | .predefinedType => plain (oneOf [anyWord, numberWord, booleanWord, stringWord, symbolWord,
      seq [uniqueWord, symbolWord], voidWord, unknownWord, neverWord, objectWord])
  | .typeArguments => plain (seq [less, type, opt implementedTypes, opt comma, greater])
  | .arrayType => plain (seq [primaryType, bracketOpen, bracketClose])
  | .tupleType => plain (seq [bracketOpen, list tupleTypeMember tupleMembers, opt comma, bracketClose])
  | .tupleMembers => repetition tupleMembers (seq [comma, tupleTypeMember])
  | .readonlyType => plain (seq [readonlyWord, type])
  | .unionType => left .plain (seq [opt type, bar, type])
  | .intersectionType => left .plain (seq [opt type, amp, type])
  | .functionType => left .plain (seq [opt typeParameters, formalParameters, arrow,
      oneOf [type, assertion, typePredicate]])
  | _ => []

/-- The types of values. -/
def queryRules : Node → List Production
  | .annotatedQueryMember => plain (seq [oneOf [importCallee, annotatedQueryMember, annotatedQueryCall], dot,
      oneOf [privateName, name]])
  | .annotatedQueryCall => plain (seq [oneOf [importCallee, annotatedQueryMember], arguments])
  | .queryMember => plain (seq [oneOf [name, thisWord, querySubscript, queryMember, queryCall],
      oneOf [dot, optionalDot], oneOf [privateName, name]])
  | .querySubscript => plain (seq [oneOf [name, thisWord, querySubscript, queryMember, queryCall], opt optionalDot,
      bracketOpen, oneOf [predefinedType, stringLiteral, Token.number], bracketClose])
  | .queryCall => plain (seq [oneOf [importCallee, name, queryMember, querySubscript], arguments])
  | .queryInstantiation => plain (seq [oneOf [importCallee, name, queryMember, querySubscript], typeArguments])
  | .typeQuery => right .plain (seq [typeofWord,
      oneOf [querySubscript, queryMember, queryCall, queryInstantiation, name, thisWord]])
  | _ => []

/-- What closes the members of an object type, or stands between them. -/
def memberEnd : Rule := oneOf [comma, statementEnd]

/-- A member of an object type. -/
def typeMember : Rule := oneOf [exportStatement, propertySignature, callSignatureMember, constructSignature,
  indexSignature, methodSignature]

/-- The members of object types, and the parameters of types. -/
def memberRules (d : Dialect) : Node → List Production
  | .objectType => plain (seq [oneOf [braceOpen, braceBarOpen],
      opt (seq [opt (oneOf [comma, semicolon]), typeMember, opt typeMembers, opt memberEnd]),
      oneOf [braceClose, braceBarClose]])
  | .typeMembers => repetition typeMembers (seq [memberEnd, typeMember])
  | .callSignatureMember => plain callSignature
  | .propertySignature => plain (seq [opt accessibilityModifier, opt staticWord, opt overrideModifier,
      opt readonlyWord, propertyName, opt question, opt typeAscription])
  | .typeParameters => plain (seq [less, typeParameter, opt typeParameterList, opt comma, greater])
  | .typeParameterList => repetition typeParameterList (seq [comma, typeParameter])
  | .typeParameter => plain (seq [opt constWord, name, opt constraint, opt defaultType])
  | .defaultType => plain (seq [equals, type])
  | .constraint => plain (seq [oneOf [extendsWord, colon], type])
  | .constructSignature => plain (seq [opt abstractWord, newWord, opt typeParameters, formalParameters,
      opt typeAscription])
  | .indexSignature => plain (seq [opt (seq [opt (oneOf [minus, plus]), readonlyWord]), bracketOpen,
      oneOf [seq [oneOf [name, wordName d], colon, type], mappedTypeClause], bracketClose,
      oneOf [typeAscription, omittingTypeAscription, addingTypeAscription, optingTypeAscription]])
  | .mappedTypeClause => plain (seq [name, inWord, type, opt (seq [asWord, type])])
  | _ => []

end BareImports.Script.Grammar
