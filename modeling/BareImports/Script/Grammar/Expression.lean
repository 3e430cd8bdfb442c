import BareImports.Script.Grammar.Phrase

/-!
# Expressions

* `binaryOperators`: the operators with two operands and how they bind;
* `expressionRules`: operators, accesses and calls;
* `literalRules`: strings, templates, regular expressions, objects and lists.
-/

namespace BareImports.Script.Grammar

open Rule Node Token Production

/-- The operators with two operands, with how strongly and which way they bind. -/
def binaryOperators : List (Token × Level × Side) := [
  (ampAmp, .logicalAnd, .left), (barBar, .logicalOr, .left), (shiftRight, .binaryShift, .left),
  (shiftRightZero, .binaryShift, .left), (shiftLeft, .binaryShift, .left), (amp, .bitwiseAnd, .left),
  (caret, .bitwiseXor, .left), (bar, .bitwiseOr, .left), (plus, .binaryPlus, .left), (minus, .binaryPlus, .left),
  (star, .binaryTimes, .left), (slash, .binaryTimes, .left), (percent, .binaryTimes, .left),
  (starStar, .binaryPower, .right), (less, .binaryRelation, .left), (lessEquals, .binaryRelation, .left),
  (equalsEquals, .binaryEquality, .left), (equalsEqualsEquals, .binaryEquality, .left),
  (bangEquals, .binaryEquality, .left), (bangEqualsEquals, .binaryEquality, .left),
  (greaterEquals, .binaryRelation, .left), (greater, .binaryRelation, .left), (nullish, .conditional, .left),
  (instanceofWord, .binaryRelation, .left), (inWord, .binaryRelation, .left)]

/-- Compound assignments. -/
def augmentingOperator : Rule := oneOf [plusEquals, minusEquals, starEquals, slashEquals, percentEquals, caretEquals,
  ampEquals, barEquals, shiftRightEquals, shiftRightZeroEquals, shiftLeftEquals, powerEquals, andEquals, orEquals,
  nullishEquals]

/-- The expressions that are made of operators, accesses and calls. -/
def expressionRules (d : Dialect) : Node → List Production
  | .parenthesizedExpression => plain (seq [parenOpen,
      d.pick anyExpression (oneOf [seq [expression, opt typeAscription], sequenceExpression]), parenClose])
  | .expression =>
    plain (oneOf [primaryExpression, assignmentExpression, augmentedAssignment, awaitExpression, unaryExpression,
      binaryExpression, conditionalExpression, updateExpression, newExpression, yieldExpression,
      plainOnly d [markupElement, markupSelfClosing],
      typedOnly d [asExpression, satisfiesExpression, instantiationExpression, internalModule, typeAssertion]])
  | .primaryExpression => plain (oneOf [subscriptExpression, memberExpression, parenthesizedExpression, identifier,
      wordName d, thisWord, superWord, Token.number, stringLiteral, template, regularExpression, trueWord, falseWord,
      nullWord, object, array, functionExpression, arrowFunction, generatorFunction, classExpression, metaProperty,
      callExpression, typedOnly d [nonNullExpression]])
  | .yieldExpression => right .plain (seq [yieldWord, oneOf [seq [star, expression], opt expression]])
  | .callExpression =>
    let typed := d.pick empty (opt typeArguments)
    level .call (seq [oneOf [expression, importCallee], typed, arguments]) ++
      level .templateCall (seq [oneOf [primaryExpression, newExpression], template]) ++
      level .member (seq [primaryExpression, d.pick (optionalMark d) optionalDot, typed, arguments])
  | .newExpression => d.pick
      (right (.level .new) (seq [newWord, oneOf [primaryExpression, newExpression]]) ++
        [⟨.level .new, .right, 1, seq [newWord, oneOf [primaryExpression, newExpression], arguments]⟩])
      (right (.level .new) (seq [newWord, primaryExpression, opt typeArguments, opt arguments]))
  | .awaitExpression => level .unaryVoid (seq [awaitWord, expression])
  | .optionalChain => plain optionalDot
  | .memberExpression => level .member (seq [oneOf [expression, primaryExpression, importCallee],
      oneOf [dot, optionalMark d], oneOf [privateName, propertyWord d]])
  | .subscriptExpression => right (.level .member) (seq [oneOf [expression, primaryExpression], opt (optionalMark d),
      bracketOpen, anyExpression, bracketClose])
  | .nonNullExpression => left (.level .unary) (seq [expression, bang])
  | .assignmentExpression => right (.level .assign) (seq [d.pick empty (opt usingWord),
      oneOf [parenthesizedExpression, target d], equals, expression])
  | .augmentedTarget => plain (oneOf [memberExpression, subscriptExpression, wordName d, name,
      parenthesizedExpression, typedOnly d [nonNullExpression]])
  | .augmentedAssignment => right (.level .assign) (seq [augmentedTarget, augmentingOperator, expression])
  | .initializer => plain (seq [equals, expression])
  | .spreadElement => plain (seq [ellipsis, expression])
  | .conditionalExpression => right (.level .conditional)
      (seq [expression, conditionalMark, expression, colon, expression])
  | .binaryExpression => binaryOperators.flatMap fun (op, l, side) =>
      [⟨.level l, side, 0,
        seq [if op == inWord then oneOf [expression, privateName] else expression, op, expression]⟩]
  | .unaryExpression => left (.level .unaryVoid)
      (seq [oneOf [bang, tilde, minus, plus, typeofWord, voidWord, deleteWord], expression])
  | .updateExpression => left .plain (oneOf [seq [expression, oneOf [plusPlus, minusMinus]],
      seq [oneOf [plusPlus, minusMinus], expression]])
  | .sequenceExpression => right .plain (seq [expression, opt expressions])
  | .expressions => repetition expressions (seq [comma, expression])
  | .arguments => plain (seq [parenOpen, list (opt (oneOf [expression, spreadElement])) listElements, parenClose])
  | .metaProperty => plain (oneOf [seq [newWord, dot, targetWord], seq [importWord, dot, metaWord]])
  | .typeAssertion => left (.level .unary) (seq [typeArguments, expression])
  | .asExpression => left (.level .binary) (seq [expression, asWord, oneOf [constWord, type]])
  | .satisfiesExpression => left (.level .binary) (seq [expression, satisfiesWord, type])
  | .instantiationExpression => level .instantiation (seq [expression, typeArguments])
  | _ => []

/-- The literals. -/
def literalRules (d : Dialect) : Node → List Production
  | .object => level .object (seq [braceOpen,
      list (opt (oneOf [pair, spreadElement, methodDefinition, name, wordName d])) objectMembers, braceClose])
  | .objectMembers => repetition objectMembers
      (seq [comma, opt (oneOf [pair, spreadElement, methodDefinition, name, wordName d])])
  | .pair => plain (seq [propertyName, colon, expression])
  | .propertyName => plain (oneOf [propertyWord d, wordName d, privateName, stringLiteral, Token.number, computedName])
  | .computedName => plain (seq [bracketOpen, expression, bracketClose])
  | .array => plain (seq [bracketOpen, list (opt (oneOf [expression, spreadElement])) listElements, bracketClose])
  | .listElements => repetition listElements (seq [comma, opt (oneOf [expression, spreadElement])])
  | .stringLiteral => plain (oneOf [seq [doubleQuote, opt doubleParts, doubleQuote],
      seq [singleQuote, opt singleParts, singleQuote]])
  | .doubleParts => repetition doubleParts (oneOf [doubleChars, escape])
  | .singleParts => repetition singleParts (oneOf [singleChars, escape])
  | .template => plain (seq [backtick, opt templateParts, backtick])
  | .templateParts => repetition templateParts (oneOf [templateChars, escape, templateSubstitution])
  | .templateSubstitution => plain (seq [substitution, anyExpression, braceClose])
  | .regularExpression => plain (seq [slash, patternBody, patternEnd, opt patternFlags])
  | _ => []

end BareImports.Script.Grammar
