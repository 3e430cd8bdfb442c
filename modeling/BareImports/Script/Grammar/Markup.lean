import BareImports.Script.Grammar.Phrase

/-!
# Markup

* `markupRules`: elements in tags, as expressions of scripts as they are run.
-/

namespace BareImports.Script.Grammar

open Rule Node Token Production

/-- A name in markup. -/
def markupWord : Rule := oneOf [markupName, name]

/-- The name of an element. -/
def elementName : Rule := oneOf [markupWord, nestedName, markupNamespaceName]

/-- An element with or without content. -/
def element : Rule := oneOf [markupElement, markupSelfClosing]

/-- The elements, and what they consist of. -/
def markupRules : Node → List Production
  | .markupElement => plain (seq [markupOpening, opt markupChildren, markupClosing])
  | .markupChildren => repetition markupChildren (oneOf [markupText, entity, element, markupExpression])
  | .markupExpression => plain (seq [braceOpen, opt (oneOf [expression, sequenceExpression, spreadElement]),
      braceClose])
  | .markupOpening => avoided (seq [less, opt (seq [elementName, opt markupAttributes]), greater])
  | .markupAttributes => repetition markupAttributes (oneOf [markupAttribute, markupExpression])
  | .nestedName => level .member (seq [oneOf [name, nestedName], dot, name])
  | .markupNamespaceName => plain (seq [markupWord, colon, markupWord])
  | .markupClosing => plain (seq [lessSlash, opt elementName, greater])
  | .markupSelfClosing => plain (seq [less, elementName, opt markupAttributes, slashGreater])
  | .markupAttribute => plain (seq [oneOf [markupWord, markupNamespaceName],
      opt (seq [equals, oneOf [markupString, markupExpression, element]])])
  | .markupString => plain (oneOf [seq [doubleQuote, opt doubleMarkupParts, doubleQuote],
      seq [singleQuote, opt singleMarkupParts, singleQuote]])
  | .doubleMarkupParts => repetition doubleMarkupParts (oneOf [doubleMarkup, entity])
  | .singleMarkupParts => repetition singleMarkupParts (oneOf [singleMarkup, entity])
  | _ => []

end BareImports.Script.Grammar
