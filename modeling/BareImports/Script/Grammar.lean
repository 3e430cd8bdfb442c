import BareImports.Script.Grammar.Expression
import BareImports.Script.Grammar.Function
import BareImports.Script.Grammar.Markup
import BareImports.Script.Grammar.Module
import BareImports.Script.Grammar.Statement
import BareImports.Script.Grammar.TypeDeclaration
import BareImports.Script.Grammar.TypeExpression

/-!
# The grammar of scripts

* `productions`: the productions of each node, by dialect.
-/

namespace BareImports.Script

open Grammar

/-- The productions of a node. Each node has its own in one of the groups. -/
def productions (d : Dialect) (n : Node) : List Production :=
  moduleRules d n ++ statementRules d n ++ expressionRules d n ++ literalRules d n ++ functionRules d n ++
    classRules d n ++ patternRules d n ++ markupRules n ++ declarationRules n ++ annotationRules n ++ typeRules n ++
    queryRules n ++ memberRules d n

end BareImports.Script
