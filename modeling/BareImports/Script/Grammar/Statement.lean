import BareImports.Script.Grammar.Phrase

/-!
# Statements

* `statementRules`: declarations of variables, control flow, and blocks.
-/

namespace BareImports.Script.Grammar

open Rule Node Token Production

/-- What stands between the parentheses of a loop over a collection. -/
def loopBinding (d : Dialect) : Rule := oneOf [
  oneOf [target d, parenthesizedExpression],
  seq [varWord, bindingName, opt initializer],
  seq [oneOf [letWord, constWord], bindingName, opt lineEnd]]

/-- The statements, and what they consist of. -/
def statementRules (d : Dialect) : Node → List Production
  | .declaration => plain (oneOf [functionDeclaration, generatorDeclaration, classDeclaration, lexicalDeclaration,
      variableDeclaration, plainOnly d [usingDeclaration], typedOnly d [functionSignature, abstractClassDeclaration,
        moduleDeclaration, typeAliasDeclaration, enumDeclaration, interfaceDeclaration, importAlias,
        ambientDeclaration]]) ++ d.pick [] (level .declare internalModule)
  | .statement => plain (oneOf [exportStatement, importStatement, debuggerStatement, expressionStatement, declaration,
      statementBlock, ifStatement, switchStatement, forStatement, forInStatement, whileStatement, doStatement,
      tryStatement, withStatement, breakStatement, continueStatement, returnStatement, throwStatement, emptyStatement,
      labeledStatement])
  | .expressionStatement => plain (seq [anyExpression, statementEnd])
  | .variableDeclaration => plain (seq [varWord, variableDeclarator, opt declarators, statementEnd])
  | .declarators => repetition declarators (seq [comma, variableDeclarator])
  | .lexicalDeclaration => plain (seq [oneOf [letWord, constWord], variableDeclarator, opt declarators, statementEnd])
  | .usingDeclaration => plain (seq [oneOf [usingWord, seq [awaitWord, usingWord]], variableDeclarator,
      opt declarators, statementEnd])
  | .variableDeclarator => plain (seq [bindingName, annotated d, opt initializer]) ++
      d.pick [] (level .declare (seq [name, bang, typeAscription]))
  | .statementBlock => right .plain (seq [braceOpen, opt statements, braceClose, opt lineEnd])
  | .elseClause => plain (seq [elseWord, statement])
  | .ifStatement => right .plain (seq [ifWord, parenthesizedExpression, statement, opt elseClause])
  | .switchStatement => plain (seq [switchWord, parenthesizedExpression, switchBody])
  | .forStatement => plain (seq [forWord, parenOpen,
      oneOf [oneOf [lexicalDeclaration, variableDeclaration], seq [anyExpression, semicolon], emptyStatement],
      oneOf [seq [anyExpression, semicolon], emptyStatement], opt anyExpression, parenClose, statement])
  | .forInStatement => plain (seq [forWord, opt awaitWord, forHeader, statement])
  | .forHeader => plain (seq [parenOpen, loopBinding d, oneOf [inWord, ofWord], anyExpression, parenClose])
  | .whileStatement => plain (seq [whileWord, parenthesizedExpression, statement])
  | .doStatement => right .plain (seq [doWord, statement, whileWord, parenthesizedExpression, opt statementEnd])
  | .tryStatement => plain (seq [tryWord, statementBlock, opt catchClause, opt finallyClause])
  | .withStatement => plain (seq [withWord, parenthesizedExpression, statement])
  | .breakStatement => plain (seq [breakWord, opt name, statementEnd])
  | .continueStatement => plain (seq [continueWord, opt name, statementEnd])
  | .debuggerStatement => plain (seq [debuggerWord, statementEnd])
  | .returnStatement => plain (seq [returnWord, opt anyExpression, statementEnd])
  | .throwStatement => plain (seq [throwWord, anyExpression, statementEnd])
  | .emptyStatement => plain semicolon
  | .labeledStatement => avoided (seq [oneOf [name, wordName d], colon, statement])
  | .switchBody => plain (seq [braceOpen, opt switchCases, braceClose])
  | .switchCases => repetition switchCases (oneOf [switchCase, switchDefault])
  | .switchCase => plain (seq [caseWord, anyExpression, colon, opt statements])
  | .switchDefault => plain (seq [defaultWord, colon, opt statements])
  | .catchClause => plain (seq [catchWord, opt (seq [parenOpen, bindingName, annotated d, parenClose]),
      statementBlock])
  | .finallyClause => plain (seq [finallyWord, statementBlock])
  | _ => []

end BareImports.Script.Grammar
