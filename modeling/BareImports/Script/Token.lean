import BareImports.Script.Dialect

/-!
# Tokens

* `Token`: the classes of lexemes: words, punctuation, and those with many lexemes;
* `Token.spelling`: the one lexeme of a word or a punctuator;
* `Token.vocabulary`: the tokens of a dialect, in the order in which they are tried for a missing one;
* `TokenSet`: sets of tokens, with one bit each.
-/

namespace BareImports.Script

/-- A class of lexemes. The names of words end in `Word`. -/
inductive Token
  /-- The end of the text. -/
  | finish
  /-- A name. -/
  | name
  /-- The line in front of a script that tells what runs it. -/
  | interpreterLine
  /-- A character reference in markup. -/
  | entity
  /-- A name with a hyphen in markup. -/
  | markupName
  /-- Characters of a markup value in double quotes. -/
  | doubleMarkup
  /-- Characters of a markup value in single quotes. -/
  | singleMarkup
  /-- Characters of a string in double quotes. -/
  | doubleChars
  /-- Characters of a string in single quotes. -/
  | singleChars
  /-- An escape in a string or a template. -/
  | escape
  /-- A comment. -/
  | comment
  /-- The slash that closes a regular expression. -/
  | patternEnd
  /-- The flags behind a regular expression. -/
  | patternFlags
  /-- A number. -/
  | number
  /-- A name behind `#`. -/
  | privateName
  /-- `static get` at the end of a line. -/
  | staticGet
  /-- The place where a statement ends without a semicolon. -/
  | lineEnd
  /-- Characters of a template. -/
  | templateChars
  /-- The question mark of a conditional expression. -/
  | conditionalMark
  /-- A comment that begins with `<!--` or `-->`. -/
  | legacyComment
  /-- The body of a regular expression. -/
  | patternBody
  /-- Text between markup elements. -/
  | markupText
  /-- The place where a signature without a body ends without a semicolon. -/
  | signatureEnd
  /-- No lexeme has this class: it marks that a fault is being mended. -/
  | faultMark
  /-- A name where reserved words are names too. It stands beside `name` in sets of tokens only. -/
  | freeName
  -- punctuation
  | star | braceOpen | comma | braceClose | parenOpen | semicolon | parenClose | colon | equals
  | bracketOpen | bracketClose | less | greater | dot | lessSlash | slashGreater | doubleQuote
  | singleQuote | arrow | optionalDot | plusEquals | minusEquals | starEquals | slashEquals
  | percentEquals | caretEquals | ampEquals | barEquals | shiftRightEquals | shiftRightZeroEquals
  | shiftLeftEquals | powerEquals | andEquals | orEquals | nullishEquals | ellipsis | ampAmp
  | barBar | shiftRight | shiftRightZero | shiftLeft | amp | caret | bar | plus | minus | slash
  | percent | starStar | lessEquals | equalsEquals | equalsEqualsEquals | bangEquals
  | bangEqualsEquals | greaterEquals | nullish | bang | tilde | plusPlus | minusMinus | backtick
  | substitution | atSign | question | minusQuestionColon | plusQuestionColon | questionColon
  | braceBarOpen | braceBarClose
  -- words
  | exportWord | defaultWord | asWord | importWord | fromWord | withWord | varWord | letWord
  | constWord | usingWord | awaitWord | elseWord | ifWord | switchWord | forWord | inWord
  | ofWord | whileWord | doWord | tryWord | breakWord | continueWord | debuggerWord | returnWord
  | throwWord | caseWord | catchWord | finallyWord | yieldWord | classWord | extendsWord
  | asyncWord | functionWord | newWord | instanceofWord | typeofWord | voidWord | deleteWord
  | targetWord | metaWord | thisWord | superWord | trueWord | falseWord | nullWord
  | undefinedWord | staticWord | getWord | setWord | typeWord | namespaceWord | readonlyWord
  | declareWord | publicWord | privateWord | protectedWord | overrideWord | moduleWord | anyWord
  | numberWord | booleanWord | stringWord | symbolWord | objectWord | abstractWord | accessorWord
  | satisfiesWord | requireWord | implementsWord | globalWord | interfaceWord | enumWord
  | assertsWord | inferWord | isWord | keyofWord | uniqueWord | unknownWord | neverWord
  deriving DecidableEq, Repr

namespace Token

/-- The one lexeme of a word or a punctuator. -/
def spelling : Token → Option String
  | .exportWord => "export"
  | .star => "*"
  | .defaultWord => "default"
  | .asWord => "as"
  | .braceOpen => "\x7b"
  | .comma => ","
  | .braceClose => "\x7d"
  | .importWord => "import"
  | .fromWord => "from"
  | .withWord => "with"
  | .varWord => "var"
  | .letWord => "let"
  | .constWord => "const"
  | .usingWord => "using"
  | .awaitWord => "await"
  | .elseWord => "else"
  | .ifWord => "if"
  | .switchWord => "switch"
  | .forWord => "for"
  | .parenOpen => "("
  | .semicolon => ";"
  | .parenClose => ")"
  | .inWord => "in"
  | .ofWord => "of"
  | .whileWord => "while"
  | .doWord => "do"
  | .tryWord => "try"
  | .breakWord => "break"
  | .continueWord => "continue"
  | .debuggerWord => "debugger"
  | .returnWord => "return"
  | .throwWord => "throw"
  | .colon => ":"
  | .caseWord => "case"
  | .catchWord => "catch"
  | .finallyWord => "finally"
  | .yieldWord => "yield"
  | .equals => "="
  | .bracketOpen => "["
  | .bracketClose => "]"
  | .less => "<"
  | .greater => ">"
  | .dot => "."
  | .lessSlash => "</"
  | .slashGreater => "/>"
  | .doubleQuote => "\""
  | .singleQuote => "'"
  | .classWord => "class"
  | .extendsWord => "extends"
  | .asyncWord => "async"
  | .functionWord => "function"
  | .arrow => "=>"
  | .optionalDot => "?."
  | .newWord => "new"
  | .plusEquals => "+="
  | .minusEquals => "-="
  | .starEquals => "*="
  | .slashEquals => "/="
  | .percentEquals => "%="
  | .caretEquals => "^="
  | .ampEquals => "&="
  | .barEquals => "|="
  | .shiftRightEquals => ">>="
  | .shiftRightZeroEquals => ">>>="
  | .shiftLeftEquals => "<<="
  | .powerEquals => "**="
  | .andEquals => "&&="
  | .orEquals => "||="
  | .nullishEquals => "??="
  | .ellipsis => "..."
  | .ampAmp => "&&"
  | .barBar => "||"
  | .shiftRight => ">>"
  | .shiftRightZero => ">>>"
  | .shiftLeft => "<<"
  | .amp => "&"
  | .caret => "^"
  | .bar => "|"
  | .plus => "+"
  | .minus => "-"
  | .slash => "/"
  | .percent => "%"
  | .starStar => "**"
  | .lessEquals => "<="
  | .equalsEquals => "=="
  | .equalsEqualsEquals => "==="
  | .bangEquals => "!="
  | .bangEqualsEquals => "!=="
  | .greaterEquals => ">="
  | .nullish => "??"
  | .instanceofWord => "instanceof"
  | .bang => "!"
  | .tilde => "~"
  | .typeofWord => "typeof"
  | .voidWord => "void"
  | .deleteWord => "delete"
  | .plusPlus => "++"
  | .minusMinus => "--"
  | .backtick => "\x60"
  | .substitution => "$\x7b"
  | .targetWord => "target"
  | .metaWord => "meta"
  | .thisWord => "this"
  | .superWord => "super"
  | .trueWord => "true"
  | .falseWord => "false"
  | .nullWord => "null"
  | .undefinedWord => "undefined"
  | .atSign => "@"
  | .staticWord => "static"
  | .getWord => "get"
  | .setWord => "set"
  | .typeWord => "type"
  | .namespaceWord => "namespace"
  | .readonlyWord => "readonly"
  | .question => "?"
  | .declareWord => "declare"
  | .publicWord => "public"
  | .privateWord => "private"
  | .protectedWord => "protected"
  | .overrideWord => "override"
  | .moduleWord => "module"
  | .anyWord => "any"
  | .numberWord => "number"
  | .booleanWord => "boolean"
  | .stringWord => "string"
  | .symbolWord => "symbol"
  | .objectWord => "object"
  | .abstractWord => "abstract"
  | .accessorWord => "accessor"
  | .satisfiesWord => "satisfies"
  | .requireWord => "require"
  | .implementsWord => "implements"
  | .globalWord => "global"
  | .interfaceWord => "interface"
  | .enumWord => "enum"
  | .minusQuestionColon => "-?:"
  | .plusQuestionColon => "+?:"
  | .questionColon => "?:"
  | .assertsWord => "asserts"
  | .inferWord => "infer"
  | .isWord => "is"
  | .keyofWord => "keyof"
  | .uniqueWord => "unique"
  | .unknownWord => "unknown"
  | .neverWord => "never"
  | .braceBarOpen => "\x7b|"
  | .braceBarClose => "|\x7d"
  | _ => none

/-- The tokens of a dialect, in the order in which they are tried. -/
def vocabulary : Dialect → List Token
  | .plain =>
    [.finish, .name, .interpreterLine, .exportWord, .star, .defaultWord, .asWord, .braceOpen,
      .comma, .braceClose, .importWord, .fromWord, .withWord, .varWord, .letWord, .constWord,
      .usingWord, .awaitWord, .elseWord, .ifWord, .switchWord, .forWord, .parenOpen, .semicolon,
      .parenClose, .inWord, .ofWord, .whileWord, .doWord, .tryWord, .breakWord, .continueWord,
      .debuggerWord, .returnWord, .throwWord, .colon, .caseWord, .catchWord, .finallyWord,
      .yieldWord, .equals, .bracketOpen, .bracketClose, .entity, .less, .greater, .markupName,
      .dot, .lessSlash, .slashGreater, .doubleQuote, .singleQuote, .doubleMarkup, .singleMarkup,
      .classWord, .extendsWord, .asyncWord, .functionWord, .arrow, .optionalDot, .newWord,
      .plusEquals, .minusEquals, .starEquals, .slashEquals, .percentEquals, .caretEquals,
      .ampEquals, .barEquals, .shiftRightEquals, .shiftRightZeroEquals, .shiftLeftEquals,
      .powerEquals, .andEquals, .orEquals, .nullishEquals, .ellipsis, .ampAmp, .barBar,
      .shiftRight, .shiftRightZero, .shiftLeft, .amp, .caret, .bar, .plus, .minus, .slash,
      .percent, .starStar, .lessEquals, .equalsEquals, .equalsEqualsEquals, .bangEquals,
      .bangEqualsEquals, .greaterEquals, .nullish, .instanceofWord, .bang, .tilde, .typeofWord,
      .voidWord, .deleteWord, .plusPlus, .minusMinus, .doubleChars, .singleChars, .escape,
      .comment, .backtick, .substitution, .patternEnd, .patternFlags, .number, .privateName,
      .targetWord, .metaWord, .thisWord, .superWord, .trueWord, .falseWord, .nullWord,
      .undefinedWord, .atSign, .staticWord, .staticGet, .getWord, .setWord, .lineEnd,
      .templateChars, .conditionalMark, .legacyComment, .patternBody, .markupText]
  | .typed =>
    [.finish, .name, .interpreterLine, .exportWord, .star, .defaultWord, .typeWord, .importWord,
      .equals, .asWord, .namespaceWord, .braceOpen, .comma, .braceClose, .typeofWord, .fromWord,
      .withWord, .varWord, .letWord, .constWord, .bang, .elseWord, .ifWord, .switchWord,
      .forWord, .parenOpen, .semicolon, .parenClose, .awaitWord, .inWord, .ofWord, .whileWord,
      .doWord, .tryWord, .breakWord, .continueWord, .debuggerWord, .returnWord, .throwWord,
      .colon, .caseWord, .catchWord, .finallyWord, .yieldWord, .bracketOpen, .bracketClose,
      .entity, .less, .greater, .markupName, .dot, .lessSlash, .slashGreater, .doubleQuote,
      .singleQuote, .doubleMarkup, .singleMarkup, .classWord, .asyncWord, .functionWord, .arrow,
      .optionalDot, .newWord, .usingWord, .plusEquals, .minusEquals, .starEquals, .slashEquals,
      .percentEquals, .caretEquals, .ampEquals, .barEquals, .shiftRightEquals,
      .shiftRightZeroEquals, .shiftLeftEquals, .powerEquals, .andEquals, .orEquals,
      .nullishEquals, .ellipsis, .ampAmp, .barBar, .shiftRight, .shiftRightZero, .shiftLeft,
      .amp, .caret, .bar, .plus, .minus, .slash, .percent, .starStar, .lessEquals, .equalsEquals,
      .equalsEqualsEquals, .bangEquals, .bangEqualsEquals, .greaterEquals, .nullish,
      .instanceofWord, .tilde, .voidWord, .deleteWord, .plusPlus, .minusMinus, .doubleChars,
      .singleChars, .escape, .comment, .backtick, .substitution, .patternEnd, .patternFlags,
      .number, .privateName, .targetWord, .metaWord, .thisWord, .superWord, .trueWord,
      .falseWord, .nullWord, .undefinedWord, .atSign, .staticWord, .readonlyWord, .getWord,
      .setWord, .question, .declareWord, .publicWord, .privateWord, .protectedWord,
      .overrideWord, .moduleWord, .anyWord, .numberWord, .booleanWord, .stringWord, .symbolWord,
      .objectWord, .abstractWord, .accessorWord, .satisfiesWord, .requireWord, .extendsWord,
      .implementsWord, .globalWord, .interfaceWord, .enumWord, .minusQuestionColon,
      .plusQuestionColon, .questionColon, .assertsWord, .inferWord, .isWord, .keyofWord,
      .uniqueWord, .unknownWord, .neverWord, .braceBarOpen, .braceBarClose, .lineEnd,
      .templateChars, .conditionalMark, .legacyComment, .patternBody, .markupText, .signatureEnd,
      .faultMark]

/-- Words that are no names in scripts as they are run, unless a property is named. -/
def reserved : List Token :=
  [.breakWord, .caseWord, .catchWord, .classWord, .constWord, .continueWord, .debuggerWord,
    .defaultWord, .deleteWord, .doWord, .elseWord, .exportWord, .extendsWord, .falseWord,
    .finallyWord, .forWord, .functionWord, .ifWord, .importWord, .inWord, .instanceofWord,
    .newWord, .nullWord, .returnWord, .superWord, .switchWord, .thisWord, .throwWord,
    .trueWord, .tryWord, .typeofWord, .varWord, .voidWord, .whileWord, .withWord]

/-- Whether a token can stand anywhere between others. -/
def isComment : Token → Bool
  | .comment | .legacyComment => true
  | _ => false

/-- Whether a token is a part of a tree of its own. The ends of lines and of the text are none. -/
def isShown : Token → Bool
  | .finish | .lineEnd | .signatureEnd | .faultMark => false
  | _ => true

end Token

/-! ## Sets of tokens -/

/-- A set of tokens, with one bit each. -/
abbrev TokenSet := Nat

namespace TokenSet

/-- The set without members. -/
def empty : TokenSet := 0

/-- The set with one member. -/
def single (t : Token) : TokenSet := 1 <<< t.ctorIdx

/-- Whether a token is a member. -/
def has (s : TokenSet) (t : Token) : Bool := s.testBit t.ctorIdx

/-- The members of both sets. -/
def union (s t : TokenSet) : TokenSet := s ||| t

/-- The set of the members of a list. -/
def ofList (ts : List Token) : TokenSet := ts.foldl (fun s t => s.union (single t)) empty

end TokenSet

end BareImports.Script
