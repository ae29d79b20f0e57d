/-!
# Categories and roles of tokens

A token has a *category*, its lexical class, and possibly a *role*, the part it plays in the
program.  The category is fixed when the token is read; the role of a name or an operator becomes
known only while the program around it is converted.
-/

namespace Sharp

inductive Category where
  | lineBreak
  | space
  | operator
  | keyword
  | contextKeyword
  | comment
  | stringLiteral
  | rawStringLiteral
  | charLiteral
  | numberLiteral
  | identifier
  deriving DecidableEq, Repr

def Category.label : Category → String
  | .lineBreak => "line_break"
  | .space => "space"
  | .operator => "operator"
  | .keyword => "keyword"
  | .contextKeyword => "context_keyword"
  | .comment => "comment"
  | .stringLiteral => "string_literal"
  | .rawStringLiteral => "raw_string_literal"
  | .charLiteral => "char_literal"
  | .numberLiteral => "number_literal"
  | .identifier => "identifier"

inductive CommentForm where
  | line
  | block
  deriving DecidableEq, Repr

inductive BlankForm where
  | lineBreak
  | space
  deriving DecidableEq, Repr

inductive LiteralForm where
  | string
  | rawString
  | char
  | number
  | bool
  | null
  deriving DecidableEq, Repr

/-- The two pairs of brackets of the surface language. -/
inductive BracketForm where
  | parenthesis
  | brace
  deriving DecidableEq, Repr

inductive OperatorRole where
  | typeMark
  | accessMark
  | fnArrow
  | fnArgsSeparator
  | tupleConnector
  | arrayMarker
  | genericsMark
  | genericsSeparator
  | accessor
  | assignment
  | indexer
  | lambda
  | other
  deriving DecidableEq, Repr

inductive KeywordRole where
  | declarator
  | builtinType
  | blockWithExpr
  | blockWithoutExpr
  | var
  | method
  | expr
  | blockOrMethod
  | methodOrOther
  | accessor
  | other
  deriving DecidableEq, Repr

/-- Where a modifier keyword is written: after `@`, or in front of the declaration. -/
inductive ModifierRole where
  | afterAt
  | other
  deriving DecidableEq, Repr

inductive NameRole where
  | classType
  | structType
  | fn
  | var
  | const
  | fnArg
  | field
  | prop
  | genericsParam
  | namespaceName
  | discard
  | other
  deriving DecidableEq, Repr

inductive Role where
  | comment (form : CommentForm)
  | blank (form : BlankForm)
  | literal (form : LiteralForm)
  | bracket (form : BracketForm)
  | operator (role : OperatorRole)
  | keyword (role : KeywordRole)
  | modifier (role : ModifierRole)
  | name (role : NameRole)
  deriving DecidableEq, Repr

/-! ## Labels -/

def CommentForm.label : CommentForm → String
  | .line => "line"
  | .block => "block"

def BlankForm.label : BlankForm → String
  | .lineBreak => "line-break"
  | .space => "space"

def LiteralForm.label : LiteralForm → String
  | .string => "string"
  | .rawString => "raw-string"
  | .char => "char"
  | .number => "number"
  | .bool => "bool"
  | .null => "null"

def BracketForm.label : BracketForm → String
  | .parenthesis => "parenthesis"
  | .brace => "brace"

def OperatorRole.label : OperatorRole → String
  | .typeMark => "type-annotation"
  | .accessMark => "accessibility-annotation"
  | .fnArrow => "fn-arrow"
  | .fnArgsSeparator => "fn-args-separator"
  | .tupleConnector => "tuple-connector"
  | .arrayMarker => "array-marker"
  | .genericsMark => "generics-params-annotation"
  | .genericsSeparator => "generics-params-separator"
  | .accessor => "accessor"
  | .assignment => "assignment"
  | .indexer => "indexer"
  | .lambda => "lambda"
  | .other => "other"

def KeywordRole.label : KeywordRole → String
  | .declarator => "declarator"
  | .builtinType => "builtin-type"
  | .blockWithExpr => "block-with-expr"
  | .blockWithoutExpr => "block-without-expr"
  | .var => "var"
  | .method => "method"
  | .expr => "expr"
  | .blockOrMethod => "block-or-method"
  | .methodOrOther => "method-or-other"
  | .accessor => "accessor"
  | .other => "other"

def ModifierRole.label : ModifierRole → String
  | .afterAt => "after-at"
  | .other => "other"

def NameRole.label : NameRole → String
  | .classType => "class"
  | .structType => "struct"
  | .fn => "fn"
  | .var => "var"
  | .const => "const"
  | .fnArg => "fn-arg"
  | .field => "field"
  | .prop => "prop"
  | .genericsParam => "generics-param"
  | .namespaceName => "namespace"
  | .discard => "discard"
  | .other => "other"

/-- A role is written as its group and its part, joined by a point. -/
def Role.label : Role → String
  | .comment form => "comment." ++ form.label
  | .blank form => "space." ++ form.label
  | .literal form => "literal." ++ form.label
  | .bracket form => "bracket." ++ form.label
  | .operator role => "operator." ++ role.label
  | .keyword role => "keyword." ++ role.label
  | .modifier role => "modifier." ++ role.label
  | .name role => "name." ++ role.label

end Sharp
