import Sharp.Token.Basic

/-!
# Faults

A fault says why a source was refused and where.  The reasons are values of `Cause`; the wording is
in `Cause.message` alone.
-/

namespace Sharp

/-- Something a source can lack. -/
inductive Part where
  | accessibilityModifier
  | accessor
  | argument
  | assignment
  | assignmentOrLambda
  | catchOrFinally
  | collection
  | colon
  | condition
  | declaredName (declarator : String)
  | expression
  | functionArrow
  | functionBody
  | functionName
  | functionType
  | genericsParameter
  | inWord
  | lambdaParameters
  | leftBrace
  | namespaceName
  | pattern
  | propertyName
  | returnedType
  | rightBrace
  | rightParenthesis
  | semicolon
  | semicolonBefore (word : String)
  | statement
  | switchArmArrow
  | switchArmBody
  | switchSubject
  | type
  | usingModifier
  | variableName
  | whileAfterDo
  deriving DecidableEq, Repr

def Part.label : Part → String
  | .accessibilityModifier => "accessibility modifier"
  | .accessor => "accessor"
  | .argument => "argument"
  | .assignment => "assignment"
  | .assignmentOrLambda => "assignment or lambda expression"
  | .catchOrFinally => "catch or finally"
  | .collection => "collection"
  | .colon => "colon"
  | .condition => "condition"
  | .declaredName declarator => declarator ++ " name"
  | .expression => "expression"
  | .functionArrow => "function arrow"
  | .functionBody => "function body"
  | .functionName => "function name"
  | .functionType => "function type"
  | .genericsParameter => "generics parameter"
  | .inWord => "in"
  | .lambdaParameters => "lambda parameters"
  | .leftBrace => "left brace"
  | .namespaceName => "namespace name"
  | .pattern => "pattern"
  | .propertyName => "property name"
  | .returnedType => "returned type"
  | .rightBrace => "right brace"
  | .rightParenthesis => "right parenthesis"
  | .semicolon => "semicolon"
  | .semicolonBefore word => "semicolon before " ++ word
  | .statement => "statement"
  | .switchArmArrow => "=> in switch arm"
  | .switchArmBody => "switch arm body"
  | .switchSubject => "switch subject"
  | .type => "type"
  | .usingModifier => "using modifier"
  | .variableName => "variable name"
  | .whileAfterDo => "while after do"

inductive Cause where
  -- Characters that form no token.
  | unterminatedComment
  | unterminatedRawString
  | unexpectedCharacter (c : Char)
  | unexpectedDecimalPoint
  -- Tokens out of place.
  | unexpectedToken (text : String)
  | missing (part : Part)
  | duplicate (word : String)
  -- Types.
  | emptyParentheses
  | unqualifiable
  | qualifiedFunctionType
  | unexpectedFunctionType
  | unexpectedGenericsType
  | unexpectedAccessor
  -- Modifiers.
  | argumentModifier (word : String)
  | modifierNotAllowed (word target : String)
  | modifiersExclude (word other : String)
  | refAndImmutApart
  | refImmutStruct
  | danglingModifier (word : String)
  | modifierBeforeAt (word : String)
  -- Declarations.
  | unsupportedDeclaration (word : String)
  | immutOutsideType
  | declarationInFunction (word : String)
  | propertyInFunction
  | accessibilityInFunction
  | abstractBody
  | untypedImmutableField
  | untypedField
  | nonConstantConst
  | untypedConst
  | usingMisplaced
  | namespaceMisplaced
  | fileNamespaceMisplaced
  | expressionBodyAndAccessors
  | noExpressionBody
  -- Control flow.
  | branchWithoutIf (word : String)
  | handlerWithoutTry (word : String)
  | forClauses
  -- Tokens that are not where they were taken from.  No source comes to this.
  | outsideRange
  deriving DecidableEq, Repr

def Cause.message : Cause → String
  | .unterminatedComment => "Unterminated block comment"
  | .unterminatedRawString => "Unterminated raw string literal"
  | .unexpectedCharacter c => "Unexpected character: " ++ String.singleton c
  | .unexpectedDecimalPoint => "Unexpected decimal point"
  | .unexpectedToken text => "Unexpected token: " ++ text
  | .missing part => "Missing " ++ part.label
  | .duplicate word => "Duplicate " ++ word
  | .emptyParentheses => "Cannot have empty parentheses"
  | .unqualifiable => "Only names can be qualified"
  | .qualifiedFunctionType => "Function type cannot be qualified"
  | .unexpectedFunctionType => "Unexpected function type"
  | .unexpectedGenericsType => "Unexpected generics type"
  | .unexpectedAccessor => "Unexpected accessor"
  | .argumentModifier word => word ++ " is only allowed for function arguments"
  | .modifierNotAllowed word target => word ++ " is not allowed for " ++ target
  | .modifiersExclude word other => word ++ " cannot be used with " ++ other
  | .refAndImmutApart => "ref and immut must be used together"
  | .refImmutStruct => "ref immut is not allowed for struct; write immut ref"
  | .danglingModifier word => "Dangling modifier: " ++ word
  | .modifierBeforeAt word => word ++ " must be written after @"
  | .unsupportedDeclaration word => word ++ " declaration is not supported"
  | .immutOutsideType => "Immutable is only allowed for fields"
  | .declarationInFunction word => "Cannot declare " ++ word ++ " in function"
  | .propertyInFunction => "Cannot declare property in function"
  | .accessibilityInFunction => "Accessibility modifier is not allowed in function"
  | .abstractBody => "Abstract function cannot have a body"
  | .untypedImmutableField => "Immutable field requires a type"
  | .untypedField => "Type inference is only allowed for local variables"
  | .nonConstantConst => "Const must be initialized with constant value"
  | .untypedConst => "Const without a type must be initialized with a literal"
  | .usingMisplaced => "Using is only allowed at top level or in a namespace"
  | .namespaceMisplaced => "Namespace is only allowed at top level or in a namespace"
  | .fileNamespaceMisplaced => "File-scoped namespace must be at top level"
  | .expressionBodyAndAccessors => "With accessors, expression body is not allowed"
  | .noExpressionBody => "Without accessors, expression body is required"
  | .branchWithoutIf word => word ++ " without if"
  | .handlerWithoutTry word => word ++ " without try"
  | .forClauses => "For needs three clauses"
  | .outsideRange => "Token is outside the converted range"

/-- A refused source: why, and which stretch of it is at fault. -/
structure Fault where
  cause : Cause
  /-- Absent only when the source ends where something was due and no token can be blamed. -/
  span : Option Span
  deriving DecidableEq, Repr

namespace Fault

def blame (t : Token) (cause : Cause) : Fault :=
  ⟨cause, some t.span⟩

/-- The token `t` cannot stand where it does. -/
def unexpected (t : Token) : Fault :=
  blame t (.unexpectedToken t.text)

def missing (t : Token) (part : Part) : Fault :=
  blame t (.missing part)

/-- The tokens from `t` on are not among those at hand. -/
def outside (t : Token) : Fault :=
  blame t .outsideRange

/-- Is the fault one of the conversion and not of the source? -/
def isUnhandled (fault : Fault) : Bool :=
  fault.cause == .outsideRange

def message (fault : Fault) : String :=
  fault.cause.message

def display (fault : Fault) : String :=
  (if fault.isUnhandled then "unhandled error: " else "syntax error: ") ++ fault.message

/-- The code under which the faults of a source are reported. -/
def code : String :=
  "sharpc::syntax"

end Fault

end Sharp
