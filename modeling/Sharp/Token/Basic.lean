import Sharp.Token.Vocabulary

/-!
# Tokens

A token is a piece of the source with its position, its category and the role known so far.
-/

namespace Sharp

/-- A stretch of the source: the byte offset of its start and its length in bytes. -/
structure Span where
  offset : Nat
  length : Nat
  deriving DecidableEq, Repr

def Span.between (start stop : Nat) : Span :=
  ⟨start, stop - start⟩

/-- A token of the source.  `text` is what is written for it; it differs from the source between
`start` and `stop` only where a literal had to be completed. -/
structure Token where
  /-- The position of the token among all tokens of the source. -/
  id : Nat
  text : String
  start : Nat
  stop : Nat
  category : Category
  role : Option Role
  deriving DecidableEq, Repr

namespace Token

def span (t : Token) : Span :=
  Span.between t.start t.stop

def isBlank (t : Token) : Bool :=
  t.category == .lineBreak || t.category == .space

/-- White space and comments carry no meaning. -/
def isTrivia (t : Token) : Bool :=
  match t.category with
  | .lineBreak | .space | .comment => true
  | _ => false

def isLineBreak (t : Token) : Bool :=
  t.category == .lineBreak

def isOp (t : Token) (text : String) : Bool :=
  t.category == .operator && t.text == text

theorem isOp_iff {t : Token} {text : String} : t.isOp text = true ↔ t.category = .operator ∧ t.text = text := by
  simp [isOp]

theorem isOp_of_isOp {t : Token} {text : String} (is : t.isOp text = true) (other : String) :
    t.isOp other = (text == other) := by
  rw [isOp_iff] at is
  simp [isOp, is]

def isOpIn (t : Token) (texts : List String) : Bool :=
  t.category == .operator && texts.contains t.text

theorem isOpIn_iff {t : Token} {texts : List String} :
    t.isOpIn texts = true ↔ t.category = .operator ∧ t.text ∈ texts := by
  simp [isOpIn]

def isAssignment (t : Token) : Bool :=
  t.isOpIn assignmentOperators

/-- Is `t` the keyword `text`, reserved everywhere or here only? -/
def isKeyword (t : Token) (text : String) : Bool :=
  (t.category == .keyword || t.category == .contextKeyword) && t.text == text

def isNameLike (t : Token) : Bool :=
  match t.category with
  | .identifier | .contextKeyword => true
  | _ => false

/-- Does `t` have the shape of a word: a name or a keyword? -/
def isWord (t : Token) : Bool :=
  match t.category with
  | .identifier | .keyword | .contextKeyword => true
  | _ => false

/-- The role that the vocabulary gives to the word, whatever was found out later. -/
def vocabularyRole? (t : Token) : Option Role :=
  match t.category with
  | .keyword => keywordRole? t.text
  | .contextKeyword => contextKeywordRole? t.text
  | _ => none

def keywordRole? (t : Token) : Option KeywordRole :=
  match t.vocabularyRole? with
  | some (.keyword role) => some role
  | _ => none

def modifierRole? (t : Token) : Option ModifierRole :=
  match t.vocabularyRole? with
  | some (.modifier role) => some role
  | _ => none

def isCopiedLiteral (t : Token) : Bool :=
  match t.category with
  | .stringLiteral | .rawStringLiteral | .charLiteral | .numberLiteral => true
  | _ => false

/-- Is `t` a literal: quoted, numeric, `true`, `false` or `null`? -/
def isLiteral (t : Token) : Bool :=
  t.isCopiedLiteral ||
    match t.vocabularyRole? with
    | some (.literal .bool) | some (.literal .null) => true
    | _ => false

end Token

/-- The tokens that carry meaning. -/
def significant (ts : List Token) : List Token :=
  ts.filter fun t => !t.isTrivia

/-- The tokens from the first one on that carries meaning. -/
def skipTrivia (ts : List Token) : List Token :=
  ts.dropWhile Token.isTrivia

def nextSignificant? (ts : List Token) : Option Token :=
  (skipTrivia ts).head?

def isAllTrivia (ts : List Token) : Bool :=
  (significant ts).isEmpty

theorem significant_cons_of_isTrivia {t : Token} (trivia : t.isTrivia = true) (ts : List Token) :
    significant (t :: ts) = significant ts := by
  simp [significant, trivia]

theorem significant_cons {t : Token} (meaning : t.isTrivia = false) (ts : List Token) :
    significant (t :: ts) = t :: significant ts := by
  simp [significant, meaning]

end Sharp
