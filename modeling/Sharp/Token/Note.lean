import Sharp.Token.Basic

/-!
# Notes on tokens

While a program is converted, the role of more and more tokens becomes known.  Each discovery is a
note; the notes are laid over the tokens at the end.
-/

namespace Sharp

structure Note where
  token : Token
  role : Role
  deriving DecidableEq, Repr

/-- The role of a token according to the notes: the latest note on it counts. -/
def Token.annotatedRole (notes : List Note) (t : Token) : Option Role :=
  match notes.reverse.find? fun note => note.token.id == t.id with
  | some note => some note.role
  | none => t.role

/-- The tokens with the roles that the notes give them.  Nothing else changes. -/
def annotate (notes : List Note) (tokens : List Token) : List Token :=
  tokens.map fun t => { t with role := t.annotatedRole notes }

end Sharp
