import Sharp.Fault

/-!
# Lexemes

A lexeme is what the front of a text can be read as: the characters it covers and what they stand
for.  The readers in the modules beside this one each know one kind of lexeme.
-/

namespace Sharp

/-- The number of bytes of the characters in UTF-8. -/
def byteLength : List Char → Nat
  | [] => 0
  | c :: cs => c.utf8Size + byteLength cs

/-- The front of a text, read as a token. -/
structure Lexeme where
  source : List Char
  text : String
  category : Category
  role : Option Role
  deriving DecidableEq, Repr

/-- A lexeme that is written as it stands. -/
def Lexeme.verbatim (source : List Char) (category : Category) (role : Option Role) : Lexeme :=
  ⟨source, String.ofList source, category, role⟩

/-- The front of a text cannot be read: the cause, and the stretch it concerns, in bytes counted
from the front. -/
structure Flaw where
  cause : Cause
  span : Span
  deriving DecidableEq, Repr

/-- The answer of a reader: a lexeme and the text after it, nothing if the text does not start with
this kind of lexeme, or a flaw. -/
abbrev Scan := Except Flaw (Option (Lexeme × List Char))

/-- The answer of the first reader that does not pass. -/
def firstScan : List (List Char → Scan) → List Char → Scan
  | [], _ => .ok none
  | reader :: readers, cs =>
    match reader cs with
    | .ok none => firstScan readers cs
    | found => found

/-- A reader's answer to `cs` splits it: the lexeme covers at least one character, and what it
covers and the text after it make up `cs`. -/
def Scan.Splits (scan : Scan) (cs : List Char) : Prop :=
  ∀ lexeme rest, scan = .ok (some (lexeme, rest)) →
    lexeme.source ≠ [] ∧ lexeme.source ++ rest = cs

theorem Scan.splits_nothing (cs : List Char) : Scan.Splits (.ok none) cs := by
  intro lexeme rest h
  simp at h

theorem Scan.splits_error (flaw : Flaw) (cs : List Char) : Scan.Splits (.error flaw) cs := by
  intro lexeme rest h
  simp at h

theorem Scan.splits_found {lexeme : Lexeme} {rest cs : List Char} (h₁ : lexeme.source ≠ [])
    (h₂ : lexeme.source ++ rest = cs) : Scan.Splits (.ok (some (lexeme, rest))) cs := by
  intro lexeme' rest' h
  simp only [Except.ok.injEq, Option.some.injEq, Prod.mk.injEq] at h
  obtain ⟨rfl, rfl⟩ := h
  exact ⟨h₁, h₂⟩

theorem firstScan_splits {readers : List (List Char → Scan)} {cs : List Char}
    (h : ∀ reader ∈ readers, (reader cs).Splits cs) : (firstScan readers cs).Splits cs := by
  induction readers with
  | nil => exact Scan.splits_nothing cs
  | cons reader readers ih =>
    have first := h reader (by simp)
    unfold firstScan
    split
    · exact ih fun reader hr => h reader (by simp [hr])
    · exact first

/-- The characters of words: ASCII letters and digits, and the underscore. -/
def isWordChar (c : Char) : Bool :=
  c.isAlphanum || c == '_'

def isBreakChar (c : Char) : Bool :=
  c == '\r' || c == '\n'

def startsWith (cs : List Char) (word : String) : Bool :=
  word.toList.isPrefixOf cs

end Sharp
