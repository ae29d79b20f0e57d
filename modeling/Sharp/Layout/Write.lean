import Sharp.Layout.Item

/-!
# Writing

The writer at the end of a conversion.  It knows the settings: every piece is a text to it, pieces
without text do not count as neighbours, and the line breaks at the end are found by comparing
texts.
-/

namespace Sharp

def Piece.text (settings : LayoutSettings) : Piece → String
  | .code text _ | .literal text | .comment text => text
  | .lineBreak => settings.lineEnding.text
  | .line text => text ++ settings.lineEnding.text
  | .indent level => String.ofList (List.replicate (level * settings.indentWidth) ' ')

/-- The text of some pieces, when the last text before them is spaced as `before` says. -/
def writeAfter (settings : LayoutSettings) : Option Spacing → List Piece → String
  | _, [] => ""
  | before, piece :: pieces =>
    if (piece.text settings).isEmpty then writeAfter settings before pieces
    else
      (if before.any (needsSpace · piece.spacing) then " " else "") ++ piece.text settings ++
        writeAfter settings (some piece.spacing) pieces

/-- What is left of the characters after as many copies of `front` as they start with. -/
def dropCopies (front cs : List Char) : List Char :=
  if front ≠ [] ∧ front.isPrefixOf cs then dropCopies front (cs.drop front.length) else cs
termination_by cs.length
decreasing_by
  rename_i copy
  have nonempty := List.length_pos_iff.2 copy.1
  have fits := (List.isPrefixOf_iff_prefix.1 copy.2).length_le
  rw [List.length_drop]
  omega

def withoutEndings (ending text : String) : String :=
  String.ofList (dropCopies ending.toList.reverse text.toList.reverse).reverse

/-- The output for some pieces.  It ends in exactly one line break. -/
def write (settings : LayoutSettings) (pieces : List Piece) : String :=
  withoutEndings settings.lineEnding.text (writeAfter settings none pieces) ++
    settings.lineEnding.text

end Sharp
