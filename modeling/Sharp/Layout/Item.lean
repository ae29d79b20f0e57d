import Sharp.Layout.Piece

/-!
# Layout

The pieces of a program become a sequence of items in which every space is decided, and the items
become text.  Only the last step knows how wide an indent is and how lines end.
-/

namespace Sharp

inductive LineEnding where
  | crlf
  | lf
  deriving DecidableEq, Repr

namespace LineEnding

def text : LineEnding → String
  | crlf => "\r\n"
  | lf => "\n"

/-- The line ending of the given name, in upper or lower case. -/
def ofName? (name : String) : Option LineEnding :=
  if name.toLower = "crlf" then some crlf
  else if name.toLower = "lf" then some lf
  else none

end LineEnding

structure LayoutSettings where
  indentWidth : Nat := 2
  lineEnding : LineEnding := .crlf
  deriving DecidableEq, Repr

inductive Item where
  | fragment (text : String)
  | lineBreak
  | indent (level : Nat)
  deriving DecidableEq, Repr

def Piece.items : Piece → List Item
  | .code text _ | .literal text | .comment text => [.fragment text]
  | .lineBreak => [.lineBreak]
  | .line text => [.fragment text, .lineBreak]
  | .indent level => [.indent level]

def Piece.isBlank : Piece → Bool
  | .code text _ | .literal text | .comment text => text.isEmpty
  | _ => false

/-- The items of some pieces, when the piece before them is spaced as `before` says. -/
def layoutAfter : Option Spacing → List Piece → List Item
  | _, [] => []
  | before, piece :: pieces =>
    if piece.isBlank then layoutAfter before pieces
    else
      (if before.any (needsSpace · piece.spacing) then [.fragment " "] else []) ++ piece.items ++
        layoutAfter (some piece.spacing) pieces

def layout (pieces : List Piece) : List Item :=
  layoutAfter none pieces

namespace Item

def render (settings : LayoutSettings) : Item → String
  | fragment text => text
  | lineBreak => settings.lineEnding.text
  | indent level => String.ofList (List.replicate (level * settings.indentWidth) ' ')

def isBreak : Item → Bool
  | lineBreak => true
  | _ => false

end Item

def concat : List String → String
  | [] => ""
  | text :: texts => text ++ concat texts

@[simp] theorem concat_append (texts more : List String) :
    concat (texts ++ more) = concat texts ++ concat more := by
  induction texts with
  | nil => simp [concat]
  | cons text texts ih => simp [concat, ih, String.append_assoc]

/-- The text of some items.  It ends in exactly one line break. -/
def render (settings : LayoutSettings) (items : List Item) : String :=
  concat ((items.reverse.dropWhile Item.isBreak).reverse.map (Item.render settings)) ++
    settings.lineEnding.text

end Sharp
