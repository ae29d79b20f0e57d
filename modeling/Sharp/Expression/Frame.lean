import Sharp.Draft

/-!
# Frames

An expression is converted token by token into one list of pieces.  Tuples and lambdas show only
after their first part has been converted, so their parentheses are put in afterwards, at places
that the frame remembers.
-/

namespace Sharp

inductive TupleParens where
  | none
  /-- The tuple has parentheses of its own. -/
  | own
  /-- The tuple uses those of the group around it. -/
  | lent
  deriving DecidableEq, Repr

structure Frame where
  pieces : List Piece := []
  isConst : Bool := true
  /-- The number of pieces in front of what would be the first element of a tuple. -/
  segment : Nat := 0
  tuple : TupleParens := .none
  /-- The tokens from the first one on that can belong to the parameters of a lambda. -/
  params : List Token
  /-- The number of pieces in front of those parameters. -/
  paramsMark : Nat := 0

namespace Frame

def start (ts : List Token) : Frame :=
  { params := ts }

/-- The number of pieces so far, which is the place of the next one. -/
def mark (frame : Frame) : Nat :=
  frame.pieces.length

def push (frame : Frame) (piece : Piece) : Frame :=
  { frame with pieces := frame.pieces ++ [piece] }

def append (frame : Frame) (pieces : List Piece) : Frame :=
  { frame with pieces := frame.pieces ++ pieces }

def word (frame : Frame) (text : String) : Frame :=
  frame.push (.word text)

def keyword (frame : Frame) (text : String) : Frame :=
  frame.push (.keyword text)

/-- Does an operand come before the next piece? -/
def endsOperand (place : Place) (frame : Frame) : Bool :=
  match frame.pieces.getLast? with
  | some piece => piece.spacing.endsOperand
  | none => place.afterOperand

def operator (frame : Frame) (place : Place) (text : String) : Frame :=
  frame.push (.code text (operatorSpacing text (frame.endsOperand place)))

/-- Puts an opening parenthesis in front of the pieces from `mark` on. -/
def insertOpening (frame : Frame) (mark : Nat) : Frame :=
  { frame with
    pieces := frame.pieces.take mark ++ .code "(" .opening :: frame.pieces.drop mark }

def truncate (frame : Frame) (mark : Nat) : Frame :=
  { frame with pieces := frame.pieces.take mark }

/-- The value of the expression depends on the run of the program. -/
def vary (frame : Frame) : Frame :=
  { frame with isConst := false }

/-- The next piece may be the first element of a tuple. -/
def markSegment (frame : Frame) : Frame :=
  { frame with segment := frame.mark }

/-- The parameters of a lambda may start at the tokens `ts`. -/
def markParams (frame : Frame) (ts : List Token) : Frame :=
  { frame with params := ts, paramsMark := frame.mark }

def closeTuple (frame : Frame) (place : Place) : Frame :=
  match frame.tuple with
  | .own => { frame.operator place ")" with tuple := .none }
  | _ => { frame with tuple := .none }

/-- Opens a tuple whose first element has been converted, unless it is open. -/
def openTuple (frame : Frame) (place : Place) : Frame :=
  match frame.tuple with
  | .none =>
    if place.lendsParens ∧ frame.segment = 0 then { frame with tuple := .lent }
    else { frame.insertOpening frame.segment with tuple := .own }
  | _ => frame

def addInner (frame : Frame) (inner : Expression) : Frame :=
  { frame.append inner.pieces with isConst := frame.isConst && inner.isConst }

def finish (frame : Frame) (place : Place) : Expression :=
  let frame := frame.closeTuple place
  ⟨frame.pieces, frame.isConst⟩

def innerPlace (frame : Frame) (place : Place) (mode : Mode) (fence : Option Token) : Place :=
  { mode, scope := place.scope, fence, afterOperand := frame.endsOperand place }

end Frame

abbrev Flow : Type :=
  Step Frame (Parsed Expression)

def Frame.stopAt (frame : Frame) (place : Place) (ts : List Token) : Flow :=
  .stop ⟨frame.finish place, ts⟩

/-- The tokens of `ts` in front of its end `rest`; the conversion has come to the token `t`. -/
def tokensBefore (t : Token) (ts rest : List Token) : Reading (List Token) :=
  if rest.length ≤ ts.length then return ts.take (ts.length - rest.length) else .fail (.outside t)

/-- The tokens after the first `count` significant ones. -/
def dropSignificant : Nat → List Token → List Token
  | 0, ts => ts
  | _, [] => []
  | count + 1, t :: ts =>
    if t.isTrivia then dropSignificant (count + 1) ts else dropSignificant count ts

end Sharp
