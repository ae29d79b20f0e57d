import Sharp.Expression.Frame
import Sharp.TypeExpr.Reader
import Sharp.TypeExpr.Render

/-!
# Lambdas

A lambda shows at its arrow, when its parameters have been converted like any other tokens.  Their
parentheses are put in afterwards, or the parameters are written anew if they have types.
-/

namespace Sharp

def paramGroup? (head : Token) (more : List Token) : Option Split :=
  if head.isOp "(" then (splitClose .parenthesis more).filter (·.after.isEmpty) else none

def Frame.addSlots (frame : Frame) (place : Place) : List Slot → Frame
  | [] => frame
  | [slot] => frame.word slot.render
  | slot :: slots => ((frame.word slot.render).operator place ",").addSlots place slots

/-- Converts the parameters `head :: more` of a lambda, which the frame holds as plain pieces. -/
def convertParams (place : Place) (frame : Frame) (head : Token) (more : List Token) :
    Reading Frame := do
  let group := paramGroup? head more
  let params := (group.map Split.before).getD (head :: more)
  if hasTop (·.isOp ":") params then
    let slots ← readSlots params
    let frame := (frame.truncate frame.paramsMark).operator place "("
    return (frame.addSlots place slots).operator place ")"
  if group.isSome then return frame
  return (frame.insertOpening frame.paramsMark).operator place ")"

def convertLambda (inner : Converters) (place : Place) (frame : Frame) (t : Token)
    (rest : List Token) : Reading Flow := do
  note t (.operator .lambda)
  let params ← tokensBefore t frame.params (t :: rest)
  match significant params with
  | [] => .fail (.missing t .lambdaParameters)
  | head :: more =>
    let frame ← convertParams place frame.vary head more
    let frame := frame.operator place "=>"
    match skipTrivia rest with
    | [] => return .next (frame.markSegment.markParams rest) rest
    | first :: body =>
      if !first.isOp "\x7b" then return .next (frame.markSegment.markParams rest) rest
      match splitClose .brace body with
      | none => .fail (.missing first .rightBrace)
      | some s =>
        let pieces ← (inner.block (place.scope.enterFn false) s.before).capture
        let frame := (frame.push (.line " \x7b")).append pieces
        let frame := (frame.append (Piece.indents place.scope.level)).push (.raw "\x7d")
        return .next (frame.markParams s.after) s.after

end Sharp
