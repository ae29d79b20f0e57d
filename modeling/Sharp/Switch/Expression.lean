import Sharp.Expression.Frame
import Sharp.Switch.Arm

/-!
# Switch expressions

`switch subject { pattern => value, ... }` in an expression becomes
`subject switch { ... }`, with one arm to a line.
-/

namespace Sharp

/-- Converts an arm; `closing` is the token after the last arm. -/
def convertArm (inner : Converters) (place : Place) (closing : Token) (frame : Frame) (arm : Arm) :
    Reading Frame := do
  let frame := frame.append (Piece.indents (place.scope.level + 1))
  let pattern ← inner.expression (frame.innerPlace place .group (some arm.arrow)) arm.pattern
  let frame := (frame.append pattern.value.pieces).operator place "=>"
  let fence := arm.separator.getD closing
  let body ← inner.expression (frame.innerPlace place .group (some fence)) arm.body
  return ((frame.append body.value.pieces).push (.raw ",")).push .lineBreak

def convertArms (inner : Converters) (place : Place) (closing : Token) (frame : Frame) :
    List Arm → Reading Frame
  | [] => return frame
  | arm :: arms => do
    let frame ← convertArm inner place closing frame arm
    convertArms inner place closing frame arms

def convertSwitchExpression (inner : Converters) (place : Place) (frame : Frame) (t : Token)
    (rest : List Token) : Reading Flow := do
  note t (.keyword .blockWithExpr)
  match splitSwitch t rest with
  | .error fault => .fail fault
  | .ok parts =>
    let subjectPlace := frame.innerPlace place .group (some parts.opening)
    let subject ← inner.expression subjectPlace parts.subject
    let frame := (frame.append subject.value.pieces).keyword "switch"
    let frame := frame.push (.line " \x7b")
    let arms ← splitArms false parts.inside
    let frame ← convertArms inner place parts.closing frame arms
    let frame := (frame.append (Piece.indents place.scope.level)).push (.raw "\x7d")
    return .next frame parts.after

end Sharp
