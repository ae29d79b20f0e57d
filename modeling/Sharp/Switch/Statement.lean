import Sharp.ControlFlow.Basic
import Sharp.Switch.Arm

/-!
# Switch statements

Each arm becomes a section of a C# switch.  A section must not run into the next one, so a section
that does not end in a jump gets a `break`.
-/

namespace Sharp

def jumpWords : List String :=
  ["return", "throw", "break", "continue", "goto"]

/-- The last of some statements.  Statements end at `;` and at a closing brace outside brackets;
`start` is where the current one starts, inside `depth` brackets. -/
def lastStatementFrom (depth : Nat) (start : List Token) : List Token → List Token
  | [] => start
  | t :: ts =>
    if t.isOpIn ["(", "\x7b"] then lastStatementFrom (depth + 1) start ts
    else if t.isOpIn [")", "\x7d"] then
      lastStatementFrom (depth - 1) (if depth ≤ 1 && t.isOp "\x7d" then ts else start) ts
    else lastStatementFrom depth (if depth == 0 && t.isOp ";" then ts else start) ts

def lastStatement (ts : List Token) : List Token :=
  let sig := ((significant ts).reverse.dropWhile (·.isOp ";")).reverse
  lastStatementFrom 0 sig sig

def endsInJump (ts : List Token) : Bool :=
  match lastStatement ts with
  | [] => false
  | t :: _ => t.category == .keyword && jumpWords.contains t.text

def convertSectionHead (inner : Converters) (scope : Scope) (arm : Arm) : Draft Unit := do
  emit (Piece.indents scope.enterBody.level)
  if arm.isDefault then emit [.raw "default:"]
  else
    emit [.raw "case "]
    emit (← convertInHeader inner scope arm.arrow arm.pattern)
    emit [.raw ":"]
  emit [.lineBreak]

/-- Converts the body of a section: a block, or one statement that ends at the arm's separator.
Where the statement ends before that, what follows it is left out. -/
def convertSectionBody (inner : Converters) (scope : Scope) (arm : Arm) : Draft Unit :=
  if arm.isBlock then inner.block scope arm.body
  else
    match arm.body ++ arm.separator.toList with
    | [] => return ()
    | first :: more => do
      let statement ← inner.statementFrom scope {} first more
      Logged.ofExcept statement.value.pending.ensureEmpty

/-- Converts an arm; `scope` is that of the whole statement. -/
def convertSection (inner : Converters) (scope : Scope) (arm : Arm) : Draft Unit := do
  let body := scope.enterBody.enterBody
  convertSectionHead inner scope arm
  convertSectionBody inner body arm
  if !endsInJump arm.body then emit (Piece.indents body.level ++ [Piece.line "break;"])

def convertSections (inner : Converters) (scope : Scope) : List Arm → Draft Unit
  | [] => return ()
  | arm :: arms => do
    convertSection inner scope arm
    convertSections inner scope arms

def convertSwitch (inner : Converters) (scope : Scope) (t : Token) (rest : List Token) :
    Draft (List Token) :=
  match splitSwitch t rest with
  | .error fault => .fail fault
  | .ok parts => do
    emit (Piece.indents scope.level ++ [Piece.raw "switch "])
    convertCondition inner scope t parts.opening parts.subject
    emit [.line " \x7b"]
    let arms ← splitArms true parts.inside
    convertSections inner scope arms
    emit (closeBrace scope.level)
    return parts.after

end Sharp
