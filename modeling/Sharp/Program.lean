import Sharp.Expression.Convert
import Sharp.Layout.Write
import Sharp.Statement.Block
import Sharp.Statement.Convert

/-!
# Programs

Expressions contain blocks, blocks contain statements and statements contain expressions.  Each kind
of converter is given the converters for what it contains; here they are put together.
-/

namespace Sharp

/-- Converters for expressions, statements and blocks, given the converters for what they contain. -/
structure Layers where
  expression : Converters → Place → List Token → Reading (Parsed Expression)
  statement : Converters → Scope → Modifiers → Token → List Token → Draft (Parsed Statement)
  block : Converters → Scope → List Token → Draft Unit

namespace Layers

/-- The rank of an expression that `n` tokens follow after its first one.  Statements rank above
expressions that are as long, and blocks above statements. -/
def expressionRank (n : Nat) : Nat :=
  3 * n

def statementRank (n : Nat) : Nat :=
  3 * n + 1

def blockRank (n : Nat) : Nat :=
  3 * n + 2

/-- The converters for what ranks below `rank`.  Others are refused at their first token. -/
def converters (layers : Layers) (rank : Nat) : Converters :=
  { expressionFrom := fun place t rest =>
      if expressionRank rest.length < rank then
        layers.expression (layers.converters (expressionRank rest.length)) place (t :: rest)
      else .fail (.outside t)
    statementFrom := fun scope pending t rest =>
      if statementRank rest.length < rank then
        layers.statement (layers.converters (statementRank rest.length)) scope pending t rest
      else .fail (.outside t)
    blockFrom := fun scope t rest =>
      if blockRank rest.length < rank then
        layers.block (layers.converters (blockRank rest.length)) scope (t :: rest)
      else .fail (.outside t) }
termination_by rank
decreasing_by all_goals assumption

def all (layers : Layers) : Converters where
  expressionFrom place t rest :=
    layers.expression (layers.converters (expressionRank rest.length)) place (t :: rest)
  statementFrom scope pending t rest :=
    layers.statement (layers.converters (statementRank rest.length)) scope pending t rest
  blockFrom scope t rest :=
    layers.block (layers.converters (blockRank rest.length)) scope (t :: rest)

section Refusal

variable {layers : Layers} {rank : Nat} {rest : List Token}

theorem converters_expressionFrom (h : expressionRank rest.length < rank) (place : Place)
    (t : Token) :
    (layers.converters rank).expressionFrom place t rest =
      layers.all.expressionFrom place t rest := by
  rw [converters]
  exact if_pos h

theorem converters_statementFrom (h : statementRank rest.length < rank) (scope : Scope)
    (pending : Modifiers) (t : Token) :
    (layers.converters rank).statementFrom scope pending t rest =
      layers.all.statementFrom scope pending t rest := by
  rw [converters]
  exact if_pos h

theorem converters_blockFrom (h : blockRank rest.length < rank) (scope : Scope) (t : Token) :
    (layers.converters rank).blockFrom scope t rest = layers.all.blockFrom scope t rest := by
  rw [converters]
  exact if_pos h

end Refusal

def standard : Layers :=
  ⟨convertExpression, convertStatement, convertBlock⟩

end Layers

structure Program where
  /-- The tokens of the source, with the roles that they play. -/
  tokens : List Token
  pieces : List Piece

def Layers.program (layers : Layers) (source : String) : Except Fault Program := do
  let tokens ← tokenize source
  match layers.all.block .root tokens with
  | .fail fault => .error fault
  | .done _ output => .ok ⟨annotate output.notes tokens, output.pieces⟩

def Program.ofSource (source : String) : Except Fault Program :=
  Layers.standard.program source

def Program.text (program : Program) (settings : LayoutSettings) : String :=
  render settings (layout program.pieces)

/-- The C# text of a source text, together with the tokens of the source. -/
def convertWithTokens (settings : LayoutSettings) (source : String) :
    Except Fault (String × List Token) := do
  let program ← Program.ofSource source
  return (write settings program.pieces, program.tokens)

/-- The C# text of a source text. -/
def convert (settings : LayoutSettings) (source : String) : Except Fault String := do
  let program ← Program.ofSource source
  return program.text settings

end Sharp
