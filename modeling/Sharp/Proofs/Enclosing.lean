import Sharp.Proofs.FunctionBodies

/-!
# Blocks in the output

A line of the output goes on over line breaks only inside a block.

* `Draft.Emits`: what a draft produces.
-/

namespace Sharp

variable {opener closer : Piece} {ending text : String}

/-! ## Blocks -/

/-- What a piece does to the line it is on. -/
inductive PieceKind where
  | opens
  | closes
  /-- It ends a line or a statement. -/
  | breaks
  /-- It stands in the line. -/
  | flat
  deriving DecidableEq

/-- The texts without spaces around them that close a block. -/
def blockClosers : List String := ["\x7d", "\x7d while "]

/-- The texts without spaces around them that end a statement or a clause. -/
def clauseEnds : List String := [";", "; "]

def Piece.kind : Piece → PieceKind
  | .line text =>
    if text.toList.getLast? = some '\x7b' then .opens
    else if text = "\x7d" then .closes
    else .breaks
  | .code text .raw =>
    if text ∈ blockClosers then .closes else if text ∈ clauseEnds then .breaks else .flat
  | .code text .trailing => if text = ";" then .breaks else .flat
  | .code _ _ | .literal _ => .flat
  | .comment _ | .lineBreak | .indent _ => .breaks

/-- The number of open blocks after some pieces, if there are `depth` in front of them.  Each block that
is closed has been opened, and outside blocks no piece `breaks` the line unless that is allowed. -/
def blocksAfter (breaks : Bool) (depth : Nat) : List Piece → Option Nat
  | [] => some depth
  | piece :: pieces =>
    match piece.kind, depth with
    | .opens, depth | .breaks, depth + 1 => blocksAfter breaks (depth + 1) pieces
    | .closes, 0 => none
    | .closes, depth + 1 | .flat, depth => blocksAfter breaks depth pieces
    | .breaks, 0 => if breaks then blocksAfter breaks 0 pieces else none

/-- The pieces stay on their line and in their statement, except in blocks that they open and close. -/
def Enclosed (pieces : List Piece) : Prop := blocksAfter false 0 pieces = some 0

/-- The pieces close the blocks that they open, and no others. -/
def ClosesBlocks (pieces : List Piece) : Prop := blocksAfter true 0 pieces = some 0

section Blocks

variable {breaks : Bool} {depth : Nat} {piece : Piece} {pieces front back inside : List Piece}

theorem blocksAfter_append (front back : List Piece) : blocksAfter breaks depth (front ++ back) =
      (blocksAfter breaks depth front).bind (blocksAfter breaks · back) := by
  induction front generalizing depth with
  | nil => rfl
  | cons piece front ih =>
    simp only [List.cons_append, blocksAfter]
    split <;> first | exact ih | rfl | skip
    split
    · exact ih
    · rfl

theorem blocksAfter_flat (flat : piece.kind = .flat) :
    blocksAfter breaks depth (piece :: pieces) = blocksAfter breaks depth pieces := by
  simp [blocksAfter, flat]

theorem blocksAfter_opens (opens : piece.kind = .opens) :
    blocksAfter breaks depth (piece :: pieces) = blocksAfter breaks (depth + 1) pieces := by
  simp [blocksAfter, opens]

theorem blocksAfter_closes (closes : piece.kind = .closes) :
    blocksAfter breaks (depth + 1) (piece :: pieces) = blocksAfter breaks depth pieces := by
  simp [blocksAfter, closes]

theorem blocksAfter_breaks (kind : piece.kind = .breaks) (allowed : breaks = true ∨ 0 < depth) :
    blocksAfter breaks depth (piece :: pieces) = blocksAfter breaks depth pieces := by
  cases depth with
  | zero => simp [blocksAfter, kind, allowed.resolve_right (Nat.lt_irrefl 0)]
  | succ depth => simp [blocksAfter, kind]

/-- What is allowed outside blocks is allowed in any number of them. -/
theorem blocksAfter_deeper {left : Nat} (run : blocksAfter true depth pieces = some left) (outer : Nat) :
    blocksAfter breaks (depth + outer + 1) pieces = some (left + outer + 1) := by
  induction pieces generalizing depth with
  | nil =>
    cases run
    rfl
  | cons piece pieces ih =>
    cases kind : piece.kind with
    | opens =>
      rw [blocksAfter_opens kind] at run ⊢
      rw [Nat.add_right_comm depth outer 1]
      exact ih run
    | closes =>
      cases depth with
      | zero => simp [blocksAfter, kind] at run
      | succ depth =>
        rw [blocksAfter_closes kind] at run ⊢
        rw [Nat.add_right_comm depth 1 outer]
        exact ih run
    | breaks =>
      rw [blocksAfter_breaks kind (.inl rfl)] at run
      rw [blocksAfter_breaks kind (.inr (Nat.succ_pos _))]
      exact ih run
    | flat =>
      rw [blocksAfter_flat kind] at run ⊢
      exact ih run

theorem blocksAfter_block (opens : opener.kind = .opens) (closed : ClosesBlocks inside)
    (closes : closer.kind = .closes) :
    blocksAfter breaks depth (opener :: inside ++ closer :: pieces) = blocksAfter breaks depth pieces := by
  have within : blocksAfter breaks (0 + depth + 1) inside = some (0 + depth + 1) :=
    blocksAfter_deeper closed depth
  rw [Nat.zero_add] at within
  rw [List.cons_append, blocksAfter_opens opens, blocksAfter_append, within, Option.bind_some,
    blocksAfter_closes closes]

theorem blocksAfter_allow {left : Nat} (run : blocksAfter false depth pieces = some left) :
    blocksAfter true depth pieces = some left := by
  induction pieces generalizing depth with
  | nil => exact run
  | cons piece pieces ih =>
    simp only [blocksAfter] at run ⊢
    split at run <;> simp_all

namespace Enclosed

theorem nil : Enclosed [] := rfl

theorem flat (kind : piece.kind = .flat) : Enclosed [piece] := blocksAfter_flat kind

theorem append (first : Enclosed front) (second : Enclosed back) : Enclosed (front ++ back) := by
  rw [Enclosed, blocksAfter_append, first]
  exact second

theorem cons (kind : piece.kind = .flat) (enclosed : Enclosed pieces) : Enclosed (piece :: pieces) :=
  (flat kind).append enclosed

theorem block (opens : opener.kind = .opens) (closed : ClosesBlocks inside)
    (closes : closer.kind = .closes) : Enclosed (opener :: inside ++ [closer]) :=
  blocksAfter_block opens closed closes

/-- A parenthesis can be put in anywhere, also in a block. -/
theorem withOpening (enclosed : Enclosed pieces) (mark : Nat) : Enclosed (withOpening pieces mark) := by
  rw [Enclosed, ← List.take_append_drop mark pieces, blocksAfter_append] at enclosed
  rw [Enclosed, Sharp.withOpening, blocksAfter_append]
  simpa only [blocksAfter_flat (rfl : (Piece.code "(" .opening).kind = .flat)] using enclosed

theorem closesBlocks (enclosed : Enclosed pieces) : ClosesBlocks pieces :=
  blocksAfter_allow enclosed

end Enclosed

namespace ClosesBlocks

theorem nil : ClosesBlocks [] := rfl

theorem single (kind : piece.kind = .breaks) : ClosesBlocks [piece] :=
  blocksAfter_breaks kind (.inl rfl)

theorem append (first : ClosesBlocks front) (second : ClosesBlocks back) : ClosesBlocks (front ++ back) := by
  rw [ClosesBlocks, blocksAfter_append, first]
  exact second

theorem indents (level : Nat) : ClosesBlocks (Piece.indents level) := by
  cases level with
  | zero => exact nil
  | succ level => exact single rfl

end ClosesBlocks

end Blocks

/-! ## Texts -/

/-- The end of a text shows that it is none of some words. -/
theorem append_not_mem {words : List String} (text : String)
    (other : ∀ word ∈ words, ¬ ending.toList <:+ word.toList) : text ++ ending ∉ words := by
  intro listed
  exact other _ listed ⟨text.toList, by simp⟩

/-- A text can stand in a line unless it is one of a few. -/
theorem Piece.kind_raw (other : text ∉ blockClosers ++ clauseEnds) : (Piece.raw text).kind = .flat := by
  simp only [List.mem_append, not_or] at other
  simp only [Piece.raw, Piece.kind, other.1, other.2, if_false]

theorem Piece.kind_clauseEnd (listed : text ∈ clauseEnds) : (Piece.raw text).kind = .breaks := by
  simp only [clauseEnds, List.mem_cons, List.not_mem_nil, or_false] at listed
  rcases listed with rfl | rfl <;> rfl

theorem Piece.kind_word (text : String) : (Piece.word text).kind = .flat := rfl

theorem Piece.kind_keyword (text : String) : (Piece.keyword text).kind = .flat := rfl

theorem Piece.kind_operator (other : text ≠ ";") (afterOperand : Bool) :
    (Piece.code text (operatorSpacing text afterOperand)).kind = .flat := by
  unfold operatorSpacing
  split
  case h_7 => exact absurd rfl other
  all_goals cases afterOperand <;> rfl

theorem Piece.kind_line_append (text : String) : (Piece.line (text ++ ";")).kind = .breaks := by
  have last : (text ++ ";").toList.getLast? = some ';' := by simp
  have other : text ++ ";" ≠ "\x7d" := by
    intro same
    rw [same] at last
    cases last
  rw [Piece.kind, last, if_neg (by decide), if_neg other]

/-! ## Drafts -/

/-- A round goes on as the invariant says, or ends with a value that has the property. -/
def Step.Keeps {σ α : Type} (I : σ → List Token → Prop) (P : α → Prop) : Step σ α → Prop
  | .next state rest => I state rest
  | .stop a => P a

/-- Where the draft succeeds, its value and its pieces have the property. -/
def Draft.Emits {α : Type} (x : Draft α) (P : α → List Piece → Prop) : Prop :=
  ∀ a output, x = .done a output → P a output.pieces

namespace Draft.Emits

variable {α β σ : Type} {P : β → List Piece → Prop}

theorem fail (fault : Fault) : Emits (.fail fault : Draft β) P := nofun

theorem pure {b : β} (holds : P b []) : Emits (Pure.pure b : Draft β) P := by
  rintro _ _ ⟨⟩
  exact holds

theorem ite {c : Prop} [Decidable c] {x y : Draft β} (yes : c → Emits x P) (no : ¬ c → Emits y P) :
    Emits (if c then x else y) P := by
  by_cases holds : c
  · simpa only [if_pos holds] using yes holds
  · simpa only [if_neg holds] using no holds

theorem mono {x : Draft β} {Q : β → List Piece → Prop} (emits : Emits x Q)
    (le : ∀ b pieces, Q b pieces → P b pieces) : Emits x P :=
  fun b output done => le b _ (emits b output done)

theorem and {x : Draft β} {Q : β → List Piece → Prop} (first : Emits x P) (second : Emits x Q) :
    Emits x fun b pieces => P b pieces ∧ Q b pieces :=
  fun b output done => ⟨first b output done, second b output done⟩

theorem with_run {x : Draft β} (emits : Emits x P) :
    Emits x fun b pieces => P b pieces ∧ ∃ output, x = .done b output ∧ output.pieces = pieces :=
  fun b output done => ⟨emits b output done, output, done, rfl⟩

theorem bind {x : Draft α} {f : α → Draft β} {Q : α → List Piece → Prop} (first : Emits x Q)
    (second : ∀ a front, Q a front → Emits (f a) fun b back => P b (front ++ back)) :
    Emits (x >>= f) P := by
  intro b output done
  obtain ⟨a, u, v, given, rest, rfl⟩ := Logged.bind_eq_done.1 done
  exact second a u.pieces (first a u given) b v rest

theorem emit {pieces : List Piece} {P : Unit → List Piece → Prop} (holds : P () pieces) :
    Emits (Sharp.emit pieces) P := by
  rintro _ _ ⟨⟩
  exact holds

theorem emit_bind {pieces : List Piece} {f : Unit → Draft β}
    (second : Emits (f ()) fun b back => P b (pieces ++ back)) : Emits (Sharp.emit pieces >>= f) P := by
  refine bind (Q := fun _ front => front = pieces) (emit rfl) fun a front same => ?_
  subst same
  exact second

theorem reading_bind {x : Reading α} {f : α → Draft β} {Q : α → Prop} (first : x.Ensures Q)
    (second : ∀ a, Q a → Emits (f a) P) : Emits ((liftM x : Draft α) >>= f) P := by
  intro b output done
  cases x with
  | fail fault => cases done
  | done a notes =>
    obtain ⟨_, _, v, ⟨⟩, rest, rfl⟩ := Logged.bind_eq_done.1 done
    exact second a (first a notes rfl) b v rest

theorem skip {x : Reading α} {f : α → Draft β} (second : ∀ a, Emits (f a) P) :
    Emits ((liftM x : Draft α) >>= f) P :=
  reading_bind (Q := fun _ => True) (fun _ _ _ => trivial) fun a _ => second a

theorem check_bind {x : Except Fault α} {f : α → Draft β} (second : ∀ a, x = .ok a → Emits (f a) P) :
    Emits ((Logged.ofExcept x : Draft α) >>= f) P := by
  cases x with
  | error fault => exact fail fault
  | ok a =>
    refine bind (Q := fun a' front => a' = a ∧ front = []) (pure ⟨rfl, rfl⟩) fun a' front same => ?_
    obtain ⟨rfl, rfl⟩ := same
    exact second a' rfl

theorem check {x : Except Fault β} (holds : ∀ b, x = .ok b → P b []) : Emits (Logged.ofExcept x : Draft β) P := by
  cases x with
  | error fault => exact fail fault
  | ok b => exact pure (holds b rfl)

/-- A walk keeps what each of its rounds keeps about the pieces so far. -/
theorem walk {round : σ → Token → List Token → Draft (Step σ β)} {finish : σ → Draft β}
    (I : σ → List Token → List Piece → Prop)
    (step : ∀ state t rest front, I state (t :: rest) front → Emits (round state t rest) fun step back =>
        step.Keeps (fun state' rest' => I state' rest' (front ++ back)) (P · (front ++ back)))
    (ending : ∀ state front, I state [] front → Emits (finish state) fun b back => P b (front ++ back))
    {state : σ} {ts : List Token} (start : I state ts []) : Emits (Sharp.walk round finish state ts) P := by
  -- The induction is for any pieces in front of the tokens that are left.
  suffices general : ∀ front, I state ts front →
      Emits (Sharp.walk round finish state ts) fun b back => P b (front ++ back) by
    exact general [] start
  clear start
  induction state, ts using walk.induct with
  | case1 state =>
    intro front holds
    rw [walk_nil]
    exact ending state front holds
  | case2 state t rest ih =>
    intro front holds
    rw [walk_cons]
    refine bind (step state t rest front holds) fun next back kept => ?_
    cases next with
    | stop b => exact pure (by simpa [Step.Keeps] using kept)
    | next state' rest' =>
      refine ite (fun shorter => ?_) fun _ => fail _
      simpa only [List.append_assoc] using ih state' rest' shorter (front ++ back) kept

end Draft.Emits

/-- A walk keeps what each of its rounds keeps about the tokens that are left. -/
theorem Logged.Ensures.walk_tokens {ω σ α : Type} [Log ω] {round : σ → Token → List Token → Logged ω (Step σ α)}
    {finish : σ → Logged ω α} {P : α → Prop} (I : σ → List Token → Prop)
    (step : ∀ state t rest, I state (t :: rest) → (round state t rest).Ensures (Step.Keeps I P))
    (ending : ∀ state, I state [] → (finish state).Ensures P) {ts : List Token} {state : σ} (start : I state ts) :
    Ensures (Sharp.walk round finish state ts) P := by
  induction state, ts using walk.induct with
  | case1 state =>
    rw [walk_nil]
    exact ending state start
  | case2 state t rest ih =>
    rw [walk_cons]
    refine bind (step state t rest start) fun next kept => ?_
    cases next with
    | stop a => exact pure kept
    | next state' rest' => exact ite (fun shorter => ih state' rest' shorter kept) fun _ => fail _

theorem Logged.Ensures.walk {ω σ α : Type} [Log ω] {round : σ → Token → List Token → Logged ω (Step σ α)}
    {finish : σ → Logged ω α} {P : α → Prop} (I : σ → Prop)
    (step : ∀ state t rest, I state → (round state t rest).Ensures (Step.Keeps (fun state' _ => I state') P))
    (ending : ∀ state, I state → (finish state).Ensures P) (ts : List Token) {state : σ} (start : I state) :
    Ensures (Sharp.walk round finish state ts) P :=
  walk_tokens (fun state _ => I state) step ending start

end Sharp
