import Sharp.Logged

/-!
# Walks through tokens

Reading and converting go through a list of tokens in rounds.  A round takes the token in front and
as many of those after it as belong to it, and goes on with the rest or ends the walk.
-/

namespace Sharp

/-- A value read from the front of some tokens, and the tokens after it. -/
structure Parsed (α : Type) where
  value : α
  rest : List Token
  deriving Repr

/-- What one round of a walk comes to. -/
inductive Step (σ α : Type) where
  | next (state : σ) (rest : List Token)
  | stop (value : α)

variable {ω : Type} [Log ω] {σ α : Type}

/-- Walks through some tokens.  A round is given the token in front and the tokens after it, and
`finish` ends the walk where no token is left.  Every round takes at least the token in front: one
that goes on with more than the tokens after it would never end, and fails there. -/
def walk (round : σ → Token → List Token → Logged ω (Step σ α)) (finish : σ → Logged ω α)
    (state : σ) (ts : List Token) : Logged ω α :=
  match ts with
  | [] => finish state
  | t :: more => do
    match ← round state t more with
    | .stop value => return value
    | .next state rest =>
      if rest.length < (t :: more).length then walk round finish state rest
      else .fail (.outside t)
termination_by ts.length
decreasing_by assumption

variable {round : σ → Token → List Token → Logged ω (Step σ α)} {finish : σ → Logged ω α}

@[simp] theorem walk_nil (state : σ) : walk round finish state [] = finish state := by
  rw [walk]

theorem walk_cons (state : σ) (t : Token) (more : List Token) :
    walk round finish state (t :: more) =
      round state t more >>= fun
        | .stop value => return value
        | .next state rest =>
          if rest.length < (t :: more).length then walk round finish state rest
          else .fail (.outside t) := by
  rw [walk]

end Sharp
