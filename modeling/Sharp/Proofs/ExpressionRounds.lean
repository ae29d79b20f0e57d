import Sharp.Proofs.Annotation
import Sharp.Proofs.PlainExpressions

/-!
# Rounds of an expression

An expression is converted in rounds.  What a walk gives from one of its frames on, it gives from the
frames in front of it too, so a conversion can be put together from pieces of the walk.

* `Separated`, `withCommas`: parts with separators, and their pieces.
-/

namespace Sharp

/-! ## Walks -/

section Walks

variable (inner : Converters) (place : Place)

/-- The walk comes from `frame` in front of `ts` to `frame'` in front of `rest`: it gives the same from
both on. -/
def Frame.LeadsTo (frame : Frame) (ts : List Token) (frame' : Frame) (rest : List Token) : Prop :=
  ∀ (finish : Frame → Reading (Parsed Expression)) e,
    Reading.Gives (walk (convertToken inner place) finish frame ts) e ↔
      Reading.Gives (walk (convertToken inner place) finish frame' rest) e

variable {inner place} {frame frame' frame'' : Frame} {t : Token} {ts rest rest' : List Token}
  {finish : Frame → Reading (Parsed Expression)} {e : Parsed Expression}

theorem walk_cons_of_next (round : convertToken inner place frame t ts = return .next frame' rest)
    (shorter : rest.length ≤ ts.length) :
    walk (convertToken inner place) finish frame (t :: ts) =
      walk (convertToken inner place) finish frame' rest := by
  rw [walk_cons, round, pure_bind]
  exact if_pos (Nat.lt_succ_of_le shorter)

/-- Blanks and comments leave the frame as it is. -/
theorem walk_trivia_append {gap : List Token} (blank : ∀ t ∈ gap, t.isTrivia = true) (frame : Frame)
    (rest : List Token) :
    walk (convertToken inner place) finish frame (gap ++ rest) =
      walk (convertToken inner place) finish frame rest := by
  induction gap with
  | nil => rfl
  | cons t gap ih =>
    obtain ⟨first, others⟩ := List.forall_mem_cons.1 blank
    rw [List.cons_append, walk_cons_of_next (convertToken_trivia first) (Nat.le_refl _)]
    exact ih others

namespace Frame.LeadsTo

theorem refl (frame : Frame) (ts : List Token) : LeadsTo inner place frame ts frame ts :=
  fun _ _ => .rfl

theorem trans (first : LeadsTo inner place frame ts frame' rest)
    (second : LeadsTo inner place frame' rest frame'' rest') :
    LeadsTo inner place frame ts frame'' rest' :=
  fun finish e => (first finish e).trans (second finish e)

theorem next (round : (convertToken inner place frame t rest).Gives (.next frame' rest'))
    (shorter : rest'.length ≤ rest.length) : LeadsTo inner place frame (t :: rest) frame' rest' :=
  fun _ e => gives_walk_next round shorter e

theorem trivia {gap : List Token} (blank : ∀ t ∈ gap, t.isTrivia = true) (frame : Frame)
    (rest : List Token) : LeadsTo inner place frame (gap ++ rest) frame rest := by
  intro finish e
  rw [walk_trivia_append blank]

theorem skipTrivia (starts : skipTrivia ts = t :: rest) (frame : Frame) :
    LeadsTo inner place frame ts frame (t :: rest) := by
  obtain ⟨gap, rfl, blank⟩ := exists_of_skipTrivia starts
  exact trivia blank frame (t :: rest)

theorem stop (leads : LeadsTo inner place frame ts frame' (t :: rest))
    (round : (convertToken inner place frame' t rest).Gives (.stop e)) :
    Reading.Gives (walk (convertToken inner place) finish frame ts) e := by
  rw [leads finish e, walk_cons]
  exact .bind round (.pure _)

end Frame.LeadsTo

end Walks

/-! ## Parts with separators -/

/-- Tokens that are parts of one kind with an operator between them; each part has its value. -/
inductive Separated {α : Type} (separator : String) (part : List Token → α → Prop) :
    List Token → List α → Prop where
  | single {ts : List Token} {a : α} (first : part ts a) : Separated separator part ts [a]
  | cons {ts more : List Token} {t : Token} {a : α} {others : List α} (first : part ts a)
      (separates : t.isOp separator = true) (following : Separated separator part more others) :
      Separated separator part (ts ++ t :: more) (a :: others)

section Separated

variable {α : Type} {separator : String} {part : List Token → α → Prop} {ts : List Token} {values : List α}

theorem Separated.values_ne_nil (parts : Separated separator part ts values) : values ≠ [] := by
  cases parts <;> exact List.cons_ne_nil _ _

theorem Separated.ne_nil (parts : Separated separator part ts values)
    (nonempty : ∀ ts a, part ts a → ts ≠ []) : ts ≠ [] := by
  cases parts with
  | single first => exact nonempty _ _ first
  | cons first _ _ => simp

end Separated

/-- Pieces of several parts, with commas between them. -/
def withCommas (parts : List (List Piece)) : List Piece := [.code "," .trailing].intercalate parts

theorem withCommas_singleton (pieces : List Piece) : withCommas [pieces] = pieces := by
  simp [withCommas]

theorem withCommas_cons (pieces : List Piece) {others : List (List Piece)} (several : others ≠ []) :
    withCommas (pieces :: others) = pieces ++ .code "," .trailing :: withCommas others := by
  obtain ⟨next, others, rfl⟩ := List.exists_cons_of_ne_nil several
  rw [withCommas, List.intercalate_cons_cons, withCommas, List.append_assoc, List.singleton_append]

end Sharp
