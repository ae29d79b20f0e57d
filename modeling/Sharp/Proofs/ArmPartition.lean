import Sharp.Proofs.Enclosing

/-!
# Arms partition the tokens of a switch

No token in the braces of a switch is lost or taken twice: each one belongs to an arm, or it is a blank,
a comment or a separator between arms.

* `splitArms_partitioned`: the arms of a switch.
-/

namespace Sharp

variable {blocks : Bool} {arm : Arm} {arms : List Arm} {t first : Token} {ts used more whole : List Token}

/-- The body of an arm as it is written: in braces, or as it is. -/
def Arm.Encloses (arm : Arm) (blocks : Bool) (ts : List Token) : Prop :=
  if arm.isBlock then
    blocks = true ∧ ∃ opening closing : Token, opening.isOp "\x7b" = true ∧ closing.isOp "\x7d" = true ∧
      ts = opening :: (arm.body ++ [closing])
  else ts = arm.body ∧ arm.body ≠ []

/-- The tokens of an arm: a pattern that starts with no blank, an arrow, blanks and the body. -/
structure Arm.Written (arm : Arm) (blocks : Bool) (ts : List Token) : Prop where
  starts : ∃ first ∈ arm.pattern.head?, first.isTrivia = false
  arrow : arm.arrow.isOp "=>" = true
  parts : ∃ blank body, ts = arm.pattern ++ arm.arrow :: (blank ++ body) ∧
    (∀ t ∈ blank, t.isTrivia = true) ∧ arm.Encloses blocks body

/-- The tokens are those of the arms, in their order.  Between arms, there are blanks and separators. -/
inductive Partitioned (blocks : Bool) : List Token → List Arm → Prop where
  | nil : Partitioned blocks [] []
  | between {t : Token} {ts : List Token} {arms : List Arm} (front : Partitioned blocks ts arms)
      (gap : t.isTrivia = true ∨ t.isArmSeparator = true) : Partitioned blocks (ts ++ [t]) arms
  | arm {arm : Arm} {ts used : List Token} {arms : List Arm} (front : Partitioned blocks ts arms)
      (written : arm.Written blocks used) : Partitioned blocks (ts ++ used) (arms ++ [arm])

theorem splitArmBody_partitioned {head : Split} {body : Parsed Arm}
    (split : splitArmBody blocks head first more = .ok body) :
    body.value.pattern = head.before ∧ body.value.arrow = head.found ∧
      (∀ t ∈ body.value.separator, t.isArmSeparator = true) ∧
      ∃ enclosed, body.value.Encloses blocks enclosed ∧
        first :: more = enclosed ++ (body.value.separator.toList ++ body.rest) := by
  unfold splitArmBody at split
  split at split
  · next block =>
    obtain ⟨allowed, opens⟩ := Bool.and_eq_true_iff.1 block
    split at split
    · cases split
    · next inner closed =>
      cases split
      refine ⟨rfl, rfl, by simp, first :: (inner.before ++ [inner.found]), ?_, ?_⟩
      · exact ⟨allowed, first, inner.found, opens, found_of_splitCloseAt closed, rfl⟩
      · simp [eq_of_splitClose closed]
  · split at split
    · cases split
    · next separates =>
      split at split
      · next inner found =>
        cases split
        have parts := eq_of_splitTop found
        have separator := found_of_splitTopAt found
        refine ⟨rfl, rfl, by simpa using separator, inner.before, ⟨rfl, fun empty => ?_⟩, parts⟩
        -- The first token of the body separates nothing.
        rw [show inner.before = [] from empty] at parts
        obtain ⟨same, -⟩ := List.cons.inj parts
        exact separates (same ▸ separator)
      · cases split
        exact ⟨rfl, rfl, by simp, first :: more, ⟨rfl, List.cons_ne_nil _ _⟩, by simp⟩

theorem splitArmRound_partitioned (front : Partitioned blocks ts arms) (parts : whole = ts ++ first :: more) :
    (splitArmRound blocks arms first more).Ensures (Step.Keeps
      (fun arms rest => ∃ ts, Partitioned blocks ts arms ∧ whole = ts ++ rest)
      (Partitioned blocks whole)) := by
  subst parts
  unfold splitArmRound
  refine .ite (fun gap => .pure ⟨ts ++ [first], front.between (Bool.or_eq_true_iff.1 gap), by simp⟩) fun gap => ?_
  simp only [Bool.or_eq_true, not_or, Bool.not_eq_true] at gap
  cases split : splitTop (·.isOp "=>") (first :: more) with
  | none => exact .fail _
  | some head =>
    have parts := eq_of_splitTop split
    refine .next fun _ => .ite (fun _ => .bind (Q := fun _ => False) (.fail _) fun _ never => never.elim)
      fun nonempty => ?_
    cases started : skipTrivia head.after with
    | nil => exact .fail _
    | cons bodyFirst bodyMore =>
      dsimp only
      cases armBody : splitArmBody blocks head bodyFirst bodyMore with
      | error fault => exact .fail fault
      | ok body =>
        obtain ⟨pattern, arrow, separators, enclosed, encloses, body_parts⟩ := splitArmBody_partitioned armBody
        obtain ⟨gap', after, blank⟩ := exists_of_skipTrivia started
        have starts : ∃ t ∈ head.before.head?, t.isTrivia = false := by
          cases before : head.before with
          | nil => simp [before] at nonempty
          | cons t before' =>
            rw [before] at parts
            obtain ⟨rfl, -⟩ := List.cons.inj parts
            exact ⟨first, rfl, gap.1⟩
        have written : body.value.Written blocks (head.before ++ head.found :: (gap' ++ enclosed)) := by
          refine ⟨pattern ▸ starts, arrow ▸ found_of_splitTopAt split, gap', enclosed, ?_, blank, encloses⟩
          rw [pattern, arrow]
        have whole : ts ++ first :: more = ts ++ (head.before ++ head.found :: (gap' ++ enclosed)) ++
            (body.value.separator.toList ++ body.rest) := by
          rw [parts, after, body_parts]
          simp
        rw [whole]
        cases separator : body.value.separator with
        | none => exact .pure ⟨_, front.arm written, by simp⟩
        | some t =>
          exact .pure ⟨_, (front.arm written).between (.inr (separators t separator)), by simp⟩

theorem splitArms_ensures (blocks : Bool) (ts : List Token) :
    (splitArms blocks ts).Ensures (Partitioned blocks ts) := by
  unfold splitArms
  refine .walk_tokens (fun arms rest => ∃ used, Partitioned blocks used arms ∧ ts = used ++ rest) ?_ ?_
    ⟨[], .nil, rfl⟩
  · rintro arms first more ⟨used, front, parts⟩
    exact splitArmRound_partitioned front parts
  · rintro arms ⟨used, front, rfl⟩
    exact .pure (by simpa using front)

/-- What is in the braces of a switch is its arms, one after another. -/
theorem splitArms_partitioned (blocks : Bool) (ts : List Token) (arms : List Arm) (notes : List Note)
    (split : splitArms blocks ts = .done arms notes) : Partitioned blocks ts arms :=
  splitArms_ensures blocks ts arms notes split

/-- The arms of `w => { x }, y => z;`, the first of them with braces. -/
theorem splitArms_partitioned_block :
    let operator (text : String) : Token := ⟨0, text, 0, 0, .operator, none⟩
    let name (text : String) : Token := ⟨0, text, 0, 0, .identifier, none⟩
    let ts := [name "w", operator "=>", ⟨0, " ", 0, 0, .space, none⟩, operator "\x7b", name "x", operator "\x7d",
      operator ",", name "y", operator "=>", name "z", operator ";"]
    ∃ arms notes, splitArms true ts = .done arms notes ∧ arms.map (·.isBlock) = [true, false] ∧
      Partitioned true ts arms := by
  intro operator name ts
  obtain ⟨arms, notes, split, blocks⟩ : ∃ arms notes, splitArms true ts = .done arms notes ∧
      arms.map (·.isBlock) = [true, false] := Logged.exists_done (by decide +kernel +zetaReduce)
  exact ⟨arms, notes, split, blocks, splitArms_partitioned true ts arms notes split⟩

end Sharp
