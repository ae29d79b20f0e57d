import Sharp.Proofs.SpacedWords
import Sharp.Proofs.TypeTokens

/-!
# Tokens with their brackets closed

A search for the end of a group goes past tokens whose own brackets are closed, whatever these
tokens are.

* `closesAll_iff`: how to check that the brackets of some tokens are closed.
-/

namespace Sharp

open Token hiding id

variable {t : Token} {ts front : List Token} {form : BracketForm}

section Close

variable {depth depth' : Nat}

/-- How many brackets of one form are open after some tokens. -/
def BracketForm.openAfter (form : BracketForm) (depth : Nat) (ts : List Token) : Option Nat :=
  Sharp.openAfter (·.isOp form.opener) (·.isOp form.closer) depth ts

theorem splitCloseAt_opener (opens : t.isOp form.opener = true) (depth : Nat) (ts : List Token) :
    splitCloseAt form depth (t :: ts) = (splitCloseAt form (depth + 1) ts).map (Split.prepend [t]) := by
  simp only [splitCloseAt, opens, if_true]
  rfl

theorem splitCloseAt_closer (closes : t.isOp form.closer = true) (depth : Nat) (ts : List Token) :
    splitCloseAt form (depth + 1) (t :: ts) = (splitCloseAt form depth ts).map (Split.prepend [t]) := by
  have no_opener : t.isOp form.opener = false := by
    rw [isOp_of_isOp closes]
    cases form <;> decide
  simp only [splitCloseAt, no_opener, closes, Bool.false_eq_true, if_false, if_true]
  rfl

theorem splitCloseAt_other (no_opener : t.isOp form.opener = false)
    (no_closer : t.isOp form.closer = false) (depth : Nat) (ts : List Token) :
    splitCloseAt form depth (t :: ts) = (splitCloseAt form depth ts).map (Split.prepend [t]) := by
  simp only [splitCloseAt, no_opener, no_closer, Bool.false_eq_true, if_false]
  rfl

theorem splitCloseAt_zero (closes : t.isOp form.closer = true) (ts : List Token) :
    splitCloseAt form 0 (t :: ts) = some ⟨[], t, ts⟩ := by
  have no_opener : t.isOp form.opener = false := by
    rw [isOp_of_isOp closes]
    cases form <;> decide
  simp only [splitCloseAt, no_opener, closes, Bool.false_eq_true, if_false, if_true]

/-- Where a form of brackets closes nothing that is not open, the search for its closer goes past the
tokens. -/
theorem splitCloseAt_append_of_openAfter (after : form.openAfter depth ts = some depth') (rest : List Token) :
    splitCloseAt form depth (ts ++ rest) = (splitCloseAt form depth' rest).map (Split.prepend ts) := by
  induction ts generalizing depth with
  | nil =>
    cases after
    have unchanged : Split.prepend [] = id := rfl
    rw [List.nil_append, unchanged, Option.map_id_fun, id_eq]
  | cons t ts ih =>
    simp only [BracketForm.openAfter, Sharp.openAfter] at after
    rw [List.cons_append]
    by_cases opens : t.isOp form.opener = true
    · rw [if_pos opens] at after
      rw [splitCloseAt_opener opens, ih after, Option.map_prepend_prepend]
      rfl
    · rw [if_neg opens] at after
      by_cases closes : t.isOp form.closer = true
      · rw [if_pos closes] at after
        cases depth with
        | zero => cases after
        | succ depth =>
          rw [splitCloseAt_closer closes, ih after, Option.map_prepend_prepend]
          rfl
      · rw [if_neg closes] at after
        rw [splitCloseAt_other (Bool.eq_false_iff.2 opens) (Bool.eq_false_iff.2 closes), ih after,
          Option.map_prepend_prepend]
        rfl

end Close

/-! ## Well-bracketed tokens -/

namespace WellBracketed

variable {opening closing : Token} {inside : List Token}

theorem isOp_eq_false (no_opener : t.isOpener = false) (no_closer : t.isCloser = false)
    (form : BracketForm) : t.isOp form.opener = false ∧ t.isOp form.closer = false := by
  simp only [isOpener, isCloser, Bool.or_eq_false_iff] at no_opener no_closer
  cases form with
  | parenthesis => exact ⟨no_opener.1, no_closer.1⟩
  | brace => exact ⟨no_opener.2, no_closer.2⟩

theorem splitCloseAt_append (bracketed : WellBracketed ts) (form : BracketForm) (depth : Nat) (rest : List Token) :
    splitCloseAt form depth (ts ++ rest) = (splitCloseAt form depth rest).map (Split.prepend ts) := by
  induction bracketed generalizing depth rest with
  | nil =>
    have unchanged : Split.prepend [] = id := rfl
    rw [List.nil_append, unchanged, Option.map_id_fun, id_eq]
  | cons no_opener no_closer _ ih =>
    obtain ⟨no_opener, no_closer⟩ := isOp_eq_false no_opener no_closer form
    rw [List.cons_append, splitCloseAt_other no_opener no_closer, ih, Option.map_prepend_prepend]
    rfl
  | @group form' opening closing inside ts opens _ closes _ inside_ih ih =>
    have through : splitCloseAt form depth (opening :: (inside ++ closing :: (ts ++ rest))) =
        (splitCloseAt form depth (ts ++ rest)).map (Split.prepend (opening :: (inside ++ [closing]))) := by
      by_cases same : form' = form
      · subst same
        rw [splitCloseAt_opener opens, inside_ih, splitCloseAt_closer closes,
          Option.map_prepend_prepend, Option.map_prepend_prepend]
        rfl
      · -- Brackets of the other form do not count.
        have apart : ∀ left right : BracketForm, left ≠ right → left.opener ≠ right.opener ∧
            left.opener ≠ right.closer ∧ left.closer ≠ right.opener ∧ left.closer ≠ right.closer := by
          intro left right
          cases left <;> cases right <;> decide
        obtain ⟨first, second, third, fourth⟩ := apart form' form same
        rw [splitCloseAt_other (by simp [isOp_of_isOp opens, first])
            (by simp [isOp_of_isOp opens, second]), inside_ih,
          splitCloseAt_other (by simp [isOp_of_isOp closes, third]) (by simp [isOp_of_isOp closes, fourth]),
          Option.map_prepend_prepend, Option.map_prepend_prepend]
        rfl
    rw [List.cons_append, List.append_assoc, List.cons_append, through, ih, Option.map_prepend_prepend]
    simp only [List.cons_append, List.append_assoc, List.nil_append]

/-- A group around the tokens ends at its own closer. -/
theorem splitClose_append (bracketed : WellBracketed ts) (closes : closing.isOp form.closer = true)
    (rest : List Token) : splitClose form (ts ++ closing :: rest) = some ⟨ts, closing, rest⟩ := by
  rw [splitClose, bracketed.splitCloseAt_append, splitCloseAt_zero closes]
  simp [Split.prepend]

theorem splitTopAt_append_inside (bracketed : WellBracketed ts) (p : Token → Bool) (depth : Nat)
    (rest : List Token) :
    splitTopAt p (depth + 1) (ts ++ rest) = (splitTopAt p (depth + 1) rest).map (Split.prepend ts) := by
  induction bracketed generalizing depth rest with
  | nil =>
    have unchanged : Split.prepend [] = id := rfl
    rw [List.nil_append, unchanged, Option.map_id_fun, id_eq]
  | @cons t ts no_opener no_closer _ ih =>
    have passed : splitTopAt p (depth + 1) (t :: (ts ++ rest)) =
        (splitTopAt p (depth + 1) (ts ++ rest)).map (Split.prepend [t]) := by
      simp [splitTopAt, no_opener, no_closer, Split.cons_eq_prepend]
    rw [List.cons_append, passed, ih, Option.map_prepend_prepend]
    rfl
  | @group form opening closing inside ts opens _ closes _ inside_ih ih =>
    obtain ⟨no_opener, closes⟩ := isCloser_of_isOp closes
    have first : splitTopAt p (depth + 1) (opening :: (inside ++ closing :: (ts ++ rest))) =
        (splitTopAt p (depth + 1 + 1) (inside ++ closing :: (ts ++ rest))).map (Split.prepend [opening]) := by
      simp [splitTopAt, isOpener_of_isOp opens, Split.cons_eq_prepend]
    have last : splitTopAt p (depth + 1 + 1) (closing :: (ts ++ rest)) =
        (splitTopAt p (depth + 1) (ts ++ rest)).map (Split.prepend [closing]) := by
      simp [splitTopAt, no_opener, closes, Split.cons_eq_prepend]
    rw [List.cons_append, List.append_assoc, List.cons_append, first, inside_ih, last, ih,
      Option.map_prepend_prepend, Option.map_prepend_prepend, Option.map_prepend_prepend]
    simp only [List.cons_append, List.append_assoc, List.nil_append]

/-- Nothing in a group is outside all brackets. -/
theorem hasTop_group (within : WellBracketed inside) (opens : opening.isOp form.opener = true)
    (closes : closing.isOp form.closer = true) (p : Token → Bool) (ts : List Token) :
    hasTop p (opening :: (inside ++ closing :: ts)) = (p opening || hasTop p ts) := by
  obtain ⟨no_opener, closes⟩ := isCloser_of_isOp closes
  have last : splitTopAt p (0 + 1) (closing :: ts) = (splitTopAt p 0 ts).map (Split.prepend [closing]) := by
    simp [splitTopAt, no_opener, closes, Split.cons_eq_prepend]
  simp only [hasTop, splitTop, splitTopAt, isOpener_of_isOp opens, if_true, true_and]
  rw [within.splitTopAt_append_inside p 0, last]
  cases p opening <;> simp

end WellBracketed

theorem Paired.wellBracketed {words : List String} (paired : Paired words) (spells : Spells ts words) :
    WellBracketed ts := by
  induction paired generalizing ts with
  | nil =>
    cases spells
    exact .nil
  | word spellable other =>
    obtain ⟨t, rest, rfl, is, tail⟩ := spells.cons_inv
    cases tail
    have no_left := is.isOp_of_ne (spellable.ne "\x7b" (by decide) (by decide))
    have no_right := is.isOp_of_ne (spellable.ne "\x7d" (by decide) (by decide))
    refine .cons ?_ ?_ .nil
    · simp [isOpener, is.isOp_of_ne other.1, no_left]
    · simp [isCloser, is.isOp_of_ne other.2, no_right]
  | group inside ih =>
    obtain ⟨opening, rest, rfl, is_opening, tail⟩ := spells.cons_inv
    obtain ⟨inner, last, rfl, inner_spells, last_spells⟩ := tail.append_inv
    obtain ⟨closing, nothing, rfl, is_closing, tail⟩ := last_spells.cons_inv
    cases tail
    refine .group .parenthesis ?_ (ih inner_spells) ?_ .nil
    · rw [is_opening.isOp]; decide
    · rw [is_closing.isOp]; decide
  | append left right left_ih right_ih =>
    obtain ⟨before, after, rfl, before_spells, after_spells⟩ := spells.append_inv
    exact (left_ih before_spells).append (right_ih after_spells)

/-! ## Checking brackets -/

/-- Do the tokens close the brackets on the stack, from the innermost one on, and all those that they
open? -/
def closesAll : List BracketForm → List Token → Bool
  | stack, [] => stack.isEmpty
  | stack, t :: ts =>
    if t.isOp "(" then closesAll (.parenthesis :: stack) ts
    else if t.isOp "\x7b" then closesAll (.brace :: stack) ts
    else if t.isCloser then
      match stack with
      | [] => false
      | form :: stack => t.isOp form.closer && closesAll stack ts
    else closesAll stack ts

section Checking

variable {stack : List BracketForm}

theorem closesAll_cons_of_opener (opens : t.isOp form.opener = true) (stack : List BracketForm)
    (ts : List Token) : closesAll stack (t :: ts) = closesAll (form :: stack) ts := by
  cases form with
  | parenthesis | brace => simp [closesAll, isOp_of_isOp opens, BracketForm.opener]

theorem closesAll_cons_of_closer (closes : t.isOp form.closer = true) (stack : List BracketForm)
    (ts : List Token) : closesAll (form :: stack) (t :: ts) = closesAll stack ts := by
  cases form <;> simp [closesAll, isCloser, isOp_of_isOp closes, BracketForm.closer]

theorem closesAll_cons_of_plain (no_opener : t.isOpener = false) (no_closer : t.isCloser = false)
    (stack : List BracketForm) (ts : List Token) : closesAll stack (t :: ts) = closesAll stack ts := by
  simp only [isOpener, Bool.or_eq_false_iff] at no_opener
  simp [closesAll, no_opener, no_closer]

theorem WellBracketed.closesAll_append (bracketed : WellBracketed ts) (stack : List BracketForm)
    (rest : List Token) : closesAll stack (ts ++ rest) = closesAll stack rest := by
  induction bracketed generalizing stack rest with
  | nil => rfl
  | cons no_opener no_closer _ ih =>
    rw [List.cons_append, closesAll_cons_of_plain no_opener no_closer, ih]
  | group form opens _ closes _ inside_ih ih =>
    rw [List.cons_append, closesAll_cons_of_opener opens, List.append_assoc, inside_ih, List.cons_append,
      closesAll_cons_of_closer closes, ih]

/-- The tokens are well bracketed but for the closers of the brackets on the stack. -/
def ClosesStack : List BracketForm → List Token → Prop
  | [], ts => WellBracketed ts
  | form :: stack, ts => ∃ inside closing rest, ts = inside ++ closing :: rest ∧ WellBracketed inside ∧
      closing.isOp form.closer = true ∧ ClosesStack stack rest

/-- Well-bracketed tokens in front change nothing. -/
theorem ClosesStack.append_left (bracketed : WellBracketed front) (closes : ClosesStack stack ts) :
    ClosesStack stack (front ++ ts) := by
  cases stack with
  | nil => exact bracketed.append closes
  | cons form stack =>
    obtain ⟨inside, closing, rest, rfl, within, closes, others⟩ := closes
    exact ⟨front ++ inside, closing, rest, by simp, bracketed.append within, closes, others⟩

theorem closesStack_of_closesAll (checked : closesAll stack ts = true) : ClosesStack stack ts := by
  induction ts generalizing stack with
  | nil =>
    cases stack with
    | nil => exact .nil
    | cons form stack => cases checked
  | cons t ts ih =>
    have opened (form : BracketForm) (opens : t.isOp form.opener = true) : ClosesStack stack (t :: ts) := by
      rw [closesAll_cons_of_opener opens] at checked
      obtain ⟨inside, closing, rest, rfl, within, closes, others⟩ := ih checked
      have group := WellBracketed.group form opens within closes .nil
      simpa using others.append_left group
    by_cases left : t.isOp "(" = true
    · exact opened .parenthesis left
    · by_cases brace : t.isOp "\x7b" = true
      · exact opened .brace brace
      · have no_opener : t.isOpener = false := by simp [isOpener, left, brace]
        by_cases closer : t.isCloser = true
        · simp only [closesAll, left, brace, closer, Bool.false_eq_true, if_false, if_true] at checked
          cases stack with
          | nil => cases checked
          | cons form stack =>
            simp only [Bool.and_eq_true] at checked
            exact ⟨[], t, ts, rfl, .nil, checked.1, ih checked.2⟩
        · have no_closer : t.isCloser = false := Bool.eq_false_iff.2 closer
          rw [closesAll_cons_of_plain no_opener no_closer] at checked
          exact (ih checked).append_left (.cons no_opener no_closer .nil)

/-- One pass with a stack tells whether tokens are well bracketed. -/
theorem closesAll_iff : closesAll [] ts = true ↔ WellBracketed ts := by
  constructor
  · intro checked
    exact closesStack_of_closesAll checked
  · intro bracketed
    have passed := bracketed.closesAll_append [] []
    rw [List.append_nil] at passed
    rw [passed]
    rfl

end Checking

instance (ts : List Token) : Decidable (WellBracketed ts) := decidable_of_iff _ closesAll_iff

section Top

variable {p q : Token → Bool}

theorem hasTop_cons_of_plain (no_opener : t.isOpener = false) (no_closer : t.isCloser = false)
    (p : Token → Bool) (ts : List Token) : hasTop p (t :: ts) = (p t || hasTop p ts) := by
  simp only [hasTop, splitTop, splitTopAt, no_opener, no_closer, Bool.false_eq_true, if_false, true_and]
  cases p t <;> simp

theorem WellBracketed.hasTop_append (bracketed : WellBracketed ts) (p : Token → Bool)
    (rest : List Token) : hasTop p (ts ++ rest) = (hasTop p ts || hasTop p rest) := by
  induction bracketed with
  | nil => rfl
  | cons no_opener no_closer _ ih =>
    rw [List.cons_append, hasTop_cons_of_plain no_opener no_closer, hasTop_cons_of_plain no_opener no_closer,
      ih, Bool.or_assoc]
  | group form opens within closes _ _ ih =>
    rw [List.cons_append, List.append_assoc, List.cons_append, within.hasTop_group opens closes,
      within.hasTop_group opens closes, ih, Bool.or_assoc]

/-- What is not there at all is not there in a stricter sense. -/
theorem WellBracketed.hasTop_mono (bracketed : WellBracketed ts) (weaker : ∀ t, p t = true → q t = true)
    (missed : hasTop q ts = false) : hasTop p ts = false := by
  have each (t : Token) (other : q t = false) : p t = false :=
    Bool.eq_false_iff.2 fun holds => by simp [weaker t holds] at other
  induction bracketed with
  | nil => rfl
  | cons no_opener no_closer _ ih =>
    rw [hasTop_cons_of_plain no_opener no_closer, Bool.or_eq_false_iff] at missed ⊢
    exact ⟨each _ missed.1, ih missed.2⟩
  | group form opens within closes _ _ ih =>
    rw [within.hasTop_group opens closes, Bool.or_eq_false_iff] at missed ⊢
    exact ⟨each _ missed.1, ih missed.2⟩

end Top

end Sharp
