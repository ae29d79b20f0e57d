import Sharp.Proofs.Brackets
import Mathlib.Order.Bounds.Basic

/-!
# The two searches through brackets

The search for a closer counts one form of brackets, and the search outside all brackets counts both
with one number.  Where each bracket is closed by one of its own form, they agree: the first finds the
partner of an opening bracket, and between the two, the second passes over just what another pair
encloses.

* `matching_bracket`: what the two searches find.
-/

namespace Sharp

open Token hiding id

variable {t opening : Token} {ts rest front : List Token} {form : BracketForm} {s : Split}
  {opens closes p : Token → Bool} {place : Nat}

/-! ## The search for a closer -/

/-- The tokens open as many brackets of the form as they close. -/
def BracketForm.Evens (form : BracketForm) (ts : List Token) : Prop :=
  ts.countP (·.isOp form.opener) = ts.countP (·.isOp form.closer)

section Closer

variable {depth depth' : Nat}

theorem BracketForm.not_closer (opens : t.isOp form.opener = true) : t.isOp form.closer = false := by
  rw [isOp_of_isOp opens]
  cases form <;> decide

/-- The number of open brackets is what was open before and is not closed. -/
theorem count_of_openAfter (after : form.openAfter depth ts = some depth') :
    depth + ts.countP (·.isOp form.opener) = depth' + ts.countP (·.isOp form.closer) := by
  unfold BracketForm.openAfter at after
  fun_induction openAfter (·.isOp form.opener) (·.isOp form.closer) depth ts with
  | case1 =>
    cases after
    rfl
  | case2 depth t ts opens ih =>
    have counted := ih after
    simp only [List.countP_cons, opens, BracketForm.not_closer opens, if_true, Bool.false_eq_true, if_false]
    omega
  | case3 => cases after
  | case4 t ts no_opener closes depth ih =>
    have counted := ih after
    simp only [List.countP_cons, no_opener, closes, if_true, Bool.false_eq_true, if_false]
    omega
  | case5 depth t ts no_opener no_closer ih =>
    simpa [List.countP_cons, no_opener, no_closer] using ih after

/-- Brackets are counted as long as there is one to close, beside that which the search is for. -/
theorem openAfter_of_uneven (uneven : ∀ n < ts.length, depth + 1 + (ts.take (n + 1)).countP (·.isOp form.opener) ≠
      (ts.take (n + 1)).countP (·.isOp form.closer)) :
    ∃ depth', form.openAfter depth ts = some depth' := by
  have later {t : Token} {ts : List Token} {depth next : Nat} (uneven : ∀ n < (t :: ts).length,
        depth + 1 + ((t :: ts).take (n + 1)).countP (·.isOp form.opener) ≠
          ((t :: ts).take (n + 1)).countP (·.isOp form.closer))
      (step : depth + [t].countP (·.isOp form.opener) = next + [t].countP (·.isOp form.closer)) :
      ∀ n < ts.length, next + 1 + (ts.take (n + 1)).countP (·.isOp form.opener) ≠
        (ts.take (n + 1)).countP (·.isOp form.closer) := by
    intro n short
    have other := uneven (n + 1) (by simpa using short)
    simp only [List.take_succ_cons, List.countP_cons, List.countP_nil] at other step ⊢
    omega
  unfold BracketForm.openAfter
  fun_induction openAfter (·.isOp form.opener) (·.isOp form.closer) depth ts with
  | case1 depth => exact ⟨depth, rfl⟩
  | case2 depth t ts opens ih => exact ih (later uneven (by simp [opens, BracketForm.not_closer opens]))
  | case3 t ts no_opener closes =>
    have first := uneven 0 (by simp)
    simp [no_opener, closes] at first
  | case4 t ts no_opener closes depth ih => exact ih (later uneven (by simp [no_opener, closes]))
  | case5 depth t ts no_opener no_closer ih => exact ih (later uneven (by simp [no_opener, no_closer]))

theorem openAfter_of_splitCloseAt (split : splitCloseAt form depth ts = some s) :
    form.openAfter depth s.before = some 0 := by
  fun_induction splitCloseAt form depth ts generalizing s <;>
    simp_all only [Option.map_eq_some_iff, Option.some.injEq, reduceCtorEq]
  case case2 ih => obtain ⟨s, split, rfl⟩ := split; simp_all [BracketForm.openAfter, openAfter, Split.cons]
  case case3 => subst split; rfl
  case case4 ih => obtain ⟨s, split, rfl⟩ := split; simp_all [BracketForm.openAfter, openAfter, Split.cons]
  case case5 ih => obtain ⟨s, split, rfl⟩ := split; simp_all [BracketForm.openAfter, openAfter, Split.cons]

theorem openAfter_of_isPrefix (isPrefix : front <+: ts) (after : openAfter opens closes depth ts = some depth') :
    ∃ depth', openAfter opens closes depth front = some depth' := by
  obtain ⟨back, rfl⟩ := isPrefix
  rw [openAfter_append] at after
  obtain ⟨middle, counted, -⟩ := Option.bind_eq_some_iff.1 after
  exact ⟨middle, counted⟩

theorem evens_cons (opens : opening.isOp form.opener = true) (ts : List Token) : form.Evens (opening :: ts) ↔
      0 + 1 + ts.countP (·.isOp form.opener) = ts.countP (·.isOp form.closer) := by
  simp only [BracketForm.Evens, List.countP_cons, opens, BracketForm.not_closer opens, if_true,
    Bool.false_eq_true, if_false]
  omega

/-- The closer is at the least place where as many brackets are closed as opened. -/
theorem splitClose_isLeast (opens : opening.isOp form.opener = true) (place : Nat) :
    (splitClose form rest).map (·.before.length) = some place ↔
      IsLeast {n | n < rest.length ∧ form.Evens (opening :: rest.take (n + 1))} place := by
  simp only [evens_cons opens]
  constructor
  · intro found
    obtain ⟨s, split, rfl⟩ := Option.map_eq_some_iff.1 found
    have level := openAfter_of_splitCloseAt split
    have closes : s.found.isOp form.closer = true := found_of_splitCloseAt split
    have no_opener : s.found.isOp form.opener = false := by
      rw [isOp_of_isOp closes]
      cases form <;> decide
    rw [eq_of_splitClose split]
    refine ⟨⟨by simp, ?_⟩, fun n even => ?_⟩
    · have count := count_of_openAfter level
      simp only [List.take_length_add_append, List.take_succ_cons, List.take_zero, List.countP_append,
        List.countP_singleton, closes, no_opener, if_true, Bool.false_eq_true, if_false]
      omega
    · by_contra early
      have short : (s.before ++ s.found :: s.after).take (n + 1) = s.before.take (n + 1) :=
        List.take_append_of_le_length (by omega)
      obtain ⟨depth, part⟩ := openAfter_of_isPrefix (List.take_prefix (n + 1) s.before) level
      have count := count_of_openAfter part
      have even := even.2
      rw [short] at even
      omega
  · rintro ⟨⟨inBounds, even⟩, least⟩
    have parts : rest = rest.take place ++ rest[place] :: rest.drop (place + 1) := by simp
    obtain ⟨depth, counted⟩ : ∃ depth, form.openAfter 0 (rest.take place) = some depth := by
      refine openAfter_of_uneven fun n short even => ?_
      rw [List.length_take] at short
      rw [List.take_take, Nat.min_eq_left (by omega)] at even
      have := least ⟨by omega, even⟩
      omega
    have count := count_of_openAfter counted
    rw [List.take_succ_eq_append_getElem inBounds] at even
    simp only [List.countP_append, List.countP_singleton] at even
    have closes : rest[place].isOp form.closer = true := by
      by_contra other
      rw [if_neg other] at even
      omega
    have level : depth = 0 := by
      rw [if_pos closes] at even
      omega
    subst level
    rw [parts, splitClose, splitCloseAt_append_of_openAfter counted, splitCloseAt_zero closes]
    simp only [Option.map_some, Split.prepend, List.append_nil, List.length_take]
    simp only [Option.some.injEq]
    omega

end Closer

/-! ## Partners -/

/-- Whatever stands in front, the tokens close the brackets that it leaves open. -/
theorem closesAll_of_append {stack : List BracketForm} (checked : closesAll stack (front ++ ts) = true) :
    ∃ stack, closesAll stack ts = true := by
  induction front generalizing stack with
  | nil => exact ⟨stack, checked⟩
  | cons t front ih =>
    simp only [List.cons_append, closesAll] at checked
    split at checked
    · exact ih checked
    · split at checked
      · exact ih checked
      · split at checked
        · cases stack with
          | nil => cases checked
          | cons form stack =>
            simp only [Bool.and_eq_true] at checked
            exact ih checked.2
        · exact ih checked

/-- In well-bracketed tokens, each opening bracket has its partner. -/
theorem WellBracketed.partner (bracketed : WellBracketed (front ++ opening :: rest))
    (opens : opening.isOp form.opener = true) :
    ∃ s : Split, rest = s.toList ∧ WellBracketed s.before ∧ s.found.isOp form.closer = true := by
  obtain ⟨stack, checked⟩ := closesAll_of_append (closesAll_iff.2 bracketed)
  rw [closesAll_cons_of_opener opens] at checked
  obtain ⟨inside, closing, after, rfl, within, closes, -⟩ := closesStack_of_closesAll checked
  exact ⟨⟨inside, closing, after⟩, rfl, within, closes⟩

/-! ## Outside all brackets -/

/-- A pair of brackets among the tokens has the place inside, or closes there. -/
def Encloses (ts : List Token) (place : Nat) : Prop :=
  ∃ (form : BracketForm) (before inside after : List Token) (opening closing : Token),
    ts = before ++ opening :: (inside ++ closing :: after) ∧ opening.isOp form.opener = true ∧
    WellBracketed inside ∧ closing.isOp form.closer = true ∧
    before.length < place ∧ place ≤ before.length + 1 + inside.length

theorem depthAfter_add {depth depth' : Nat} (more : Nat) (after : depthAfter depth ts = some depth') :
    depthAfter (depth + more) ts = some (depth' + more) := by
  unfold depthAfter at after ⊢
  fun_induction openAfter isOpener isCloser depth ts with
  | case1 depth =>
    cases after
    rfl
  | case2 depth t ts opens ih =>
    simpa only [openAfter, opens, if_true, Nat.add_right_comm depth 1] using ih after
  | case3 => cases after
  | case4 t ts no_opener closes depth ih =>
    simpa only [openAfter, no_opener, closes, if_true, Bool.false_eq_true, if_false,
      Nat.add_right_comm depth 1] using ih after
  | case5 depth t ts no_opener no_closer ih =>
    simpa only [openAfter, no_opener, no_closer, Bool.false_eq_true, if_false] using ih after

/-- A place that a pair of brackets encloses has an open bracket in front. -/
theorem Encloses.open_before {depth : Nat} (encloses : Encloses ts place)
    (after : depthAfter 0 ts = some depth) : depthAfter 0 (ts.take place) ≠ some 0 := by
  obtain ⟨form, before, inside, rest, opening, closing, rfl, opens, within, -, above, below⟩ := encloses
  obtain ⟨k, rfl⟩ : ∃ k, place = before.length + 1 + k := ⟨place - (before.length + 1), by omega⟩
  have front : (before ++ opening :: (inside ++ closing :: rest)).take (before.length + 1 + k) =
      before ++ opening :: inside.take k := by
    rw [Nat.add_assoc, Nat.add_comm 1, List.take_length_add_append, List.take_succ_cons,
      List.take_append_of_le_length (by omega)]
  rw [depthAfter_append] at after
  obtain ⟨outer, counted, -⟩ := Option.bind_eq_some_iff.1 after
  obtain ⟨inner, part⟩ := openAfter_of_isPrefix (List.take_prefix k inside) (within.depthAfter_eq 0)
  have deeper : depthAfter (outer + 1) (inside.take k) = some (inner + (outer + 1)) := by
    simpa using depthAfter_add (outer + 1) part
  have opened : depthAfter outer (opening :: inside.take k) = depthAfter (outer + 1) (inside.take k) := by
    simp [depthAfter, openAfter, WellBracketed.isOpener_of_isOp opens]
  rw [front, depthAfter_append, counted, Option.bind_some, opened, deeper]
  simp

theorem Encloses.append_left (encloses : Encloses ts place) (front : List Token) :
    Encloses (front ++ ts) (front.length + place) := by
  obtain ⟨form, before, inside, after, opening, closing, rfl, opens, within, closes, above, below⟩ := encloses
  refine ⟨form, front ++ before, inside, after, opening, closing, by simp, opens, within, closes, ?_, ?_⟩
  · rw [List.length_append]
    omega
  · rw [List.length_append]
    omega

/-- A pair of brackets encloses each place that has an open bracket in front. -/
theorem WellBracketed.encloses (bracketed : WellBracketed ts)
    (inside : depthAfter 0 (ts.take place) ≠ some 0) : Encloses ts place := by
  -- Where well-bracketed tokens end before the place, they open nothing that is still open there.
  have later {front ts : List Token} {place : Nat} (bracketed : WellBracketed front)
      (ih : ∀ {place : Nat}, depthAfter 0 (ts.take place) ≠ some 0 → Encloses ts place)
      (far : front.length ≤ place) (inside : depthAfter 0 ((front ++ ts).take place) ≠ some 0) :
      Encloses (front ++ ts) place := by
    obtain ⟨k, rfl⟩ := Nat.exists_eq_add_of_le far
    rw [List.take_length_add_append, depthAfter_append, bracketed.depthAfter_eq, Option.bind_some] at inside
    exact (ih inside).append_left front
  induction bracketed generalizing place with
  | nil => simp [depthAfter, openAfter] at inside
  | @cons t ts no_opener no_closer _ ih =>
    cases place with
    | zero => simp [depthAfter, openAfter] at inside
    | succ place => exact later (.cons no_opener no_closer .nil) ih (by simp) inside
  | @group form opening closing within ts opens bracketed closes _ _ ih =>
    by_cases first : place ≤ within.length + 1
    · refine ⟨form, [], within, ts, opening, closing, rfl, opens, bracketed, closes, ?_, ?_⟩
      · cases place with
        | zero => simp [depthAfter, openAfter] at inside
        | succ place => simp
      · simp only [List.length_nil]
        omega
    · have parts : opening :: (within ++ closing :: ts) = opening :: (within ++ [closing]) ++ ts := by simp
      rw [parts] at inside ⊢
      refine later (.group form opens bracketed closes .nil) ih ?_ inside
      simp only [List.length_cons, List.length_append, List.length_nil]
      omega

theorem depthAfter_of_splitTopAt {depth : Nat} (split : splitTopAt p depth ts = some s) :
    depthAfter depth s.before = some 0 := by
  fun_induction splitTopAt p depth ts generalizing s <;>
    simp_all only [Option.map_eq_some_iff, Option.some.injEq, reduceCtorEq]
  case case2 => subst split; rfl
  case case3 ih => obtain ⟨s, split, rfl⟩ := split; simp_all [depthAfter, openAfter, Split.cons]
  case case5 ih => obtain ⟨s, split, rfl⟩ := split; simp_all [depthAfter, openAfter, Split.cons]
  case case6 ih => obtain ⟨s, split, rfl⟩ := split; simp_all [depthAfter, openAfter, Split.cons]

/-- The search goes no further than a token without open brackets in front. -/
theorem splitTop_le (here : ts[place]? = some t) (holds : p t = true)
    (outside : depthAfter 0 (ts.take place) = some 0) :
    ∃ s, splitTop p ts = some s ∧ s.before.length ≤ place := by
  obtain ⟨inBounds, rfl⟩ := List.getElem?_eq_some_iff.1 here
  have parts : ts = ts.take place ++ ts[place] :: ts.drop (place + 1) := by simp
  cases split : splitTopAt p 0 (ts.take place) with
  | none =>
    have found := splitTopAt_append split outside (ts[place] :: ts.drop (place + 1))
    rw [← parts] at found
    refine ⟨_, found.trans (by rw [splitTopAt, if_pos ⟨rfl, holds⟩, Option.map_some]), ?_⟩
    simp [Split.prepend]
  | some s =>
    have found := splitTopAt_append_of_found split (ts[place] :: ts.drop (place + 1))
    rw [← parts] at found
    have short : s.before.length + s.after.length + 1 = (ts.take place).length := length_of_splitTop split
    refine ⟨_, found, ?_⟩
    rw [List.length_take] at short
    simp only
    omega

/-- The search finds the first token that satisfies the condition where no pair of brackets encloses
it. -/
theorem WellBracketed.splitTop_isLeast (bracketed : WellBracketed ts) (p : Token → Bool) (place : Nat) :
    (splitTop p ts).map (·.before.length) = some place ↔
      IsLeast {n | ∃ t, ts[n]? = some t ∧ p t = true ∧ ¬ Encloses ts n} place := by
  have found {n : Nat} (stands : ∃ t, ts[n]? = some t ∧ p t = true ∧ ¬ Encloses ts n) :
      ∃ s, splitTop p ts = some s ∧ s.before.length ≤ n := by
    obtain ⟨t, here, holds, free⟩ := stands
    refine splitTop_le here holds ?_
    by_contra inside
    exact free (bracketed.encloses inside)
  cases split : splitTop p ts with
  | none =>
    refine iff_of_false (by simp) fun least => ?_
    obtain ⟨s, some, -⟩ := found least.1
    simp [split] at some
  | some s =>
    have least : IsLeast {n | ∃ t, ts[n]? = some t ∧ p t = true ∧ ¬ Encloses ts n} s.before.length := by
      constructor
      · refine ⟨s.found, by simp [eq_of_splitTop split], found_of_splitTopAt split, fun encloses => ?_⟩
        apply encloses.open_before (bracketed.depthAfter_eq 0)
        rw [eq_of_splitTop split, List.take_left]
        exact depthAfter_of_splitTopAt split
      · intro n stands
        obtain ⟨s', same, short⟩ := found stands
        rw [split, Option.some.injEq] at same
        rwa [same]
    rw [Option.map_some, Option.some.injEq]
    exact ⟨fun same => same ▸ least, fun other => least.unique other⟩

/-- A search for the closer of a bracket stops at the least place after it where as many brackets of its
form are closed as opened, and on its way counts those that are open.  In well-bracketed tokens, it finds
the partner of the bracket; and between the two, the search outside all brackets finds the first token
that satisfies its condition and that no pair of brackets encloses. -/
theorem matching_bracket (form : BracketForm) (front : List Token) (opening : Token) (rest : List Token)
    (opens : opening.isOp form.opener = true) :
    (∀ place, (splitClose form rest).map (·.before.length) = some place ↔
      IsLeast {n | n < rest.length ∧ form.Evens (opening :: rest.take (n + 1))} place) ∧
    (∀ before after, rest = before ++ after → (∀ n < before.length, ¬ form.Evens (opening :: before.take (n + 1))) →
      ∃ depth, depth + before.countP (·.isOp form.closer) = before.countP (·.isOp form.opener) ∧
        splitClose form rest = (splitCloseAt form depth after).map (Split.prepend before)) ∧
    (WellBracketed (front ++ opening :: rest) → ∃ s, splitClose form rest = some s ∧ rest = s.toList ∧
        WellBracketed s.before ∧ s.found.isOp form.closer = true ∧
        ∀ p place, (splitTop p s.before).map (·.before.length) = some place ↔
          IsLeast {n | ∃ t, s.before[n]? = some t ∧ p t = true ∧ ¬ Encloses s.before n} place) := by
  refine ⟨splitClose_isLeast opens, ?_, fun bracketed => ?_⟩
  · rintro before after rfl uneven
    obtain ⟨depth, counted⟩ :=
      openAfter_of_uneven fun n short even => uneven n short ((evens_cons opens _).2 even)
    refine ⟨depth, ?_, splitCloseAt_append_of_openAfter counted after⟩
    have count := count_of_openAfter counted
    omega
  · obtain ⟨s, rfl, within, closes⟩ := bracketed.partner opens
    refine ⟨s, within.splitClose_append closes s.after, rfl, within, closes, fun p place => ?_⟩
    exact within.splitTop_isLeast p place

/-- In `a (b (c, d), e)`, the search in the outer parentheses finds the second comma. -/
theorem matching_bracket_nested :
    let operator (text : String) : Token := ⟨0, text, 0, 0, .operator, none⟩
    let name (text : String) : Token := ⟨0, text, 0, 0, .identifier, none⟩
    let inner := [name "b", operator "(", name "c", operator ",", name "d", operator ")"]
    let rest := inner ++ [operator ",", name "e", operator ")"]
    ∃ s, splitClose .parenthesis rest = some s ∧
      IsLeast {n | ∃ t, s.before[n]? = some t ∧ t.isOp "," = true ∧ ¬ Encloses s.before n} 6 := by
  intro operator name inner rest
  have matching := matching_bracket .parenthesis [name "a"] (operator "(") rest rfl
  obtain ⟨s, split, -, -, -, found⟩ := matching.2.2 (by decide)
  refine ⟨s, split, (found (·.isOp ",") 6).1 ?_⟩
  cases split
  decide

end Sharp
