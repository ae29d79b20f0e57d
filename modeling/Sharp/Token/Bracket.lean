import Sharp.Token.Basic

/-!
# Brackets

Looking for a token by its place among the brackets.
-/

namespace Sharp

/-- A list of tokens taken apart at one of them. -/
structure Split where
  before : List Token
  found : Token
  after : List Token
  deriving Repr

variable {ts : List Token} {s : Split}

def Split.cons (t : Token) (s : Split) : Split :=
  { s with before := t :: s.before }

def Split.prepend (ts : List Token) (s : Split) : Split :=
  { s with before := ts ++ s.before }

theorem Split.cons_eq_prepend (t : Token) : Split.cons t = Split.prepend [t] :=
  rfl

theorem Split.prepend_prepend (front back : List Token) (s : Split) :
    (s.prepend back).prepend front = s.prepend (front ++ back) := by
  simp [prepend]

theorem Option.map_prepend_prepend (front back : List Token) (s : Option Split) :
    (s.map (Split.prepend back)).map (Split.prepend front) = s.map (Split.prepend (front ++ back)) := by
  cases s with
  | none => rfl
  | some s => simp [Split.prepend_prepend]

/-- The list that was taken apart. -/
def Split.toList (s : Split) : List Token :=
  s.before ++ s.found :: s.after

@[simp] theorem Split.toList_cons (t : Token) (s : Split) : (s.cons t).toList = t :: s.toList :=
  rfl

theorem Split.length_toList (s : Split) :
    s.toList.length = s.before.length + s.after.length + 1 := by
  simp only [toList, List.length_append, List.length_cons]
  omega

namespace BracketForm

def opener : BracketForm → String
  | parenthesis => "("
  | brace => "\x7b"

def closer : BracketForm → String
  | parenthesis => ")"
  | brace => "\x7d"

end BracketForm

/-- Splits the tokens at the closer that leaves `depth` open brackets of its own pair.  Brackets of
the other pair do not count. -/
def splitCloseAt (form : BracketForm) : Nat → List Token → Option Split
  | _, [] => none
  | depth, t :: ts =>
    if t.isOp form.opener then (splitCloseAt form (depth + 1) ts).map (Split.cons t)
    else if t.isOp form.closer then
      match depth with
      | 0 => some ⟨[], t, ts⟩
      | depth + 1 => (splitCloseAt form depth ts).map (Split.cons t)
    else (splitCloseAt form depth ts).map (Split.cons t)

def splitClose (form : BracketForm) (ts : List Token) : Option Split :=
  splitCloseAt form 0 ts

def Token.isOpener (t : Token) : Bool :=
  t.isOp "(" || t.isOp "\x7b"

def Token.isCloser (t : Token) : Bool :=
  t.isOp ")" || t.isOp "\x7d"

/-- Splits the tokens at the first one that satisfies `p` and is inside no bracket opened among
them, when `depth` brackets are open before. -/
def splitTopAt (p : Token → Bool) : Nat → List Token → Option Split
  | _, [] => none
  | depth, t :: ts =>
    if depth = 0 ∧ p t = true then some ⟨[], t, ts⟩
    else if t.isOpener then (splitTopAt p (depth + 1) ts).map (Split.cons t)
    else if t.isCloser then
      match depth with
      | 0 => none
      | depth + 1 => (splitTopAt p depth ts).map (Split.cons t)
    else (splitTopAt p depth ts).map (Split.cons t)

/-- Splits the tokens at the first one outside all brackets that satisfies `p`.  The search ends at
a closer whose opener is not among the tokens. -/
def splitTop (p : Token → Bool) (ts : List Token) : Option Split :=
  splitTopAt p 0 ts

def hasTop (p : Token → Bool) (ts : List Token) : Bool :=
  (splitTop p ts).isSome

theorem toList_of_splitCloseAt {form : BracketForm} {depth : Nat}
    (h : splitCloseAt form depth ts = some s) : s.toList = ts := by
  fun_induction splitCloseAt form depth ts generalizing s <;>
    simp_all only [Option.map_eq_some_iff, Option.some.injEq, reduceCtorEq]
  case case2 ih => obtain ⟨s, h, rfl⟩ := h; simp [ih h]
  case case3 => subst h; rfl
  case case4 ih => obtain ⟨s, h, rfl⟩ := h; simp [ih h]
  case case5 ih => obtain ⟨s, h, rfl⟩ := h; simp [ih h]

theorem toList_of_splitTopAt {p : Token → Bool} {depth : Nat} (h : splitTopAt p depth ts = some s) :
    s.toList = ts := by
  fun_induction splitTopAt p depth ts generalizing s <;>
    simp_all only [Option.map_eq_some_iff, Option.some.injEq, reduceCtorEq]
  case case2 => subst h; rfl
  case case3 ih => obtain ⟨s, h, rfl⟩ := h; simp [ih h]
  case case5 ih => obtain ⟨s, h, rfl⟩ := h; simp [ih h]
  case case6 ih => obtain ⟨s, h, rfl⟩ := h; simp [ih h]

theorem length_of_splitTop {p : Token → Bool} (h : splitTop p ts = some s) :
    s.before.length + s.after.length + 1 = ts.length := by
  rw [← s.length_toList, toList_of_splitTopAt h]

end Sharp
