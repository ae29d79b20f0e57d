import Sharp.Proofs.TokenText
import Sharp.TypeExpr.Part

/-!
# The tokens of types

A type is written with words and a few operators.  The parentheses in it are closed, so that a search
for any other token outside all brackets goes past a type; and each `fn` in it has its arrow, so that
a type cannot end in front of an arrow.

* `Spends`: the tokens up to others are those of types.
-/

namespace Sharp

open Token hiding id

/-! ## Depth -/

/-- How many are open after some tokens, if `depth` are open before them.  Nothing can be closed that
is not open. -/
def openAfter (opens closes : Token → Bool) : Nat → List Token → Option Nat
  | depth, [] => some depth
  | depth, t :: ts =>
    if opens t then openAfter opens closes (depth + 1) ts
    else if closes t then
      match depth with
      | 0 => none
      | depth + 1 => openAfter opens closes depth ts
    else openAfter opens closes depth ts

section Count

variable {opens closes : Token → Bool} {t : Token}

theorem openAfter_append (depth : Nat) (ts rest : List Token) :
    openAfter opens closes depth (ts ++ rest) =
      (openAfter opens closes depth ts).bind (openAfter opens closes · rest) := by
  fun_induction openAfter opens closes depth ts <;> simp_all [openAfter]

theorem openAfter_cons_of_plain (no_opener : opens t = false) (no_closer : closes t = false)
    (depth : Nat) (ts : List Token) :
    openAfter opens closes depth (t :: ts) = openAfter opens closes depth ts := by
  simp [openAfter, no_opener, no_closer]

theorem openAfter_significant (plain : ∀ t, t.isTrivia = true → opens t = false ∧ closes t = false)
    (depth : Nat) (ts : List Token) :
    openAfter opens closes depth (significant ts) = openAfter opens closes depth ts := by
  induction ts generalizing depth with
  | nil => rfl
  | cons t ts ih =>
    by_cases trivia : t.isTrivia = true
    · rw [significant_cons_of_isTrivia trivia, openAfter_cons_of_plain (plain t trivia).1 (plain t trivia).2, ih]
    · simp only [significant_cons (Bool.eq_false_iff.2 trivia), openAfter, ih]

end Count

def depthAfter (depth : Nat) (ts : List Token) : Option Nat := openAfter isOpener isCloser depth ts

/-- How many `fn` wait for their arrow after some tokens. -/
def arrowsAfter (depth : Nat) (ts : List Token) : Option Nat :=
  openAfter (·.isKeyword "fn") (·.isOp "=>") depth ts

theorem depthAfter_append (depth : Nat) (ts rest : List Token) :
    depthAfter depth (ts ++ rest) = (depthAfter depth ts).bind (depthAfter · rest) :=
  openAfter_append depth ts rest

theorem arrowsAfter_append (depth : Nat) (ts rest : List Token) :
    arrowsAfter depth (ts ++ rest) = (arrowsAfter depth ts).bind (arrowsAfter · rest) :=
  openAfter_append depth ts rest

section Depth

variable {p : Token → Bool} {t : Token} {ts rest : List Token} {depth depth' : Nat}

/-- Brackets are operators. -/
theorem Token.plain_of_category (other : t.category ≠ .operator) : t.isOpener = false ∧ t.isCloser = false := by
  simp [isOpener, isCloser, isOp, other]

theorem Token.isOp_of_isTrivia (trivia : t.isTrivia = true) (text : String) : t.isOp text = false := by
  refine Bool.eq_false_iff.2 fun isOp => ?_
  rw [isOp_iff] at isOp
  simp [isTrivia, isOp.1] at trivia

theorem Token.isOpIn_of_isTrivia (trivia : t.isTrivia = true) (texts : List String) : t.isOpIn texts = false :=
  Bool.eq_false_iff.2 fun isOp => by simp [isTrivia, (isOpIn_iff.1 isOp).1] at trivia

theorem Token.plain_of_isTrivia (trivia : t.isTrivia = true) : t.isOpener = false ∧ t.isCloser = false := by
  simp [isOpener, isCloser, isOp_of_isTrivia trivia]

theorem depthAfter_significant (depth : Nat) (ts : List Token) :
    depthAfter depth (significant ts) = depthAfter depth ts :=
  openAfter_significant (fun _ => Token.plain_of_isTrivia) depth ts

/-- A search that ends without success goes on in what follows. -/
theorem splitTopAt_append (missed : splitTopAt p depth ts = none)
    (after : depthAfter depth ts = some depth') (rest : List Token) :
    splitTopAt p depth (ts ++ rest) = (splitTopAt p depth' rest).map (Split.prepend ts) := by
  induction ts generalizing depth with
  | nil =>
    cases after
    have unchanged : Split.prepend [] = id := rfl
    rw [List.nil_append, unchanged, Option.map_id_fun, id_eq]
  | cons t ts ih =>
    have joined : Split.cons t ∘ Split.prepend ts = Split.prepend (t :: ts) := rfl
    simp only [splitTopAt] at missed
    simp only [depthAfter, openAfter] at after
    rw [List.cons_append]
    simp only [splitTopAt]
    split at missed
    · cases missed
    · next other =>
      rw [if_neg other]
      by_cases opens : t.isOpener = true
      · simp only [opens, if_true, Option.map_eq_none_iff] at missed after ⊢
        rw [ih missed after, Option.map_map, joined]
      · by_cases closes : t.isCloser = true
        · -- A closer that nothing is open for would end the count.
          simp only [opens, closes, if_true, Bool.false_eq_true, if_false] at missed after ⊢
          cases depth with
          | zero => cases after
          | succ depth =>
            simp only [Option.map_eq_none_iff] at missed ⊢
            rw [ih missed after, Option.map_map, joined]
        · simp only [opens, closes, Bool.false_eq_true, if_false, Option.map_eq_none_iff] at missed after ⊢
          rw [ih missed after, Option.map_map, joined]

/-- What a search finds, it finds in a longer text as well. -/
theorem splitTopAt_append_of_found {s : Split} (found : splitTopAt p depth ts = some s) (rest : List Token) :
    splitTopAt p depth (ts ++ rest) = some ⟨s.before, s.found, s.after ++ rest⟩ := by
  induction ts generalizing depth s with
  | nil => cases found
  | cons t ts ih =>
    rw [List.cons_append]
    simp only [splitTopAt] at found ⊢
    split at found
    · next stops =>
      cases found
      rw [if_pos stops]
    · next other =>
      rw [if_neg other]
      split at found
      · next opens =>
        obtain ⟨s, inner, rfl⟩ := Option.map_eq_some_iff.1 found
        rw [if_pos opens, ih inner]
        rfl
      · next no_opener =>
        rw [if_neg no_opener]
        split at found
        · next closes =>
          rw [if_pos closes]
          cases depth with
          | zero => cases found
          | succ depth =>
            obtain ⟨s, inner, rfl⟩ := Option.map_eq_some_iff.1 found
            simp only [ih inner]
            rfl
        · next no_closer =>
          obtain ⟨s, inner, rfl⟩ := Option.map_eq_some_iff.1 found
          rw [if_neg no_closer, ih inner]
          rfl

/-- The split without blanks and comments. -/
def Split.stripped (s : Split) : Split := ⟨significant s.before, s.found, significant s.after⟩

theorem stripped_cons_of_isTrivia (trivia : t.isTrivia = true) : Split.stripped ∘ Split.cons t = Split.stripped :=
  funext fun s => by simp [Split.stripped, Split.cons, significant_cons_of_isTrivia trivia]

theorem stripped_cons (meaning : t.isTrivia = false) :
    Split.stripped ∘ Split.cons t = Split.cons t ∘ Split.stripped :=
  funext fun s => by simp [Split.stripped, Split.cons, significant_cons meaning]

section

variable (others : ∀ t, t.isTrivia = true → p t = false)
include others

/-- Blanks and comments do not matter where another token is looked for. -/
theorem splitTopAt_significant (depth : Nat) (ts : List Token) :
    splitTopAt p depth (significant ts) = (splitTopAt p depth ts).map Split.stripped := by
  induction ts generalizing depth with
  | nil => rfl
  | cons t ts ih =>
    by_cases trivia : t.isTrivia = true
    · obtain ⟨no_opener, no_closer⟩ := plain_of_isTrivia trivia
      simp [significant_cons_of_isTrivia trivia, splitTopAt, others t trivia, no_opener, no_closer, ih,
        stripped_cons_of_isTrivia trivia]
    · have meaning := Bool.eq_false_iff.2 trivia
      rw [significant_cons meaning]
      simp only [splitTopAt, ih]
      split
      · rfl
      · split
        · simp [stripped_cons meaning]
        · split
          · cases depth <;> simp [stripped_cons meaning]
          · simp [stripped_cons meaning]

theorem splitTopAt_eq_none_of_significant
    (missed : splitTopAt p depth (significant ts) = none) : splitTopAt p depth ts = none := by
  rwa [splitTopAt_significant others, Option.map_eq_none_iff] at missed

theorem hasTop_significant (ts : List Token) : hasTop p (significant ts) = hasTop p ts := by
  rw [hasTop, splitTop, splitTopAt_significant others, Option.isSome_map]
  rfl

end

theorem hasTop_isOp_significant (operator : String) (ts : List Token) :
    hasTop (·.isOp operator) (significant ts) = hasTop (·.isOp operator) ts :=
  hasTop_significant (fun _ trivia => isOp_of_isTrivia trivia operator) ts

theorem splitTopAt_eq_none (others : ∀ t ∈ ts, p t = false) (depth : Nat) :
    splitTopAt p depth ts = none := by
  cases split : splitTopAt p depth ts with
  | none => rfl
  | some s =>
    have parts := toList_of_splitTopAt split
    have member : s.found ∈ ts := by simp [← parts, Split.toList]
    exact absurd (found_of_splitTopAt split) (by simp [others _ member])

end Depth

/-! ## Well-bracketed tokens -/

/-- Tokens in which each opening bracket is closed by a bracket of its own form. -/
inductive WellBracketed : List Token → Prop where
  | nil : WellBracketed []
  | cons {t : Token} {ts : List Token} (no_opener : t.isOpener = false)
      (no_closer : t.isCloser = false) (more : WellBracketed ts) : WellBracketed (t :: ts)
  | group (form : BracketForm) {opening closing : Token} {inside ts : List Token}
      (opens : opening.isOp form.opener = true) (within : WellBracketed inside)
      (closes : closing.isOp form.closer = true) (more : WellBracketed ts) :
      WellBracketed (opening :: (inside ++ closing :: ts))

namespace WellBracketed

variable {t : Token} {ts : List Token} {form : BracketForm}

theorem of_plain (plain : ∀ t ∈ ts, t.isOpener = false ∧ t.isCloser = false) : WellBracketed ts := by
  induction ts with
  | nil => exact .nil
  | cons t ts ih =>
    obtain ⟨first, others⟩ := List.forall_mem_cons.1 plain
    exact .cons first.1 first.2 (ih others)

theorem append {ts' : List Token} (left : WellBracketed ts) (right : WellBracketed ts') :
    WellBracketed (ts ++ ts') := by
  induction left with
  | nil => exact right
  | cons no_opener no_closer _ ih => exact .cons no_opener no_closer ih
  | group form opens within closes _ _ ih =>
    have joined := WellBracketed.group form opens within closes ih
    simpa only [List.cons_append, List.append_assoc] using joined

theorem isOpener_of_isOp (opens : t.isOp form.opener = true) : t.isOpener = true := by
  cases form with
  | parenthesis => simpa [isOpener] using .inl opens
  | brace => simpa [isOpener] using .inr opens

theorem isCloser_of_isOp (closes : t.isOp form.closer = true) : t.isOpener = false ∧ t.isCloser = true := by
  cases form <;> simp [isOpener, isCloser, isOp_of_isOp closes, BracketForm.closer]

/-- As many brackets are open after the tokens as before them. -/
theorem depthAfter_eq (bracketed : WellBracketed ts) (depth : Nat) : depthAfter depth ts = some depth := by
  induction bracketed generalizing depth with
  | nil => rfl
  | cons no_opener no_closer _ ih =>
    exact (openAfter_cons_of_plain no_opener no_closer depth _).trans (ih depth)
  | @group form opening closing inside ts opens _ closes _ inside_ih ih =>
    obtain ⟨no_opener, closes⟩ := isCloser_of_isOp closes
    have last : depthAfter (depth + 1) (closing :: ts) = depthAfter depth ts := by
      simp [depthAfter, openAfter, no_opener, closes]
    have first : depthAfter depth (opening :: (inside ++ closing :: ts)) =
        depthAfter (depth + 1) (inside ++ closing :: ts) := by
      simp [depthAfter, openAfter, isOpener_of_isOp opens]
    rw [first, depthAfter_append, inside_ih, Option.bind_some, last, ih]

end WellBracketed

/-! ## Vocabulary -/

/-- The operators that types are written with. -/
def typeOperators : List String :=
  ["?", "#", "~", ":", "-", "/", ",", "=>", ".", "?.", "!.", "(", ")"]

def Token.isTypeToken (t : Token) : Bool := t.isWord || t.isOpIn typeOperators

/-- Can the token be in a type: is it the name of a type, `fn` or an operator of types? -/
def Token.isTypeMaterial (t : Token) : Bool :=
  t.isTypeName || t.isKeyword "fn" || t.isOpIn typeOperators

namespace Token

variable {t : Token} {text : String}

theorem isWord_of_isKeyword (keyword : t.isKeyword text = true) : t.isWord = true := by
  unfold isKeyword at keyword
  unfold isWord
  cases category : t.category <;> simp_all

theorem isCopiedLiteral_of_isKeyword (keyword : t.isKeyword text = true) : t.isCopiedLiteral = false :=
  isCopiedLiteral_of_isWord (isWord_of_isKeyword keyword)

theorem isWord_of_keywordRole {role : KeywordRole} (known : t.keywordRole? = some role) : t.isWord = true := by
  unfold keywordRole? vocabularyRole? at known
  unfold isWord
  cases category : t.category <;> simp_all

theorem isWord_of_isNameLike (isName : t.isNameLike = true) : t.isWord = true := by
  unfold isNameLike at isName
  unfold isWord
  cases category : t.category <;> simp_all

theorem isNameLike_of_isDiscard (discard : t.isDiscard = true) : t.isNameLike = true := by
  simp only [isDiscard, Bool.and_eq_true, beq_iff_eq] at discard
  simp [isNameLike, discard.2]

theorem isWord_of_isTypeName (isName : t.isTypeName = true) : t.isWord = true := by
  simp only [isTypeName, Bool.or_eq_true, beq_iff_eq] at isName
  exact isName.elim isWord_of_isNameLike isWord_of_keywordRole

theorem isKeyword_fn_of_builtinType (builtin : t.keywordRole? = some .builtinType) : t.isKeyword "fn" = false := by
  refine Bool.eq_false_iff.2 fun isFn => ?_
  simp only [isKeyword, Bool.and_eq_true, Bool.or_eq_true, beq_iff_eq] at isFn
  obtain ⟨category | category, text⟩ := isFn
  · simp only [keywordRole?, vocabularyRole?, category, text] at builtin
    exact absurd builtin (by decide)
  · simp only [keywordRole?, vocabularyRole?, category, text] at builtin
    exact absurd builtin (by decide)

end Token

/-- Where `fn` is reserved, it is no name. -/
def FnReserved (ts : List Token) : Prop := ∀ t ∈ ts, t.isNameLike = true → t.isKeyword "fn" = false

/-- Types are written with these tokens.  The parentheses among them are closed, and each `fn` has its
arrow; besides, there are the arrows of as many `fn` in front of the tokens as `waiting` tells. -/
structure TypeTokens (waiting : Nat) (ts : List Token) : Prop where
  material : ∀ t ∈ ts, t.isTypeMaterial = true
  bracketed : WellBracketed ts
  paired : FnReserved ts → ∀ depth, arrowsAfter (depth + waiting) ts = some depth

namespace TypeTokens

variable {t opening closing : Token} {ts ts' : List Token} {waiting : Nat}

theorem closed (types : TypeTokens waiting ts) (depth : Nat) : depthAfter depth ts = some depth :=
  types.bracketed.depthAfter_eq depth

theorem nil : TypeTokens 0 [] := ⟨List.forall_mem_nil _, .nil, fun _ _ => rfl⟩

theorem append (left : TypeTokens 0 ts) (right : TypeTokens waiting ts') : TypeTokens waiting (ts ++ ts') := by
  refine ⟨List.forall_mem_append.2 ⟨left.material, right.material⟩, left.bracketed.append right.bracketed,
    fun reserved depth => ?_⟩
  obtain ⟨left_reserved, right_reserved⟩ := List.forall_mem_append.1 reserved
  have paired : arrowsAfter (depth + waiting) ts = some (depth + waiting) :=
    left.paired left_reserved (depth + waiting)
  rw [arrowsAfter_append, paired, Option.bind_some, right.paired right_reserved]

theorem single (material : t.isTypeMaterial = true) (plain : t.isOpener = false ∧ t.isCloser = false)
    (noFn : t.isNameLike = true ∨ t.isKeyword "fn" = false) (noArrow : t.isOp "=>" = false) :
    TypeTokens 0 [t] := by
  refine ⟨List.forall_mem_singleton.2 material, .cons plain.1 plain.2 .nil, fun reserved depth => ?_⟩
  have noFn : t.isKeyword "fn" = false := noFn.elim (reserved t (by simp)) fun noFn => noFn
  exact openAfter_cons_of_plain noFn noArrow depth []

theorem operator {text : String} (isOp : t.isOp text = true)
    (listed : text ∈ typeOperators.filter (· ∉ "=>" :: bracketOperators)) : TypeTokens 0 [t] := by
  simp only [List.mem_filter, decide_eq_true_eq] at listed
  obtain ⟨listed, other⟩ := listed
  simp only [bracketOperators, List.mem_cons, List.not_mem_nil, or_false, not_or] at other
  have operator := isOp_iff.1 isOp
  refine .single ?_ ?_ (.inr (by simp [isKeyword, operator])) (by simp [isOp_of_isOp isOp, other])
  · simp [isTypeMaterial, isOpIn, operator, listed]
  · simp [isOpener, isCloser, isOp_of_isOp isOp, other]

theorem fn (isFn : t.isKeyword "fn" = true) (others : TypeTokens 1 ts) : TypeTokens 0 (t :: ts) := by
  have plain : t.isOpener = false ∧ t.isCloser = false := by
    apply plain_of_category
    intro operator
    simp [isKeyword, operator] at isFn
  refine ⟨List.forall_mem_cons.2 ⟨by simp [isTypeMaterial, isFn], others.material⟩,
    .cons plain.1 plain.2 others.bracketed, fun reserved depth => ?_⟩
  simp only [arrowsAfter, openAfter, isFn, if_true]
  exact others.paired (List.forall_mem_cons.1 reserved).2 depth

theorem arrow (isArrow : t.isOp "=>" = true) (others : TypeTokens 0 ts) : TypeTokens 1 (t :: ts) := by
  have operator := isOp_iff.1 isArrow
  have noFn : t.isKeyword "fn" = false := by simp [isKeyword, operator]
  refine ⟨List.forall_mem_cons.2 ⟨?_, others.material⟩, .cons ?_ ?_ others.bracketed, fun reserved depth => ?_⟩
  · simp [isTypeMaterial, isOpIn, operator, typeOperators]
  · simp [isOpener, isOp_of_isOp isArrow]
  · simp [isCloser, isOp_of_isOp isArrow]
  · simp only [arrowsAfter, openAfter, noFn, isArrow, if_true, Bool.false_eq_true, if_false]
    exact others.paired (List.forall_mem_cons.1 reserved).2 depth

theorem group (opens : opening.isOp "(" = true) (inside : TypeTokens 0 ts)
    (closes : closing.isOp ")" = true) : TypeTokens 0 (opening :: (ts ++ [closing])) := by
  have left := isOp_iff.1 opens
  have right := isOp_iff.1 closes
  refine ⟨?_, .group .parenthesis opens inside.bracketed closes .nil, fun reserved depth => ?_⟩
  · simp only [List.forall_mem_cons, List.forall_mem_append]
    refine ⟨?_, inside.material, ?_⟩
    · simp [isTypeMaterial, isOpIn, left, typeOperators]
    · simp [isTypeMaterial, isOpIn, right, typeOperators]
  · have inside_reserved : FnReserved ts := fun t member => reserved t (by simp [member])
    have opened : arrowsAfter depth (opening :: (ts ++ [closing])) = arrowsAfter depth (ts ++ [closing]) :=
      openAfter_cons_of_plain (by simp [isKeyword, left]) (by simp [isOp, left]) depth _
    have paired : arrowsAfter depth ts = some depth := inside.paired inside_reserved depth
    rw [Nat.add_zero, opened, arrowsAfter_append, paired, Option.bind_some]
    exact openAfter_cons_of_plain (by simp [isKeyword, right]) (by simp [isOp, right]) depth []

theorem typeName (isName : t.isTypeName = true) : TypeTokens 0 [t] := by
  have noOperator : t.category ≠ .operator := by
    intro operator
    simpa [Token.isWord, operator] using isWord_of_isTypeName isName
  refine .single (by simp [isTypeMaterial, isName]) (plain_of_category noOperator) ?_ (by simp [isOp, noOperator])
  simp only [isTypeName, Bool.or_eq_true, beq_iff_eq] at isName
  exact isName.imp_right isKeyword_fn_of_builtinType

theorem name (isName : t.isNameLike = true) : TypeTokens 0 [t] :=
  .typeName (by simp [isTypeName, isName])

theorem known (types : TypeTokens waiting ts) : ∀ t ∈ ts, t.isTypeToken = true := by
  intro t member
  have material := types.material t member
  simp only [isTypeMaterial, isTypeToken, Bool.or_eq_true] at material ⊢
  exact material.imp_left fun word => word.elim isWord_of_isTypeName isWord_of_isKeyword

theorem no_literal (types : TypeTokens waiting ts) : ∀ t ∈ ts, t.isCopiedLiteral = false := by
  intro t member
  have known := types.known t member
  simp only [isTypeToken, Bool.or_eq_true] at known
  exact known.elim isCopiedLiteral_of_isWord isCopiedLiteral_of_isOpIn

/-- A type does not end in front of the arrow of another one. -/
theorem not_before_arrow {before after : List Token} (types : TypeTokens 0 (before ++ t :: after))
    (reserved : FnReserved (before ++ t :: after)) (isArrow : t.isOp "=>" = true) :
    ¬ TypeTokens 0 before := by
  intro front
  have whole := types.paired reserved 0
  have noFn : t.isKeyword "fn" = false := by
    rw [isOp_iff] at isArrow
    simp [isKeyword, isArrow.1]
  rw [arrowsAfter_append, front.paired (List.forall_mem_append.1 reserved).1 0, Option.bind_some] at whole
  simp [arrowsAfter, openAfter, noFn, isArrow] at whole

end TypeTokens

/-- The tokens `ts` up to `rest` are no literals and, where `strict`, those of types. -/
def Spends (strict : Prop) (waiting : Nat) (ts rest : List Token) : Prop :=
  ∃ used, ts = used ++ rest ∧ (∀ t ∈ used, t.isCopiedLiteral = false) ∧ (strict → TypeTokens waiting used)

namespace Spends

variable {strict : Prop} {t : Token} {ts middle rest : List Token} {waiting : Nat}

theorem of_types {used : List Token} (types : TypeTokens waiting used) :
    Spends strict waiting (used ++ rest) rest :=
  ⟨used, rfl, types.no_literal, fun _ => types⟩

theorem refl : Spends strict 0 ts ts := of_types .nil

theorem trans (first : Spends strict 0 ts middle) (second : Spends strict waiting middle rest) :
    Spends strict waiting ts rest := by
  obtain ⟨used, rfl, others, left⟩ := first
  obtain ⟨used', rfl, others', right⟩ := second
  refine ⟨used ++ used', by rw [List.append_assoc], List.forall_mem_append.2 ⟨others, others'⟩, ?_⟩
  exact fun holds => (left holds).append (right holds)

theorem cons (first : TypeTokens 0 [t]) (others : Spends strict waiting ts rest) :
    Spends strict waiting (t :: ts) rest :=
  trans (of_types first) others

theorem operator {text : String} (isOp : t.isOp text = true)
    (listed : text ∈ typeOperators.filter (· ∉ "=>" :: bracketOperators)) : Spends strict 0 (t :: rest) rest :=
  of_types (.operator isOp listed)

theorem fn (isFn : t.isKeyword "fn" = true) (others : Spends True 1 ts rest) : Spends strict 0 (t :: ts) rest := by
  obtain ⟨used, rfl, -, types⟩ := others
  exact of_types (.fn isFn (types trivial))

theorem arrow (isArrow : t.isOp "=>" = true) (others : Spends True 0 ts rest) : Spends strict 1 (t :: ts) rest := by
  obtain ⟨used, rfl, -, types⟩ := others
  exact of_types (.arrow isArrow (types trivial))

theorem keyword {text : String} (isKeyword : t.isKeyword text = true) (others : Spends False 0 ts rest) :
    Spends False 0 (t :: ts) rest := by
  obtain ⟨used, rfl, none, -⟩ := others
  exact ⟨t :: used, rfl, List.forall_mem_cons.2 ⟨isCopiedLiteral_of_isKeyword isKeyword, none⟩, False.elim⟩

theorem weaken {strict' : Prop} {waiting' : Nat} (spends : Spends strict waiting ts rest)
    (weaker : strict' → strict ∧ waiting = waiting') : Spends strict' waiting' ts rest := by
  obtain ⟨used, parts, others, types⟩ := spends
  refine ⟨used, parts, others, fun holds => ?_⟩
  obtain ⟨holds, rfl⟩ := weaker holds
  exact types holds

theorem suffix (spends : Spends strict waiting ts rest) : rest <:+ ts := by
  obtain ⟨used, rfl, -⟩ := spends
  exact List.suffix_append used rest

theorem typeTokens (spends : Spends True waiting ts []) : TypeTokens waiting ts := by
  obtain ⟨used, rfl, -, types⟩ := spends
  rw [List.append_nil]
  exact types trivial

theorem group {s : Split} (opens : t.isOp "(" = true) (split : splitClose .parenthesis ts = some s)
    (inside : Spends True 0 s.before []) : Spends strict 0 (t :: ts) s.after := by
  have types := TypeTokens.group opens inside.typeTokens (found_of_splitCloseAt split)
  simpa [eq_of_splitClose split] using @of_types strict s.after 0 _ types

end Spends

end Sharp
