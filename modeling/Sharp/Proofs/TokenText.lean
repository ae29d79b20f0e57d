import Mathlib.Algebra.Order.Group.Multiset
import Sharp.Proofs.Lines
import Sharp.Proofs.Nesting
import Sharp.Proofs.Partition
import Sharp.Token.Bracket

/-!
# The texts of tokens

* `Token.Regular`: words hold no brackets, and operators are those of the vocabulary.
* `regular_of_tokenize`: the tokens of a source are regular.
* `literals`: the texts of the literals among some tokens.
-/

namespace Sharp

open Token

variable {c : Char} {cs body rest last : List Char} {p : Token → Bool} {t : Token}
  {ts tokens : List Token} {source text : String} {depth : Nat}

/-! ## Regular tokens -/

/-- What a token of the category can be written as. -/
def RegularText : Category → String → Prop
  | .keyword, text | .contextKeyword, text | .identifier, text =>
    ∀ c ∈ text.toList, isPlainChar c = true
  | .operator, text => text ∈ operators
  | .stringLiteral, text | .rawStringLiteral, text | .charLiteral, text | .numberLiteral, text =>
    OnLine text
  | .comment, text => text ≠ "" ∧ OnLine text
  | .lineBreak, _ | .space, _ => True

def Token.Regular (t : Token) : Prop := RegularText t.category t.text

def Scan.Regular (scan : Scan) : Prop :=
  ∀ lexeme rest, scan = .ok (some (lexeme, rest)) → RegularText lexeme.category lexeme.text

theorem isPlainChar_of_isWordChar (isWord : isWordChar c = true) : isPlainChar c = true := by
  have line : c ≠ '\n' := by
    rintro rfl
    exact absurd isWord (by decide)
  revert isWord
  rw [isPlainChar]
  fun_cases bracketMark c
  case case7 => exact fun _ => by simp [line]
  all_goals decide

/-- A text that ends in the given character, which is no line break. -/
theorem onLine_append (other : c ≠ '\n') : OnLine (String.ofList (cs ++ [c])) := by
  simp [OnLine, other]

theorem onLine_of_getLast (ends : last.getLast? = some c) (other : c ≠ '\n') :
    OnLine (String.ofList (cs ++ last)) := by
  simp [OnLine, List.getLast?_append, ends, other]

/-- A text without line breaks. -/
theorem onLine_of_forall (flat : ∀ c ∈ cs, c ≠ '\n') : OnLine (String.ofList cs) := by
  intro ends
  rw [String.toList_ofList] at ends
  exact flat _ (List.mem_of_getLast? ends) rfl

theorem getLast?_splitCommentEnd (split : splitCommentEnd cs = some (body, rest)) : body.getLast? = some '/' := by
  fun_induction splitCommentEnd cs generalizing body with
  | case1 => cases split; rfl
  | case2 c cs _ ih =>
    simp only [Option.map_eq_some_iff, Prod.mk.injEq, Prod.exists] at split
    obtain ⟨body, rest, split, rfl, rfl⟩ := split
    simp [List.getLast?_cons, ih split]
  | case3 => cases split

theorem getLast?_splitClosedString (split : splitClosedString cs = some (body, rest)) :
    body.getLast? = some '"' := by
  fun_induction splitClosedString cs generalizing body <;>
    simp_all only [Option.some.injEq, Prod.mk.injEq, Option.map_eq_some_iff, Prod.exists, reduceCtorEq]
  case case2 => obtain ⟨rfl, rfl⟩ := split; rfl
  case case4 ih => obtain ⟨_, _, split, rfl, rfl⟩ := split; simp [List.getLast?_cons, ih split]
  case case6 ih => obtain ⟨_, _, split, rfl, rfl⟩ := split; simp [List.getLast?_cons, ih split]

theorem getLast?_splitClosedVerbatim (split : splitClosedVerbatim cs = some (body, rest)) :
    body.getLast? = some '"' := by
  fun_induction splitClosedVerbatim cs generalizing body <;>
    simp_all only [Option.some.injEq, Prod.mk.injEq, Option.map_eq_some_iff, Prod.exists, reduceCtorEq]
  case case2 ih => obtain ⟨_, _, split, rfl, rfl⟩ := split; simp [List.getLast?_cons, ih split]
  case case3 => obtain ⟨rfl, rfl⟩ := split; rfl
  case case4 ih => obtain ⟨_, _, split, rfl, rfl⟩ := split; simp [List.getLast?_cons, ih split]

theorem getLast?_splitChar {cs : List Char} (closed : (splitChar cs).1 = true) :
    (splitChar cs).2.1.getLast? = some '\'' := by
  fun_induction splitChar cs with
  | case1 | case4 => cases closed
  | case2 => rfl
  | case3 c cs closed' body rest split ih | case5 c cs _ _ _ closed' body rest split ih =>
    rw [split] at ih
    simp [List.getLast?_cons, ih closed]

theorem ne_lineBreak_of_isWordChar (isWord : isWordChar c = true) : c ≠ '\n' := by
  rintro rfl
  exact absurd isWord (by decide)

theorem splitNumeral_flat (cs : List Char) : ∀ c ∈ (splitNumeral cs).1, c ≠ '\n' := by
  have words (cs : List Char) : ∀ c ∈ cs.takeWhile isWordChar, c ≠ '\n' :=
    fun c member => ne_lineBreak_of_isWordChar (List.mem_takeWhile_imp member)
  have signed (cs : List Char) : ∀ c ∈ (splitSigned cs).1, c ≠ '\n' := by
    fun_cases splitSigned cs with
    | case1 sign digit cs isSign =>
      simp only [Bool.and_eq_true, Bool.or_eq_true, beq_iff_eq] at isSign
      rw [List.forall_mem_cons]
      refine ⟨?_, words _⟩
      rcases isSign.1 with rfl | rfl <;> decide
    | case2 => simp
    | case3 => simp
  unfold splitNumeral
  dsimp only
  split
  · exact List.forall_mem_append.2 ⟨words _, signed _⟩
  · exact words _

theorem scan_regular (cs : List Char) : (scan cs).Regular := by
  intro lexeme rest found
  cases scanned_of_scan found with
  | lineComment cs =>
    refine ⟨by simp [Lexeme.verbatim], onLine_of_forall fun c member => ?_⟩
    rintro rfl
    simp only [List.mem_cons, Char.reduceEq, false_or] at member
    exact absurd (List.mem_takeWhile_imp member) (by decide)
  | blockComment closed =>
    refine ⟨by simp [Lexeme.verbatim], ?_⟩
    simp [Lexeme.verbatim, OnLine, List.getLast?_cons, getLast?_splitCommentEnd closed]
  | @closedString _ _ _ _ opening _ closes =>
    refine onLine_of_getLast ?_ (show '"' ≠ '\n' by decide)
    split at closes
    · exact getLast?_splitClosedVerbatim closes
    · exact getLast?_splitClosedString closes
  | openString _ _ => exact onLine_append (by decide)
  | backquoted _ _ enough =>
    refine onLine_of_getLast ?_ (show '"' ≠ '\n' by decide)
    simp [enough, List.getLast?_replicate]
  | rawString _ three closes => exact onLine_of_getLast (getLast?_splitQuotedBody closes (by omega)) (by decide)
  | @charLiteral first cs closed body _ ends =>
    cases closed with
    | true =>
      have quoted : body.getLast? = some '\'' := by simpa [ends] using @getLast?_splitChar cs (by rw [ends])
      rw [if_pos rfl, List.append_nil, ← List.cons_append]
      exact onLine_of_getLast quoted (by decide)
    | false => exact onLine_append (by decide)
  | integer _ _ => exact onLine_of_forall (splitNumeral_flat cs)
  | @fraction _ whole digits _ point _ _ =>
    have flat : ∀ c ∈ whole, c ≠ '\n' := by simpa [point] using splitNumeral_flat cs
    refine onLine_of_forall ?_
    rw [List.forall_mem_append, List.forall_mem_cons]
    exact ⟨flat, by decide, splitNumeral_flat digits⟩
  | word _ =>
    have plain : ∀ c ∈ cs.takeWhile isWordChar, isPlainChar c = true :=
      fun c member => isPlainChar_of_isWordChar (List.mem_takeWhile_imp member)
    rw [text_wordLexeme]
    rcases category_wordLexeme (cs.takeWhile isWordChar) with category | category | category <;>
      simpa [category, RegularText] using plain
  | operator longest => exact List.mem_of_find?_eq_some longest
  | lineBreak _ _ | blanks _ => exact trivial

theorem regular_of_tokenize (read : tokenize source = .ok tokens) : ∀ t ∈ tokens, t.Regular :=
  (tokenize_eq_ok_iff.1 read).forall_mem fun lexeme rest scanned _ _ =>
    scan_regular _ lexeme rest scanned

section Texts

theorem Token.Regular.tidy_word (regular : t.Regular) (isWord : t.isWord = true) : Tidy t.text := by
  refine tidy_of_plain ?_
  unfold Token.Regular RegularText at regular
  unfold Token.isWord at isWord
  cases category : t.category <;> simp_all

/-- The operators that are brackets. -/
def bracketOperators : List String := ["(", ")", "\x7b", "\x7d"]

theorem Token.Regular.tidy_operator (regular : t.Regular) (operator : t.category = .operator)
    (other : t.text ∉ bracketOperators) : Tidy t.text := by
  have known : t.text ∈ operators := by
    unfold Token.Regular at regular
    rwa [operator] at regular
  have tidy : ∀ text ∈ operators, text ∉ bracketOperators → Tidy text := by decide
  exact tidy t.text known other

end Texts

/-! ## Literals -/

def literals (ts : List Token) : Multiset String :=
  ((ts.filter isCopiedLiteral).map Token.text : List String)

section Literals

variable {ts' : List Token}

@[simp] theorem literals_nil : literals [] = 0 := rfl

@[simp] theorem literals_append (ts ts' : List Token) : literals (ts ++ ts') = literals ts + literals ts' := by
  simp [literals]

theorem literals_cons (t : Token) (ts : List Token) : literals (t :: ts) = literals [t] + literals ts :=
  literals_append [t] ts

theorem literals_singleton_of_literal (literal : t.isCopiedLiteral = true) : literals [t] = {t.text} := by
  simp [literals, literal]

@[simp] theorem literals_singleton_of_other (other : t.isCopiedLiteral = false) : literals [t] = 0 := by
  simp [literals, other]

theorem literals_cons_of_other (other : t.isCopiedLiteral = false) (ts : List Token) :
    literals (t :: ts) = literals ts := by
  rw [literals_cons, literals_singleton_of_other other, zero_add]

theorem literals_eq_zero (none : ∀ t ∈ ts, t.isCopiedLiteral = false) : literals ts = 0 := by
  have filtered : ts.filter isCopiedLiteral = [] := by simpa using none
  simp [literals, filtered]

theorem literals_filter (kept : ∀ t ∈ ts, p t = false → t.isCopiedLiteral = false) :
    literals (ts.filter p) = literals ts := by
  have same : (ts.filter p).filter isCopiedLiteral = ts.filter isCopiedLiteral := by
    rw [List.filter_filter]
    refine List.filter_congr fun t member => ?_
    cases fits : p t with
    | true => simp
    | false => simp [kept t member fits]
  rw [literals, literals, same]

theorem Token.isCopiedLiteral_of_isTrivia (trivia : t.isTrivia = true) : t.isCopiedLiteral = false := by
  unfold isTrivia at trivia
  unfold isCopiedLiteral
  cases category : t.category <;> simp_all

theorem Token.isCopiedLiteral_of_isOp (operator : t.isOp text = true) : t.isCopiedLiteral = false := by
  rw [isOp_iff] at operator
  simp [isCopiedLiteral, operator.1]

theorem Token.isCopiedLiteral_of_isOpIn {texts : List String} (operator : t.isOpIn texts = true) :
    t.isCopiedLiteral = false := by
  simp only [isOpIn, Bool.and_eq_true, beq_iff_eq] at operator
  simp [isCopiedLiteral, operator.1]

theorem Token.isCopiedLiteral_of_isWord (isWord : t.isWord = true) : t.isCopiedLiteral = false := by
  unfold Token.isWord at isWord
  unfold isCopiedLiteral
  cases category : t.category <;> simp_all

theorem Token.isTrivia_of_isWord (isWord : t.isWord = true) : t.isTrivia = false := by
  unfold Token.isWord at isWord
  unfold isTrivia
  cases category : t.category <;> simp_all

@[simp] theorem literals_significant (ts : List Token) : literals (significant ts) = literals ts :=
  literals_filter fun t _ trivia => isCopiedLiteral_of_isTrivia (by simpa using trivia)

theorem literals_dropWhile (dropped : ∀ t ∈ ts, p t = true → t.isCopiedLiteral = false) :
    literals (ts.dropWhile p) = literals ts := by
  have front : literals (ts.takeWhile p) = 0 := literals_eq_zero fun t member =>
    dropped t ((List.takeWhile_sublist p).mem member) (List.mem_takeWhile_imp member)
  have both := congrArg literals (List.takeWhile_append_dropWhile (p := p) (l := ts))
  rwa [literals_append, front, zero_add] at both

@[simp] theorem literals_skipTrivia (ts : List Token) : literals (skipTrivia ts) = literals ts :=
  literals_dropWhile fun _ _ => isCopiedLiteral_of_isTrivia

end Literals

/-- Only blanks and comments are skipped. -/
theorem exists_of_skipTrivia {rest : List Token} (starts : skipTrivia ts = t :: rest) :
    ∃ gap, ts = gap ++ t :: rest ∧ ∀ t ∈ gap, t.isTrivia = true := by
  refine ⟨ts.takeWhile isTrivia, ?_, fun t => List.mem_takeWhile_imp⟩
  rw [← starts]
  exact List.takeWhile_append_dropWhile.symm

/-! ## Splits -/

section Splits

variable {form : BracketForm} {s : Split}

theorem found_of_splitCloseAt (split : splitCloseAt form depth ts = some s) : s.found.isOp form.closer = true := by
  fun_induction splitCloseAt form depth ts generalizing s <;>
    simp_all only [Option.map_eq_some_iff, Option.some.injEq, reduceCtorEq]
  case case2 ih => obtain ⟨s, split, rfl⟩ := split; exact (ih split :)
  case case3 => subst split; assumption
  case case4 ih => obtain ⟨s, split, rfl⟩ := split; exact (ih split :)
  case case5 ih => obtain ⟨s, split, rfl⟩ := split; exact (ih split :)

theorem found_of_splitTopAt (split : splitTopAt p depth ts = some s) : p s.found = true := by
  fun_induction splitTopAt p depth ts generalizing s <;>
    simp_all only [Option.map_eq_some_iff, Option.some.injEq, reduceCtorEq]
  case case2 found => subst split; exact found.2
  case case3 ih => obtain ⟨s, split, rfl⟩ := split; exact (ih split :)
  case case5 ih => obtain ⟨s, split, rfl⟩ := split; exact (ih split :)
  case case6 ih => obtain ⟨s, split, rfl⟩ := split; exact (ih split :)

theorem eq_of_splitClose (split : splitClose form ts = some s) : ts = s.before ++ s.found :: s.after :=
  (toList_of_splitCloseAt split).symm

theorem eq_of_splitTop (split : splitTop p ts = some s) : ts = s.before ++ s.found :: s.after :=
  (toList_of_splitTopAt split).symm

theorem literals_of_splitClose (split : splitClose form ts = some s) :
    literals ts = literals s.before + literals s.after := by
  have other := isCopiedLiteral_of_isOp (found_of_splitCloseAt split)
  rw [eq_of_splitClose split, literals_append, literals_cons_of_other other]

theorem literals_of_splitTop (split : splitTop p ts = some s) (other : s.found.isCopiedLiteral = false) :
    literals ts = literals s.before + literals s.after := by
  rw [eq_of_splitTop split, literals_append, literals_cons_of_other other]

end Splits

end Sharp
