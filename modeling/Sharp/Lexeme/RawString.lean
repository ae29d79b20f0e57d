import Sharp.Lexeme.Basic

/-!
# Raw string literals

A raw string stands between two runs of three or more quotes, or between back-quotes.  A
back-quoted one is written with quotes instead, as many as its content demands.
-/

namespace Sharp

def backquote : Char :=
  Char.ofNat 96

def quoteRun (cs : List Char) : Nat :=
  (cs.takeWhile (· == '"')).length

def longestQuoteRun : List Char → Nat
  | [] => 0
  | c :: cs => max (quoteRun (c :: cs)) (longestQuoteRun cs)

/-- Splits off the marks that can stand in front of a raw string: `@` and then any number of `$`, or
any number of `$` and then possibly `@`. -/
def splitRawMarks (cs : List Char) : List Char × List Char :=
  match cs with
  | '@' :: cs => ('@' :: cs.takeWhile (· == '$'), cs.dropWhile (· == '$'))
  | cs =>
    match cs.dropWhile (· == '$') with
    | '@' :: rest => (cs.takeWhile (· == '$') ++ ['@'], rest)
    | rest => (cs.takeWhile (· == '$'), rest)

theorem splitRawMarks_append (cs : List Char) :
    (splitRawMarks cs).1 ++ (splitRawMarks cs).2 = cs := by
  unfold splitRawMarks
  split
  · simp
  · next cs _ =>
    split
    · next h => rw [List.append_assoc, List.singleton_append, ← h, List.takeWhile_append_dropWhile]
    · simp

/-- Splits a text after the next back-quote that no backslash precedes; `before` is the character
in front of the text.  The back-quote itself is dropped. -/
def splitBackquoted (before : Char) : List Char → Option (List Char × List Char)
  | [] => none
  | c :: cs =>
    if c == backquote && before != '\\' then some ([], cs)
    else (splitBackquoted c cs).map fun (body, rest) => (c :: body, rest)

theorem splitBackquoted_append {before : Char} {cs body rest : List Char}
    (h : splitBackquoted before cs = some (body, rest)) : body ++ backquote :: rest = cs := by
  fun_induction splitBackquoted before cs generalizing body <;>
    simp_all only [Option.some.injEq, Prod.mk.injEq, Option.map_eq_some_iff, Prod.exists,
      reduceCtorEq, Bool.and_eq_true, beq_iff_eq]
  case case2 => simp_all
  case case3 ih => obtain ⟨_, _, h, rfl, rfl⟩ := h; simp [ih h]

/-- Drops the backslash in front of every back-quote. -/
def unescapeBackquotes : List Char → List Char
  | [] => []
  | [c] => [c]
  | c :: d :: cs =>
    if c == '\\' && d == backquote then d :: unescapeBackquotes cs
    else c :: unescapeBackquotes (d :: cs)

/-- Splits a text after the first run of at least `count` quotes, so that the last `count` of the
run close the string. -/
def splitQuotedBody (count : Nat) : List Char → Option (List Char × List Char)
  | [] => none
  | c :: cs =>
    if quoteRun (c :: cs) = count then some ((c :: cs).take count, (c :: cs).drop count)
    else (splitQuotedBody count cs).map fun (body, rest) => (c :: body, rest)

theorem splitQuotedBody_append {count : Nat} {cs body rest : List Char}
    (h : splitQuotedBody count cs = some (body, rest)) : body ++ rest = cs := by
  fun_induction splitQuotedBody count cs generalizing body <;>
    simp_all only [Option.some.injEq, Prod.mk.injEq, Option.map_eq_some_iff, Prod.exists,
      reduceCtorEq]
  case case2 => obtain ⟨rfl, rfl⟩ := h; simp
  case case3 ih => obtain ⟨_, _, h, rfl, rfl⟩ := h; simp [ih h]

def scanRawString (cs : List Char) : Scan :=
  let (marks, body) := splitRawMarks cs
  match body with
  | [] => .ok none
  | c :: rest =>
    if c == backquote then
      match splitBackquoted c rest with
      | none => .ok none
      | some (inside, rest) =>
        let content := unescapeBackquotes inside
        let quotes := List.replicate (max 3 (longestQuoteRun content + 1)) '"'
        .ok (some (⟨marks ++ backquote :: (inside ++ [backquote]),
          String.ofList (marks ++ quotes ++ content ++ quotes), .rawStringLiteral,
          some (.literal .rawString)⟩, rest))
    else
      let count := quoteRun body
      if count < 3 then .ok none
      else
        match splitQuotedBody count (body.drop count) with
        | none => .error ⟨.unterminatedRawString, ⟨0, byteLength cs⟩⟩
        | some (inside, rest) =>
          .ok (some (.verbatim (marks ++ body.take count ++ inside) .rawStringLiteral
            (some (.literal .rawString)), rest))

theorem scanRawString_splits (cs : List Char) : (scanRawString cs).Splits cs := by
  unfold scanRawString
  have marks := splitRawMarks_append cs
  dsimp only
  split
  · exact Scan.splits_nothing _
  · next c rest hbody =>
    rw [hbody] at marks
    by_cases hc : (c == backquote) = true
    · rw [if_pos hc]
      split
      · exact Scan.splits_nothing _
      · next inside rest hs =>
        refine Scan.splits_found (by simp) ?_
        have := splitBackquoted_append hs
        simp only [beq_iff_eq] at hc
        simp_all
    · rw [if_neg hc]
      split
      · exact Scan.splits_nothing _
      · next hcount =>
        split
        · exact Scan.splits_error _ _
        · next inside rest' hs =>
          have := splitQuotedBody_append hs
          refine Scan.splits_found ?_ ?_
          · rw [hbody] at hcount ⊢
            have : quoteRun (c :: rest) ≠ 0 := by omega
            simp [Lexeme.verbatim, this]
          · rw [hbody] at this ⊢
            simp only [Lexeme.verbatim, List.append_assoc, this, List.take_append_drop]
            exact marks

end Sharp
