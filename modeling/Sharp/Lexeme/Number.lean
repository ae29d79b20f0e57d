import Sharp.Lexeme.Basic

/-!
# Number literals

A number is a word that starts with a digit, possibly followed by a point and a second such word.
Either word can have a signed exponent: `1e-3`, `1.5E+8`.
-/

namespace Sharp

/-- Can a signed exponent follow `word`?  It ends in `e` or `E` after digits and underscores. -/
def endsInExponentMark (word : List Char) : Bool :=
  match word.reverse with
  | mark :: digits =>
    (mark == 'e' || mark == 'E') && !digits.isEmpty && digits.all (fun c => c.isDigit || c == '_')
  | [] => false

/-- Splits off a sign and the word after it, where that word starts with a digit. -/
def splitSigned : List Char → List Char × List Char
  | sign :: digit :: cs =>
    if (sign == '+' || sign == '-') && digit.isDigit then
      (sign :: (digit :: cs).takeWhile isWordChar, (digit :: cs).dropWhile isWordChar)
    else ([], sign :: digit :: cs)
  | cs => ([], cs)

theorem splitSigned_append (cs : List Char) : (splitSigned cs).1 ++ (splitSigned cs).2 = cs := by
  fun_cases splitSigned cs <;> simp_all

/-- Splits off a word and, where one can follow it, its signed exponent. -/
def splitNumeral (cs : List Char) : List Char × List Char :=
  let word := cs.takeWhile isWordChar
  let rest := cs.dropWhile isWordChar
  if endsInExponentMark word then
    (word ++ (splitSigned rest).1, (splitSigned rest).2)
  else (word, rest)

theorem splitNumeral_append (cs : List Char) : (splitNumeral cs).1 ++ (splitNumeral cs).2 = cs := by
  unfold splitNumeral
  dsimp only
  split
  · rw [List.append_assoc, splitSigned_append, List.takeWhile_append_dropWhile]
  · simp

def startsWithFraction : List Char → Bool
  | '.' :: digit :: _ => digit.isDigit
  | _ => false

/-- Reads a number.  A second fraction is a flaw at its point. -/
def scanNumber (cs : List Char) : Scan :=
  if (cs.head?.map Char.isDigit).getD false then
    let (whole, rest) := splitNumeral cs
    if startsWithFraction rest then
      let (fraction, rest) := splitNumeral rest.tail
      if startsWithFraction rest then
        .error ⟨.unexpectedDecimalPoint, ⟨byteLength (whole ++ '.' :: fraction), 1⟩⟩
      else found (whole ++ '.' :: fraction) rest
    else found whole rest
  else .ok none
where
  found (source rest : List Char) : Scan :=
    .ok (some (.verbatim source .numberLiteral (some (.literal .number)), rest))

theorem splitNumeral_ne_nil {digit : Char} {cs : List Char} (h : digit.isDigit = true) :
    (splitNumeral (digit :: cs)).1 ≠ [] := by
  have word : isWordChar digit = true := by simp [isWordChar, Char.isAlphanum, h]
  unfold splitNumeral
  dsimp only
  split <;> simp [word]

theorem scanNumber_splits (cs : List Char) : (scanNumber cs).Splits cs := by
  unfold scanNumber scanNumber.found
  match cs with
  | [] => exact Scan.splits_nothing _
  | digit :: cs =>
    simp only [List.head?_cons, Option.map_some, Option.getD_some]
    by_cases h : digit.isDigit = true
    case neg => simpa [h] using Scan.splits_nothing _
    have nonempty := @splitNumeral_ne_nil digit cs h
    have whole := splitNumeral_append (digit :: cs)
    rw [if_pos h]
    by_cases hf : startsWithFraction (splitNumeral (digit :: cs)).2 = true
    case neg =>
      rw [if_neg hf]
      exact Scan.splits_found nonempty whole
    rw [if_pos hf]
    obtain ⟨rest, hrest⟩ : ∃ rest, (splitNumeral (digit :: cs)).2 = '.' :: rest := by
      revert hf
      fun_cases startsWithFraction (splitNumeral (digit :: cs)).2 <;> simp_all
    have fraction := splitNumeral_append (splitNumeral (digit :: cs)).2.tail
    split
    · exact Scan.splits_error _ _
    · refine Scan.splits_found (by simp [Lexeme.verbatim]) ?_
      rw [hrest] at fraction whole ⊢
      simp only [Lexeme.verbatim, List.append_assoc, List.cons_append, fraction]
      simpa using whole

end Sharp
