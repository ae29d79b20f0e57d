import Sharp.Lexeme.Basic

/-!
# String and character literals

A string or a character literal may lack its closing quote.  It then ends before the first thing
that cannot belong to it, and the quote is added to its text.
-/

namespace Sharp

/-- What ends a literal that lacks its closing quote, besides `;` and `,`. -/
def openLiteralEnds : List String :=
  ["+", "==", "!=", "<=", ">=", "=>", "\r", "\n"]

def startsWithLiteralEnd (cs : List Char) : Bool :=
  openLiteralEnds.any (startsWith cs)

/-! ## Strings -/

structure StringOpening where
  /-- The opening quote with the marks in front of it. -/
  mark : List Char
  /-- In a verbatim string a backslash is a character like any other, a quote is written twice, and
  line breaks are allowed. -/
  isVerbatim : Bool

def stringOpening? : List Char → Option (StringOpening × List Char)
  | '$' :: '@' :: '"' :: cs => some (⟨['$', '@', '"'], true⟩, cs)
  | '@' :: '$' :: '"' :: cs => some (⟨['@', '$', '"'], true⟩, cs)
  | '@' :: '"' :: cs => some (⟨['@', '"'], true⟩, cs)
  | '$' :: '"' :: cs => some (⟨['$', '"'], false⟩, cs)
  | '"' :: cs => some (⟨['"'], false⟩, cs)
  | _ => none

theorem stringOpening?_append {cs rest : List Char} {opening : StringOpening}
    (h : stringOpening? cs = some (opening, rest)) :
    opening.mark ≠ [] ∧ opening.mark ++ rest = cs := by
  fun_cases stringOpening? cs <;> simp_all [stringOpening?] <;> obtain ⟨rfl, rfl⟩ := h <;> simp

def splitClosedString : List Char → Option (List Char × List Char)
  | [] => none
  | '"' :: cs => some (['"'], cs)
  | '\\' :: c :: cs =>
    if isBreakChar c then none
    else (splitClosedString cs).map fun (body, rest) => ('\\' :: c :: body, rest)
  | c :: cs =>
    if c == '\\' || isBreakChar c then none
    else (splitClosedString cs).map fun (body, rest) => (c :: body, rest)

theorem splitClosedString_append {cs body rest : List Char}
    (h : splitClosedString cs = some (body, rest)) : body ++ rest = cs := by
  fun_induction splitClosedString cs generalizing body <;>
    simp_all only [Option.some.injEq, Prod.mk.injEq, Option.map_eq_some_iff, Prod.exists,
      reduceCtorEq]
  case case2 => obtain ⟨rfl, rfl⟩ := h; rfl
  case case4 ih => obtain ⟨_, _, h, rfl, rfl⟩ := h; simp [ih h]
  case case6 ih => obtain ⟨_, _, h, rfl, rfl⟩ := h; simp [ih h]

def splitClosedVerbatim : List Char → Option (List Char × List Char)
  | [] => none
  | '"' :: '"' :: cs => (splitClosedVerbatim cs).map fun (body, rest) => ('"' :: '"' :: body, rest)
  | '"' :: cs => some (['"'], cs)
  | c :: cs => (splitClosedVerbatim cs).map fun (body, rest) => (c :: body, rest)

theorem splitClosedVerbatim_append {cs body rest : List Char}
    (h : splitClosedVerbatim cs = some (body, rest)) : body ++ rest = cs := by
  fun_induction splitClosedVerbatim cs generalizing body <;>
    simp_all only [Option.some.injEq, Prod.mk.injEq, Option.map_eq_some_iff, Prod.exists,
      reduceCtorEq]
  case case2 ih => obtain ⟨_, _, h, rfl, rfl⟩ := h; simp [ih h]
  case case3 => obtain ⟨rfl, rfl⟩ := h; rfl
  case case4 ih => obtain ⟨_, _, h, rfl, rfl⟩ := h; simp [ih h]

/-- Is this where a string without closing quote ends?  It ends before `;` and `,`, before spaces
at the end of the text, and before spaces that an ending operator or a line break follows. -/
def endsOpenString : List Char → Bool
  | [] => true
  | c :: cs =>
    c == ';' || c == ',' ||
      (match (c :: cs).dropWhile (· == ' ') with
       | [] => true
       | after => startsWithLiteralEnd after)

/-- Splits a text where a string without closing quote ends.  Where there are escapes, a backslash
takes the next character with it. -/
def splitOpenString (escapes : Bool) : List Char → List Char × List Char
  | [] => ([], [])
  | c :: cs =>
    if escapes && c == '\\' then
      match cs with
      | [] => ([c], [])
      | d :: cs =>
        let (body, rest) := splitOpenString escapes cs
        (c :: d :: body, rest)
    else if endsOpenString (c :: cs) then ([], c :: cs)
    else
      let (body, rest) := splitOpenString escapes cs
      (c :: body, rest)

theorem splitOpenString_append (escapes : Bool) (cs : List Char) :
    (splitOpenString escapes cs).1 ++ (splitOpenString escapes cs).2 = cs := by
  fun_induction splitOpenString escapes cs <;> simp_all

/-- Reads a string literal.  Three or more quotes at its start belong to a raw string instead. -/
def scanString (cs : List Char) : Scan :=
  match stringOpening? cs with
  | none => .ok none
  | some (_, '"' :: '"' :: _) => .ok none
  | some (opening, body) =>
    match if opening.isVerbatim then splitClosedVerbatim body else splitClosedString body with
    | some (closed, rest) => found (opening.mark ++ closed) [] rest
    | none =>
      let (unclosed, rest) := splitOpenString (!opening.isVerbatim) body
      found (opening.mark ++ unclosed) ['"'] rest
where
  found (source added rest : List Char) : Scan :=
    .ok (some (⟨source, String.ofList (source ++ added), .stringLiteral,
      some (.literal .string)⟩, rest))

theorem scanString_splits (cs : List Char) : (scanString cs).Splits cs := by
  unfold scanString scanString.found
  split
  · exact Scan.splits_nothing _
  · exact Scan.splits_nothing _
  · next opening body _ h =>
    obtain ⟨nonempty, rfl⟩ := stringOpening?_append h
    split
    · next closed rest hc =>
      refine Scan.splits_found (by simp [nonempty]) ?_
      have : closed ++ rest = body := by
        split at hc
        · exact splitClosedVerbatim_append hc
        · exact splitClosedString_append hc
      simp [this]
    · refine Scan.splits_found (by simp [nonempty]) ?_
      simp [splitOpenString_append]

/-! ## Characters -/

/-- Is this where a character literal without closing quote ends? -/
def endsOpenChar (cs : List Char) : Bool :=
  match cs with
  | [] => true
  | c :: _ => c == ' ' || c == ',' || c == ';' || startsWithLiteralEnd cs

/-- Splits a text after the quote that closes a character literal, or where the literal ends
without one.  The flag tells whether it is closed. -/
def splitChar : List Char → Bool × List Char × List Char
  | [] => (false, [], [])
  | '\'' :: cs => (true, ['\''], cs)
  | '\\' :: c :: cs =>
    let (closed, body, rest) := splitChar cs
    (closed, '\\' :: c :: body, rest)
  | c :: cs =>
    if c != '\\' && endsOpenChar (c :: cs) then (false, [], c :: cs)
    else
      let (closed, body, rest) := splitChar cs
      (closed, c :: body, rest)

theorem splitChar_append (cs : List Char) : (splitChar cs).2.1 ++ (splitChar cs).2.2 = cs := by
  fun_induction splitChar cs <;> simp_all

/-- Reads a character literal.  A quote before a space, a line break or the end of the text starts
none; the character after the quote belongs to the literal whatever it is. -/
def scanChar : List Char → Scan
  | '\'' :: '\\' :: cs => found (splitChar ('\\' :: cs)) []
  | '\'' :: c :: cs =>
    if c == ' ' || isBreakChar c then .ok none else found (splitChar cs) [c]
  | _ => .ok none
where
  found (split : Bool × List Char × List Char) (first : List Char) : Scan :=
    let (closed, body, rest) := split
    let source := '\'' :: (first ++ body)
    .ok (some (⟨source, String.ofList (source ++ if closed then [] else ['\'']), .charLiteral,
      some (.literal .char)⟩, rest))

theorem scanChar_splits (cs : List Char) : (scanChar cs).Splits cs := by
  unfold scanChar scanChar.found
  split
  · exact Scan.splits_found (by simp) (by simp [splitChar_append])
  · next c cs _ =>
    by_cases h : (c == ' ' || isBreakChar c) = true
    · rw [if_pos h]
      exact Scan.splits_nothing _
    · rw [if_neg h]
      exact Scan.splits_found (by simp) (by simp [splitChar_append])
  · exact Scan.splits_nothing _

end Sharp
