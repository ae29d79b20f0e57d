import Sharp.Proofs.Embedding

/-!
# Strings and characters, read again

What is written for a string or a character literal ends in a quote.  If that quote is part of the source,
it closes the literal again.  If it was added, a backslash in front of it can keep it from doing so, and so
can a line break behind a backslash.

* `readsWhole_scanString_iff`, `readsWhole_scanChar_iff`: which literals are read again.
-/

namespace Sharp

variable {c : Char} {rest cs body text added more first inner : List Char} {lexeme again : Lexeme}

/-! ## Slices that are not closed -/

/-- Does the text end in a backslash that takes the next character with it? -/
def endsInEscape : List Char → Bool
  | [] => false
  | ['\\'] => true
  | '\\' :: _ :: cs => endsInEscape cs
  | _ :: cs => endsInEscape cs

/-- Does a backslash take a line break with it? -/
def hidesBreak : List Char → Bool
  | [] => false
  | '\\' :: c :: cs => isBreakChar c || hidesBreak cs
  | _ :: cs => hidesBreak cs

/-- Does the text after the opening keep a quote behind it from closing the string? -/
def StringOpening.escapesQuote (opening : StringOpening) (body : List Char) : Bool :=
  !opening.isVerbatim && (endsInEscape body || hidesBreak body)

/-- Do some characters between two runs of quotes leave the second one shorter than the first, or no
second one at all? -/
def crowdsQuotes (content : List Char) : Bool :=
  content.all (· == '"') || quoteRun content.reverse < quoteRun content

/-- Does what is written for the slice not end with the quotes that are added to it?  A quote after a
backslash does not close a literal, a line break behind a backslash ends the search for one, and the
quotes around a back-quoted string grow with the quotes in front of its content. -/
def isMisclosed (category : Category) (slice : List Char) : Bool :=
  match category with
  | .stringLiteral =>
    (stringOpening? slice).any fun (opening, body) => opening.escapesQuote body
  | .charLiteral => endsInEscape slice
  | .rawStringLiteral =>
    match (splitRawMarks slice).2 with
    | [] => false
    | c :: rest => c == backquote && crowdsQuotes (unescapeBackquotes rest.dropLast)
  | _ => false

theorem endsInEscape_cons (other : c ≠ '\\') (cs : List Char) :
    endsInEscape (c :: cs) = endsInEscape cs := by
  rw [endsInEscape]
  · rintro rfl -
    exact other rfl
  · rintro - - rfl -
    exact other rfl

theorem hidesBreak_cons (other : c ≠ '\\') (cs : List Char) : hidesBreak (c :: cs) = hidesBreak cs := by
  rw [hidesBreak]
  rintro - - rfl -
  exact other rfl

/-- A reader takes the whole text, and it is written as it stands. -/
def ReadsWhole (reader : List Char → Scan) (text : List Char) : Prop :=
  ∃ again, reader text = .ok (some (again, [])) ∧ again.text.toList = text

/-- A literal that is completed once more is not written as it stands. -/
theorem not_readsWhole_of_completed {reader : List Char → Scan} (quote : Char)
    (reread : reader text = .ok (some (again, rest)))
    (splits : (reader text).Splits text) (completed : again.text.toList = again.source ++ [quote]) :
    ¬ ReadsWhole reader text := by
  rintro ⟨again', whole, same⟩
  obtain ⟨-, covered⟩ := splits again' [] whole
  rw [reread] at whole
  cases whole
  rw [List.append_nil] at covered
  rw [completed, covered] at same
  simpa using congrArg List.length same

/-! ## Strings -/

theorem stringOpening?_mark {opening : StringOpening} (found : stringOpening? cs = some (opening, body))
    (more : List Char) :
    stringOpening? (opening.mark ++ more) = some (opening, more) := by
  fun_cases stringOpening? cs <;> simp_all [stringOpening?] <;> obtain ⟨rfl, rfl⟩ := found <;> rfl

theorem splitClosedString_cons (noQuote : c ≠ '"') (noEscape : c ≠ '\\')
    (noBreak : isBreakChar c = false) (cs : List Char) :
    splitClosedString (c :: cs) = (splitClosedString cs).map fun (body, rest) => (c :: body, rest) := by
  rw [splitClosedString]
  · simp [noEscape, noBreak]
  · exact noQuote
  · rintro - - rfl -
    exact noEscape rfl

/-- A closed string ends at its quote, whatever follows. -/
theorem splitClosedString_closed (closed : splitClosedString cs = some (body, rest)) (more : List Char) :
    splitClosedString (body ++ more) = some (body, more) := by
  fun_induction splitClosedString cs generalizing body with
  | case1 | case3 | case5 => cases closed
  | case2 cs =>
    cases closed
    rfl
  | case4 c cs other ih =>
    simp only [Option.map_eq_some_iff, Prod.mk.injEq, Prod.exists] at closed
    obtain ⟨body, rest', closed, rfl, rfl⟩ := closed
    simp [splitClosedString, other, ih closed]
  | case6 c cs noQuote noEscape other ih =>
    simp only [Option.map_eq_some_iff, Prod.mk.injEq, Prod.exists] at closed
    obtain ⟨body, rest', closed, rfl, rfl⟩ := closed
    simp_all [splitClosedString]

/-- A closed verbatim string ends at its quote, if no other one follows. -/
theorem splitClosedVerbatim_closed (closed : splitClosedVerbatim cs = some (body, rest)) :
    splitClosedVerbatim body = some (body, []) := by
  fun_induction splitClosedVerbatim cs generalizing body with
  | case1 => cases closed
  | case2 cs ih =>
    simp only [Option.map_eq_some_iff, Prod.mk.injEq, Prod.exists] at closed
    obtain ⟨body, rest', closed, rfl, rfl⟩ := closed
    simp [splitClosedVerbatim, ih closed]
  | case3 cs other =>
    cases closed
    rfl
  | case4 c cs noPair noQuote ih =>
    simp only [Option.map_eq_some_iff, Prod.mk.injEq, Prod.exists] at closed
    obtain ⟨body, rest', closed, rfl, rfl⟩ := closed
    simp_all [splitClosedVerbatim]

theorem isBreakChar_of_endsOpenString (goesOn : endsOpenString (c :: cs) = false) : isBreakChar c = false := by
  cases isBreak : isBreakChar c with
  | false => rfl
  | true =>
    simp only [isBreakChar, Bool.or_eq_true, beq_iff_eq] at isBreak
    rcases isBreak with rfl | rfl
    · cases goesOn
    · cases goesOn

/-- The quote that is added closes a string, unless there is a backslash in front of it or in front of
a line break. -/
theorem splitClosedString_completed (unclosed : splitClosedString cs = none) :
    splitClosedString ((splitOpenString true cs).1 ++ ['"']) =
      if endsInEscape (splitOpenString true cs).1 || hidesBreak (splitOpenString true cs).1 then none
      else some ((splitOpenString true cs).1 ++ ['"'], []) := by
  -- Up to where the open string ends, both readers take the same characters.
  fun_induction splitOpenString true cs with
  | case1 => rfl
  | case4 c cs escape ends => rfl
  | case2 c escape =>
    obtain rfl : c = '\\' := by simpa using escape
    rfl
  | case3 c escape d cs body rest split ih =>
    obtain rfl : c = '\\' := by simpa using escape
    rw [split] at ih
    rw [splitClosedString] at unclosed
    cases isBreak : isBreakChar d with
    | true =>
      -- The search for the quote that closes the string stops at the line break, an open string does not.
      simp [splitClosedString, hidesBreak, isBreak]
    | false =>
      simp only [isBreak, Bool.false_eq_true, if_false, Option.map_eq_none_iff] at unclosed
      simp only [List.cons_append, splitClosedString, isBreak, Bool.false_eq_true, if_false, ih unclosed,
        endsInEscape, hidesBreak, Bool.false_or]
      split <;> rfl
  | case5 c cs escape goesOn body rest split ih =>
    have noEscape : c ≠ '\\' := by simpa using escape
    have noBreak : isBreakChar c = false := isBreakChar_of_endsOpenString (by simpa using goesOn)
    have noQuote : c ≠ '"' := by
      rintro rfl
      cases unclosed
    rw [splitClosedString_cons noQuote noEscape noBreak, Option.map_eq_none_iff] at unclosed
    rw [split] at ih
    rw [List.cons_append, splitClosedString_cons noQuote noEscape noBreak, ih unclosed,
      endsInEscape_cons noEscape, hidesBreak_cons noEscape]
    split <;> rfl

theorem splitClosedVerbatim_cons (noQuote : c ≠ '"') (cs : List Char) :
    splitClosedVerbatim (c :: cs) = (splitClosedVerbatim cs).map fun (body, rest) => (c :: body, rest) := by
  rw [splitClosedVerbatim]
  · rintro - rfl -
    exact noQuote rfl
  · exact noQuote

/-- A quote alone does not belong to a verbatim string. -/
theorem exists_pair_of_splitClosedVerbatim (unclosed : splitClosedVerbatim ('"' :: cs) = none) :
    ∃ more, cs = '"' :: more ∧ splitClosedVerbatim more = none := by
  match cs with
  | [] => cases unclosed
  | c :: cs =>
    by_cases pair : c = '"'
    · subst pair
      rw [splitClosedVerbatim, Option.map_eq_none_iff] at unclosed
      exact ⟨cs, rfl, unclosed⟩
    · rw [splitClosedVerbatim] at unclosed
      · cases unclosed
      · rintro more same
        exact pair (List.cons.inj same).1

theorem splitOpenString_verbatim (c : Char) (cs : List Char) :
    splitOpenString false (c :: cs) =
      if endsOpenString (c :: cs) then ([], c :: cs)
      else (c :: (splitOpenString false cs).1, (splitOpenString false cs).2) := by
  rw [splitOpenString.eq_def]
  rfl

/-- The quote that is added always closes a verbatim string: the quotes in it come in pairs. -/
theorem splitClosedVerbatim_completed (unclosed : splitClosedVerbatim cs = none) :
    splitClosedVerbatim ((splitOpenString false cs).1 ++ ['"']) =
      some ((splitOpenString false cs).1 ++ ['"'], []) := by
  -- The quotes of a pair are taken together, so the induction is on the length.
  induction length : cs.length using Nat.strongRecOn generalizing cs with
  | ind n ih =>
    subst length
    match cs with
    | [] => rfl
    | c :: cs =>
      rw [splitOpenString_verbatim]
      split
      · rfl
      · by_cases quote : c = '"'
        · subst quote
          obtain ⟨more, rfl, unclosed'⟩ := exists_pair_of_splitClosedVerbatim unclosed
          have goesOn : ¬ endsOpenString ('"' :: more) = true := Bool.false_ne_true
          have closes := ih more.length (by simp only [List.length_cons]; omega) unclosed' rfl
          simp only [splitOpenString_verbatim, if_neg goesOn, List.cons_append, splitClosedVerbatim,
            closes, Option.map_some]
        · rw [splitClosedVerbatim_cons quote, Option.map_eq_none_iff] at unclosed
          have closes := ih cs.length (by simp) unclosed rfl
          simp only [List.cons_append, splitClosedVerbatim_cons quote, closes, Option.map_some]

/-- A string that is closed holds no open escape. -/
theorem endsInEscape_of_splitClosedString (closed : splitClosedString cs = some (body, rest)) :
    endsInEscape body = false ∧ hidesBreak body = false := by
  fun_induction splitClosedString cs generalizing body with
  | case1 | case3 | case5 => cases closed
  | case2 cs =>
    cases closed
    exact ⟨rfl, rfl⟩
  | case4 c cs other ih =>
    simp only [Option.map_eq_some_iff, Prod.mk.injEq, Prod.exists] at closed
    obtain ⟨body, rest', closed, rfl, rfl⟩ := closed
    simpa [endsInEscape, hidesBreak, other] using ih closed
  | case6 c cs noQuote noEscape other ih =>
    simp only [Option.map_eq_some_iff, Prod.mk.injEq, Prod.exists] at closed
    obtain ⟨body, rest', closed, rfl, rfl⟩ := closed
    have plain : c ≠ '\\' := by
      rintro rfl
      exact other rfl
    rw [endsInEscape_cons plain, hidesBreak_cons plain]
    exact ih closed

namespace StringOpening

variable (opening : StringOpening) {closed : List Char}

def closing? (body : List Char) : Option (List Char × List Char) :=
  if opening.isVerbatim then splitClosedVerbatim body else splitClosedString body

def stop (body : List Char) : List Char × List Char := splitOpenString (!opening.isVerbatim) body

theorem closing?_append (closes : opening.closing? body = some (closed, rest)) : closed ++ rest = body := by
  unfold closing? at closes
  split at closes
  · exact splitClosedVerbatim_append closes
  · exact splitClosedString_append closes

theorem closing?_closed (closes : opening.closing? body = some (closed, rest)) :
    opening.closing? closed = some (closed, []) ∧ opening.escapesQuote closed = false := by
  unfold closing? escapesQuote at *
  split at closes
  · next verbatim => exact ⟨by simp [verbatim, splitClosedVerbatim_closed closes], by simp [verbatim]⟩
  · next verbatim =>
    have again := splitClosedString_closed closes []
    rw [List.append_nil] at again
    exact ⟨by simp [verbatim, again], by simp [endsInEscape_of_splitClosedString closes]⟩

theorem closing?_completed (unclosed : opening.closing? body = none) :
    opening.closing? ((opening.stop body).1 ++ ['"']) =
      if opening.escapesQuote (opening.stop body).1 then none
      else some ((opening.stop body).1 ++ ['"'], []) := by
  unfold closing? stop escapesQuote at *
  cases verbatim : opening.isVerbatim with
  | true =>
    rw [verbatim] at unclosed
    exact splitClosedVerbatim_completed unclosed
  | false =>
    rw [verbatim] at unclosed
    exact splitClosedString_completed unclosed

/-- Where a quote is added to a string, it does not start with one. -/
theorem ne_quote_of_closing? (unclosed : opening.closing? body = none)
    (cooked : ∀ more, body ≠ '"' :: '"' :: more) (more : List Char) : body ≠ '"' :: more := by
  rintro rfl
  unfold closing? at unclosed
  split at unclosed
  · obtain ⟨more', rfl, -⟩ := exists_pair_of_splitClosedVerbatim unclosed
    exact cooked more' rfl
  · cases unclosed

end StringOpening

theorem scanString_eq {opening : StringOpening} (opens : stringOpening? cs = some (opening, body))
    (cooked : ∀ more, body ≠ '"' :: '"' :: more) :
    scanString cs = match opening.closing? body with
      | some (closed, rest) => scanString.found (opening.mark ++ closed) [] rest
      | none => scanString.found (opening.mark ++ (opening.stop body).1) ['"'] (opening.stop body).2 := by
  rw [scanString, opens]
  split
  · next same => cases same
  · next same =>
    cases same
    exact absurd rfl (cooked _)
  · next same =>
    cases same
    rfl

theorem exists_opening_of_scanString {found : Lexeme × List Char} (read : scanString cs = .ok (some found)) :
    ∃ opening body, stringOpening? cs = some (opening, body) ∧ ∀ more, body ≠ '"' :: '"' :: more := by
  unfold scanString at read
  split at read
  · cases read
  · cases read
  · next opening body cooked opens => exact ⟨opening, body, opens, fun more same => cooked more same⟩

/-- A string that is read is read again as it is written, unless it is misclosed. -/
theorem readsWhole_scanString_iff (read : scanString cs = .ok (some (lexeme, rest))) :
    ReadsWhole scanString lexeme.text.toList ↔ isMisclosed .stringLiteral lexeme.source = false := by
  obtain ⟨opening, body, opens, cooked⟩ := exists_opening_of_scanString read
  rw [scanString_eq opens cooked] at read
  cases closes : opening.closing? body with
  | some parts =>
    obtain ⟨closed, rest⟩ := parts
    rw [closes] at read
    cases read
    obtain ⟨again, escapes⟩ := opening.closing?_closed closes
    have misclosed : isMisclosed .stringLiteral (opening.mark ++ closed) = false := by
      simpa [isMisclosed, stringOpening?_mark opens] using escapes
    have cooked' : ∀ more, closed ≠ '"' :: '"' :: more := by
      rintro more rfl
      exact cooked _ (opening.closing?_append closes).symm
    have reread := scanString_eq (stringOpening?_mark opens closed) cooked'
    rw [again] at reread
    simp only [List.append_nil, String.toList_ofList, misclosed, iff_true]
    exact ⟨_, reread, by simp⟩
  | none =>
    rw [closes] at read
    cases read
    have misclosed : isMisclosed .stringLiteral (opening.mark ++ (opening.stop body).1) =
        opening.escapesQuote (opening.stop body).1 := by
      simp [isMisclosed, stringOpening?_mark opens]
    -- The added quote must not make the text one that starts a raw string.
    have cooked' : ∀ more, (opening.stop body).1 ++ ['"'] ≠ '"' :: '"' :: more := by
      intro more same
      have stopped : (opening.stop body).1 ++ (opening.stop body).2 = body :=
        splitOpenString_append ..
      cases unclosed : (opening.stop body).1 with
      | nil => simp [unclosed] at same
      | cons c cs =>
        rw [unclosed] at same stopped
        obtain rfl : c = '"' := (List.cons.inj same).1
        exact opening.ne_quote_of_closing? closes cooked _ stopped.symm
    have reread := scanString_eq (stringOpening?_mark opens ((opening.stop body).1 ++ ['"'])) cooked'
    rw [opening.closing?_completed closes] at reread
    simp only [String.toList_ofList, misclosed, List.append_assoc]
    cases escapes : opening.escapesQuote (opening.stop body).1 with
    | false =>
      rw [escapes] at reread
      simp only [iff_true]
      exact ⟨_, reread, by simp⟩
    | true =>
      -- The quote that was added is taken for a part of the string, and gets another one after it.
      rw [escapes] at reread
      simp only [Bool.true_eq_false, iff_false]
      exact not_readsWhole_of_completed '"' reread (scanString_splits _) (by simp)

/-! ## Characters -/

/-- What ends an open literal has no quote in it, so that an added quote ends none. -/
theorem startsWithLiteralEnd_of_append (ends : startsWithLiteralEnd (cs ++ added) = true)
    (quotes : ∀ c ∈ added, c = '\'') :
    startsWithLiteralEnd (cs ++ more) = true := by
  simp only [startsWithLiteralEnd, List.any_eq_true, startsWith, List.isPrefixOf_iff_prefix] at ends ⊢
  obtain ⟨word, known, beyond, covered⟩ := ends
  refine ⟨word, known, ?_⟩
  rcases List.append_eq_append_iff.1 covered with ⟨after, rfl, -⟩ | ⟨crossing, split, rfl⟩
  · simp
  · have unquoted : ∀ word ∈ openLiteralEnds, '\'' ∉ word.toList := by decide
    cases crossing with
    | nil => simp [split]
    | cons c crossing =>
      obtain rfl : c = '\'' := quotes c (by simp)
      exact absurd (by simp [split]) (unquoted word known)

theorem endsOpenChar_append (goesOn : endsOpenChar (c :: (cs ++ more)) = false) (quotes : ∀ c ∈ added, c = '\'') :
    endsOpenChar (c :: (cs ++ added)) = false := by
  rw [← Bool.not_eq_true] at goesOn ⊢
  refine mt (fun ends => ?_) goesOn
  simp only [endsOpenChar, Bool.or_eq_true] at ends ⊢
  refine ends.imp_right fun ends => ?_
  rw [← List.cons_append] at ends ⊢
  exact startsWithLiteralEnd_of_append ends quotes

/-- The quote that closes a character literal, if it has to be added. -/
def charClosing (closed : Bool) : List Char :=
  if closed then [] else ['\'']

theorem eq_of_mem_charClosing {closed : Bool} (member : c ∈ charClosing closed) : c = '\'' := by
  cases closed with
  | true => cases member
  | false => simpa [charClosing] using member

/-- The quote that is added closes a character literal, unless there is a backslash in front of it. -/
theorem splitChar_completed {closed : Bool} (split : splitChar cs = (closed, body, rest)) :
    splitChar (body ++ charClosing closed) = (!endsInEscape body, body ++ charClosing closed, []) := by
  fun_induction splitChar cs generalizing body with
  | case1 | case2 cs | case4 c cs noQuote noEscape ends =>
    cases split
    rfl
  | case3 c cs closed' body' rest' inner ih =>
    cases split
    simp [splitChar, ih inner, endsInEscape]
  | case5 c cs noQuote noEscape goesOn closed' body' rest' inner ih =>
    cases split
    by_cases escape : c = '\\'
    · -- A backslash at the end of the text, which takes the added quote with it.
      subst escape
      match cs with
      | [] =>
        cases inner
        rfl
      | d :: cs => exact absurd rfl (noEscape d cs rfl)
    · have covered : body' ++ rest = cs := by simpa [inner] using splitChar_append cs
      have goesOn' : endsOpenChar (c :: (body' ++ charClosing closed)) = false := by
        have goesOn : endsOpenChar (c :: (body' ++ rest)) = false := by
          simpa [escape, covered] using goesOn
        exact endsOpenChar_append goesOn fun _ => eq_of_mem_charClosing
      rw [List.cons_append, splitChar]
      · simp [goesOn', ih inner, endsInEscape_cons escape]
      · exact noQuote
      · rintro d cs rfl
        exact absurd rfl escape

theorem exists_of_splitChar_escape (cs : List Char) : ∃ body, (splitChar ('\\' :: cs)).2.1 = '\\' :: body := by
  match cs with
  | [] => exact ⟨[], rfl⟩
  | c :: cs => exact ⟨c :: (splitChar cs).2.1, rfl⟩

/-- A character literal is read again after its first character, which is looked at only once. -/
theorem readsWhole_scanChar_of_found (found : scanChar.found (splitChar inner) first = .ok (some (lexeme, rest)))
    (next : ∀ added, scanChar ('\'' :: (first ++ ((splitChar inner).2.1 ++ added))) =
      scanChar.found (splitChar ((splitChar inner).2.1 ++ added)) first)
    (plain : endsInEscape (first ++ (splitChar inner).2.1) = endsInEscape (splitChar inner).2.1) :
    ReadsWhole scanChar lexeme.text.toList ↔ isMisclosed .charLiteral lexeme.source = false := by
  obtain ⟨closed, body, rest', split⟩ : ∃ closed body rest', splitChar inner = (closed, body, rest') :=
    ⟨_, _, _, rfl⟩
  rw [split] at found next plain
  cases found
  have reread := next (charClosing closed)
  rw [splitChar_completed split] at reread
  have text : '\'' :: (first ++ body) ++ charClosing closed =
      '\'' :: (first ++ (body ++ charClosing closed)) := by simp
  simp only [String.toList_ofList, isMisclosed, endsInEscape_cons (by decide : '\'' ≠ '\\'), plain]
  rw [← charClosing, text]
  cases escapes : endsInEscape body with
  | false =>
    rw [escapes] at reread
    simp only [iff_true]
    exact ⟨_, reread, by simp⟩
  | true =>
    rw [escapes] at reread
    simp only [Bool.true_eq_false, iff_false]
    exact not_readsWhole_of_completed '\'' reread (scanChar_splits _) (by simp)

/-- A character literal that is read is read again as it is written, unless it is misclosed. -/
theorem readsWhole_scanChar_iff (read : scanChar cs = .ok (some (lexeme, rest))) :
    ReadsWhole scanChar lexeme.text.toList ↔ isMisclosed .charLiteral lexeme.source = false := by
  unfold scanChar at read
  split at read
  · next cs =>
    refine readsWhole_scanChar_of_found read (fun added => ?_) rfl
    obtain ⟨body, escaped⟩ := exists_of_splitChar_escape cs
    rw [escaped]
    rfl
  · next c cs plain =>
    split at read
    · cases read
    · next visible =>
      refine readsWhole_scanChar_of_found read (fun added => ?_) (endsInEscape_cons plain _)
      rw [List.singleton_append, scanChar, if_neg visible]
      exact plain
  · cases read

end Sharp
