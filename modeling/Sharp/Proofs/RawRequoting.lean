import Mathlib.Data.List.DropRight
import Sharp.Proofs.Requoting

/-!
# Raw strings, read again

A raw string between quotes is read again as it stands.  The content of a back-quoted one comes to stand
between quotes: those at its front join the opening ones, so that at least as many are needed at its end.

* `readsWhole_scanRawString_iff`: which raw strings are read again.
-/

namespace Sharp

variable {c : Char} {cs rest body dollars more content : List Char} {count : Nat} {p : Char → Bool}

/-! ## Marks -/

/-- How the marks of a raw string are split off that do not start with `@`. -/
theorem splitRawMarks_dollars (all : ∀ c ∈ dollars, (c == '$') = true) (other : c ≠ '$')
    (front : dollars ≠ [] ∨ c ≠ '@') (more : List Char) :
    splitRawMarks (dollars ++ c :: more) =
      if c = '@' then (dollars ++ ['@'], more) else (dollars, c :: more) := by
  have ends : EndsBefore (· == '$') (c :: more) := by simpa using other
  obtain ⟨taken, dropped⟩ := takeWhile_append_endsBefore all ends
  have unmarked (rest : List Char) : dollars ++ c :: more ≠ '@' :: rest := by
    intro same
    cases dollars with
    | nil => exact front.elim (absurd rfl) fun mark => mark (List.cons.inj same).1
    | cons d dollars =>
      obtain rfl : d = '@' := (List.cons.inj same).1
      exact absurd (all '@' (by simp)) (by decide)
  unfold splitRawMarks
  split
  · next same => exact absurd same (unmarked _)
  · rw [taken, dropped]
    by_cases mark : c = '@'
    · subst mark
      rfl
    · rw [if_neg mark]
      split
      · next same => exact absurd (List.cons.inj same).1 mark
      · rfl

/-- The marks in front of a raw string are split off again. -/
theorem splitRawMarks_marks (cs : List Char) (dollar : c ≠ '$') (mark : c ≠ '@') (more : List Char) :
    splitRawMarks ((splitRawMarks cs).1 ++ c :: more) = ((splitRawMarks cs).1, c :: more) := by
  have all (cs : List Char) : ∀ c ∈ cs.takeWhile (· == '$'), (c == '$') = true :=
    fun _ => List.mem_takeWhile_imp
  rw [splitRawMarks.eq_def cs]
  split
  · next cs =>
    have ends : EndsBefore (· == '$') (c :: more) := by simpa using dollar
    obtain ⟨taken, dropped⟩ := takeWhile_append_endsBefore (all cs) ends
    rw [List.cons_append, splitRawMarks, taken, dropped]
  · next unmarked =>
    split
    · next rest dropped =>
      have some_dollar : cs.takeWhile (· == '$') ≠ [] := by
        intro none
        have covered := List.takeWhile_append_dropWhile (p := (· == '$')) (l := cs)
        rw [none, dropped] at covered
        exact unmarked rest covered.symm
      simpa using splitRawMarks_dollars (all cs) (by decide : '@' ≠ '$') (.inl some_dollar) (c :: more)
    · simpa [mark] using splitRawMarks_dollars (all cs) dollar (.inr mark) more

/-! ## Runs of quotes -/

theorem EndsBefore.of_append (ends : EndsBefore p (cs ++ more)) : EndsBefore p cs := by
  cases cs with
  | nil => exact endsBefore_nil p
  | cons c cs => simpa using ends

theorem EndsBefore.append_right (ends : EndsBefore p cs) (nonempty : cs ≠ []) (more : List Char) :
    EndsBefore p (cs ++ more) := by
  obtain ⟨c, cs, rfl⟩ := List.exists_cons_of_ne_nil nonempty
  simpa using ends

theorem quoteRun_append (ends : EndsBefore (· == '"') rest) : quoteRun (cs ++ rest) = quoteRun cs := by
  induction cs with
  | nil =>
    match rest with
    | [] => rfl
    | c :: rest =>
      have other : (c == '"') = false := by simpa using ends
      simp [quoteRun, other]
  | cons c cs ih =>
    cases quote : c == '"' with
    | true => simpa [quoteRun, quote] using ih
    | false => simp [quoteRun, quote]

theorem quoteRun_append_of_mem (member : c ∈ cs) (other : c ≠ '"') (rest : List Char) :
    quoteRun (cs ++ rest) = quoteRun cs := by
  induction cs with
  | nil => cases member
  | cons d cs ih =>
    by_cases quote : d = '"'
    · subst quote
      have member : c ∈ cs := (List.mem_cons.1 member).resolve_left other
      simpa [quoteRun] using ih member
    · simp [quoteRun, quote]

theorem drop_quoteRun (cs : List Char) : cs.drop (quoteRun cs) = cs.dropWhile (· == '"') := by
  induction cs with
  | nil => rfl
  | cons c cs ih =>
    cases quote : c == '"' with
    | true => simpa [quoteRun, quote] using ih
    | false => simp [quoteRun, quote]

theorem endsBefore_drop_quoteRun (cs : List Char) : EndsBefore (· == '"') (cs.drop (quoteRun cs)) := by
  rw [drop_quoteRun]
  intro c member
  have stopped := List.head?_dropWhile_not (· == '"') cs
  rw [Option.mem_def.1 member] at stopped
  exact stopped

theorem endsBefore_of_splitQuotedBody (split : splitQuotedBody count cs = some (body, rest)) :
    EndsBefore (· == '"') rest := by
  fun_induction splitQuotedBody count cs generalizing body with
  | case1 => cases split
  | case2 c cs run =>
    cases split
    rw [← run]
    exact endsBefore_drop_quoteRun (c :: cs)
  | case3 c cs run ih =>
    simp only [Option.map_eq_some_iff, Prod.mk.injEq, Prod.exists] at split
    obtain ⟨body, rest', split, rfl, rfl⟩ := split
    exact ih split

theorem quoteRun_replicate (n : Nat) : quoteRun (List.replicate n '"') = n := by
  simp [quoteRun]

/-- A raw string between quotes ends where it ended before. -/
theorem splitQuotedBody_closed (positive : 0 < count) (split : splitQuotedBody count cs = some (body, rest)) :
    splitQuotedBody count body = some (body, []) := by
  fun_induction splitQuotedBody count cs generalizing body with
  | case1 => cases split
  | case2 c cs run =>
    cases split
    rw [← run, take_quoteRun, run]
    obtain ⟨n, rfl⟩ := Nat.exists_eq_succ_of_ne_zero (Nat.ne_of_gt positive)
    rw [List.replicate_succ, splitQuotedBody, ← List.replicate_succ, quoteRun_replicate, if_pos rfl]
    simp
  | case3 c cs run ih =>
    simp only [Option.map_eq_some_iff, Prod.mk.injEq, Prod.exists] at split
    obtain ⟨body, rest', split, rfl, rfl⟩ := split
    have covered := splitQuotedBody_append split
    rw [← covered, ← List.cons_append, quoteRun_append (endsBefore_of_splitQuotedBody split)] at run
    rw [splitQuotedBody, if_neg run, ih split]
    rfl

/-- A text with shorter runs of quotes only is closed by the quotes after it, if they are enough. -/
theorem splitQuotedBody_append_quotes (positive : 0 < count)
    (shorter : ∀ n, List.replicate n '"' <:+: cs → n < count) (ends : cs.getLast? ≠ some '"')
    (m : Nat) :
    splitQuotedBody count (cs ++ List.replicate m '"') =
      if count ≤ m then some (cs ++ List.replicate m '"', []) else none := by
  induction cs with
  | nil =>
    -- Only the quotes are left, and the last `count` of them close the string.
    induction m with
    | zero => simp [splitQuotedBody, Nat.ne_of_gt positive]
    | succ m ih =>
      simp only [List.nil_append] at ih ⊢
      rw [List.replicate_succ, splitQuotedBody, ← List.replicate_succ, quoteRun_replicate, ih]
      by_cases all : m + 1 = count
      · subst all
        simp
      · rw [if_neg all]
        by_cases enough : count ≤ m
        · simp [enough, Nat.le_succ_of_le enough, List.replicate_succ]
        · rw [if_neg enough, if_neg (by omega)]
          rfl
  | cons c cs ih =>
    -- A run in the text is too short to close the string, and none of them reaches the quotes after it.
    have run : quoteRun (c :: cs) < count := by
      refine shorter _ (List.IsPrefix.isInfix ?_)
      rw [← take_quoteRun]
      exact List.take_prefix ..
    have same : quoteRun (c :: cs ++ List.replicate m '"') = quoteRun (c :: cs) := by
      have last := List.getLast?_eq_some_getLast (List.cons_ne_nil c cs)
      refine quoteRun_append_of_mem (List.getLast_mem (List.cons_ne_nil c cs)) ?_ _
      intro quote
      rw [quote] at last
      exact ends last
    have closes := ih (fun n occurs => shorter n (occurs.trans (List.suffix_cons c cs).isInfix)) (by
      cases cs with
      | nil => simp
      | cons d cs => simpa using ends)
    rw [List.cons_append, splitQuotedBody, ← List.cons_append, same, if_neg (Nat.ne_of_lt run), closes]
    split <;> rfl

theorem rtakeWhile_quotes (cs : List Char) :
    cs.rtakeWhile (· == '"') = List.replicate (quoteRun cs.reverse) '"' := by
  refine List.eq_replicate_iff.2 ⟨by simp [List.rtakeWhile, quoteRun], fun c member => ?_⟩
  simpa using List.mem_rtakeWhile_imp member

/-- A text with other characters than quotes is some quotes, a part with another character at each end,
and some quotes. -/
theorem exists_middle (other : content.all (· == '"') = false) :
    ∃ middle, content = List.replicate (quoteRun content) '"' ++
        (middle ++ List.replicate (quoteRun content.reverse) '"') ∧
      middle ≠ [] ∧ EndsBefore (· == '"') middle ∧ middle.getLast? ≠ some '"' := by
  obtain ⟨after, split, ends⟩ : ∃ after, content = List.replicate (quoteRun content) '"' ++ after ∧
      EndsBefore (· == '"') after :=
    ⟨content.drop (quoteRun content), by rw [← take_quoteRun, List.take_append_drop],
      endsBefore_drop_quoteRun content⟩
  obtain ⟨c, member, visible⟩ : ∃ c ∈ after, c ≠ '"' := by
    rw [split] at other
    simpa using other
  have run : quoteRun content.reverse = quoteRun after.reverse := by
    rw [split, List.reverse_append]
    exact quoteRun_append_of_mem (List.mem_reverse.2 member) visible _
  have trimmed : after.rdropWhile (· == '"') ++ List.replicate (quoteRun content.reverse) '"' = after := by
    rw [run, ← rtakeWhile_quotes, List.rdropWhile_append_rtakeWhile]
  have nonempty : after.rdropWhile (· == '"') ≠ [] := by
    intro empty
    exact visible (by simpa using List.rdropWhile_eq_nil_iff.1 empty c member)
  refine ⟨after.rdropWhile (· == '"'), by rw [trimmed]; exact split, nonempty, ?_, ?_⟩
  · rw [← trimmed] at ends
    exact ends.of_append
  · rw [List.getLast?_eq_some_getLast nonempty]
    simpa using List.rdropWhile_last_not _ after nonempty

/-! ## Raw strings -/

theorem scanRawString_marks (cs : List Char) (three : 3 ≤ count) (ends : EndsBefore (· == '"') body) :
    scanRawString ((splitRawMarks cs).1 ++ (List.replicate count '"' ++ body)) =
      match splitQuotedBody count body with
      | none => .error ⟨.unterminatedRawString,
          ⟨0, byteLength ((splitRawMarks cs).1 ++ (List.replicate count '"' ++ body))⟩⟩
      | some (inside, rest) =>
        .ok (some (.verbatim ((splitRawMarks cs).1 ++ List.replicate count '"' ++ inside)
          .rawStringLiteral (some (.literal .rawString)), rest)) := by
  have front : List.replicate count '"' ++ body = '"' :: (List.replicate (count - 1) '"' ++ body) := by
    rw [← List.cons_append, ← List.replicate_succ, Nat.sub_add_cancel (by omega)]
  have run : quoteRun (List.replicate count '"' ++ body) = count := by
    rw [quoteRun_append ends, quoteRun_replicate]
  have marks := splitRawMarks_marks cs (by decide : '"' ≠ '$') (by decide) (List.replicate (count - 1) '"' ++ body)
  rw [← front] at marks
  have quoted : ('"' == backquote) = false := by decide
  rw [scanRawString, marks]
  simp only [front, quoted, Bool.false_eq_true, if_false]
  rewrite [← front, run, if_neg (by omega), List.drop_left' (by simp), List.take_left' (by simp)]
  rfl

/-- Whether a raw string between quotes is read again as it stands. -/
theorem readsWhole_scanRawString_marks (cs : List Char) (three : 3 ≤ count) (ends : EndsBefore (· == '"') body) :
    ReadsWhole scanRawString ((splitRawMarks cs).1 ++ (List.replicate count '"' ++ body)) ↔
      ∃ inside, splitQuotedBody count body = some (inside, []) := by
  rw [ReadsWhole, scanRawString_marks cs three ends]
  cases split : splitQuotedBody count body with
  | none => simp
  | some parts =>
    obtain ⟨inside, rest⟩ := parts
    have covered := splitQuotedBody_append split
    constructor
    · rintro ⟨again, whole, -⟩
      cases whole
      exact ⟨_, rfl⟩
    · rintro ⟨inside, same⟩
      cases same
      exact ⟨_, rfl, by simp [Lexeme.verbatim, ← covered]⟩

theorem isMisclosed_quotes (cs : List Char) (positive : 0 < count) (inside : List Char) :
    isMisclosed .rawStringLiteral ((splitRawMarks cs).1 ++ (List.replicate count '"' ++ inside)) = false := by
  obtain ⟨n, rfl⟩ := Nat.exists_eq_succ_of_ne_zero (Nat.ne_of_gt positive)
  have quoted : ('"' == backquote) = false := by decide
  simp [isMisclosed, List.replicate_succ, splitRawMarks_marks cs (by decide : '"' ≠ '$') (by decide), quoted]

theorem isMisclosed_backquotes (cs inside : List Char) :
    isMisclosed .rawStringLiteral ((splitRawMarks cs).1 ++ backquote :: (inside ++ [backquote])) =
      crowdsQuotes (unescapeBackquotes inside) := by
  simp [isMisclosed, splitRawMarks_marks cs (by decide : backquote ≠ '$') (by decide)]

/-- The quotes around a content are read again, unless they are crowded. -/
theorem readsWhole_scanRawString_around (cs content : List Char) (three : 3 ≤ count)
    (longer : longestQuoteRun content < count) :
    ReadsWhole scanRawString
        ((splitRawMarks cs).1 ++ List.replicate count '"' ++ content ++ List.replicate count '"') ↔
      crowdsQuotes content = false := by
  cases other : content.all (· == '"') with
  | true =>
    -- All quotes together open a string that nothing closes.
    obtain ⟨k, rfl⟩ : ∃ k, content = List.replicate k '"' :=
      ⟨content.length, List.eq_replicate_iff.2 ⟨rfl, by simpa using other⟩⟩
    have text : (splitRawMarks cs).1 ++ List.replicate count '"' ++ List.replicate k '"' ++
          List.replicate count '"' =
        (splitRawMarks cs).1 ++ (List.replicate (count + k + count) '"' ++ []) := by
      simp only [List.replicate_add, List.append_assoc, List.append_nil]
    rw [text, readsWhole_scanRawString_marks cs (by omega) (endsBefore_nil _)]
    simp [splitQuotedBody, crowdsQuotes]
  | false =>
    -- The quotes at the front of the content join the opening ones, those at its end the closing ones.
    obtain ⟨middle, split, nonempty, ends, last⟩ := exists_middle other
    have text : (splitRawMarks cs).1 ++ List.replicate count '"' ++ content ++ List.replicate count '"' =
        (splitRawMarks cs).1 ++ (List.replicate (count + quoteRun content) '"' ++
          (middle ++ List.replicate (quoteRun content.reverse + count) '"')) := by
      conv_lhs => rw [split]
      simp only [List.replicate_add, List.append_assoc]
    have shorter (n : Nat) (occurs : List.replicate n '"' <:+: middle) : n < count + quoteRun content := by
      have inside : middle <:+: content := by
        rw [split]
        exact ⟨_, _, List.append_assoc ..⟩
      have := le_longestQuoteRun_of_infix (occurs.trans inside)
      omega
    rw [text, readsWhole_scanRawString_marks cs (by omega) (ends.append_right nonempty _),
      splitQuotedBody_append_quotes (by omega) shorter last]
    by_cases enough : quoteRun content ≤ quoteRun content.reverse
    · simp [crowdsQuotes, other, enough, (by omega : count + quoteRun content ≤ quoteRun content.reverse + count)]
    · rw [if_neg (by omega)]
      simp [crowdsQuotes, other, Nat.lt_of_not_le enough]

/-- A raw string that is read is read again as it is written, unless it is misclosed. -/
theorem readsWhole_scanRawString_iff {lexeme : Lexeme} (read : scanRawString cs = .ok (some (lexeme, rest))) :
    ReadsWhole scanRawString lexeme.text.toList ↔ isMisclosed .rawStringLiteral lexeme.source = false := by
  unfold scanRawString at read
  dsimp only at read
  split at read
  · cases read
  · next c body opened =>
    split at read
    · split at read
      · cases read
      · next inside rest' closed =>
        cases read
        rw [String.toList_ofList, isMisclosed_backquotes]
        exact readsWhole_scanRawString_around cs _ (by omega) (by omega)
    · next unquoted =>
      split at read
      · cases read
      · next few =>
        split at read
        · cases read
        · next inside rest' closed =>
          cases read
          have three : 3 ≤ quoteRun (splitRawMarks cs).2 := by omega
          have ends := endsBefore_drop_quoteRun (splitRawMarks cs).2
          rw [← splitQuotedBody_append closed] at ends
          simp only [Lexeme.verbatim, String.toList_ofList, take_quoteRun, List.append_assoc]
          rw [isMisclosed_quotes cs (by omega), readsWhole_scanRawString_marks cs three ends.of_append]
          simp only [iff_true]
          exact ⟨inside, splitQuotedBody_closed (by omega) closed⟩

end Sharp
