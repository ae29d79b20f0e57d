import Sharp.Proofs.Brackets
import Sharp.Proofs.DeclaredTypes

/-!
# Types in parentheses

A type in parentheses is read as the type between them, but the names in front of that type are
lost: the names in front of the parentheses take their place, and there are none.

* `readWhole_parenthesized`: parentheses around a whole type.
-/

namespace Sharp

open Token TypeExpr

section Group

variable {before before' opening closing : Token} {ts : List Token} {type : TypeExpr} {notes : List Note}

/-- A parenthesis starts no dotted name. -/
theorem dottedName?_of_opening (opens : opening.isOp "(" = true) (ts : List Token) :
    dottedName? (opening :: ts) = none := by
  rw [isOp_iff] at opens
  have noName : opening.isTypeName = false := by
    simp [isTypeName, isNameLike, Token.keywordRole?, vocabularyRole?, opens.1]
  cases ts with
  | nil => rfl
  | cons t ts => simp [dottedName?, noName]

/-- What is read as a whole type leaves no tokens. -/
theorem read_of_readWhole (whole : readWhole before ts = .done type notes) :
    ∃ t more, ts = t :: more ∧ (TypeExpr.reader.readFrom .declaration t more).Gives ⟨type, []⟩ := by
  cases ts with
  | nil => cases whole
  | cons t more =>
    obtain ⟨⟨value, rest⟩, u, v, read, last, -⟩ := Logged.bind_eq_done.1 whole
    cases rest with
    | nil =>
      cases last
      exact ⟨t, more, rfl, u, read⟩
    | cons extra rest => cases last

/-- A group that holds one whole type is a term, and the names in front of the group are the names in
front of that type. -/
theorem readGroup_whole (whole : readWhole before ts = .done type notes)
    (closes : closing.isOp ")" = true) {state : TypeState} (starts : state.progress.canStart = true)
    {n : Nat} (shorter : ts.length ≤ n) (t : Token) :
    (readGroup (typeReader n) .declaration state t (ts ++ [closing])).Gives (.next (state.addTerm type) []) := by
  have types : TypeTokens 0 ts := typeTokens_of_gives ⟨notes, whole⟩
  have split : splitClose .parenthesis (ts ++ [closing]) = some ⟨ts, closing, []⟩ :=
    types.bracketed.splitClose_append closes []
  obtain ⟨first, more, rfl, read⟩ := read_of_readWhole whole
  have inside : ((typeReader n).read .declaration (.missing t .type) (first :: more)).Gives ⟨type, []⟩ := by
    rw [TypeReader.read, typeReader_readFrom (Nat.lt_of_succ_le shorter)]
    exact read
  rw [readGroup, split]
  simp only [starts, Bool.not_true, Bool.false_eq_true, if_false, List.isEmpty_cons]
  exact .bind inside (.pure _)

/-- A group that holds one whole type is read as this type without the names in front of it. -/
theorem readWhole_group (whole : readWhole before ts = .done type notes)
    (opens : opening.isOp "(" = true) (closes : closing.isOp ")" = true) (before' : Token) :
    (readWhole before' (opening :: (ts ++ [closing]))).Gives (type.withQualifiers []) := by
  have group := @readGroup_whole _ _ _ _ _ whole closes { first := opening } rfl
    (ts ++ [closing]).length (by simp) opening
  have read : (TypeExpr.reader.readFrom .declaration opening (ts ++ [closing])).Gives
      ⟨type.withQualifiers [], []⟩ := by
    show (readTypeWith (typeReader (ts ++ [closing]).length) .declaration opening (ts ++ [closing])).Gives _
    rw [readTypeWith, dottedName?_of_opening opens]
    show Reading.Gives (walk _ _ _ _) _
    rw [walk_cons, readTerm, if_pos opens]
    refine .bind group ?_
    simp only [List.length_nil, List.length_cons, Nat.zero_lt_succ, if_true, walk_nil]
    exact .bind (.pure _) (.pure _)
  exact .bind read (.pure _)

theorem TypeExpr.withQualifiers_eq_self_iff (qualifiers : List Qualifier) (type : TypeExpr) :
    type.withQualifiers qualifiers = type ↔ type.qualifiers = qualifiers := by
  cases type
  simp [withQualifiers, TypeExpr.qualifiers, eq_comm]

/-- Whatever is a whole type is one in parentheses too.  Its shape and its nullable mark stay, and the
names in front of it do not: parentheses change nothing exactly where there are no such names. -/
theorem readWhole_parenthesized (whole : (TypeExpr.readWhole before ts).Gives type)
    (opens : opening.isOp "(" = true) (closes : closing.isOp ")" = true) (before' : Token) :
    (TypeExpr.readWhole before' (opening :: (ts ++ [closing]))).Gives (type.withQualifiers []) ∧
      ((TypeExpr.readWhole before' (opening :: (ts ++ [closing]))).Gives type ↔ type.qualifiers = []) := by
  obtain ⟨notes, whole⟩ := whole
  have group := readWhole_group whole opens closes before'
  refine ⟨group, ?_⟩
  rw [← TypeExpr.withQualifiers_eq_self_iff]
  constructor
  · intro same
    exact group.unique same
  · intro same
    rw [same] at group
    exact group

end Group

theorem readWhole_parenthesized_generics :
    ∃ tokens before opening closing type, tokenize "fn:_=>(f~a?.b-(d/e))?" = .ok tokens ∧
      (TypeExpr.readWhole before tokens).Gives type ∧
      type.render .plain = "Func<(f, a?.b<d, e>)?>" ∧
      opening.isOp "(" = true ∧ closing.isOp ")" = true ∧
      (TypeExpr.readWhole before (opening :: (tokens ++ [closing]))).Gives type := by
  let tokens := (tokenize "fn:_=>(f~a?.b-(d/e))?").toOption.getD []
  let opening : Token := ⟨0, "(", 0, 1, .operator, none⟩
  let closing : Token := ⟨0, ")", 0, 1, .operator, none⟩
  have read : tokenize "fn:_=>(f~a?.b-(d/e))?" = .ok tokens := by decide +kernel +zetaReduce
  obtain ⟨type, whole, known⟩ : ∃ type, (TypeExpr.readWhole opening tokens).Gives type ∧
      (type.render .plain, type.qualifiers.isEmpty) = ("Func<(f, a?.b<d, e>)?>", true) :=
    Reading.exists_gives (by decide +kernel +zetaReduce)
  obtain ⟨text, unqualified⟩ := Prod.mk.inj known
  have opens : opening.isOp "(" = true := rfl
  have closes : closing.isOp ")" = true := rfl
  exact ⟨tokens, opening, opening, closing, type, read, whole, text, opens, closes,
    (readWhole_parenthesized whole opens closes opening).2.2 (List.isEmpty_iff.1 unqualified)⟩

/-- In parentheses a qualified type loses the names in front of it. -/
theorem readWhole_parenthesized_qualified :
    convert {} "let x: a.b?;" = .ok "a.b? x;\r\n" ∧ convert {} "let x: (a.b?);" = .ok "b? x;\r\n" ∧
      ∃ tokens before opening closing type, tokenize "a.b?" = .ok tokens ∧
        (TypeExpr.readWhole before tokens).Gives type ∧
        opening.isOp "(" = true ∧ closing.isOp ")" = true ∧
        ¬ (TypeExpr.readWhole before (opening :: (tokens ++ [closing]))).Gives type := by
  let tokens := (tokenize "a.b?").toOption.getD []
  let opening : Token := ⟨0, "(", 0, 1, .operator, none⟩
  let closing : Token := ⟨0, ")", 0, 1, .operator, none⟩
  have read : tokenize "a.b?" = .ok tokens := by decide +kernel +zetaReduce
  obtain ⟨type, whole, text⟩ : ∃ type, (TypeExpr.readWhole opening tokens).Gives type ∧
      type.render .plain = "a.b?" := Reading.exists_gives (by decide +kernel +zetaReduce)
  obtain ⟨other, group, other_text⟩ : ∃ type,
      (TypeExpr.readWhole opening (opening :: (tokens ++ [closing]))).Gives type ∧
      type.render .plain = "b?" := Reading.exists_gives (by decide +kernel +zetaReduce)
  refine ⟨by decide +kernel, by decide +kernel, tokens, opening, opening, closing, type, read, whole, rfl,
    rfl, ?_⟩
  intro same
  rw [same.unique group, other_text] at text
  exact absurd text (by decide)

end Sharp
