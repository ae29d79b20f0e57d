import Sharp.Statement.Convert

/-!
# The forms of statements

* `StatementForm`: how a statement is converted, with one case for each kind of statement.
* `convertStatement_form`: every statement has one of these forms.
-/

namespace Sharp

section Forms

variable (inner : Converters) (scope : Scope) (pending : Modifiers) (t : Token) (rest : List Token)

/-- The ways in which a statement is converted, each with what the first token says. -/
inductive StatementForm : Draft (Parsed Statement) → Prop where
  | refused {t' : Token} (among : t' ∈ t :: rest) {cause : Cause} (inside : cause ≠ .outsideRange) :
      StatementForm (.fail (.blame t' cause))
  | empty (ends : t.isOp ";" = true) : StatementForm (pure ⟨{ pending }, rest⟩)
  | modifier (keyword : t.category = .keyword) (word : t.text = "new" ∨ t.modifierRole? = some .other) :
      StatementForm (holdModifier pending t rest)
  | typeDecl (keyword : t.category = .keyword) (word : t.text ∈ ["class", "struct"]) (kind : TypeDeclKind) :
      StatementForm (plainStatement (convertTypeDecl inner kind scope pending t rest))
  | function (keyword : t.category = .keyword) (word : t.text = "fn") :
      StatementForm (plainStatement (convertFn inner scope pending t rest))
  | declared (keyword : t.category = .keyword) (word : t.text ∈ ["let", "const", "immut"]) (kind : VariableKind) :
      StatementForm (plainStatement (convertVariable inner kind scope pending t rest))
  | property (keyword : t.category = .keyword) (word : t.text = "prop") :
      StatementForm (plainStatement (convertProp inner scope pending t rest))
  | imported (keyword : t.category = .keyword) (word : t.text = "using") :
      StatementForm (unmodified pending (convertUsing scope t rest))
  | inNamespace (keyword : t.category = .keyword) (word : t.text = "namespace") : StatementForm (do
        Logged.ofExcept pending.ensureEmpty
        convertNamespace inner scope t rest)
  | yielded (keyword : t.category = .keyword) (word : t.text = "return") (yields : scope.yields = true) :
      StatementForm (unmodified pending (convertYield inner scope t rest))
  | controlFlow (keyword : t.category = .keyword) (word : t.text ∈ controlFlowWords) :
      StatementForm (unmodified pending (convertControlFlow inner scope t rest))
  | expression (goesOn : t.isOp ";" = false) (plain : t.category = .keyword → t.text ∈ ["new", "checked", "unchecked"] ∨
      t.text ∉ controlFlowWords ∧ t.modifierRole? = none ∧ (t.text = "return" → scope.yields = false)) :
      StatementForm (unmodified pending (convertExpressionStatement inner scope t rest))

variable {inner scope pending t rest}

theorem convertOther_form (keyword : t.category = .keyword) (giving : t.text = "return" → scope.yields = false) :
    StatementForm inner scope pending t rest (convertOther inner scope pending t rest) := by
  unfold convertOther
  split
  · next listed => exact .controlFlow keyword (by simpa using listed)
  · next unlisted =>
    split
    · next held =>
      split
      · exact .refused List.mem_cons_self (by simp)
      · exact .modifier keyword (.inr held)
    · exact .refused List.mem_cons_self (by simp)
    · next none =>
      split
      · exact .refused List.mem_cons_self (by simp)
      · exact .expression (by simp [Token.isOp, keyword]) fun _ => .inr ⟨by simpa using unlisted, none, giving⟩

theorem convertKeywordStatement_form (keyword : t.category = .keyword) :
    StatementForm inner scope pending t rest (convertKeywordStatement inner scope pending t rest) := by
  have expression (word : t.text ∈ ["new", "checked", "unchecked"]) : StatementForm inner scope pending t rest
      (unmodified pending (convertExpressionStatement inner scope t rest)) :=
    .expression (by simp [Token.isOp, keyword]) fun _ => .inl word
  unfold convertKeywordStatement
  dsimp only
  split
  · next word => exact .typeDecl keyword (by simp [word]) _
  · next word => exact .typeDecl keyword (by simp [word]) _
  · next word => exact .function keyword word
  · next word => exact .declared keyword (by simp [word]) _
  · next word => exact .declared keyword (by simp [word]) _
  · next word =>
    split
    · exact convertOther_form keyword (by simp [word])
    · next name named =>
      have next := (Option.filter_eq_some_iff.1 named).1
      have among : name ∈ rest := (List.dropWhile_suffix _).subset (List.mem_of_mem_head? next)
      split
      · exact .declared keyword (by simp [word]) _
      · exact .refused (List.mem_cons_of_mem _ among) (by simp)
  · next word => exact .property keyword word
  · next word => exact .imported keyword word
  · next word => exact .inNamespace keyword word
  · next word =>
    split
    · exact .modifier keyword (.inl word)
    · exact expression (by simp [word])
  · next word =>
    split
    · next yields => exact .yielded keyword word yields
    · next gives => exact convertOther_form keyword fun _ => by simpa using gives
  · next word =>
    split
    · exact convertOther_form keyword (by simp [word])
    · exact expression (by simp [word])
  · next word =>
    split
    · exact convertOther_form keyword (by simp [word])
    · exact expression (by simp [word])
  · next other _ _ => exact convertOther_form keyword fun word => absurd word other

theorem convertStatement_form :
    StatementForm inner scope pending t rest (convertStatement inner scope pending t rest) := by
  unfold convertStatement
  split
  · exact .refused List.mem_cons_self (by simp)
  · split
    · next ends => exact .empty ends
    · next goesOn =>
      split
      · next keyword => exact convertKeywordStatement_form (by simpa using keyword)
      · next other => exact .expression (by simpa using goesOn) fun keyword => absurd keyword (by simpa using other)

end Forms

end Sharp
