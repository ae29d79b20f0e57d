import Sharp.Logged
import Sharp.Token.Stream

/-!
# How a source becomes tokens

Reading a source is one scan after another.  `Tokenized` is the derivation of a successful reading:
which text was left at each scan, and which token it gave.  Facts about all tokens of a source are
inductions on it.

* `tokenizeFrom_eq_ok_iff`: the tokens that `tokenizeFrom` gives are those of the derivation.
-/

namespace Sharp

variable {ε α β ω : Type} {id start : Nat} {cs rest : List Char} {tokens front : List Token}

theorem eq_ok_of_toOption {x : Except ε α} {a : α} (same : x.toOption = some a) : x = .ok a := by
  cases x with
  | error fault => cases same
  | ok b => cases same; rfl

/-- What is known of a value from evaluating the computation that gives it. -/
theorem exists_of_toOption {x : Except ε α} {f : α → β} {b : β} (same : x.toOption.map f = some b) :
    ∃ a, x = .ok a ∧ f a = b := by
  cases x with
  | error fault => cases same
  | ok a => exact ⟨a, rfl, Option.some.inj same⟩

theorem Logged.exists_done {x : Logged ω α} {f : α → β} {b : β}
    (same : x.toExcept.toOption.map f = some b) : ∃ a log, x = .done a log ∧ f a = b := by
  cases x with
  | fail fault => cases same
  | done a log => exact ⟨a, log, rfl, Option.some.inj same⟩

theorem Logged.exists_done_of_isOk {x : Logged ω α} (ok : x.toExcept.isOk = true) : ∃ a log, x = .done a log := by
  cases x with
  | fail fault => cases ok
  | done a log => exact ⟨a, log, rfl⟩

/-- What is known of a fault from evaluating the computation that fails with it. -/
theorem eq_error_of_swap {x : Except ε α} {e : ε}
    (same : (match x with | .error e => some e | .ok _ => none) = some e) : x = .error e := by
  cases x with
  | error e' => cases same; rfl
  | ok a => cases same

@[simp] theorem byteLength_append (cs cs' : List Char) :
    byteLength (cs ++ cs') = byteLength cs + byteLength cs' := by
  induction cs with
  | nil => simp [byteLength]
  | cons c cs ih => simp only [List.cons_append, byteLength, ih, Nat.add_assoc]

def Lexeme.tokenAt (lexeme : Lexeme) (id start : Nat) : Token :=
  ⟨id, lexeme.text, start, start + byteLength lexeme.source, lexeme.category, lexeme.role⟩

/-- `Tokenized id start cs tokens`: the text `cs` is read as `tokens`, numbered from `id` on, when
its first byte is the byte `start` of the source. -/
inductive Tokenized : Nat → Nat → List Char → List Token → Prop where
  | nil {id start : Nat} : Tokenized id start [] []
  | cons {id start : Nat} {lexeme : Lexeme} {rest : List Char} {tokens : List Token} (nonempty : lexeme.source ≠ [])
      (scanned : scan (lexeme.source ++ rest) = .ok (some (lexeme, rest)))
      (tail : Tokenized (id + 1) (start + byteLength lexeme.source) rest tokens) :
      Tokenized id start (lexeme.source ++ rest) (lexeme.tokenAt id start :: tokens)

theorem tokenizeFrom_cons {lexeme : Lexeme} (scanned : scan cs = .ok (some (lexeme, rest))) (nonempty : cs ≠ []) :
    tokenizeFrom id start cs = (do
      let tokens ← tokenizeFrom (id + 1) (start + byteLength lexeme.source) rest
      return lexeme.tokenAt id start :: tokens) := by
  match cs with
  | [] => exact absurd rfl nonempty
  | c :: cs =>
    rw [tokenizeFrom]
    split
    · next h => rw [scanned] at h; cases h
    · next h => rw [scanned] at h; cases h
    · next h =>
      rw [scanned] at h
      cases h
      rfl

/-- A derivation is a successful reading. -/
theorem Tokenized.tokenizeFrom_eq (derivation : Tokenized id start cs tokens) :
    tokenizeFrom id start cs = .ok tokens := by
  induction derivation with
  | nil => rw [tokenizeFrom]
  | cons nonempty scanned tail ih =>
    rw [tokenizeFrom_cons scanned (by simp [nonempty]), ih]
    rfl

/-- A successful reading has a derivation. -/
theorem tokenized_of_tokenizeFrom (read : tokenizeFrom id start cs = .ok tokens) :
    Tokenized id start cs tokens := by
  fun_induction tokenizeFrom id start cs generalizing tokens with
  | case1 id start =>
    cases read
    exact .nil
  | case2 | case3 => simp at read
  | case4 id start c cs lexeme rest scanned stop =>
    rename_i ih
    obtain ⟨nonempty, covered⟩ := scan_splits (c :: cs) lexeme rest scanned
    cases tail : tokenizeFrom (id + 1) (start + byteLength lexeme.source) rest with
    | error fault =>
      rw [tail] at read
      cases read
    | ok tokens' =>
      rw [tail] at read
      cases read
      rw [← covered] at scanned ⊢
      exact .cons nonempty scanned (ih tail)

theorem tokenizeFrom_eq_ok_iff : tokenizeFrom id start cs = .ok tokens ↔ Tokenized id start cs tokens :=
  ⟨tokenized_of_tokenizeFrom, Tokenized.tokenizeFrom_eq⟩

theorem tokenize_eq_ok_iff {source : String} : tokenize source = .ok tokens ↔ Tokenized 0 0 source.toList tokens :=
  tokenizeFrom_eq_ok_iff

/-- The last tokens of a text are those of its end. -/
theorem Tokenized.exists_suffix (derivation : Tokenized id start cs (front ++ tokens)) :
    ∃ before cs' id', cs = before ++ cs' ∧ Tokenized id' (start + byteLength before) cs' tokens := by
  induction front generalizing id start cs with
  | nil => exact ⟨[], cs, id, rfl, derivation⟩
  | cons t front ih =>
    cases derivation with
    | @cons _ _ lexeme _ _ _ _ tail =>
      obtain ⟨before, cs', id', rfl, last⟩ := ih tail
      refine ⟨lexeme.source ++ before, cs', id', (List.append_assoc ..).symm, ?_⟩
      rwa [byteLength_append, ← Nat.add_assoc]

/-- A text that cannot be read has a place where nothing can be scanned. -/
theorem exists_flaw_of_tokenizeFrom {fault : Fault} (failed : tokenizeFrom id start cs = .error fault) :
    ∃ before c rest, cs = before ++ c :: rest ∧ ((∃ flaw, scan (c :: rest) = .error flaw ∧
          fault = ⟨flaw.cause, some ⟨start + byteLength before + flaw.span.offset, flaw.span.length⟩⟩) ∨
        fault = ⟨.unexpectedCharacter c, some ⟨start + byteLength before, c.utf8Size⟩⟩) := by
  fun_induction tokenizeFrom id start cs with
  | case1 => cases failed
  | case2 id start c cs flaw scanned =>
    cases failed
    exact ⟨[], c, cs, rfl, .inl ⟨flaw, scanned, rfl⟩⟩
  | case3 id start c cs =>
    cases failed
    exact ⟨[], c, cs, rfl, .inr rfl⟩
  | case4 id start c cs lexeme rest scanned stop =>
    rename_i ih
    cases tail : tokenizeFrom (id + 1) stop rest with
    | ok tokens => rw [tail] at failed; cases failed
    | error fault' =>
      rw [tail] at failed
      cases failed
      obtain ⟨before, c', rest', rfl, flawed⟩ := ih tail
      refine ⟨lexeme.source ++ before, c', rest', ?_, ?_⟩
      · rw [← (scan_splits (c :: cs) lexeme _ scanned).2, List.append_assoc]
      · rwa [byteLength_append, ← Nat.add_assoc]

/-- What holds of every lexeme that can be scanned holds of every token, at its place. -/
theorem Tokenized.forall_mem {p : Token → Prop} (derivation : Tokenized id start cs tokens)
    (h : ∀ lexeme rest, scan (lexeme.source ++ rest) = .ok (some (lexeme, rest)) →
      ∀ id start, p (lexeme.tokenAt id start)) :
    ∀ t ∈ tokens, p t := by
  induction derivation with
  | nil => simp
  | cons nonempty scanned tail ih =>
    intro t member
    cases member with
    | head => exact h _ _ scanned _ _
    | tail _ member => exact ih t member

end Sharp
