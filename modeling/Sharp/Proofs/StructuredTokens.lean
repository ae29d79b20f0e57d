import Sharp.Proofs.Structured

/-!
# The tokens of structured statements

* `Stmt.lexemes`: the lexemes that a statement is spelled with.
* `tokenize_fnSource`: the source of a function is read as its lexemes.
-/

namespace Sharp

variable {text : String} {cs : List Char}

def word (text : String) : Lexeme := wordLexeme text.toList

def Name.lexeme (name : Name) : Lexeme := word name.text

section Lexemes

variable (newline : Newline)

/-- The lexemes of some statements in braces, and those that follow. -/
def braced (body more : List Lexeme) : List Lexeme :=
  operatorLexeme "\x7b" :: newline.lexeme :: (body ++ operatorLexeme "\x7d" :: newline.lexeme :: more)

mutual

/-- The lexemes that a statement is spelled with. -/
def Stmt.lexemes : Stmt → List Lexeme
  | .call f =>
    [f.lexeme, operatorLexeme "(", operatorLexeme ")", operatorLexeme ";", newline.lexeme]
  | .leave => [word "return", operatorLexeme ";", newline.lexeme]
  | .give x => [word "return", spaceLexeme, x.lexeme, operatorLexeme ";", newline.lexeme]
  | .branch condition body others =>
    word "if" :: spaceLexeme :: condition.lexeme :: spaceLexeme :: braced newline (stmtsLexemes body) others.lexemes
  | .loop condition body =>
    word "while" :: spaceLexeme :: condition.lexeme :: spaceLexeme :: braced newline (stmtsLexemes body) []
  | .each element collection body =>
    word "foreach" :: spaceLexeme :: element.lexeme :: spaceLexeme :: word "in" :: spaceLexeme ::
      collection.lexeme :: spaceLexeme :: braced newline (stmtsLexemes body) []
  | .attempt body cleanup =>
    word "try" :: spaceLexeme :: braced newline (stmtsLexemes body)
      (word "finally" :: spaceLexeme :: braced newline (stmtsLexemes cleanup) [])

def Branches.lexemes : Branches → List Lexeme
  | .nothing => []
  | .last body => word "else" :: spaceLexeme :: braced newline (stmtsLexemes body) []
  | .link true condition body others =>
    word "elif" :: spaceLexeme :: condition.lexeme :: spaceLexeme ::
      braced newline (stmtsLexemes body) others.lexemes
  | .link false condition body others =>
    word "else" :: spaceLexeme :: word "if" :: spaceLexeme :: condition.lexeme :: spaceLexeme ::
      braced newline (stmtsLexemes body) others.lexemes

def stmtsLexemes : List Stmt → List Lexeme
  | [] => []
  | stmt :: stmts => stmt.lexemes ++ stmtsLexemes stmts

end

def fnLexemes (name : Name) (body : List Stmt) : List Lexeme :=
  word "fn" :: spaceLexeme :: name.lexeme :: spaceLexeme :: braced newline (stmtsLexemes newline body) []

def fnSourceLexemes (yields : Bool) (name : Name) (body : List Stmt) : List Lexeme :=
  (if yields then [word "yield", spaceLexeme] else []) ++ fnLexemes newline name body

end Lexemes

/-! ## Spelling -/

@[simp] theorem source_word (text : String) : (word text).source = text.toList :=
  source_wordLexeme _

@[simp] theorem source_name (name : Name) : name.lexeme.source = name.text.toList :=
  source_wordLexeme _

@[simp] theorem source_operatorLexeme (text : String) : (operatorLexeme text).source = text.toList :=
  rfl

@[simp] theorem source_spaceLexeme : spaceLexeme.source = [' '] := rfl

@[simp] theorem Newline.source_lexeme (newline : Newline) : newline.lexeme.source = newline.text.toList :=
  rfl

@[simp] theorem spelling_braced (newline : Newline) (body more : List Lexeme) :
    spelling (braced newline body more) = "\x7b".toList ++ newline.text.toList ++ spelling body ++ "\x7d".toList ++
        newline.text.toList ++ spelling more := by
  simp [braced]

section Spelling

variable {newline : Newline}

mutual

theorem Stmt.toList_source : (stmt : Stmt) → (stmt.source newline).toList = spelling (stmt.lexemes newline)
  | .call f => by simp [Stmt.source, Stmt.lexemes]
  | .leave => by simp [Stmt.source, Stmt.lexemes]
  | .give x => by simp [Stmt.source, Stmt.lexemes]
  | .branch condition body others => by
    simp [Stmt.source, Stmt.lexemes, blockSource, toList_stmtsSource body, others.toList_source]
  | .loop _ body | .each _ _ body => by
    simp [Stmt.source, Stmt.lexemes, blockSource, toList_stmtsSource body]
  | .attempt body cleanup => by
    simp [Stmt.source, Stmt.lexemes, blockSource, toList_stmtsSource body, toList_stmtsSource cleanup]

theorem Branches.toList_source : (branches : Branches) →
    (branches.source newline).toList = spelling (branches.lexemes newline)
  | .nothing => by simp [Branches.source, Branches.lexemes]
  | .last body => by simp [Branches.source, Branches.lexemes, blockSource, toList_stmtsSource body]
  | .link true _ body others | .link false _ body others => by
    simp [Branches.source, Branches.lexemes, blockSource, toList_stmtsSource body, others.toList_source]

theorem toList_stmtsSource : (stmts : List Stmt) →
    (stmtsSource newline stmts).toList = spelling (stmtsLexemes newline stmts)
  | [] => by simp [stmtsSource, stmtsLexemes]
  | stmt :: stmts => by
    simp [stmtsSource, stmtsLexemes, stmt.toList_source, toList_stmtsSource stmts]

end

theorem toList_fnSource (yields : Bool) (name : Name) (body : List Stmt) :
    (fnSource newline yields name body).toList = spelling (fnSourceLexemes newline yields name body) := by
  cases yields <;> simp [fnSource, blockSource, fnSourceLexemes, fnLexemes, toList_stmtsSource]

end Spelling

/-! ## Reading -/

section Reading

variable {newline : Newline} {lexemes : List Lexeme}

/-- Lexemes that stand at the start of a line. -/
structure StartsLine (lexemes : List Lexeme) : Prop where
  reads : Reads lexemes
  noFeed : EndsBefore (· == '\n') (spelling lexemes)

theorem StartsLine.nil : StartsLine [] := ⟨trivial, endsBefore_nil _⟩

/-- Lexemes that fill whole lines. -/
def KeepsLines (lexemes : List Lexeme) : Prop :=
  ∀ more, StartsLine more → StartsLine (lexemes ++ more)

theorem isWordSpelling_noFeed (isWord : isWordSpelling cs = true) (more : List Char) :
    EndsBefore (· == '\n') (cs ++ more) := by
  match cs with
  | c :: cs =>
    simp only [isWordSpelling, Bool.and_eq_true] at isWord
    rw [List.cons_append, endsBefore_cons, beq_eq_false_iff_ne]
    rintro rfl
    exact absurd isWord.1.2 (by decide)

section

variable (isWord : isWordSpelling text.toList = true) (ends : EndsBefore isWordChar (spelling lexemes))
  (reads : Reads lexemes)
include isWord ends reads

theorem reads_word : Reads (word text :: lexemes) := ⟨wordLexeme_readBefore isWord ends, reads⟩

theorem startsLine_word : StartsLine (word text :: lexemes) :=
  ⟨reads_word isWord ends reads, by
    rw [spelling_cons, source_word]
    exact isWordSpelling_noFeed isWord _⟩

end

theorem reads_space (ends : EndsBefore isBlankChar (spelling lexemes)) (reads : Reads lexemes) :
    Reads (spaceLexeme :: lexemes) :=
  ⟨spaceLexeme_readBefore ends, reads⟩

theorem reads_newline (starts : StartsLine lexemes) : Reads (newline.lexeme :: lexemes) :=
  ⟨newline.readBefore starts.noFeed, starts.reads⟩

theorem reads_operator (single : text ∈ ["(", ")", "\x7b", "\x7d", ";"]) (reads : Reads lexemes) :
    Reads (operatorLexeme text :: lexemes) :=
  ⟨operatorLexeme_readBefore single _, reads⟩

section

variable (isWord : isWordSpelling text.toList = true) (ends : EndsBefore isBlankChar (spelling lexemes))
  (reads : Reads lexemes)
include isWord ends reads

theorem reads_word_space : Reads (word text :: spaceLexeme :: lexemes) :=
  reads_word isWord (by simp [isWordChar]) (reads_space ends reads)

theorem startsLine_word_space : StartsLine (word text :: spaceLexeme :: lexemes) :=
  startsLine_word isWord (by simp [isWordChar]) (reads_space ends reads)

end

theorem isWordSpelling_noBlank (isWord : isWordSpelling cs = true) (more : List Char) :
    EndsBefore isBlankChar (cs ++ more) := by
  match cs with
  | c :: cs =>
    simp only [isWordSpelling, Bool.and_eq_true] at isWord
    rw [List.cons_append, endsBefore_cons, Bool.eq_false_iff]
    intro blank
    simp only [isBlankChar, Bool.or_eq_true, beq_iff_eq] at blank
    rcases blank with ((rfl | rfl) | rfl) | rfl <;> exact absurd isWord.1.2 (by decide)

theorem Name.noBlank (name : Name) (lexemes : List Lexeme) :
    EndsBefore isBlankChar (spelling (name.lexeme :: lexemes)) := by
  rw [spelling_cons, source_name]
  exact isWordSpelling_noBlank name.isWord _

theorem word_noBlank (isWord : isWordSpelling text.toList = true) (lexemes : List Lexeme) :
    EndsBefore isBlankChar (spelling (word text :: lexemes)) := by
  rw [spelling_cons, source_word]
  exact isWordSpelling_noBlank isWord _

theorem braced_noBlank (body more : List Lexeme) :
    EndsBefore isBlankChar (spelling (braced newline body more)) := by
  simp [isBlankChar]

theorem reads_braced {body more : List Lexeme} (body_keeps : KeepsLines body)
    (more_starts : StartsLine more) : Reads (braced newline body more) := by
  refine reads_operator (by simp) (reads_newline (body_keeps _ ⟨?_, by simp⟩))
  exact reads_operator (by simp) (reads_newline more_starts)

@[simp] theorem braced_append (newline : Newline) (body more lexemes : List Lexeme) :
    braced newline body more ++ lexemes = braced newline body (more ++ lexemes) := by
  simp [braced]

mutual

theorem Stmt.keepsLines : (stmt : Stmt) → KeepsLines (stmt.lexemes newline)
  | .call f, lexemes, starts => by
    refine startsLine_word f.isWord (by simp [isWordChar]) ?_
    refine reads_operator (by simp) (reads_operator (by simp) (reads_operator (by simp) ?_))
    exact reads_newline starts
  | .leave, lexemes, starts => by
    refine startsLine_word (by decide) (by simp [isWordChar]) (reads_operator (by simp) ?_)
    exact reads_newline starts
  | .give x, lexemes, starts => by
    refine startsLine_word_space (by decide) (x.noBlank _) (reads_word x.isWord ?_ ?_)
    · simp [isWordChar]
    · exact reads_operator (by simp) (reads_newline starts)
  | .branch condition body others, lexemes, starts => by
    rw [Stmt.lexemes, List.cons_append, List.cons_append, List.cons_append, List.cons_append, braced_append]
    refine startsLine_word_space (by decide) (condition.noBlank _)
      (reads_word_space condition.isWord (braced_noBlank _ _) ?_)
    exact reads_braced (stmtsLexemes_keepsLines body) (others.keepsLines _ starts)
  | .loop condition body, lexemes, starts => by
    rw [Stmt.lexemes, List.cons_append, List.cons_append, List.cons_append, List.cons_append, braced_append]
    refine startsLine_word_space (by decide) (condition.noBlank _)
      (reads_word_space condition.isWord (braced_noBlank _ _) ?_)
    exact reads_braced (stmtsLexemes_keepsLines body) starts
  | .each element collection body, lexemes, starts => by
    simp only [Stmt.lexemes, List.cons_append, braced_append]
    refine startsLine_word_space (by decide) (element.noBlank _)
      (reads_word_space element.isWord (word_noBlank (by decide) _)
        (reads_word_space (by decide) (collection.noBlank _)
          (reads_word_space collection.isWord (braced_noBlank _ _) ?_)))
    exact reads_braced (stmtsLexemes_keepsLines body) starts
  | .attempt body cleanup, lexemes, starts => by
    simp only [Stmt.lexemes, List.cons_append, braced_append]
    refine startsLine_word_space (by decide) (braced_noBlank _ _) (reads_braced (stmtsLexemes_keepsLines body) ?_)
    refine startsLine_word_space (by decide) (braced_noBlank _ _) ?_
    exact reads_braced (stmtsLexemes_keepsLines cleanup) starts

theorem Branches.keepsLines : (branches : Branches) → KeepsLines (branches.lexemes newline)
  | .nothing, _, starts => starts
  | .last body, lexemes, starts => by
    simp only [Branches.lexemes, List.cons_append, braced_append]
    refine startsLine_word_space (by decide) (braced_noBlank _ _) ?_
    exact reads_braced (stmtsLexemes_keepsLines body) starts
  | .link true condition body others, lexemes, starts => by
    simp only [Branches.lexemes, List.cons_append, braced_append]
    refine startsLine_word_space (by decide) (condition.noBlank _)
      (reads_word_space condition.isWord (braced_noBlank _ _) ?_)
    exact reads_braced (stmtsLexemes_keepsLines body) (others.keepsLines _ starts)
  | .link false condition body others, lexemes, starts => by
    simp only [Branches.lexemes, List.cons_append, braced_append]
    refine startsLine_word_space (by decide) (word_noBlank (by decide) _)
      (reads_word_space (by decide) (condition.noBlank _)
        (reads_word_space condition.isWord (braced_noBlank _ _) ?_))
    exact reads_braced (stmtsLexemes_keepsLines body) (others.keepsLines _ starts)

theorem stmtsLexemes_keepsLines : (stmts : List Stmt) → KeepsLines (stmtsLexemes newline stmts)
  | [], _, starts => starts
  | stmt :: stmts, lexemes, starts => by
    rw [stmtsLexemes, List.append_assoc]
    exact stmt.keepsLines _ (stmtsLexemes_keepsLines stmts _ starts)

end

theorem reads_fnLexemes (name : Name) (body : List Stmt) : Reads (fnLexemes newline name body) := by
  refine reads_word_space (by decide) (name.noBlank _) (reads_word_space name.isWord (braced_noBlank _ _) ?_)
  exact reads_braced (stmtsLexemes_keepsLines body) .nil

end Reading

/-- The source of a function is read as its lexemes. -/
theorem tokenize_fnSource (newline : Newline) (yields : Bool) (name : Name) (body : List Stmt) :
    tokenize (fnSource newline yields name body) = .ok (place 0 0 (fnSourceLexemes newline yields name body)) := by
  refine tokenize_spelling (toList_fnSource yields name body) ?_
  cases yields with
  | false => exact reads_fnLexemes name body
  | true =>
    refine reads_word_space (by decide) ?_ (reads_fnLexemes name body)
    exact word_noBlank (by decide) _

end Sharp
