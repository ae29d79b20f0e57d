import Sharp.Proofs.Output

/-!
# The roles of tokens

Converting a source finds out which roles its tokens play.  The notes are laid over the tokens as they
were read: nothing but the roles changes, and the role of a token suits its category.

* `annotated_of_convertWithTokens`: what a conversion gives are the tokens of the source, with roles
  that suit them.
-/

namespace Sharp

open Token

variable {text word : String} {tokens : List Token} {role : Role} {t : Token}

/-! ## Roles of lexemes -/

/-- What the role of a lexeme is as it is read: words have theirs from the vocabulary, and names and
most operators have none. -/
def GivenRole (category : Category) (text : String) (role : Option Role) : Prop :=
  match category with
  | .operator => role = operatorRole? text
  | .identifier => role = none
  | .keyword => role = keywordRole? text ∧ role ≠ none
  | .contextKeyword => role = contextKeywordRole? text ∧ role ≠ none
  | _ => True

def Scan.GivesRole (scan : Scan) : Prop :=
  ∀ lexeme rest, scan = .ok (some (lexeme, rest)) → GivenRole lexeme.category lexeme.text lexeme.role

theorem scan_givesRole (cs : List Char) : (scan cs).GivesRole := by
  intro lexeme rest found
  cases scanned_of_scan found with
  | word _ =>
    unfold wordLexeme
    split
    · next known => exact ⟨known.symm, nofun⟩
    · split
      · next known => exact ⟨known.symm, nofun⟩
      · rfl
  | operator _ => rfl
  | _ => exact trivial

theorem givenRole_of_tokenize (read : tokenize text = .ok tokens) :
    ∀ t ∈ tokens, GivenRole t.category t.text t.role :=
  (tokenize_eq_ok_iff.1 read).forall_mem fun lexeme rest scanned _ _ =>
    scan_givesRole _ lexeme rest scanned

/-! ## Roles that suit a token -/

/-- The role suits the token.  Where it is known by sight, it is the one that the token was read
with. -/
def Token.Admits (t : Token) (role : Option Role) : Prop :=
  match t.category with
  | .lineBreak | .space | .comment | .stringLiteral | .rawStringLiteral | .charLiteral
  | .numberLiteral => role = t.role
  | .operator =>
    if t.text ∈ bracketOperators then role = t.role ∧ ∃ form, role = some (.bracket form)
    else role = none ∨ ∃ part, role = some (.operator part)
  | .identifier => role = none ∨ ∃ part, role = some (.name part)
  | .contextKeyword => (∃ part, role = some (.keyword part)) ∨ ∃ part, role = some (.name part)
  | .keyword =>
    (∃ part, role = some (.keyword part)) ∨ (∃ part, role = some (.modifier part)) ∨
      (∃ form, role = some (.literal form)) ∨ role = some (.name .namespaceName)

theorem keywordRole_cases (known : keywordRole? word = some role) : (∃ part, role = .keyword part)
    ∨ (∃ part, role = .modifier part) ∨ ∃ form, role = .literal form := by
  obtain ⟨group, first, rfl⟩ := Option.map_eq_some_iff.1 known
  have listed := List.mem_of_find?_eq_some first
  simp only [keywordGroups, List.mem_cons, List.not_mem_nil, or_false] at listed
  rcases listed with rfl | rfl | rfl | rfl | rfl | rfl | rfl | rfl | rfl | rfl | rfl | rfl | rfl | rfl <;> simp

theorem contextKeywordRole_cases (known : contextKeywordRole? word = some role) : ∃ part, role = .keyword part := by
  obtain ⟨group, first, rfl⟩ := Option.map_eq_some_iff.1 known
  have listed := List.mem_of_find?_eq_some first
  simp only [contextKeywordGroups, List.mem_cons, List.not_mem_nil, or_false] at listed
  rcases listed with rfl | rfl | rfl <;> simp

section Admits

section

variable (given : GivenRole t.category t.text t.role)
include given

/-- The role that a token was read with suits it. -/
theorem Token.admits_role : t.Admits t.role := by
  unfold GivenRole at given
  unfold Admits
  cases category : t.category <;> simp only [category] at given ⊢
  case operator =>
    -- The four brackets have a role from the start, and no other operator has one.
    split
    · next bracket =>
      refine ⟨trivial, ?_⟩
      simp only [bracketOperators, List.mem_cons, List.not_mem_nil, or_false] at bracket
      rcases bracket with text | text | text | text <;> simp [given, text, operatorRole?]
    · next other =>
      simp only [bracketOperators, List.mem_cons, List.not_mem_nil, or_false, not_or] at other
      simp [given, operatorRole?, other]
  case keyword =>
    obtain ⟨role, known⟩ := Option.ne_none_iff_exists'.1 given.2
    rcases keywordRole_cases (given.1.symm.trans known) with ⟨part, rfl⟩ | ⟨part, rfl⟩ | ⟨form, rfl⟩
    · exact .inl ⟨part, known⟩
    · exact .inr (.inl ⟨part, known⟩)
    · exact .inr (.inr (.inl ⟨form, known⟩))
  case contextKeyword =>
    obtain ⟨role, known⟩ := Option.ne_none_iff_exists'.1 given.2
    obtain ⟨part, rfl⟩ := contextKeywordRole_cases (given.1.symm.trans known)
    exact .inl ⟨part, known⟩
  case identifier => exact .inl given

theorem Token.keyword_of_immut (isImmut : t.isKeyword "immut" = true) : t.category = .keyword := by
  simp only [isKeyword, Bool.and_eq_true, Bool.or_eq_true, beq_iff_eq] at isImmut
  refine isImmut.1.resolve_right fun context => ?_
  rw [context, isImmut.2] at given
  exact given.2 (given.1.trans (by decide))

/-- So does a role that it can turn out to play. -/
theorem Token.admits_of_canPlay (plays : t.CanPlay role) : t.Admits (some role) := by
  unfold Admits
  cases role with
  | comment | blank | literal | bracket => exact plays.elim
  | operator part =>
    obtain ⟨operator, other⟩ := plays
    simp [operator, other]
  | keyword part =>
    rcases plays with category | category <;> simp [category]
  | modifier part =>
    have category := plays.elim (fun keyword => keyword) (keyword_of_immut given)
    simp [category]
  | name part =>
    -- Any word can be a segment of a namespace; other names are not reserved words.
    rcases plays with isName | ⟨isWord, rfl⟩
    · unfold isNameLike at isName
      cases category : t.category <;> simp_all
    · unfold Token.isWord at isWord
      cases category : t.category <;> simp_all

end

end Admits

/-! ## Annotated tokens -/

section Annotate

variable {source : Source} {notes : List Note}

/-- The latest note on a token is on that very token, since no other has its number. -/
theorem Token.admits_annotatedRole (annotates : source.Annotates notes)
    (unique : (source.tokens.map Token.id).Nodup)
    (given : ∀ t ∈ source.tokens, GivenRole t.category t.text t.role) (member : t ∈ source.tokens) :
    t.Admits (t.annotatedRole notes) := by
  unfold annotatedRole
  split
  · next note found =>
    have listed : note ∈ notes := List.mem_reverse.1 (List.mem_of_find?_eq_some found)
    have same : note.token.id = t.id := by simpa using List.find?_some found
    obtain ⟨note_member, plays⟩ := annotates note listed
    have same_token : note.token = t := List.inj_on_of_nodup_map unique note_member member same
    rw [same_token] at plays
    exact admits_of_canPlay (given t member) plays
  · exact admits_role (given t member)

end Annotate

theorem nodup_ids_of_tokenize (read : tokenize text = .ok tokens) : (tokens.map Token.id).Nodup := by
  rw [(tokenize_eq_ok_iff.1 read).map_id]
  exact List.nodup_range'

theorem Program.annotates {program : Program} (read : tokenize text = .ok tokens)
    (converted : Program.ofSource text = .ok program) :
    ∃ notes, program.tokens = annotate notes tokens ∧ (Source.ofTokens read).Annotates notes := by
  obtain ⟨tokens', output, read', block, rfl⟩ := Program.eq_of_ofSource converted
  cases read.symm.trans read'
  have sound := Source.block_sound read
  rw [block] at sound
  exact ⟨output.notes, rfl, sound.2.2⟩

/-- The tokens of a conversion are those of the source, one by one, except that each may have another
role, which suits it. -/
theorem annotated_of_convertWithTokens {settings : LayoutSettings} {text output : String}
    {tokens : List Token} (converted : convertWithTokens settings text = .ok (output, tokens)) :
    ∃ read, tokenize text = .ok read ∧ List.Forall₂ (fun t t' =>
      t' = { t with role := t'.role } ∧ t.Admits t'.role) read tokens := by
  unfold convertWithTokens at converted
  cases program : Program.ofSource text with
  | error fault => rw [program] at converted; cases converted
  | ok program' =>
    rw [program] at converted
    cases converted
    obtain ⟨read, -, tokenized, -⟩ := Program.eq_of_ofSource program
    obtain ⟨notes, same, annotates⟩ := Program.annotates tokenized program
    refine ⟨read, tokenized, ?_⟩
    rw [same, annotate, List.forall₂_map_right_iff, List.forall₂_same]
    intro t member
    refine ⟨rfl, Token.admits_annotatedRole annotates ?_ ?_ member⟩
    · exact nodup_ids_of_tokenize tokenized
    · exact givenRole_of_tokenize tokenized

/-- A reserved word in the name of a namespace, and a class with the name of an accessor. -/
theorem annotated_of_convertWithTokens_reserved :
    ∃ tokens, convertWithTokens {} "namespace a.in; class get \x7b \x7d" =
        .ok ("namespace a.in;\r\nclass get \x7b\r\n\x7d\r\n", tokens) ∧
      (tokens.filterMap fun t => t.role.filter fun role => role matches .name _) =
        [.name .namespaceName, .name .namespaceName, .name .classType] ∧
      ∃ read, tokenize "namespace a.in; class get \x7b \x7d" = .ok read ∧
        List.Forall₂ (fun t t' => t' = { t with role := t'.role } ∧ t.Admits t'.role) read tokens := by
  obtain ⟨result, converted, known⟩ : ∃ result,
      convertWithTokens {} "namespace a.in; class get \x7b \x7d" = .ok result ∧
      (result.1, result.2.filterMap fun t => t.role.filter fun role => role matches .name _) =
        ("namespace a.in;\r\nclass get \x7b\r\n\x7d\r\n",
          [.name .namespaceName, .name .namespaceName, .name .classType]) :=
    exists_of_toOption (by decide +kernel)
  obtain ⟨output, tokens⟩ := result
  obtain ⟨rfl, names⟩ := Prod.mk.inj known
  exact ⟨tokens, converted, names, annotated_of_convertWithTokens converted⟩

end Sharp
