import Sharp.Proofs.Conversion

/-!
# The output of a conversion

* `convertWithTokens_render`: the settings decide nothing but the text of the items.
* `balanced_of_tame`: the brackets of the output are balanced.
* `copiedLiterals_of_direct`: the literals of the source are those of the output.

The last two hold of sources without certain operators or keywords.  `unbalanced_tuple_lambda` and
`literal_lost_in_section` are sources with them of which they do not hold.
-/

namespace Sharp

/-! ## Programs -/

section Programs

variable {text : String} {tokens : List Token} {program : Program}

/-- What a program is made of. -/
theorem Program.eq_of_ofSource (converted : Program.ofSource text = .ok program) :
    ∃ tokens output, tokenize text = .ok tokens ∧ Layers.standard.all.block .root tokens = .done () output ∧
      program = ⟨annotate output.notes tokens, output.pieces⟩ := by
  unfold Program.ofSource Layers.program at converted
  cases read : tokenize text with
  | error fault => rw [read] at converted; cases converted
  | ok tokens =>
    rw [read] at converted
    cases block : Layers.standard.all.block .root tokens with
    | fail fault => simp [bind, Except.bind, block] at converted
    | done _ output =>
      simp only [bind, Except.bind, block, Except.ok.injEq] at converted
      exact ⟨tokens, output, rfl, block, converted.symm⟩

/-- The pieces of a program close their lines and brackets and hold the literals of the source. -/
theorem Program.pieces_sound (read : tokenize text = .ok tokens) (converted : Program.ofSource text = .ok program) :
    (Source.ofTokens read).Takes tokens (copiedLiterals program.pieces) [] ∧
      (Source.ofTokens read).Leads ⟨.quiet, []⟩ program.pieces ⟨.quiet, []⟩ := by
  obtain ⟨tokens', output, read', block, rfl⟩ := Program.eq_of_ofSource converted
  cases read.symm.trans read'
  have sound := Source.block_sound read
  rw [block] at sound
  exact ⟨sound.1, sound.2.1⟩

end Programs

/-! ## Layout -/

/-- Either a source is refused with the same fault under all settings, or there are items and tokens
such that, under all settings, the output is the text of the items. -/
theorem convertWithTokens_render (text : String) :
    (∃ fault, ∀ settings, convertWithTokens settings text = .error fault ∧
      convert settings text = .error fault) ∨
    ∃ items tokens, ∀ settings,
      convertWithTokens settings text = .ok (render settings items, tokens) ∧
      convert settings text = .ok (render settings items) := by
  unfold convertWithTokens convert
  cases converted : Program.ofSource text with
  | error fault => exact .inl ⟨fault, fun _ => ⟨rfl, rfl⟩⟩
  | ok program =>
    refine .inr ⟨layout program.pieces, program.tokens, fun settings => ⟨?_, rfl⟩⟩
    obtain ⟨tokens, _, read, -, -⟩ := Program.eq_of_ofSource converted
    have leads := (Program.pieces_sound read converted).2
    have lines : Lines .quiet program.pieces .loud := leads.lines.weaken (LineState.le_quiet .loud)
    change Except.ok (write settings program.pieces, _) = _
    rw [write_eq_render settings lines]

/-! ## Brackets -/

/-- The piece with every character that was copied from a literal or a comment replaced. -/
def Piece.masked : Piece → Piece
  | .literal text => .literal (mask text)
  | .comment text => .comment (mask text)
  | piece => piece
where
  mask (text : String) : String := String.ofList (text.toList.map fun _ => '_')

def Program.masked (program : Program) : Program :=
  { program with pieces := program.pieces.map Piece.masked }

section Masked

variable {opened : List Bracket}

/-- The text of some items, with all line breaks at the end. -/
def itemsText (settings : LayoutSettings) (items : List Item) : List Char :=
  (concat (items.map (Item.render settings))).toList

@[simp] theorem itemsText_nil (settings : LayoutSettings) : itemsText settings [] = [] := by
  simp [itemsText, concat]

@[simp] theorem itemsText_cons (settings : LayoutSettings) (item : Item) (items : List Item) :
    itemsText settings (item :: items) = (item.render settings).toList ++ itemsText settings items := by
  simp [itemsText, concat]

@[simp] theorem itemsText_append (settings : LayoutSettings) (items items' : List Item) :
    itemsText settings (items ++ items') = itemsText settings items ++ itemsText settings items' := by
  simp [itemsText]

theorem nest_lineEnding (ending : LineEnding) (opened : List Bracket) :
    nest opened ending.text.toList = some opened := by
  cases ending <;> rfl

theorem nest_mask (text : String) (opened : List Bracket) :
    nest opened (Piece.masked.mask text).toList = some opened := by
  refine nest_plain (fun c member => ?_) opened
  simp only [Piece.masked.mask, String.toList_ofList, List.mem_map] at member
  obtain ⟨_, _, rfl⟩ := member
  decide

/-- Of a masked piece, only what counts opens or closes brackets. -/
theorem nest_masked_items (settings : LayoutSettings) (piece : Piece) (opened : List Bracket) :
    nest opened (itemsText settings piece.masked.items) = nest opened piece.counted.toList := by
  cases piece with
  | code text spacing => simp [Piece.masked, Piece.items, Piece.counted, Item.render]
  | literal text | comment text =>
    simp [Piece.masked, Piece.items, Piece.counted, Item.render, nest_mask, nest]
  | lineBreak => simp [Piece.masked, Piece.items, Piece.counted, Item.render, nest_lineEnding, nest]
  | line text =>
    have ending : (nest · settings.lineEnding.text.toList) = some :=
      funext (nest_lineEnding settings.lineEnding)
    simp [Piece.masked, Piece.items, Piece.counted, Item.render, nest_append, ending]
  | indent level =>
    have blank : ∀ c ∈ List.replicate (level * settings.indentWidth) ' ', isPlainChar c = true := by
      intro c member
      rw [List.eq_of_mem_replicate member]
      decide
    simp [Piece.masked, Piece.items, Piece.counted, Item.render, nest_plain blank, nest]

theorem counted_of_isBlank {piece : Piece} (isBlank : piece.masked.isBlank = true) : piece.counted = "" := by
  cases piece with
  | code text spacing => simpa [Piece.masked, Piece.isBlank, Piece.counted] using isBlank
  | line text => cases isBlank
  | literal text | comment text | lineBreak | indent level => rfl

/-- What stands between the pieces opens and closes no brackets. -/
theorem nest_masked_layout (settings : LayoutSettings) (pieces : List Piece)
    (before : Option Spacing) (opened : List Bracket) :
    nest opened (itemsText settings (layoutAfter before (pieces.map Piece.masked))) =
      nest opened (brackets pieces) := by
  induction pieces generalizing before opened with
  | nil => simp [layoutAfter, brackets]
  | cons piece pieces ih =>
    have parts : brackets (piece :: pieces) = piece.counted.toList ++ brackets pieces := rfl
    rw [List.map_cons, layoutAfter, parts]
    by_cases isBlank : piece.masked.isBlank = true
    · rw [if_pos isBlank, ih, counted_of_isBlank isBlank]
      simp
    · have space {c : Prop} [Decidable c] :
          nest opened (itemsText settings (if c then [Item.fragment " "] else [])) = some opened := by
        split <;> simp [Item.render, nest, nestChar, bracketMark]
      rw [if_neg isBlank, itemsText_append, itemsText_append, List.append_assoc, nest_append, space,
        Option.bind_some, nest_append, nest_append, nest_masked_items]
      simp only [ih]

/-- Line breaks at the end open and close no brackets. -/
theorem nest_breaks (settings : LayoutSettings) {items : List Item}
    (breaks : ∀ item ∈ items, item.isBreak = true) (opened : List Bracket) :
    nest opened (itemsText settings items) = some opened := by
  induction items with
  | nil => simp [nest]
  | cons item items ih =>
    obtain ⟨isBreak, others⟩ := List.forall_mem_cons.1 breaks
    cases item with
    | lineBreak => simp [Item.render, nest_append, nest_lineEnding, ih others]
    | fragment text | indent level => cases isBreak

/-- The line breaks at the end of some items are left out, and one is added. -/
theorem nest_render (settings : LayoutSettings) (items : List Item) (opened : List Bracket) :
    nest opened (render settings items).toList = nest opened (itemsText settings items) := by
  have parts : items = (items.reverse.dropWhile Item.isBreak).reverse ++
      (items.reverse.takeWhile Item.isBreak).reverse := by
    rw [← List.reverse_append, List.takeWhile_append_dropWhile, List.reverse_reverse]
  have breaks : ∀ item ∈ (items.reverse.takeWhile Item.isBreak).reverse, item.isBreak = true :=
    fun item member => List.mem_takeWhile_imp (List.mem_reverse.1 member)
  have ending : (nest · settings.lineEnding.text.toList) = some :=
    funext (nest_lineEnding settings.lineEnding)
  have left_out : (nest · (itemsText settings (items.reverse.takeWhile Item.isBreak).reverse)) = some :=
    funext (nest_breaks settings breaks)
  rw [render, String.toList_append, nest_append, ending, Option.bind_fun_some]
  conv_rhs => rw [parts, itemsText_append, nest_append, left_out, Option.bind_fun_some]
  rfl

end Masked

/-- In a source without typed lambdas in tuples, the brackets of the output are properly nested and
balanced.  Those in copied literals and comments do not count. -/
theorem balanced_of_tame {text : String} {tokens : List Token} {program : Program}
    (read : tokenize text = .ok tokens) (tame : (Source.ofTokens read).Tame)
    (converted : Program.ofSource text = .ok program) (settings : LayoutSettings) :
    Balanced (program.masked.text settings) := by
  have moves := (Program.pieces_sound read converted).2.moves tame
  rw [Balanced, Program.text, nest_render, Program.masked, layout, nest_masked_layout]
  exact moves

/-- A tuple among the arguments, and brackets in a literal and in a comment. -/
theorem balanced_of_tame_tuple : ∃ tokens program, ∃ read : tokenize "f (a ~ b, \")\"); // (" = .ok tokens,
      (Source.ofTokens read).Tame ∧ Program.ofSource "f (a ~ b, \")\"); // (" = .ok program ∧
      program.text {} = "f((a, b), \")\");\r\n// (\r\n" ∧ Balanced (program.masked.text {}) := by
  obtain ⟨tokens, read, arrows⟩ : ∃ tokens, tokenize "f (a ~ b, \")\"); // (" = .ok tokens ∧
      tokens.any (·.isOp "=>") = false := exists_of_toOption (by decide +kernel)
  obtain ⟨program, converted, text⟩ : ∃ program, Program.ofSource "f (a ~ b, \")\"); // (" = .ok program ∧
      program.text {} = "f((a, b), \")\");\r\n// (\r\n" := exists_of_toOption (by decide +kernel)
  have tame : (Source.ofTokens read).Tame := by
    rintro ⟨-, -, ⟨t, member, isArrow⟩, -⟩
    exact absurd isArrow (List.any_eq_false.1 arrows t member)
  exact ⟨tokens, program, read, tame, converted, text, balanced_of_tame read tame converted {}⟩

/-- The comma closes the tuple, and the lambda drops what was written since its first parameter, the
closing parenthesis too. -/
theorem unbalanced_tuple_lambda : ∃ program, Program.ofSource "x = a ~ b: int, c: int => d;" = .ok program ∧
      program.text {} = "x = (a, (int b, int c) => d;\r\n" ∧
      ¬ Balanced (program.masked.text {}) := by
  obtain ⟨program, converted, texts⟩ : ∃ program, Program.ofSource "x = a ~ b: int, c: int => d;" = .ok program ∧
      (program.text {}, program.masked.text {}) =
        ("x = (a, (int b, int c) => d;\r\n", "x = (a, (int b, int c) => d;\r\n") :=
    exists_of_toOption (by decide +kernel)
  obtain ⟨text, masked⟩ := Prod.mk.inj texts
  refine ⟨program, converted, text, ?_⟩
  rw [masked]
  decide

/-! ## Literals -/

/-- In a source without switches and properties, the output holds the literals of the source, each as
often as the source. -/
theorem copiedLiterals_of_direct {text : String} {tokens : List Token} {program : Program}
    (read : tokenize text = .ok tokens) (direct : (Source.ofTokens read).Direct)
    (converted : Program.ofSource text = .ok program) :
    copiedLiterals program.pieces = literals tokens :=
  ((Program.pieces_sound read converted).1.literals_eq direct).symm

/-- Two literals with the same text. -/
theorem copiedLiterals_of_direct_twice :
    ∃ tokens program, ∃ read : tokenize "x = f(\"a\", 1) + \"a\";" = .ok tokens, (Source.ofTokens read).Direct ∧
      Program.ofSource "x = f(\"a\", 1) + \"a\";" = .ok program ∧
      copiedLiterals program.pieces = literals tokens := by
  obtain ⟨tokens, read, words⟩ : ∃ tokens, tokenize "x = f(\"a\", 1) + \"a\";" = .ok tokens ∧
      tokens.any (fun t => t.isKeyword "switch" || t.isKeyword "prop") = false :=
    exists_of_toOption (by decide +kernel)
  obtain ⟨program, converted, -⟩ : ∃ program, Program.ofSource "x = f(\"a\", 1) + \"a\";" = .ok program ∧
      program.text {} = "x = f(\"a\", 1) + \"a\";\r\n" := exists_of_toOption (by decide +kernel)
  have direct : (Source.ofTokens read).Direct := fun t member => by
    simpa using List.any_eq_false.1 words t member
  exact ⟨tokens, program, read, direct, converted, copiedLiterals_of_direct read direct converted⟩

/-- The body of the arm reaches up to the `;`, but its first statement ends before that, and what
follows it is left out. -/
theorem literal_lost_in_section :
    ∃ tokens program, tokenize "switch x \x7b 1 => if a \x7b \x7d g(\"lit\"); \x7d" = .ok tokens ∧
      Program.ofSource "switch x \x7b 1 => if a \x7b \x7d g(\"lit\"); \x7d" = .ok program ∧
      "\"lit\"" ∈ literals tokens ∧ "\"lit\"" ∉ copiedLiterals program.pieces := by
  obtain ⟨tokens, read, held⟩ : ∃ tokens,
      tokenize "switch x \x7b 1 => if a \x7b \x7d g(\"lit\"); \x7d" = .ok tokens ∧
      decide ("\"lit\"" ∈ literals tokens) = true := exists_of_toOption (by decide +kernel)
  obtain ⟨program, converted, lost⟩ : ∃ program,
      Program.ofSource "switch x \x7b 1 => if a \x7b \x7d g(\"lit\"); \x7d" = .ok program ∧
      decide ("\"lit\"" ∈ copiedLiterals program.pieces) = false :=
    exists_of_toOption (by decide +kernel)
  exact ⟨tokens, program, read, converted, of_decide_eq_true held, of_decide_eq_false lost⟩

end Sharp
