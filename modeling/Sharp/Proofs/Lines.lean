import Sharp.Layout.Write

/-!
# Lines

Which spaces are written must not depend on the settings.  It could where an indent of no width stands
between two pieces that need a space, and the end of the output could where white space or a text with
a line break of its own stands in front of the last line breaks.

* `write_eq_render`: such pieces are written as their layout says, whatever the settings are.
-/

namespace Sharp

/-- The text does not end in a line break. -/
def OnLine (text : String) : Prop := text.toList.getLast? ≠ some '\n'

instance (text : String) : Decidable (OnLine text) := inferInstanceAs (Decidable (_ ≠ _))

/-- Is there no space after what is spaced like this, whatever follows? -/
def Spacing.isQuiet : Spacing → Bool
  | .raw | .opening | .dot | .leadingOperator => true
  | _ => false

/-- What the pieces so far allow to follow. -/
inductive LineState where
  /-- White space in front of a line comes last: neither further white space nor a line break may
  follow. -/
  | indented
  /-- A text comes last that may need a space after it: no white space may follow. -/
  | loud
  /-- Anything may follow. -/
  | quiet
  deriving DecidableEq

variable {q r q' s : LineState} {before before' : Option Spacing} {pieces : List Piece} {text : String}

namespace LineState

def rank : LineState → Nat
  | indented => 0
  | loud => 1
  | quiet => 2

/-- What may follow the one may follow the other. -/
instance : LE LineState := ⟨fun q r => q.rank ≤ r.rank⟩

instance (q r : LineState) : Decidable (q ≤ r) := inferInstanceAs (Decidable (q.rank ≤ r.rank))

theorem le_refl (q : LineState) : q ≤ q := Nat.le_refl q.rank

theorem le_trans (first : q ≤ r) (second : r ≤ s) : q ≤ s := Nat.le_trans first second

theorem le_quiet (q : LineState) : q ≤ quiet := by
  cases q <;> decide

theorem indented_le (q : LineState) : indented ≤ q := by
  cases q <;> decide

theorem eq_quiet (le : quiet ≤ q) : q = quiet := by
  cases q with
  | quiet => rfl
  | indented | loud => exact absurd le (by decide)

theorem ne_indented (le : q ≤ r) (settled : q ≠ indented) : r ≠ indented := by
  rintro rfl
  cases q with
  | indented => exact settled rfl
  | loud | quiet => exact absurd le (by decide)

theorem le_loud (other : q ≠ quiet) : q ≤ loud := by
  cases q with
  | quiet => exact absurd rfl other
  | loud => exact le_refl loud
  | indented => exact indented_le loud

theorem loud_le (settled : q ≠ indented) : loud ≤ q := by
  cases q with
  | indented => exact absurd rfl settled
  | loud => exact le_refl loud
  | quiet => exact le_quiet loud

def ofSpacing (spacing : Spacing) : LineState :=
  if spacing.isQuiet then quiet else loud

theorem loud_le_ofSpacing (spacing : Spacing) : loud ≤ ofSpacing spacing := by
  cases spacing <;> decide

end LineState

/-- The pieces lead from one state to another. -/
inductive Lines : LineState → List Piece → LineState → Prop where
  | nil {q q' : LineState} (le : q' ≤ q) : Lines q [] q'
  | blank {q q' : LineState} {piece : Piece} {pieces : List Piece} (isBlank : piece.isBlank = true)
      (others : Lines q pieces q') : Lines q (piece :: pieces) q'
  | code {q q' : LineState} {text : String} {spacing : Spacing} {pieces : List Piece}
      (nonempty : text ≠ "") (onLine : OnLine text)
      (others : Lines (.ofSpacing spacing) pieces q') : Lines q (.code text spacing :: pieces) q'
  | literal {q q' : LineState} {text : String} {pieces : List Piece} (nonempty : text ≠ "")
      (onLine : OnLine text) (others : Lines .loud pieces q') : Lines q (.literal text :: pieces) q'
  | comment {q q' : LineState} {text : String} {pieces : List Piece} (nonempty : text ≠ "")
      (onLine : OnLine text) (others : Lines .quiet pieces q') :
      Lines q (.comment text :: pieces) q'
  | lineBreak {q q' : LineState} {pieces : List Piece} (settled : q ≠ .indented)
      (others : Lines .quiet pieces q') : Lines q (.lineBreak :: pieces) q'
  | line {q q' : LineState} {text : String} {pieces : List Piece} (nonempty : text ≠ "")
      (onLine : OnLine text) (others : Lines .quiet pieces q') : Lines q (.line text :: pieces) q'
  | indent {q' : LineState} {level : Nat} {pieces : List Piece} (others : Lines .indented pieces q') :
      Lines .quiet (.indent level :: pieces) q'

namespace Lines

variable {r' : LineState} {pieces' : List Piece}

/-- What follows a state may follow any state that allows more. -/
theorem mono (lines : Lines q pieces q') (le : q ≤ r) : Lines r pieces q' := by
  induction lines generalizing r with
  | nil le' => exact .nil (LineState.le_trans le' le)
  | blank isBlank others ih => exact .blank isBlank (ih le)
  | code nonempty onLine others _ => exact .code nonempty onLine others
  | literal nonempty onLine others _ => exact .literal nonempty onLine others
  | comment nonempty onLine others _ => exact .comment nonempty onLine others
  | lineBreak settled others _ => exact .lineBreak (LineState.ne_indented le settled) others
  | line nonempty onLine others _ => exact .line nonempty onLine others
  | indent others _ =>
    rw [LineState.eq_quiet le]
    exact .indent others

theorem append (first : Lines q pieces q') (second : Lines q' pieces' r) : Lines q (pieces ++ pieces') r := by
  induction first with
  | nil le => exact second.mono le
  | blank isBlank _ ih => exact .blank isBlank (ih second)
  | code nonempty onLine _ ih => exact .code nonempty onLine (ih second)
  | literal nonempty onLine _ ih => exact .literal nonempty onLine (ih second)
  | comment nonempty onLine _ ih => exact .comment nonempty onLine (ih second)
  | lineBreak settled _ ih => exact .lineBreak settled (ih second)
  | line nonempty onLine _ ih => exact .line nonempty onLine (ih second)
  | indent _ ih => exact .indent (ih second)

/-- The state at the end may be taken for one that allows less. -/
theorem weaken (lines : Lines q pieces q') (le : r ≤ q') : Lines q pieces r := by
  have := lines.append (.nil le)
  rwa [List.append_nil] at this

theorem refl : Lines q [] q := .nil (LineState.le_refl q)

/-- The pieces can be taken apart anywhere. -/
theorem of_append (lines : Lines q (pieces ++ pieces') q') : ∃ r, Lines q pieces r ∧ Lines r pieces' q' := by
  induction pieces generalizing q with
  | nil => exact ⟨q, .refl, lines⟩
  | cons piece pieces ih =>
    cases lines with
    | blank isBlank others =>
      obtain ⟨r, first, second⟩ := ih others
      exact ⟨r, .blank isBlank first, second⟩
    | code nonempty onLine others =>
      obtain ⟨r, first, second⟩ := ih others
      exact ⟨r, .code nonempty onLine first, second⟩
    | literal nonempty onLine others =>
      obtain ⟨r, first, second⟩ := ih others
      exact ⟨r, .literal nonempty onLine first, second⟩
    | comment nonempty onLine others =>
      obtain ⟨r, first, second⟩ := ih others
      exact ⟨r, .comment nonempty onLine first, second⟩
    | lineBreak settled others =>
      obtain ⟨r, first, second⟩ := ih others
      exact ⟨r, .lineBreak settled first, second⟩
    | line nonempty onLine others =>
      obtain ⟨r, first, second⟩ := ih others
      exact ⟨r, .line nonempty onLine first, second⟩
    | indent others =>
      obtain ⟨r, first, second⟩ := ih others
      exact ⟨r, .indent first, second⟩

end Lines

/-! ## Spaces -/

/-- Neither spacing needs a space after it. -/
def Quiet (before : Option Spacing) : Prop := ∀ spacing ∈ before, spacing.isQuiet = true

theorem needsSpace_of_isQuiet {spacing : Spacing} (quiet : spacing.isQuiet = true) (next : Spacing) :
    needsSpace spacing next = false := by
  cases spacing <;> cases next <;> first | rfl | cases quiet

theorem Quiet.any_needsSpace (quiet : Quiet before) (next : Spacing) : before.any (needsSpace · next) = false := by
  cases before with
  | none => rfl
  | some spacing => exact needsSpace_of_isQuiet (quiet spacing rfl) next

/-- The two spacings decide alike whether a space follows, also if white space comes in between. -/
def Agree (q : LineState) (before before' : Option Spacing) : Prop :=
  (before = before' ∨ Quiet before ∧ Quiet before') ∧ (q = .quiet → Quiet before ∧ Quiet before')

section Agree

theorem Agree.any_needsSpace (agree : Agree q before before') (next : Spacing) :
    before.any (needsSpace · next) = before'.any (needsSpace · next) := by
  rcases agree.1 with rfl | ⟨quiet, quiet'⟩
  · rfl
  · rw [quiet.any_needsSpace, quiet'.any_needsSpace]

/-- Right after a text, both are its spacing. -/
theorem agree_ofSpacing (spacing : Spacing) : Agree (.ofSpacing spacing) (some spacing) (some spacing) := by
  refine ⟨.inl rfl, fun quiet => ?_⟩
  have isQuiet : spacing.isQuiet = true := by
    unfold LineState.ofSpacing at quiet
    split at quiet
    · assumption
    · cases quiet
  have both : Quiet (some spacing) := by simpa [Quiet] using isQuiet
  exact ⟨both, both⟩

theorem Agree.of_raw (quiet : Quiet before) : Agree q before (some .raw) := by
  have raw : Quiet (some .raw) := by simp [Quiet, Spacing.isQuiet]
  exact ⟨.inr ⟨quiet, raw⟩, fun _ => ⟨quiet, raw⟩⟩

end Agree

theorem LineEnding.text_ne_empty (ending : LineEnding) : ending.text.isEmpty = false := by
  cases ending <;> decide

section Spaces

variable {settings : LayoutSettings} {piece : Piece}

/-- The text of a piece is that of its items. -/
theorem concat_items (settings : LayoutSettings) (piece : Piece) :
    concat (piece.items.map (Item.render settings)) = piece.text settings := by
  cases piece <;> simp [Piece.items, Piece.text, Item.render, concat]

theorem writeAfter_of_blank (isBlank : piece.isBlank = true) :
    writeAfter settings before (piece :: pieces) = writeAfter settings before pieces := by
  have empty : (piece.text settings).isEmpty = true := by
    cases piece <;> first | exact isBlank | cases isBlank
  rw [writeAfter, if_pos empty]

/-- A piece with a text is written, and laid out, after a space if it needs one. -/
theorem writeAfter_cons_eq (agree : before.any (needsSpace · piece.spacing) =
      before'.any (needsSpace · piece.spacing))
    (text : (piece.text settings).isEmpty = false) (isBlank : piece.isBlank = false)
    (others : writeAfter settings (some piece.spacing) pieces =
      concat ((layoutAfter (some piece.spacing) pieces).map (Item.render settings))) :
    writeAfter settings before (piece :: pieces) =
      concat ((layoutAfter before' (piece :: pieces)).map (Item.render settings)) := by
  rw [writeAfter, layoutAfter, text, isBlank, if_neg Bool.false_ne_true, if_neg Bool.false_ne_true,
    List.map_append, List.map_append, concat_append, concat_append, concat_items, others, agree]
  congr 2
  split <;> simp [concat, Item.render]

/-- The writer and the layout put the same spaces. -/
theorem writeAfter_eq (lines : Lines q pieces q') (agree : Agree q before before') :
    writeAfter settings before pieces = concat ((layoutAfter before' pieces).map (Item.render settings)) := by
  induction lines generalizing before before' with
  | nil => rfl
  | blank isBlank _ ih =>
    rw [writeAfter_of_blank isBlank, layoutAfter, if_pos isBlank]
    exact ih agree
  | code nonempty _ _ ih =>
    exact writeAfter_cons_eq (agree.any_needsSpace _) (by simpa [Piece.text] using nonempty)
      (by simpa [Piece.isBlank] using nonempty) (ih (agree_ofSpacing _))
  | literal nonempty _ _ ih =>
    exact writeAfter_cons_eq (agree.any_needsSpace _) (by simpa [Piece.text] using nonempty)
      (by simpa [Piece.isBlank] using nonempty) (ih (agree_ofSpacing .word))
  | comment nonempty _ _ ih =>
    exact writeAfter_cons_eq (agree.any_needsSpace _) (by simpa [Piece.text] using nonempty)
      (by simpa [Piece.isBlank] using nonempty) (ih (agree_ofSpacing .raw))
  | lineBreak _ _ ih =>
    exact writeAfter_cons_eq (agree.any_needsSpace _) (LineEnding.text_ne_empty _) rfl (ih (agree_ofSpacing .raw))
  | line nonempty _ _ ih =>
    exact writeAfter_cons_eq (agree.any_needsSpace _) (by simp [Piece.text, nonempty]) rfl
      (ih (agree_ofSpacing .raw))
  | @indent q' level pieces _ ih =>
    obtain ⟨quiet, quiet'⟩ := agree.2 rfl
    cases empty : ((Piece.indent level).text settings).isEmpty with
    | false =>
      have raw : Quiet (some .raw) := by simp [Quiet, Spacing.isQuiet]
      exact writeAfter_cons_eq (agree.any_needsSpace _) empty rfl (ih (.of_raw raw))
    | true =>
      -- White space of no width leaves the writer with what came before it.
      have none : (Item.indent level).render settings = "" := by
        simpa [Piece.text, Item.render] using empty
      rw [writeAfter, if_pos empty, ih (.of_raw quiet), layoutAfter, if_neg (by simp [Piece.isBlank]),
        quiet'.any_needsSpace]
      simp [Piece.items, concat, none, Piece.spacing]

end Spaces

/-! ## The end of the output -/

/-- What is left without the line breaks at the end is nothing, or ends in a text that does not end
in a line break. -/
def Settled (items : List Item) : Prop :=
  ∃ (body : List Item) (count : Nat), items = body ++ List.replicate count .lineBreak ∧
    (body = [] ∨ ∃ front text, body = front ++ [Item.fragment text] ∧ text ≠ "" ∧ OnLine text)

section Settled

variable {items : List Item}

theorem settled_nil : Settled [] := ⟨[], 0, rfl, .inl rfl⟩

theorem Settled.lineBreak (settled : Settled items) : Settled (items ++ [Item.lineBreak]) := by
  obtain ⟨body, count, rfl, ends⟩ := settled
  exact ⟨body, count + 1, by rw [List.replicate_succ', List.append_assoc], ends⟩

theorem settled_fragment (front : List Item) (nonempty : text ≠ "") (onLine : OnLine text) :
    Settled (front ++ [Item.fragment text]) :=
  ⟨front ++ [Item.fragment text], 0, by simp, .inr ⟨front, text, rfl, nonempty, onLine⟩⟩

/-- Unless white space comes last, the items are settled. -/
theorem settled_layoutAfter (lines : Lines q pieces q') (settled : q ≠ .indented → Settled items) :
    q' ≠ .indented → Settled (items ++ layoutAfter before pieces) := by
  have text_settled (items space : List Item) {text : String} (nonempty : text ≠ "")
      (onLine : OnLine text) : Settled (items ++ (space ++ [Item.fragment text])) := by
    rw [← List.append_assoc]
    exact settled_fragment _ nonempty onLine
  induction lines generalizing items before with
  | nil le =>
    intro stop
    rw [layoutAfter, List.append_nil]
    exact settled (LineState.ne_indented le stop)
  | blank isBlank _ ih =>
    rw [layoutAfter, if_pos isBlank]
    exact ih settled
  | code nonempty onLine _ ih | literal nonempty onLine _ ih | comment nonempty onLine _ ih =>
    rw [layoutAfter, if_neg (by simpa [Piece.isBlank] using nonempty), ← List.append_assoc]
    exact ih fun _ => text_settled _ _ nonempty onLine
  | lineBreak stop _ ih =>
    rw [layoutAfter, if_neg (by simp [Piece.isBlank]), ← List.append_assoc]
    refine ih fun _ => ?_
    have noSpace : before.any (needsSpace · Piece.lineBreak.spacing) = false := by
      cases before with
      | none => rfl
      | some spacing => cases spacing <;> rfl
    rw [noSpace]
    exact (settled stop).lineBreak
  | @line q q' text pieces nonempty onLine _ ih =>
    rw [layoutAfter, if_neg (by simp [Piece.isBlank]), ← List.append_assoc]
    refine ih fun _ => ?_
    have last := (text_settled items (if before.any (needsSpace · (Piece.line text).spacing) then
      [.fragment " "] else []) nonempty onLine).lineBreak
    simpa [Piece.items, List.append_assoc] using last
  | indent _ ih =>
    rw [layoutAfter, if_neg (by simp [Piece.isBlank]), ← List.append_assoc]
    exact ih fun stop => absurd rfl stop

theorem settled_layout (lines : Lines .quiet pieces .loud) : Settled (layout pieces) := by
  have settled : Settled ([] ++ layoutAfter none pieces) :=
    settled_layoutAfter lines (fun _ => settled_nil) nofun
  rwa [List.nil_append] at settled

end Settled

section Endings

variable {front cs : List Char}

theorem dropCopies_append (nonempty : front ≠ []) (cs : List Char) :
    dropCopies front (front ++ cs) = dropCopies front cs := by
  have copy : front ≠ [] ∧ front.isPrefixOf (front ++ cs) = true :=
    ⟨nonempty, List.isPrefixOf_iff_prefix.2 (List.prefix_append front cs)⟩
  rw [dropCopies, if_pos copy, List.drop_left]

theorem dropCopies_replicate (nonempty : front ≠ []) (count : Nat) (cs : List Char) :
    dropCopies front ((List.replicate count front).flatten ++ cs) = dropCopies front cs := by
  induction count with
  | zero => rfl
  | succ count ih =>
    rw [List.replicate_succ, List.flatten_cons, List.append_assoc, dropCopies_append nonempty, ih]

theorem dropCopies_of_not_prefix (other : ¬ front <+: cs) : dropCopies front cs = cs := by
  rw [dropCopies, if_neg]
  rintro ⟨-, copy⟩
  exact other (List.isPrefixOf_iff_prefix.1 copy)

/-- Read backwards, every line ending starts with the same character. -/
theorem LineEnding.reverse_text (ending : LineEnding) : ∃ cs, ending.text.toList.reverse = '\n' :: cs := by
  cases ending with
  | crlf => exact ⟨['\r'], rfl⟩
  | lf => exact ⟨[], rfl⟩

theorem reverse_concat_replicate (ending : String) (count : Nat) :
    (concat (List.replicate count ending)).toList.reverse =
      (List.replicate count ending.toList.reverse).flatten := by
  induction count with
  | zero => rfl
  | succ count ih =>
    rw [List.replicate_succ, concat, String.toList_append, List.reverse_append, ih,
      List.replicate_succ', List.flatten_append, List.flatten_singleton]

/-- The breaks at the end of a text are dropped, provided that the text does not end in a break of
its own. -/
theorem withoutEndings_append (ending : LineEnding) (onLine : OnLine text) (count : Nat) :
    withoutEndings ending.text (text ++ concat (List.replicate count ending.text)) = text := by
  obtain ⟨cs, reversed⟩ := ending.reverse_text
  have other : ¬ ending.text.toList.reverse <+: text.toList.reverse := by
    rintro ⟨others, same⟩
    rw [reversed] at same
    refine onLine ?_
    rw [← List.head?_reverse, ← same]
    rfl
  rw [withoutEndings, String.toList_append, List.reverse_append, reverse_concat_replicate,
    dropCopies_replicate (by simp [reversed]), dropCopies_of_not_prefix other, List.reverse_reverse,
    String.ofList_toList]

end Endings

theorem dropWhile_isBreak (body : List Item) (count : Nat)
    (ends : body = [] ∨ ∃ front text, body = front ++ [Item.fragment text]) :
    ((body ++ List.replicate count Item.lineBreak).reverse.dropWhile Item.isBreak).reverse = body := by
  have breaks : ∀ item ∈ List.replicate count Item.lineBreak, item.isBreak = true :=
    fun item member => (List.eq_of_mem_replicate member) ▸ rfl
  rw [List.reverse_append, List.reverse_replicate, List.dropWhile_append_of_pos breaks]
  rcases ends with rfl | ⟨front, text, rfl⟩
  · rfl
  · rw [List.reverse_append, List.reverse_singleton, List.singleton_append,
      List.dropWhile_cons_of_neg (by simp [Item.isBreak]), List.reverse_cons, List.reverse_reverse]

/-- Items that are settled end alike as text, once the breaks at the end are dropped. -/
theorem Settled.render_eq {items : List Item} (settled : Settled items) (settings : LayoutSettings) :
    render settings items = withoutEndings settings.lineEnding.text (concat (items.map (Item.render settings))) ++
        settings.lineEnding.text := by
  obtain ⟨body, count, rfl, ends⟩ := settled
  have onLine : OnLine (concat (body.map (Item.render settings))) := by
    rcases ends with rfl | ⟨front, text, rfl, nonempty, onLine⟩
    · exact (by decide : OnLine "")
    · rw [List.map_append, concat_append]
      simpa [OnLine, concat, Item.render, nonempty] using onLine
  have ends : body = [] ∨ ∃ front text, body = front ++ [Item.fragment text] := by
    obtain same | ⟨front, text, same, -⟩ := ends
    · exact .inl same
    · exact .inr ⟨front, text, same⟩
  rw [render, dropWhile_isBreak body count ends, List.map_append, List.map_replicate, concat_append]
  exact congrArg (· ++ settings.lineEnding.text) (withoutEndings_append settings.lineEnding onLine count).symm

/-- The pieces are written as their layout says. -/
theorem write_eq_render (settings : LayoutSettings) (lines : Lines .quiet pieces .loud) :
    write settings pieces = render settings (layout pieces) := by
  have start : Agree .quiet none none := by simp [Agree, Quiet]
  rw [write, writeAfter_eq lines start, (settled_layout lines).render_eq]
  rfl

end Sharp
