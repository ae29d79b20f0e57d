import Sharp.Draft
import Sharp.Layout.Item

/-!
# What drafts write

The text of a piece depends on the piece before it only through its spacing.  So what a draft writes
can be put together from what its parts write, each from the spacing that the part before it leaves.

* `Draft.Writes`: a draft gives a value and is written as a text.
-/

namespace Sharp

/-- Nothing is spaced from formatted text, just as at the start. -/
theorem layoutAfter_raw (pieces : List Piece) : layoutAfter (some .raw) pieces = layoutAfter none pieces := by
  induction pieces with
  | nil => rfl
  | cons piece pieces ih => simp [layoutAfter, needsSpace, ih]

section Lays

variable (settings : LayoutSettings)

/-- From the spacing `before` on, the pieces are written `text`, and they leave the spacing
`after`. -/
def Lays (before : Option Spacing) (pieces : List Piece) (text : String) (after : Option Spacing) : Prop :=
  ∀ more, ∃ items, layoutAfter before (pieces ++ more) = items ++ layoutAfter after more ∧
    concat (items.map (Item.render settings)) = text

variable {settings} {before middle after : Option Spacing} {pieces more : List Piece} {text text' : String}

theorem Lays.nil : Lays settings before [] "" before := fun _ => ⟨[], rfl, rfl⟩

theorem Lays.append (first : Lays settings before pieces text middle)
    (second : Lays settings middle more text' after) :
    Lays settings before (pieces ++ more) (text ++ text') after := by
  intro rest
  obtain ⟨items, laid, rfl⟩ := first (more ++ rest)
  obtain ⟨items', laid', rfl⟩ := second rest
  refine ⟨items ++ items', ?_, by simp⟩
  rw [List.append_assoc, laid, laid', List.append_assoc]

/-- A piece that is not blank is written with the space in front of it that it needs. -/
theorem lays_piece {piece : Piece} (written : piece.isBlank = false)
    (same : (if before.any (needsSpace · piece.spacing) then " " else "") ++
      concat (piece.items.map (Item.render settings)) = text) :
    Lays settings before [piece] text (some piece.spacing) := by
  intro rest
  refine ⟨(if before.any (needsSpace · piece.spacing) then [Item.fragment " "] else []) ++ piece.items, ?_, ?_⟩
  · simp [layoutAfter, written]
  · rw [← same]
    split <;> simp [concat, Item.render]

@[simp] theorem needsSpace_raw (spacing : Spacing) : needsSpace spacing .raw = false := by
  cases spacing <;> rfl

/-- Formatted text leaves no trace. -/
theorem Lays.of_raw (laid : Lays settings before pieces text (some .raw)) :
    Lays settings before pieces text none := by
  intro rest
  obtain ⟨items, laid, written⟩ := laid rest
  exact ⟨items, by rw [laid, layoutAfter_raw], written⟩

theorem lays_raw {text : String} (nonempty : text ≠ "") : Lays settings before [.raw text] text none := by
  refine Lays.of_raw (lays_piece ?_ ?_)
  · simp [Piece.raw, Piece.isBlank, nonempty]
  · simp [Piece.raw, Piece.spacing, Piece.items, concat, Item.render]

theorem lays_lineBreak : Lays settings before [.lineBreak] settings.lineEnding.text none := by
  refine Lays.of_raw (lays_piece rfl ?_)
  simp [Piece.spacing, Piece.items, concat, Item.render]

theorem lays_line (text : String) : Lays settings before [.line text] (text ++ settings.lineEnding.text) none := by
  refine Lays.of_raw (lays_piece rfl ?_)
  simp [Piece.spacing, Piece.items, concat, Item.render]

/-- The white space in front of a line. -/
def indentation (settings : LayoutSettings) (level : Nat) : String :=
  String.ofList (List.replicate (level * settings.indentWidth) ' ')

theorem lays_indents (level : Nat) :
    Lays settings none (Piece.indents level) (indentation settings level) none := by
  cases level with
  | zero => simpa [Piece.indents, indentation] using Lays.nil
  | succ level =>
    refine Lays.of_raw (lays_piece rfl ?_)
    simp [indentation, Piece.items, concat, Item.render]

end Lays

/-- The draft gives `value`, and from the spacing `before` on it is written `text` and leaves the
spacing `after`. -/
def Draft.Writes {α : Type} (settings : LayoutSettings) (draft : Draft α) (value : α)
    (before : Option Spacing) (text : String) (after : Option Spacing) : Prop :=
  ∃ output, draft = .done value output ∧ Lays settings before output.pieces text after

namespace Draft.Writes

variable {α β : Type} {settings : LayoutSettings} {before middle after : Option Spacing}

variable {text text' : String}

theorem cast {draft : Draft α} {value : α} (written : Writes settings draft value before text after)
    (same : text = text') : Writes settings draft value before text' after :=
  same ▸ written

theorem pure (value : α) : Writes settings (Pure.pure value) value before "" before :=
  ⟨_, rfl, Lays.nil⟩

theorem bind {draft : Draft α} {next : α → Draft β} {a : α} {b : β}
    (first : Writes settings draft a before text middle)
    (second : Writes settings (next a) b middle text' after) :
    Writes settings (draft >>= next) b before (text ++ text') after := by
  obtain ⟨output, rfl, laid⟩ := first
  obtain ⟨output', done, laid'⟩ := second
  exact ⟨_, by rw [Logged.done_bind, done]; rfl, laid.append laid'⟩

theorem emit {pieces : List Piece} (laid : Lays settings before pieces text after) :
    Writes settings (Sharp.emit pieces) () before text after :=
  ⟨_, rfl, laid⟩

theorem ofReading {reading : Reading α} {value : α} {notes : List Note} (read : reading = .done value notes) :
    Writes settings (liftM reading) value before "" before :=
  ⟨_, by rw [read]; rfl, Lays.nil⟩

end Draft.Writes

/-! ## The last line -/

/-- The last piece that the draft produces is a line with the given text. -/
def Draft.EndsLine {α : Type} (draft : Draft α) (text : String) : Prop :=
  ∀ value output, draft = .done value output → ∃ front, output.pieces = front ++ [Piece.line text]

namespace Draft.EndsLine

variable {α β : Type} {text : String}

theorem emit (front : List Piece) : EndsLine (Sharp.emit (front ++ [Piece.line text])) text := by
  rintro _ _ ⟨⟩
  exact ⟨front, rfl⟩

theorem bind {draft : Draft α} {next : α → Draft β} (ends : ∀ a, (next a).EndsLine text) :
    EndsLine (draft >>= next) text := by
  intro value output done
  obtain ⟨a, u, v, -, second, rfl⟩ := Logged.bind_eq_done.1 done
  obtain ⟨front, pieces⟩ := ends a value v second
  exact ⟨u.pieces ++ front, by simp [Log.append, pieces]⟩

theorem bind_pure {draft : Draft α} {value : α → β} (ends : draft.EndsLine text) :
    EndsLine (draft >>= fun a => Pure.pure (value a)) text := by
  intro _ output done
  obtain ⟨a, u, v, first, ⟨⟩, rfl⟩ := Logged.bind_eq_done.1 done
  rw [Log.append_none]
  exact ends a u first

end Draft.EndsLine

theorem exists_layoutAfter_append (before : Option Spacing) (front back : List Piece) :
    ∃ items middle, layoutAfter before (front ++ back) = items ++ layoutAfter middle back := by
  induction front generalizing before with
  | nil => exact ⟨[], before, rfl⟩
  | cons piece front ih =>
    rw [List.cons_append, layoutAfter]
    split
    · exact ih before
    · obtain ⟨items, middle, laid⟩ := ih (some piece.spacing)
      exact ⟨_, middle, by rw [laid, ← List.append_assoc]⟩

theorem exists_layoutAfter_line (before : Option Spacing) (front : List Piece) (text : String) :
    ∃ items, layoutAfter before (front ++ [Piece.line text]) = items ++ [Item.fragment text, .lineBreak] := by
  obtain ⟨items, middle, laid⟩ := exists_layoutAfter_append before front [.line text]
  exact ⟨items, by rw [laid]; cases middle <;> simp [layoutAfter, Piece.isBlank, Piece.spacing, Piece.items]⟩

/-- Pieces whose last items are a text and a line break are rendered as they are laid out. -/
theorem render_layout_of_ends {settings : LayoutSettings} {pieces : List Piece} {items : List Item}
    {last text : String} (ends : layoutAfter none pieces = items ++ [.fragment last, .lineBreak])
    (laid : Lays settings none pieces text none) : render settings (layout pieces) = text := by
  obtain ⟨items', same, rfl⟩ := laid []
  rw [List.append_nil, layoutAfter, List.append_nil, ends] at same
  rw [layout, ends, ← same, render]
  simp [List.dropWhile_cons, Item.isBreak, Item.render, concat, String.append_assoc]

theorem render_layout_line {settings : LayoutSettings} {front : List Piece} {last text : String}
    (laid : Lays settings none (front ++ [Piece.line last]) text none) :
    render settings (layout (front ++ [Piece.line last])) = text := by
  obtain ⟨items, ends⟩ := exists_layoutAfter_line none front last
  exact render_layout_of_ends ends laid

end Sharp
