import Sharp.Proofs.Enclosing

/-!
# Statements in the output

The text of a statement is one line, or some headers with a body after each.

* `StatementPieces.gap_iff`: whether a body is missing shows in the pieces.
-/

namespace Sharp

/-! ## Statements -/

/-- The words that continue a statement, each with those that it can follow. -/
def clauseFollowers : List (String × List String) :=
  [("else if ", ["if ", "else if "]), ("else", ["if ", "else if "]), ("catch", ["try", "catch"]),
    ("finally", ["try", "catch"])]

/-- Does the word continue a statement? -/
def isContinuation (word : String) : Bool := (clauseFollowers.map Prod.fst).contains word

/-- Can a clause with the word `next` follow one with the word `word`? -/
def clauseFollows (word next : String) : Bool :=
  clauseFollowers.any fun entry => entry.1 == next && entry.2.contains word

theorem isContinuation_append {ending : String} (text : String)
    (other : ∀ word ∈ clauseFollowers.map Prod.fst, ¬ ending.toList <:+ word.toList) :
    isContinuation (text ++ ending) = false := by
  simpa only [isContinuation, List.contains_eq_mem, decide_eq_false_iff_not] using append_not_mem text other

mutual

/-- The pieces of a statement at the given level.  `gap` says that a body in it is missing, so that what
follows the statement takes its place. -/
inductive StatementPieces : Prop → Nat → List Piece → Prop where
  /-- One line, up to its `;`. -/
  | simple {level : Nat} {body : List Piece} (enclosed : Enclosed body) :
      StatementPieces False level (Piece.indents level ++ (body ++ [Piece.raw ";", .lineBreak]))
  | line {level : Nat} (text : String) :
      StatementPieces False level (Piece.indents level ++ [Piece.line (text ++ ";")])
  /-- Headers with their bodies. -/
  | clauses {gap : Prop} {level : Nat} {word : String} {pieces : List Piece}
      (written : Clauses gap level word pieces) : StatementPieces gap level pieces

/-- The pieces of a statement that consists of headers with their bodies; `word` is the first word of
the last header. -/
inductive Clauses : Prop → Nat → String → List Piece → Prop where
  | first {gap : Prop} {level : Nat} {word : String} {pieces : List Piece}
      (clause : Clause gap level word pieces) (starts : isContinuation word = false) :
      Clauses gap level word pieces
  | next {gap gap' : Prop} {level : Nat} {word next : String} {front pieces : List Piece}
      (written : Clauses gap level word front) (clause : Clause gap' level next pieces)
      (follows : clauseFollows word next = true) : Clauses (gap ∨ gap') level next (front ++ pieces)

/-- The pieces of a header with the given first word, and those of its body. -/
inductive Clause : Prop → Nat → String → List Piece → Prop where
  | header {gap : Prop} {level : Nat} {word : String} {header body : List Piece}
      (enclosed : Enclosed (.raw word :: header)) (governed : Governed gap level body) :
      Clause gap level word (Piece.indents level ++ (.raw word :: header ++ body))
  /-- A header with three clauses, the only one with a `;`. -/
  | loop {gap : Prop} {level : Nat} {start condition step body : List Piece} {firstEnd secondEnd : String}
      (startEnclosed : Enclosed start) (firstEnds : firstEnd ∈ clauseEnds)
      (conditionEnclosed : Enclosed condition) (secondEnds : secondEnd ∈ clauseEnds)
      (stepEnclosed : Enclosed step) (governed : Governed gap level body) :
      Clause gap level "for (" (Piece.indents level ++ (.raw "for (" :: start ++
        (.raw firstEnd :: condition ++ (.raw secondEnd :: step ++ (.raw ")" :: body)))))

/-- The pieces after a header at the given level: a block, one statement or nothing. -/
inductive Governed : Prop → Nat → List Piece → Prop where
  | block {level : Nat} {inside : List Piece} (closed : ClosesBlocks inside) :
      Governed False level (.line " \x7b" :: inside ++ closeBrace level)
  | single {gap : Prop} {level : Nat} {statement : List Piece}
      (written : StatementPieces gap (level + 1) statement) : Governed gap level (.lineBreak :: statement)
  | missing {level : Nat} : Governed True level [.lineBreak]

end

/-- The pieces of a statement that starts with its own word. -/
inductive ControlPieces : Prop → Nat → List Piece → Prop where
  | clauses {gap : Prop} {level : Nat} {word : String} {pieces : List Piece}
      (written : Clauses gap level word pieces) : ControlPieces gap level pieces
  /-- A block in front of its condition. -/
  | block {level : Nat} {body : List Piece} (enclosed : Enclosed (.line "do \x7b" :: body)) :
      ControlPieces False level (Piece.indents level ++ (.line "do \x7b" :: body ++ [Piece.raw ";", .lineBreak]))

/-- The pieces of one whole statement at the given level. -/
def OneStatement (level : Nat) (pieces : List Piece) : Prop := StatementPieces False level pieces

section Statements

variable {gap gap' : Prop} {level : Nat} {word : String} {pieces inside : List Piece}

theorem ControlPieces.statementPieces (written : ControlPieces gap level pieces) :
    StatementPieces gap level pieces := by
  cases written with
  | clauses written => exact .clauses written
  | block enclosed => exact .simple enclosed

theorem StatementPieces.congr (written : StatementPieces gap level pieces) (same : gap ↔ gap') :
    StatementPieces gap' level pieces :=
  propext same ▸ written

theorem Governed.congr (written : Governed gap level pieces) (same : gap ↔ gap') : Governed gap' level pieces :=
  propext same ▸ written

/-- A block goes on with the line in front of it. -/
theorem ClosesBlocks.braced (closed : ClosesBlocks inside) (level : Nat) :
    Enclosed (.line " \x7b" :: inside ++ closeBrace level) := by
  have block := Enclosed.block (rfl : (Piece.line " \x7b").kind = .opens)
    (closed.append (.indents level)) (rfl : (Piece.line "\x7d").kind = .closes)
  simpa [closeBrace] using block

mutual

/-- A statement closes the blocks that it opens. -/
theorem StatementPieces.closesBlocks {gap : Prop} {level : Nat} {pieces : List Piece} :
    StatementPieces gap level pieces → ClosesBlocks pieces
  | .simple enclosed =>
    (ClosesBlocks.indents level).append (enclosed.closesBlocks.append rfl)
  | .line text => (ClosesBlocks.indents level).append (.single (Piece.kind_line_append text))
  | .clauses written => written.closesBlocks

theorem Clauses.closesBlocks {gap : Prop} {level : Nat} {word : String} {pieces : List Piece} :
    Clauses gap level word pieces → ClosesBlocks pieces
  | .first clause _ => clause.closesBlocks
  | .next written clause _ => written.closesBlocks.append clause.closesBlocks

theorem Clause.closesBlocks {gap : Prop} {level : Nat} {word : String} {pieces : List Piece} :
    Clause gap level word pieces → ClosesBlocks pieces
  | .header enclosed governed =>
    (ClosesBlocks.indents level).append (enclosed.closesBlocks.append governed.closesBlocks)
  | .loop start firstEnds condition secondEnds step governed => by
    have closer := (Enclosed.flat (rfl : (Piece.raw ")").kind = .flat)).closesBlocks
    have opener := (Enclosed.cons (rfl : (Piece.raw "for (").kind = .flat) start).closesBlocks
    have firstEnd := ClosesBlocks.single (Piece.kind_clauseEnd firstEnds)
    have secondEnd := ClosesBlocks.single (Piece.kind_clauseEnd secondEnds)
    have third := secondEnd.append (step.closesBlocks.append (closer.append governed.closesBlocks))
    have second := firstEnd.append (condition.closesBlocks.append third)
    exact (ClosesBlocks.indents level).append (opener.append second)

theorem Governed.closesBlocks {gap : Prop} {level : Nat} {pieces : List Piece} :
    Governed gap level pieces → ClosesBlocks pieces
  | .block closed => (closed.braced level).closesBlocks
  | .single written =>
    (ClosesBlocks.single (rfl : Piece.lineBreak.kind = .breaks)).append written.closesBlocks
  | .missing => rfl

end

theorem Clause.ne_nil (written : Clause gap level word pieces) : pieces ≠ [] := by
  cases written <;> simp

theorem Clauses.ne_nil (written : Clauses gap level word pieces) : pieces ≠ [] := by
  cases written with
  | first clause => exact clause.ne_nil
  | next _ clause => exact List.append_ne_nil_of_right_ne_nil _ clause.ne_nil

theorem StatementPieces.ne_nil (written : StatementPieces gap level pieces) : pieces ≠ [] := by
  cases written with
  | simple => simp
  | line => simp
  | clauses written => exact written.ne_nil

end Statements

/-! ## Gaps -/

/-- A place in the output, and what is known of the lines in front of it. -/
structure LineScan where
  depth : Nat := 0
  level : Nat := 0
  /-- Has a statement just ended? -/
  ended : Bool := false
  /-- Has a header just ended?  Then a deeper line must follow. -/
  due : Bool := false
  /-- Did none follow after an earlier header? -/
  gap : Bool := false
  deriving DecidableEq

namespace LineScan

/-- The place after a piece that leaves the line or the statement, outside blocks. -/
def leave (scan : LineScan) : Piece → LineScan
  | .indent level => ⟨0, level, false, false, scan.gap || scan.due && level != scan.level + 1⟩
  | .lineBreak => { scan with ended := false, due := scan.due || !scan.ended }
  | .code _ _ => { scan with ended := true }
  | _ => scan

/-- The place after one more piece.  Lines in blocks are not looked at. -/
def step (scan : LineScan) (piece : Piece) : LineScan :=
  match piece.kind with
  | .opens => { scan with depth := scan.depth + 1 }
  | .closes => { scan with depth := scan.depth - 1 }
  | .flat => if scan.depth = 0 then { scan with ended := false } else scan
  | .breaks => if scan.depth = 0 then scan.leave piece else scan

def run (scan : LineScan) (pieces : List Piece) : LineScan := pieces.foldl step scan

/-- Does a header lack its body? -/
def lacks (scan : LineScan) : Bool := scan.gap || scan.due

end LineScan

section Gaps

variable {scan : LineScan} {gap : Prop} {level : Nat} {word : String} {pieces front back : List Piece}

theorem LineScan.run_append (front back : List Piece) : scan.run (front ++ back) = (scan.run front).run back :=
  List.foldl_append

theorem LineScan.run_cons (piece : Piece) (pieces : List Piece) :
    scan.run (piece :: pieces) = (scan.step piece).run pieces :=
  rfl

/-- A scan follows the blocks.  Of the rest, it forgets at most that a statement has ended. -/
theorem LineScan.run_of_blocksAfter {depth : Nat} (left : blocksAfter false scan.depth pieces = some depth) :
    ∃ ended, (scan.ended = false → ended = false) ∧ scan.run pieces = { scan with depth, ended } := by
  induction pieces generalizing scan with
  | nil =>
    cases left
    exact ⟨scan.ended, id, rfl⟩
  | cons piece pieces ih =>
    obtain ⟨outer, level, ended, due, gap⟩ := scan
    simp only [run_cons, step]
    cases kind : piece.kind with
    | opens =>
      rw [blocksAfter_opens kind] at left
      exact @ih ⟨outer + 1, level, ended, due, gap⟩ left
    | closes =>
      cases outer with
      | zero => simp [blocksAfter, kind] at left
      | succ outer =>
        rw [blocksAfter_closes kind] at left
        exact @ih ⟨outer, level, ended, due, gap⟩ left
    | flat =>
      rw [blocksAfter_flat kind] at left
      dsimp only
      split
      · obtain ⟨ended', kept, same⟩ := @ih ⟨outer, level, false, due, gap⟩ left
        exact ⟨ended', fun _ => kept rfl, same⟩
      · exact @ih ⟨outer, level, ended, due, gap⟩ left
    | breaks =>
      cases outer with
      | zero =>
        -- Outside blocks nothing leaves the line.
        simp [blocksAfter, kind] at left
      | succ outer =>
        rw [blocksAfter_breaks kind (.inr (Nat.succ_pos outer))] at left
        exact @ih ⟨outer + 1, level, ended, due, gap⟩ left

theorem Enclosed.run (enclosed : Enclosed pieces) (outside : scan.depth = 0) (running : scan.ended = false) :
    scan.run pieces = scan := by
  obtain ⟨depth, level, ended, due, gap⟩ := scan
  cases outside
  cases running
  obtain ⟨ended, kept, same⟩ := @LineScan.run_of_blocksAfter ⟨0, level, false, due, gap⟩ pieces 0 enclosed
  rw [same, kept rfl]

/-- Is a gap known when a line of the given level starts? -/
def LineScan.gapBefore (scan : LineScan) (level : Nat) : Bool :=
  scan.gap || scan.due && level != scan.level + 1

theorem LineScan.run_indents (outside : scan.depth = 0) (positive : 0 < level) :
    scan.run (Piece.indents level) = ⟨0, level, false, false, scan.gapBefore level⟩ := by
  obtain ⟨level, rfl⟩ := Nat.exists_eq_add_of_lt positive
  rw [Nat.zero_add, Piece.indents, run_cons, step]
  simp only [Piece.kind, outside, if_true]
  rfl

/-- The place after a statement at the given level. -/
structure LineScan.Passes (scan : LineScan) (gap : Prop) (level : Nat) : Prop where
  depth : scan.depth = 0
  level : scan.due = true → level ≤ scan.level
  lacks : scan.lacks = true ↔ gap

/-- No line of the level is deep enough for a body that is due after the statement. -/
theorem LineScan.Passes.gapBefore (passes : scan.Passes gap level) : scan.gapBefore level = true ↔ gap := by
  have deep := passes.level
  have lacks := passes.lacks
  unfold LineScan.lacks at lacks
  unfold LineScan.gapBefore
  cases due : scan.due with
  | false => simpa [due] using lacks
  | true =>
    have other : level ≠ scan.level + 1 := by
      have := deep due
      omega
    simpa [due, other] using lacks

theorem LineScan.passes_line (level : Nat) (gap : Bool) :
    LineScan.Passes ⟨0, level, false, false, gap⟩ (gap = true ∨ False) level :=
  ⟨rfl, nofun, by simp [LineScan.lacks]⟩

/-- A text that ends a clause changes nothing that the next text does not change back. -/
theorem Enclosed.run_clause {ending : String} (enclosed : Enclosed pieces) (listed : ending ∈ clauseEnds)
    (outside : scan.depth = 0) : ∃ ended, scan.run (.raw ending :: pieces) = { scan with ended } := by
  obtain ⟨depth, level, ended, due, gap⟩ := scan
  cases outside
  obtain ⟨ended', -, same⟩ := @LineScan.run_of_blocksAfter ⟨0, level, true, due, gap⟩ pieces 0 enclosed
  refine ⟨ended', ?_⟩
  rw [LineScan.run_cons, LineScan.step, Piece.kind_clauseEnd listed]
  exact same

mutual

theorem StatementPieces.run_passes {gap : Prop} {level : Nat} {pieces : List Piece} {scan : LineScan}
    (outside : scan.depth = 0) (positive : 0 < level) :
    StatementPieces gap level pieces → (scan.run pieces).Passes (scan.gapBefore level = true ∨ gap) level
  | .simple enclosed => by
    rw [LineScan.run_append, LineScan.run_append, LineScan.run_indents outside positive, enclosed.run rfl rfl]
    exact LineScan.passes_line level _
  | .line text => by
    rw [LineScan.run_append, LineScan.run_indents outside positive, LineScan.run_cons, LineScan.step,
      Piece.kind_line_append]
    exact LineScan.passes_line level _
  | .clauses written => written.run_passes outside positive

theorem Clauses.run_passes {gap : Prop} {level : Nat} {word : String} {pieces : List Piece} {scan : LineScan}
    (outside : scan.depth = 0) (positive : 0 < level) :
    Clauses gap level word pieces → (scan.run pieces).Passes (scan.gapBefore level = true ∨ gap) level
  | .first clause _ => clause.run_passes outside positive
  | .next written clause _ => by
    -- The line of the next clause cannot be the body that a clause before it lacks.
    have before := written.run_passes outside positive
    have after := clause.run_passes before.depth positive
    rw [LineScan.run_append]
    exact ⟨after.depth, after.level, by rw [after.lacks, before.gapBefore, or_assoc]⟩

theorem Clause.run_passes {gap : Prop} {level : Nat} {word : String} {pieces : List Piece} {scan : LineScan}
    (outside : scan.depth = 0) (positive : 0 < level) :
    Clause gap level word pieces → (scan.run pieces).Passes (scan.gapBefore level = true ∨ gap) level
  | .header enclosed governed => by
    rw [LineScan.run_append, LineScan.run_append, LineScan.run_indents outside positive, enclosed.run rfl rfl]
    exact governed.run_passes rfl rfl rfl rfl
  | .loop start firstEnds condition secondEnds step governed => by
    have opener := Enclosed.cons (rfl : (Piece.raw "for (").kind = .flat) start
    rw [LineScan.run_append, LineScan.run_append, LineScan.run_indents outside positive,
      opener.run rfl rfl, LineScan.run_append]
    obtain ⟨ended, first⟩ := condition.run_clause firstEnds
      (rfl : (LineScan.mk 0 level false false (scan.gapBefore level)).depth = 0)
    rw [first, LineScan.run_append]
    obtain ⟨ended', second⟩ := step.run_clause secondEnds
      (rfl : (LineScan.mk 0 level ended false (scan.gapBefore level)).depth = 0)
    rw [second, LineScan.run_cons]
    exact governed.run_passes rfl rfl rfl rfl

theorem Governed.run_passes {gap : Prop} {level : Nat} {pieces : List Piece} {scan : LineScan}
    (outside : scan.depth = 0) (running : scan.ended = false) (free : scan.due = false)
    (same : scan.level = level) :
    Governed gap level pieces → (scan.run pieces).Passes (scan.gap = true ∨ gap) level
  | .block closed => by
    rw [(closed.braced level).run outside running]
    exact ⟨outside, by simp [free], by simp [LineScan.lacks, free]⟩
  | .single written => by
    have due : scan.step .lineBreak = { scan with due := true } := by
      simp [LineScan.step, LineScan.leave, Piece.kind, outside, running]
    -- The first line of the statement is one level deeper, so it is the body that is due.
    rw [LineScan.run_cons, due]
    have passes := @StatementPieces.run_passes _ _ _ { scan with due := true } outside (Nat.succ_pos level) written
    refine ⟨passes.depth, fun late => Nat.le_of_succ_le (passes.level late), ?_⟩
    simpa [LineScan.gapBefore, same] using passes.lacks
  | .missing => by
    have due : scan.run [.lineBreak] = { scan with due := true } := by
      simp [LineScan.run, LineScan.step, LineScan.leave, Piece.kind, outside, running]
    rw [due]
    exact ⟨outside, fun _ => same.ge, by simp [LineScan.lacks]⟩

end

/-- Whether a body is missing shows in the pieces. -/
theorem StatementPieces.gap_iff (written : StatementPieces gap (level + 1) pieces) :
    (LineScan.run {} pieces).lacks = true ↔ gap := by
  have start : (false = true ∨ gap) ↔ gap := by simp
  exact (written.run_passes rfl (Nat.succ_pos level)).lacks.trans start

end Gaps

end Sharp
