import Sharp.Proofs.StatementPieces

/-!
# Jumps in the output

A section of a switch must not run into the next one.  It ends in a jump where its last statement is one,
and no header in front of that statement takes it for its body.

* `StatementPieces.run_jumpScan`: what a scan finds out about a statement.
-/

namespace Sharp

/-! ## Scans -/

/-- The jumps that are written as a whole line. -/
def jumpLines : List String := ["break;", "yield break;"]

/-- Is a statement that starts with the piece an unconditional jump? -/
def Piece.isJump : Piece → Bool
  | .code text .keyword => jumpWords.contains text
  | .line text => jumpLines.contains text
  | _ => false

def Piece.isLine : Piece → Bool
  | .line _ => true
  | _ => false

/-- A place in the output, and what is known of the statements in front of it. -/
structure JumpScan where
  depth : Nat := 0
  level : Nat := 0
  /-- Has the line just started? -/
  fresh : Bool := false
  /-- Is there text on the line that no `;` has ended? -/
  running : Bool := false
  /-- Has a header just ended?  Then the next statement is its body. -/
  due : Bool := false
  /-- Is the last statement a jump, and the body of no header? -/
  jump : Bool := false
  deriving DecidableEq

namespace JumpScan

/-- The place at the first text of a line.  The statements that are looked at are at the level `top`. -/
def start (top : Nat) (scan : JumpScan) (piece : Piece) : JumpScan :=
  if scan.fresh then
    { scan with fresh := false, due := false, jump := !scan.due && scan.level == top && piece.isJump }
  else scan

/-- The place after a piece that leaves the line or the statement, outside blocks.  Comments and blank
lines are no statements. -/
def leave (top : Nat) (scan : JumpScan) (piece : Piece) : JumpScan :=
  match piece with
  | .indent level => { scan with level, fresh := true, running := false }
  | .lineBreak => { scan with running := false, due := scan.due || scan.running }
  | .comment _ => scan
  | _ => { scan.start top piece with running := false }

/-- The place after one more piece.  Lines in blocks are not looked at. -/
def step (top : Nat) (scan : JumpScan) (piece : Piece) : JumpScan :=
  match piece.kind with
  | .opens => { scan.start top piece with depth := scan.depth + 1, running := true }
  | .closes =>
    { scan with depth := scan.depth - 1, running := scan.running && !(scan.depth == 1 && piece.isLine) }
  | .flat => if scan.depth = 0 then { scan.start top piece with running := true } else scan
  | .breaks => if scan.depth = 0 then scan.leave top piece else scan

def run (top : Nat) (scan : JumpScan) (pieces : List Piece) : JumpScan :=
  pieces.foldl (step top) scan

end JumpScan

/-- Do the statements at the level `top` end in a jump?  What the blocks in them contain does not matter. -/
def endsWithJump (top : Nat) (pieces : List Piece) : Bool :=
  let scan := JumpScan.run top {} pieces
  scan.depth == 0 && !scan.due && scan.jump

/-- Does the line, whose indentation comes first, start with a jump? -/
def startsWithJump : List Piece → Bool
  | .indent _ :: piece :: _ => piece.isJump
  | _ => false

namespace JumpScan

variable {top : Nat} {scan : JumpScan} {piece : Piece} {pieces front back : List Piece} {level depth : Nat}

theorem run_append (front back : List Piece) : scan.run top (front ++ back) = (scan.run top front).run top back :=
  List.foldl_append

theorem run_cons (piece : Piece) (pieces : List Piece) :
    scan.run top (piece :: pieces) = (scan.step top piece).run top pieces :=
  rfl

theorem depth_start (scan : JumpScan) (piece : Piece) : (scan.start top piece).depth = scan.depth := by
  unfold start
  split <;> rfl

theorem depth_leave (scan : JumpScan) (piece : Piece) : (scan.leave top piece).depth = scan.depth := by
  unfold leave
  split
  · rfl
  · rfl
  · rfl
  · exact depth_start scan piece

/-- A scan follows the blocks. -/
theorem depth_run (left : blocksAfter true scan.depth pieces = some depth) :
    (scan.run top pieces).depth = depth := by
  induction pieces generalizing scan with
  | nil => exact Option.some.inj left
  | cons piece pieces ih =>
    rw [run_cons]
    apply ih
    rw [← left]
    cases kind : piece.kind with
    | opens => simp [blocksAfter_opens kind, step, kind]
    | closes =>
      cases outer : scan.depth with
      | zero => simp [blocksAfter, kind, outer] at left
      | succ outer => simp [blocksAfter_closes kind, step, *]
    | flat =>
      rw [blocksAfter_flat kind]
      simp only [step, kind]
      split
      · exact congrArg (blocksAfter true · pieces) (depth_start scan piece)
      · rfl
    | breaks =>
      rw [blocksAfter_breaks kind (.inl rfl)]
      simp only [step, kind]
      split
      · exact congrArg (blocksAfter true · pieces) (depth_leave scan piece)
      · rfl

/-- In the middle of a line, a scan finds nothing but blocks and text. -/
theorem run_of_blocksAfter (started : scan.fresh = false)
    (left : blocksAfter false scan.depth pieces = some depth) :
    ∃ running, scan.run top pieces = { scan with depth, running } := by
  induction pieces generalizing scan with
  | nil =>
    cases left
    exact ⟨scan.running, rfl⟩
  | cons piece pieces ih =>
    obtain ⟨outer, level, fresh, running, due, jump⟩ := scan
    cases started
    simp only [run_cons, step, start, Bool.false_eq_true, if_false]
    cases kind : piece.kind with
    | opens =>
      rw [blocksAfter_opens kind] at left
      exact @ih ⟨outer + 1, level, false, true, due, jump⟩ rfl left
    | closes =>
      cases outer with
      | zero => simp [blocksAfter, kind] at left
      | succ outer =>
        rw [blocksAfter_closes kind] at left
        exact @ih ⟨outer, level, false, _, due, jump⟩ rfl left
    | flat =>
      rw [blocksAfter_flat kind] at left
      dsimp only
      split
      · exact @ih ⟨outer, level, false, true, due, jump⟩ rfl left
      · exact @ih ⟨outer, level, false, running, due, jump⟩ rfl left
    | breaks =>
      cases outer with
      | zero =>
        -- Outside blocks nothing leaves the line.
        simp [blocksAfter, kind] at left
      | succ outer =>
        rw [blocksAfter_breaks kind (.inr (Nat.succ_pos outer))] at left
        exact @ih ⟨outer + 1, level, false, running, due, jump⟩ rfl left

theorem run_indents (outside : scan.depth = 0) (positive : 0 < level) :
    scan.run top (Piece.indents level) = { scan with level, fresh := true, running := false } := by
  obtain ⟨level, rfl⟩ := Nat.exists_eq_add_of_lt positive
  obtain ⟨depth, line, fresh, running, due, jump⟩ := scan
  rw [Nat.zero_add]
  cases outside
  rfl

end JumpScan

/-! ## Statements -/

section Statements

variable {top : Nat} {scan : JumpScan} {piece : Piece} {pieces more : List Piece} {gap : Prop}
  {level : Nat} {word : String}

theorem ClosesBlocks.depth_jumpScan (closed : ClosesBlocks pieces) (outside : scan.depth = 0) :
    (scan.run top pieces).depth = 0 := by
  apply JumpScan.depth_run
  rw [outside]
  exact closed

/-- More text of a line tells nothing but whether it ends there. -/
theorem Enclosed.run_jumpScan (enclosed : Enclosed pieces) (outside : scan.depth = 0)
    (started : scan.fresh = false) : ∃ running, scan.run top pieces = { scan with running } := by
  obtain ⟨depth, level, fresh, running, due, jump⟩ := scan
  cases outside
  cases started
  exact @JumpScan.run_of_blocksAfter top ⟨0, level, false, running, due, jump⟩ pieces 0 rfl enclosed

/-- The first text of a line tells whether it is a jump. -/
theorem Enclosed.run_jumpScan_line (enclosed : Enclosed (piece :: more)) (outside : scan.depth = 0)
    (positive : 0 < level) :
    ∃ running, scan.run top (Piece.indents level ++ piece :: more) =
      ⟨0, level, false, running, false, !scan.due && level == top && piece.isJump⟩ := by
  have further {depth : Nat} (left : blocksAfter false depth more = some 0) :=
    @JumpScan.run_of_blocksAfter top ⟨depth, level, false, true, false, !scan.due && level == top && piece.isJump⟩
      more 0 rfl left
  rw [JumpScan.run_append, JumpScan.run_indents outside positive, JumpScan.run_cons]
  unfold Enclosed at enclosed
  cases kind : piece.kind with
  | opens =>
    rw [blocksAfter_opens kind] at enclosed
    simpa [JumpScan.step, JumpScan.start, kind, outside] using further enclosed
  | flat =>
    rw [blocksAfter_flat kind] at enclosed
    simpa [JumpScan.step, JumpScan.start, kind, outside] using further enclosed
  | closes | breaks => simp [blocksAfter, kind] at enclosed

/-- The first text of a header is that of no jump. -/
theorem Enclosed.run_jumpScan_header {header : List Piece} (enclosed : Enclosed (.raw word :: header))
    (outside : scan.depth = 0) (positive : 0 < level) :
    ∃ running, scan.run top (Piece.indents level ++ Piece.raw word :: header) =
      ⟨0, level, false, running, false, false⟩ := by
  obtain ⟨running, same⟩ := @Enclosed.run_jumpScan_line top scan _ _ _ enclosed outside positive
  have other : (Piece.raw word).isJump = false := rfl
  rw [other, Bool.and_false] at same
  exact ⟨running, same⟩

theorem startsWithJump_indents (positive : 0 < level) (piece : Piece) (more : List Piece) :
    startsWithJump (Piece.indents level ++ piece :: more) = piece.isJump := by
  obtain ⟨level, rfl⟩ := Nat.exists_eq_add_of_lt positive
  rfl

/-- A text that ends a clause changes nothing that more text does not change back. -/
theorem Enclosed.run_jumpScan_clause {ending : String} (enclosed : Enclosed pieces)
    (listed : ending ∈ clauseEnds) (running : Bool) :
    ∃ running', JumpScan.run top ⟨0, level, false, running, false, false⟩ (.raw ending :: pieces) =
      ⟨0, level, false, running', false, false⟩ := by
  rw [JumpScan.run_cons, JumpScan.step, Piece.kind_clauseEnd listed]
  exact @Enclosed.run_jumpScan top ⟨0, level, false, false, false, false⟩ pieces enclosed rfl rfl

theorem Clause.starts (clause : Clause gap level word pieces) :
    ∃ more, pieces = Piece.indents level ++ Piece.raw word :: more := by
  cases clause with
  | header | loop => exact ⟨_, rfl⟩

theorem Clauses.starts {gap : Prop} {level : Nat} {word : String} {pieces : List Piece}
    (clauses : Clauses gap level word pieces) :
    ∃ first more, pieces = Piece.indents level ++ Piece.raw first :: more := by
  -- The clauses in front of the last one are fewer pieces.
  induction size : pieces.length using Nat.strongRecOn generalizing gap word pieces with
  | ind count ih =>
    cases clauses with
    | first clause _ => exact ⟨word, clause.starts⟩
    | @next _ _ _ _ _ front back written clause _ =>
      have shorter : front.length < count := by
        obtain ⟨more, rfl⟩ := clause.starts
        simp only [List.length_append, List.length_cons] at size
        omega
      obtain ⟨first, more, rfl⟩ := ih front.length shorter written rfl
      exact ⟨first, more ++ back, by rw [List.append_assoc, List.cons_append]⟩

/-- The place after a statement. -/
structure JumpScan.Passes (scan : JumpScan) (gap : Prop) (jump : Bool) : Prop where
  depth : scan.depth = 0
  running : scan.running = false
  due : scan.due = true → gap
  jump : scan.jump = jump

theorem JumpScan.passes_line (level : Nat) (jump : Bool) :
    JumpScan.Passes ⟨0, level, false, false, false, jump⟩ gap jump :=
  ⟨rfl, rfl, fun due => absurd due Bool.false_ne_true, rfl⟩

theorem Enclosed.passes_simple {body : List Piece} (enclosed : Enclosed body) (outside : scan.depth = 0)
    (positive : 0 < level) :
    (scan.run top (Piece.indents level ++ (body ++ [Piece.raw ";", .lineBreak]))).Passes gap
      (!scan.due && level == top && startsWithJump (Piece.indents level ++ (body ++ [Piece.raw ";", .lineBreak]))) := by
  cases body with
  | nil =>
    obtain ⟨depth, line, fresh, running, due, jump⟩ := scan
    cases outside
    rw [List.nil_append, startsWithJump_indents positive, JumpScan.run_append, JumpScan.run_indents rfl positive]
    exact JumpScan.passes_line level _
  | cons piece more =>
    obtain ⟨running, same⟩ := @Enclosed.run_jumpScan_line top scan _ _ _ enclosed outside positive
    rw [List.cons_append, startsWithJump_indents positive, ← List.cons_append, ← List.append_assoc,
      JumpScan.run_append, same]
    exact JumpScan.passes_line level _

mutual

/-- A statement is a jump where it starts like one, at the level `top`, and no header is in front of it. -/
theorem StatementPieces.run_jumpScan {gap : Prop} {level : Nat} {pieces : List Piece} {scan : JumpScan}
    (outside : scan.depth = 0) (positive : 0 < level) (below : top ≤ level) :
    StatementPieces gap level pieces →
      (scan.run top pieces).Passes gap (!scan.due && level == top && startsWithJump pieces)
  | .simple enclosed => enclosed.passes_simple outside positive
  | .line text => by
    rw [JumpScan.run_append, JumpScan.run_indents outside positive, startsWithJump_indents positive,
      JumpScan.run_cons, JumpScan.step, Piece.kind_line_append]
    simp only [outside, if_true]
    exact JumpScan.passes_line level _
  | .clauses written => by
    obtain ⟨first, more, same⟩ := written.starts
    have starts : startsWithJump pieces = false := by
      rw [same, startsWithJump_indents positive]
      rfl
    rw [starts, Bool.and_false]
    exact written.run_jumpScan outside positive below

theorem Clauses.run_jumpScan {gap : Prop} {level : Nat} {word : String} {pieces : List Piece}
    {scan : JumpScan} (outside : scan.depth = 0) (positive : 0 < level) (below : top ≤ level) :
    Clauses gap level word pieces → (scan.run top pieces).Passes gap false
  | .first clause _ => clause.run_jumpScan outside positive below
  | .next written clause _ => by
    have before := written.run_jumpScan outside positive below
    have after := clause.run_jumpScan before.depth positive below
    rw [JumpScan.run_append]
    exact ⟨after.depth, after.running, fun due => .inr (after.due due), after.jump⟩

theorem Clause.run_jumpScan {gap : Prop} {level : Nat} {word : String} {pieces : List Piece}
    {scan : JumpScan} (outside : scan.depth = 0) (positive : 0 < level) (below : top ≤ level) :
    Clause gap level word pieces → (scan.run top pieces).Passes gap false
  | .header enclosed governed => by
    obtain ⟨running, same⟩ := @Enclosed.run_jumpScan_header top scan _ _ _ enclosed outside positive
    rw [← List.append_assoc, JumpScan.run_append, same]
    exact governed.run_jumpScan running below
  | .loop start firstEnds condition secondEnds step governed => by
    have opener := Enclosed.cons (rfl : (Piece.raw "for (").kind = .flat) start
    obtain ⟨running, same⟩ := @Enclosed.run_jumpScan_header top scan _ _ _ opener outside positive
    rw [← List.append_assoc, JumpScan.run_append, same, JumpScan.run_append]
    obtain ⟨running', first⟩ := @Enclosed.run_jumpScan_clause top _ level _ condition firstEnds running
    rw [first, JumpScan.run_append]
    obtain ⟨running'', second⟩ := @Enclosed.run_jumpScan_clause top _ level _ step secondEnds running'
    rw [second, JumpScan.run_cons]
    exact governed.run_jumpScan true below

theorem Governed.run_jumpScan {gap : Prop} {level : Nat} {pieces : List Piece} (running : Bool)
    (below : top ≤ level) :
    Governed gap level pieces → (JumpScan.run top ⟨0, level, false, running, false, false⟩ pieces).Passes gap false
  | .block closed => by
    -- The line that closes the block ends there.
    have inside := @blocksAfter_deeper false _ _ _ (closed.append (.indents level)) 0
    obtain ⟨running', same⟩ :=
      @JumpScan.run_of_blocksAfter top ⟨1, level, false, true, false, false⟩ _ _ rfl inside
    have opened : JumpScan.step top ⟨0, level, false, running, false, false⟩ (.line " \x7b") =
      ⟨1, level, false, true, false, false⟩ := rfl
    rw [List.cons_append, JumpScan.run_cons, opened, closeBrace, ← List.append_assoc, JumpScan.run_append, same]
    exact ⟨rfl, Bool.and_false running', fun due => absurd due Bool.false_ne_true, rfl⟩
  | .single written => by
    have due : JumpScan.step top ⟨0, level, false, running, false, false⟩ .lineBreak =
      ⟨0, level, false, false, running, false⟩ := rfl
    -- The statement is at a deeper level, so it is no jump of its own.
    have deeper : (level + 1 == top) = false := by
      rw [beq_eq_false_iff_ne]
      omega
    have passes := @StatementPieces.run_jumpScan _ _ _ ⟨0, level, false, false, running, false⟩ rfl
      (Nat.succ_pos level) (Nat.le_succ_of_le below) written
    rw [deeper, Bool.and_false, Bool.false_and] at passes
    rwa [JumpScan.run_cons, due]
  | .missing => ⟨rfl, rfl, fun _ => trivial, rfl⟩

end

end Statements

end Sharp
