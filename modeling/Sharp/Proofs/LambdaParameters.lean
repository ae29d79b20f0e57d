import Sharp.Proofs.MarkedTypes
import Sharp.Proofs.Tuples

/-!
# Parameters of lambdas

The parameters of a lambda stand in front of its arrow, in parentheses or not.  Without parentheses
they start where the frame last let them start.  The words `ref`, `in` and `out` move that start, so
that what stands in front of them is no parameter any more.

* `LambdaParams.Spelled.paramTokens`: which tokens parameters are spelled with.
-/

namespace Sharp

open Token TypeExpr

variable {frame' frame₁ frame₂ : Frame} {p : Token → Prop}

/-! ## Parameters -/

/-- A parameter with a type: a type name and the number of array marks after it. -/
structure TypedParam where
  passing : Option Passing
  name : String
  typeName : String
  dimensions : Nat

/-- The type `name##..`. -/
def arrayType (name : String) : Nat → TypeExpr
  | 0 => .normal name
  | dimensions + 1 => .plain (.array (arrayType name dimensions))

namespace TypedParam

def slot (param : TypedParam) : Slot :=
  .mk param.name (arrayType param.typeName param.dimensions) param.passing

/-- Is the parameter passed neither by `ref` nor by `in` or `out`? -/
def keepsStart (param : TypedParam) : Bool :=
  match param.passing with
  | none | some .asParams => true
  | _ => false

/-- How the parameter is written: `[modifier ]Type name`. -/
def text (param : TypedParam) : String :=
  (param.passing.map fun passing => passing.text ++ " ").getD "" ++
    (param.typeName ++ concat (List.replicate param.dimensions "[]")) ++ " " ++ param.name

end TypedParam

theorem render_arrayType (name : String) (dimensions : Nat) :
    (arrayType name dimensions).render .plain = name ++ concat (List.replicate dimensions "[]") := by
  induction dimensions with
  | zero => simp [arrayType, TypeExpr.normal, TypeExpr.plain, TypeExpr.render, renderShape,
      renderQualifiers, concat]
  | succ dimensions ih =>
    have last : concat (List.replicate (dimensions + 1) "[]") =
        concat (List.replicate dimensions "[]") ++ "[]" := by
      rw [List.replicate_succ', concat_append]
      simp [concat]
    rw [last, ← String.append_assoc, ← ih]
    simp [arrayType, TypeExpr.plain, TypeExpr.render, renderShape, renderQualifiers]

theorem TypedParam.render_slot (param : TypedParam) : param.slot.render = param.text := by
  rw [Slot.render, TypedParam.text, ← render_arrayType]
  cases passing : param.passing with
  | none => simp [slot, Slot.type, Slot.name, Slot.passing, passing]
  | some passing' => simp [slot, Slot.type, Slot.name, Slot.passing, passing, String.append_assoc]

def passingWords : Option Passing → List String
  | none => []
  | some .byRef => ["ref"]
  | some .byReadonlyRef => ["ref", "immut"]
  | some .byIn => ["in"]
  | some .byOut => ["out"]
  | some .asParams => ["params"]

/-- The tokens are `[ref | ref immut | in | out | params] name: Type##..`.  A `_` without one of these
words is no name of a parameter: it stands for nothing. -/
def TypedParam.Spelled (param : TypedParam) (ts : List Token) : Prop :=
  ∃ (marks : List Token) (name colon type : Token) (hashes : List Token),
    ts = marks ++ name :: colon :: type :: hashes ∧
    (∀ t ∈ marks, t.category = .keyword) ∧ marks.map Token.text = passingWords param.passing ∧
    name.category = .identifier ∧ name.text = param.name ∧
    (param.passing = none → name.text ≠ "_") ∧ colon.isOp ":" = true ∧
    type.isTypeName = true ∧ type.text = param.typeName ∧ (∀ t ∈ hashes, t.isOp "#" = true) ∧
    hashes.length = param.dimensions

theorem TypedParam.Spelled.ne_nil {param : TypedParam} {ts : List Token} (spelled : param.Spelled ts) :
    ts ≠ [] := by
  obtain ⟨marks, name, colon, type, hashes, rfl, -⟩ := spelled
  simp

def IsName (ts : List Token) (name : String) : Prop :=
  ∃ t, ts = [t] ∧ t.category = .identifier ∧ t.text = name

/-- The parameters of a lambda: all have types, or none. -/
inductive LambdaParams where
  | plain (names : List String)
  | typed (params : List TypedParam)

namespace LambdaParams

def texts : LambdaParams → List String
  | plain names => names
  | typed params => params.map TypedParam.text

/-- The tokens are these parameters, with commas between them. -/
def Spelled : LambdaParams → List Token → Prop
  | plain names, ts => Separated "," IsName ts names
  | typed params, ts => Separated "," (fun ts param => param.Spelled ts) ts params

def isTyped : LambdaParams → Bool
  | plain _ => false
  | typed _ => true

def keepsStart : LambdaParams → Bool
  | plain _ => true
  | typed params => params.all TypedParam.keepsStart

end LambdaParams

/-! ## Reading typed parameters -/

section Reading

variable {t name colon type : Token} {marks hashes tail : List Token} {opts : TypeOptions}

/-- A type ends at the end of the tokens and in front of a comma. -/
def EndsType (ts : List Token) : Prop :=
  ts = [] ∨ ∃ comma more, ts = comma :: more ∧ comma.isOp "," = true

theorem EndsType.typeEnds (ends : EndsType tail) : TypeEnds tail := by
  rcases ends with rfl | ⟨comma, more, rfl, isComma⟩
  · exact .nil
  · exact .cons isComma (by decide) more

theorem namesType_of_isTypeName (isTypeName : type.isTypeName = true) (listed : type.ContextListed) :
    type.NamesType := by
  have declarator : keywordRole? "fn" = some (.keyword .declarator) := by decide
  have unlisted : contextKeywordRole? "fn" = none := by decide
  refine ⟨isTypeName, Bool.eq_false_iff.2 fun isFn => ?_⟩
  simp only [isKeyword, Bool.and_eq_true, Bool.or_eq_true, beq_iff_eq] at isFn
  obtain ⟨keyword | context, text⟩ := isFn
  · simp [Token.isTypeName, isNameLike, Token.keywordRole?, vocabularyRole?, keyword, text,
      declarator] at isTypeName
  · exact listed context (by rw [text, unlisted])

theorem type_of_arrays (name : String) (dimensions : Nat) :
    MarkedName.type ⟨name, List.replicate dimensions .array⟩ = arrayType name dimensions := by
  induction dimensions with
  | zero => rfl
  | succ dimensions ih =>
    rw [arrayType, ← ih]
    simp [MarkedName.type, TypeExpr.marked, List.replicate_succ', TypeMark.apply]

theorem readFrom_typeName (isTypeName : type.isTypeName = true) (listed : type.ContextListed)
    (isHash : ∀ t ∈ hashes, t.isOp "#" = true) (ends : EndsType tail) :
    (TypeExpr.reader.readFrom opts type (hashes ++ tail)).Gives ⟨arrayType type.text hashes.length, tail⟩ := by
  have operators : List.Forall₂ (fun t mark => t.isOp (TypeMark.operator mark) = true) hashes
      (List.replicate hashes.length .array) := by
    clear ends
    induction hashes with
    | nil => exact .nil
    | cons t hashes ih =>
      obtain ⟨first, others⟩ := List.forall_mem_cons.1 isHash
      exact .cons first (ih others)
  have legal : MarkedName.IsLegal ⟨type.text, List.replicate hashes.length .array⟩ := fun twice =>
    absurd (List.eq_of_mem_replicate (twice.subset (List.mem_cons_self ..))) (by decide)
  rw [← type_of_arrays]
  exact readFrom_markedName ⟨type, hashes, rfl, namesType_of_isTypeName isTypeName listed, rfl, operators⟩ legal
    ends.typeEnds

/-- The words in front of a parameter are taken off. -/
theorem exists_splitPassing {passing : Option Passing} (keywords : ∀ t ∈ marks, t.category = .keyword)
    (words : marks.map Token.text = passingWords passing) (isName : name.category = .identifier)
    (noDiscard : passing = none → name.text ≠ "_") (rest : List Token) :
    ∃ first more, marks ++ name :: rest = first :: more ∧ splitPassing first more = (passing, name :: rest) ∧
      first.isDiscard = false ∧ (rest ≠ [] → more ≠ []) := by
  have other (word : String) : name.isKeyword word = false := by simp [isKeyword, isName]
  cases marks with
  | nil =>
    have nothing : passing = none := by
      rcases passing with _ | _ | _ | _ | _ | _ <;> simp_all [passingWords]
    refine ⟨name, rest, rfl, ?_, by simp [isDiscard, noDiscard nothing], id⟩
    simp [splitPassing, other, nothing]
  | cons mark marks =>
    obtain ⟨keyword, keywords⟩ := List.forall_mem_cons.1 keywords
    refine ⟨mark, marks ++ name :: rest, rfl, ?_, by simp [isDiscard, keyword], by simp⟩
    rcases passing with _ | _ | _ | _ | _ | _ <;>
      simp only [passingWords, List.map_cons, List.cons.injEq, List.map_eq_nil_iff, reduceCtorEq] at words
    case some.byReadonlyRef =>
      obtain ⟨immut, rfl, text⟩ : ∃ immut, marks = [immut] ∧ immut.text = "immut" := by
        simpa [List.map_eq_cons_iff] using words.2
      simp [splitPassing, isKeyword, keyword, words.1, keywords, text]
    all_goals
      obtain ⟨text, rfl⟩ := words
      simp [splitPassing, isKeyword, keyword, text, isName]

theorem readNamedSlot_typed {param : TypedParam} {ts : List Token} (spelled : param.Spelled ts)
    (listed : ∀ t ∈ ts, t.ContextListed) (ends : EndsType tail) :
    ∃ first more, ts ++ tail = first :: more ∧
      (readNamedSlot TypeExpr.reader .function opts first more).Gives ⟨param.slot, tail⟩ := by
  obtain ⟨marks, name, colon, type, hashes, rfl, keywords, words, isName, name_text, noDiscard, isColon,
    isTypeName, type_text, isHash, dimensions⟩ := spelled
  obtain ⟨first, more, parts, split, first_other, longer⟩ := exists_splitPassing keywords words isName
    noDiscard (colon :: type :: (hashes ++ tail))
  refine ⟨first, more, by rw [← parts]; simp, ?_⟩
  have nameLike : name.isNameLike = true := by simp [isNameLike, isName]
  have read := @readFrom_typeName type hashes tail opts isTypeName (listed type (by simp)) isHash ends
  have several : more.isEmpty = false := by simpa using longer (by simp)
  have slot : (readSlot TypeExpr.reader .function opts first more).Gives ⟨some param.slot, tail⟩ := by
    simp only [readSlot, first_other, several, split, nameLike, isColon, Bool.false_eq_true, if_false,
      ne_eq, not_true_eq_false, and_false, Bool.not_true]
    refine .note_bind (.note_bind (.bind read ?_))
    rw [name_text, type_text, dimensions]
    exact .pure _
  exact .bind slot (.pure _)

theorem readSlots_typed {params : List TypedParam} {ts : List Token}
    (spelled : (LambdaParams.typed params).Spelled ts) (listed : ∀ t ∈ ts, t.ContextListed) :
    (readSlots ts).Gives (params.map TypedParam.slot) := by
  have from_slots (slots : List Slot) : Reading.Gives (walk readSlotRound (fun slots => return slots) slots ts)
      (slots ++ params.map TypedParam.slot) := by
    induction spelled generalizing slots with
    | @single ts param spelled =>
      obtain ⟨first, more, parts, read⟩ := @readNamedSlot_typed [] ⟨false, true, false⟩ _ _ spelled listed
        (.inl rfl)
      rw [List.append_nil] at parts
      rw [parts, walk_cons]
      exact .bind (.bind read (.pure _)) (.pure _)
    | @cons ts more comma param params spelled isComma following ih =>
      obtain ⟨listed, listed_others⟩ := List.forall_mem_append.1 listed
      obtain ⟨first, rest, parts, read⟩ := @readNamedSlot_typed (comma :: more) ⟨false, true, false⟩ _ _
        spelled listed (.inr ⟨comma, more, rfl, isComma⟩)
      have nonempty : more.isEmpty = false := by
        simpa using following.ne_nil fun _ _ => TypedParam.Spelled.ne_nil
      have round : (readSlotRound slots first rest).Gives (.next (slots ++ [param.slot]) more) := by
        refine .bind read ?_
        simp only [isComma, nonempty, Bool.not_true, Bool.false_or, Bool.false_eq_true, if_false]
        exact .note_bind (.pure _)
      have shorter : more.length < (first :: rest).length := by
        rw [← parts]
        simp only [List.length_append, List.length_cons]
        omega
      rw [parts, walk_cons]
      refine .bind round ?_
      have tail := ih (List.forall_mem_cons.1 listed_others).2 (slots ++ [param.slot])
      simpa only [if_pos shorter, List.append_assoc, List.singleton_append, List.map_cons] using tail
  exact from_slots []

end Reading

/-! ## Converting parameters like any other tokens -/

/-- Does the word move the start of the parameters behind itself? -/
def Token.movesStart (t : Token) : Bool :=
  t.category == .keyword && ["ref", "in", "out"].contains t.text

/-- Can the token stand among parameters? -/
def Token.IsParamToken (t : Token) : Prop :=
  t.category = .identifier ∨ t.isTypeName = true ∨
    (t.category = .keyword ∧ t.text ∈ ["ref", "immut", "in", "out", "params"]) ∨
    t.isOpIn [":", ",", "#"] = true

/-- What a token among parameters is converted to before the arrow is seen. -/
def Token.paramPieces (t : Token) : List Piece :=
  if t.movesStart then [.keyword t.text]
  else if t.isWord then [.word t.text]
  else if t.isOp "#" then [.code "[" .opening, .code "]" .closing]
  else [.code t.text (operatorSpacing t.text false)]

section Rounds

variable {inner : Converters} {place : Place} {frame : Frame} {t : Token} {rest : List Token}

/-- The names of types that are built in are written as they are. -/
theorem convertKeyword_builtin (keyword : t.category = .keyword)
    (builtin : keywordRole? t.text = some (.keyword .builtinType)) :
    convertKeyword inner place frame t rest = pure (.next (frame.vary.word t.text) rest) := by
  obtain ⟨group, first, role⟩ := Option.map_eq_some_iff.1 builtin
  have member : t.text ∈ group.words := by simpa using List.find?_some first
  have known : ∀ group ∈ keywordGroups, group.role = .keyword .builtinType →
      ∀ word ∈ group.words, word ∉ convertedWords := by decide
  have vocabulary : t.vocabularyRole? = some (.keyword .builtinType) := by
    rw [vocabularyRole?, keyword]
    exact builtin
  refine convertKeyword_word ?_ (known group (List.mem_of_find?_eq_some first) role t.text member) ?_
  · simp [isLiteral, isCopiedLiteral, keyword, vocabulary]
  · simp [Token.keywordRole?, vocabulary]

theorem convertKeyword_passing (keyword : t.category = .keyword)
    (passing : t.text ∈ ["ref", "immut", "in", "out", "params"]) :
    (convertKeyword inner place frame t rest).Gives
      (.next (if t.movesStart then (frame.vary.keyword t.text).markParams rest else frame.vary.word t.text)
        rest) := by
  have roles : ∀ word ∈ ["ref", "immut", "in", "out", "params"],
      keywordRole? word = some (.modifier .other) := by decide
  have vocabulary : t.vocabularyRole? = some (.modifier .other) := by
    rw [vocabularyRole?, keyword]
    exact roles t.text passing
  have noLiteral : t.isLiteral = false := by
    simp [isLiteral, isCopiedLiteral, keyword, vocabulary]
  by_cases moves : t.movesStart = true
  · have spaced : t.text ∈ ["ref", "in", "out"] := by simpa [movesStart, keyword] using moves
    simp only [moves, if_true]
    simp only [List.mem_cons, List.not_mem_nil, or_false] at spaced
    rcases spaced with text | text | text <;>
      simp [convertKeyword, convertPlainKeyword, startsStatement, noLiteral, Token.keywordRole?,
        vocabulary, text, statementWords, methodWords, spacedWords, Reading.Gives]
  · have others : ∀ word ∈ ["ref", "immut", "in", "out", "params"], word ∉ ["ref", "in", "out"] →
        word ∉ convertedWords := by decide
    have plain : t.text ∉ ["ref", "in", "out"] := by simpa [movesStart, keyword] using moves
    rw [if_neg moves, convertKeyword_word noLiteral (others t.text passing plain)
      (by simp [Token.keywordRole?, vocabulary])]
    exact .pure _

/-- An indexer in front of one of these operators has no arguments. -/
theorem convertIndexer_empty (followed : ∀ next ∈ nextSignificant? rest, next.isOpIn ["#", ",", "=>"] = true) :
    (convertIndexer inner place frame t rest).Gives
      (.next ((frame.vary.operator place "[").operator place "]") rest) := by
  have empty : emptyParens? rest = none ∧ isEmptyIndex rest = true := by
    unfold emptyParens? isEmptyIndex
    cases meaning : skipTrivia rest with
    | nil => exact ⟨rfl, rfl⟩
    | cons next more =>
      have member := followed next (by simp [nextSignificant?, meaning])
      rw [isOpIn_iff] at member
      have among : ∀ text ∈ ["#", ",", "=>"], text ∈ emptyIndexFollowers ∧ (text == "(") = false := by decide
      obtain ⟨follows, noGroup⟩ := among next.text member.2
      constructor
      · cases meaning : skipTrivia more <;> simp [meaning, isOp, noGroup]
      · simp [isOpIn, member.1, follows]
  unfold convertIndexer
  refine .note_bind ?_
  simp only [empty.1, empty.2, if_true]
  exact .pure _

/-- What a token among parameters makes of a frame.  `ref`, `in` and `out` let the parameters start
behind them, and in a statement nothing else does. -/
structure Frame.TakesParam (place : Place) (frame : Frame) (t : Token) (frame' : Frame) : Prop where
  pieces : frame'.pieces = frame.pieces ++ t.paramPieces
  tuple : frame'.tuple = .none
  start : place.mode = .statement → if t.movesStart then frame'.paramsMark = frame'.pieces.length
    else frame'.params = frame.params ∧ frame'.paramsMark = frame.paramsMark

theorem Frame.TakesParam.word (isWord : t.isWord = true) (still : t.movesStart = false)
    (pieces : frame'.pieces = frame.pieces ++ [Piece.word t.text]) (tuple : frame'.tuple = .none)
    (params : frame'.params = frame.params ∧ frame'.paramsMark = frame.paramsMark) :
    frame.TakesParam place t frame' := by
  refine ⟨?_, tuple, fun _ => ?_⟩
  · simpa [paramPieces, still, isWord] using pieces
  · simpa [still] using params

theorem movesStart_of_isTypeName (isTypeName : t.isTypeName = true) : t.movesStart = false := by
  have moved : ∀ text ∈ ["ref", "in", "out"], keywordRole? text = some (.modifier .other) := by decide
  refine Bool.eq_false_iff.2 fun moves => ?_
  simp only [movesStart, Bool.and_eq_true, beq_iff_eq, List.contains_iff_mem] at moves
  simp [Token.isTypeName, isNameLike, Token.keywordRole?, vocabularyRole?, moves.1,
    moved t.text moves.2] at isTypeName

theorem convertToken_paramKeyword (keyword : t.category = .keyword) (known : t.IsParamToken)
    (noTuple : frame.tuple = .none) :
    ∃ frame', (convertToken inner place frame t rest).Gives (.next frame' rest) ∧
      frame.TakesParam place t frame' := by
  have isWord : t.isWord = true := by simp [Token.isWord, keyword]
  rcases known with identifier | typeName | ⟨-, passing⟩ | operator
  · rw [keyword] at identifier
    cases identifier
  · have builtin : keywordRole? t.text = some (.keyword .builtinType) := by
      simp only [isTypeName, isNameLike, keyword, Token.keywordRole?, vocabularyRole?,
        Bool.false_or, beq_iff_eq] at typeName
      split at typeName
      · next role found => rw [found, Option.some.inj typeName]
      · cases typeName
    refine ⟨frame.vary.word t.text, ?_, .word isWord (movesStart_of_isTypeName typeName) rfl noTuple ⟨rfl, rfl⟩⟩
    simp only [convertToken, keyword, convertKeyword_builtin keyword builtin]
    exact .pure _
  · refine ⟨_, by simpa only [convertToken, keyword] using convertKeyword_passing keyword passing, ?_⟩
    by_cases moves : t.movesStart = true
    · rw [if_pos moves]
      refine ⟨?_, noTuple, fun _ => ?_⟩
      · simp [paramPieces, moves, Frame.vary, Frame.keyword, Frame.push, Frame.markParams]
      · rw [if_pos moves]
        rfl
    · rw [if_neg moves]
      exact .word isWord (Bool.eq_false_iff.2 moves) rfl noTuple ⟨rfl, rfl⟩
  · simp [isOpIn, keyword] at operator

theorem convertToken_paramOperator (operator : t.isOpIn [":", ",", "#"] = true) (mode : place.mode ≠ .args)
    (followed : t.isOp "#" = true → ∀ next ∈ nextSignificant? rest, next.isOpIn ["#", ",", "=>"] = true)
    (noTuple : frame.tuple = .none) :
    ∃ frame', (convertToken inner place frame t rest).Gives (.next frame' rest) ∧
      frame.TakesParam place t frame' := by
  simp only [isOpIn_iff, List.mem_cons, List.not_mem_nil, or_false] at operator
  obtain ⟨category, text⟩ := operator
  have still : t.movesStart = false := by simp [movesStart, category]
  have noWord : t.isWord = false := by simp [isWord, category]
  rcases text with text | text | text
  · have noAssignment : t.isAssignment = false := by
      simp only [isAssignment, isOpIn, category, text]
      decide
    refine ⟨frame.operator place ":", ?_, ?_, noTuple, fun _ => ?_⟩
    · simp only [convertToken, category, convertOperator, text, convertPlainOperator, noAssignment]
      exact .pure _
    · simp [paramPieces, still, noWord, isOp, text, Frame.operator, Frame.push, operatorSpacing]
    · rw [still]
      exact ⟨rfl, rfl⟩
  · refine ⟨convertComma place frame rest, ?_, ?_, ?_, fun statement => ?_⟩
    · simp only [convertToken, category, convertOperator, text, mode, if_false]
      exact .pure _
    · simp only [convertComma, Frame.closeTuple, noTuple]
      split <;> simp [paramPieces, still, noWord, isOp, text, Frame.operator, Frame.push,
        operatorSpacing, Frame.markSegment, Frame.markParams]
    · simp only [convertComma, Frame.closeTuple, noTuple]
      split <;> rfl
    · simp only [convertComma, Frame.closeTuple, noTuple, statement, reduceCtorEq, if_false, still]
      exact ⟨rfl, rfl⟩
  · have isHash : t.isOp "#" = true := by simp [isOp, category, text]
    refine ⟨(frame.vary.operator place "[").operator place "]", ?_, ?_, noTuple, fun _ => ?_⟩
    · simp only [convertToken, category, convertOperator, text]
      exact convertIndexer_empty (followed isHash)
    · simp [paramPieces, still, noWord, isHash, Frame.operator, Frame.push, Frame.vary, operatorSpacing]
    · rw [still]
      exact ⟨rfl, rfl⟩

theorem convertToken_param (known : t.IsParamToken) (listed : t.ContextListed) (mode : place.mode ≠ .args)
    (followed : t.isOp "#" = true → ∀ next ∈ nextSignificant? rest, next.isOpIn ["#", ",", "=>"] = true)
    (noTuple : frame.tuple = .none) :
    ∃ frame', (convertToken inner place frame t rest).Gives (.next frame' rest) ∧
      frame.TakesParam place t frame' := by
  cases category : t.category with
  | lineBreak | space | comment | stringLiteral | rawStringLiteral | charLiteral | numberLiteral =>
    simp [IsParamToken, category, isTypeName, isNameLike, Token.keywordRole?, vocabularyRole?, isOpIn] at known
  | identifier =>
    refine ⟨(frame.word t.text).vary, ?_, .word (by simp [isWord, category])
      (by simp [movesStart, category]) rfl noTuple ⟨rfl, rfl⟩⟩
    simp only [convertToken, category]
    exact .pure _
  | contextKeyword =>
    refine ⟨frame.vary.word t.text, ?_, .word (by simp [isWord, category])
      (by simp [movesStart, category]) rfl noTuple ⟨rfl, rfl⟩⟩
    simp only [convertToken, category, convertKeyword_context category listed]
    exact .pure _
  | keyword => exact convertToken_paramKeyword category known noTuple
  | operator =>
    have operator : t.isOpIn [":", ",", "#"] = true := by
      simpa [IsParamToken, category, isTypeName, isNameLike, Token.keywordRole?, vocabularyRole?] using known
    exact convertToken_paramOperator operator mode followed noTuple

/-! ### All parameters -/

/-- An array mark is followed by what ends an indexer. -/
def HashFollowed (t next : Token) : Prop := t.isOp "#" = true → next.isOpIn ["#", ",", "=>"] = true

theorem nextSignificant?_append (ts rest : List Token) :
    nextSignificant? (ts ++ rest) = (significant ts).head?.or (nextSignificant? rest) := by
  induction ts with
  | nil => rfl
  | cons t ts ih =>
    by_cases trivia : t.isTrivia = true
    · simpa [nextSignificant?, skipTrivia, significant, trivia] using ih
    · simp [nextSignificant?, skipTrivia, significant, trivia]

theorem paramPieces_ne_nil (t : Token) : t.paramPieces ≠ [] := by
  unfold paramPieces
  split
  · exact List.cons_ne_nil _ _
  · split
    · exact List.cons_ne_nil _ _
    · split <;> exact List.cons_ne_nil _ _

/-- The tokens of parameters, with blanks and comments among them, up to the arrow or the end. -/
structure ParamTokens (ts : List Token) : Prop where
  known : ∀ t ∈ significant ts, t.IsParamToken
  listed : ∀ t ∈ ts, t.ContextListed
  followed : (significant ts).IsChain HashFollowed

/-- The frame after all parameters.  They start where they started before, unless one of them is
passed by `ref`, `in` or `out`. -/
structure Frame.TakesParams (place : Place) (frame : Frame) (ts : List Token) (frame' : Frame) : Prop where
  pieces : frame'.pieces = frame.pieces ++ (significant ts).flatMap paramPieces
  tuple : frame'.tuple = .none
  start : place.mode = .statement →
    if (significant ts).any movesStart then frame.pieces.length < frame'.paramsMark
    else frame'.params = frame.params ∧ frame'.paramsMark = frame.paramsMark

theorem Frame.TakesParam.takesParams {ts : List Token} (meaning : t.isTrivia = false)
    (first : frame.TakesParam place t frame₁) (others : frame₁.TakesParams place ts frame₂) :
    frame.TakesParams place (t :: ts) frame₂ := by
  have kept : significant (t :: ts) = t :: significant ts := by simp [significant, meaning]
  have longer : frame.pieces.length < frame₁.pieces.length := by
    have positive := List.length_pos_iff.2 (paramPieces_ne_nil t)
    rw [first.pieces, List.length_append]
    omega
  refine ⟨?_, others.tuple, fun statement => ?_⟩
  · rw [others.pieces, first.pieces, kept, List.flatMap_cons, List.append_assoc]
  · have start := first.start statement
    have later := others.start statement
    rw [kept, List.any_cons]
    by_cases moved : (significant ts).any movesStart = true
    · rw [moved, Bool.or_true, if_pos rfl]
      rw [if_pos moved] at later
      omega
    · rw [if_neg moved] at later
      by_cases moves : t.movesStart = true
      · rw [moves, Bool.true_or, if_pos rfl, later.2]
        rw [if_pos moves] at start
        omega
      · rw [if_neg moves] at start
        simp only [Bool.eq_false_iff.2 moves, Bool.eq_false_iff.2 moved, Bool.or_false, Bool.false_eq_true,
          if_false]
        exact ⟨later.1.trans start.1, later.2.trans start.2⟩

theorem Frame.leadsTo_params {ts : List Token} (params : ParamTokens ts) (mode : place.mode ≠ .args)
    (last : ∀ next ∈ nextSignificant? rest, next.isOpIn ["#", ",", "=>"] = true)
    (noTuple : frame.tuple = .none) :
    ∃ frame', LeadsTo inner place frame (ts ++ rest) frame' rest ∧ frame.TakesParams place ts frame' := by
  induction ts generalizing frame with
  | nil => exact ⟨frame, .refl _ _, by simp [significant], noTuple, fun _ => by simp [significant]⟩
  | cons t ts ih =>
    obtain ⟨listed, listed_others⟩ := List.forall_mem_cons.1 params.listed
    by_cases trivia : t.isTrivia = true
    · have skipped : significant (t :: ts) = significant ts := by simp [significant, trivia]
      have others : ParamTokens ts :=
        ⟨skipped ▸ params.known, listed_others, skipped ▸ params.followed⟩
      obtain ⟨frame', leads, taken⟩ := ih others noTuple
      have round : (convertToken inner place frame t (ts ++ rest)).Gives (.next frame (ts ++ rest)) := by
        rw [convertToken_trivia trivia]
        exact .pure _
      refine ⟨frame', (LeadsTo.next round (Nat.le_refl _)).trans leads, ?_, taken.tuple, ?_⟩
      · rw [skipped]
        exact taken.pieces
      · rw [skipped]
        exact taken.start
    · have meaning : t.isTrivia = false := Bool.eq_false_iff.2 trivia
      have kept : significant (t :: ts) = t :: significant ts := by simp [significant, meaning]
      obtain ⟨known, known_others⟩ := List.forall_mem_cons.1 (kept ▸ params.known)
      obtain ⟨first, followed⟩ := List.isChain_cons.1 (kept ▸ params.followed)
      have next : t.isOp "#" = true →
          ∀ next ∈ nextSignificant? (ts ++ rest), next.isOpIn ["#", ",", "=>"] = true := by
        intro isHash next member
        rw [nextSignificant?_append] at member
        cases head : (significant ts).head? with
        | none =>
          rw [head, Option.none_or] at member
          exact last next member
        | some other =>
          rw [head, Option.some_or] at member
          exact first next (head ▸ member) isHash
      obtain ⟨frame₁, round, taken⟩ := @convertToken_param inner place frame t (ts ++ rest) known listed mode
        next noTuple
      obtain ⟨frame₂, leads, others⟩ := ih ⟨known_others, listed_others, followed⟩ taken.tuple
      exact ⟨frame₂, (LeadsTo.next round (Nat.le_refl _)).trans leads, taken.takesParams meaning others⟩

end Rounds

/-! ### The tokens of parameters -/

section Separated

variable {α : Type} {separator : String} {part : List Token → α → Prop} {ts : List Token} {values : List α}

section

variable (parts : Separated separator part ts values)
include parts

theorem Separated.forall_mem
    (each : ∀ ts a, part ts a → ∀ t ∈ ts, p t) (between : ∀ t, t.isOp separator = true → p t) :
    ∀ t ∈ ts, p t := by
  induction parts with
  | single first => exact each _ _ first
  | cons first separates _ ih =>
    exact List.forall_mem_append.2 ⟨each _ _ first, List.forall_mem_cons.2 ⟨between _ separates, ih⟩⟩

theorem Separated.isChain {r : Token → Token → Prop}
    (each : ∀ ts a, part ts a → ts.IsChain r) (before : ∀ t next, next.isOp separator = true → r t next)
    (after : ∀ t next, t.isOp separator = true → r t next) : ts.IsChain r := by
  induction parts with
  | single first => exact each _ _ first
  | @cons ts more t a others first separates _ ih =>
    refine List.isChain_append.2 ⟨each _ _ first, List.isChain_cons.2 ⟨fun next _ => after _ next separates, ih⟩,
      fun last _ next member => before last next ?_⟩
    cases member
    exact separates

theorem Separated.exists_cons
    (each : ∀ ts a, part ts a → ∃ t more, ts = t :: more ∧ p t) : ∃ t more, ts = t :: more ∧ p t := by
  cases parts with
  | single first => exact each _ _ first
  | cons first _ _ =>
    obtain ⟨t, more, rfl, holds⟩ := each _ _ first
    exact ⟨t, _, rfl, holds⟩

theorem Separated.any_eq {p : Token → Bool} {q : α → Bool}
    (each : ∀ ts a, part ts a → ts.any p = q a) (between : ∀ t, t.isOp separator = true → p t = false) :
    ts.any p = values.any q := by
  induction parts with
  | single first => simp [each _ _ first]
  | cons first separates _ ih => simp [each _ _ first, between _ separates, ih]

end

end Separated

section Tokens

variable {t : Token} {ts : List Token} {param : TypedParam} {params : LambdaParams}

/-- Among parameters there are no brackets. -/
theorem Token.IsParamToken.plain (known : t.IsParamToken) : t.isOpener = false ∧ t.isCloser = false := by
  have others : ∀ text ∈ [":", ",", "#"], text ∉ ["(", "\x7b", ")", "\x7d"] := by decide
  by_cases operator : t.category = .operator
  · have text : t.text ∈ [":", ",", "#"] := by
      simpa [IsParamToken, operator, isTypeName, isNameLike, Token.keywordRole?,
        vocabularyRole?, isOpIn] using known
    have other := others t.text text
    simp only [List.mem_cons, List.not_mem_nil, or_false, not_or] at other
    simp [isOpener, isCloser, isOp, other]
  · simp [isOpener, isCloser, isOp, operator]

/-- Where there are no brackets, everything is outside of them. -/
theorem hasTop_eq_any {p : Token → Bool} (plain : ∀ t ∈ ts, t.isOpener = false ∧ t.isCloser = false) :
    hasTop p ts = ts.any p := by
  induction ts with
  | nil => rfl
  | cons t ts ih =>
    obtain ⟨first, others⟩ := List.forall_mem_cons.1 plain
    rw [hasTop_cons_of_plain first.1 first.2, ih others, List.any_cons]

theorem isParamToken_of_isOp {text : String} (isOp : t.isOp text = true) (member : text ∈ [":", ",", "#"]) :
    t.IsParamToken := by
  rw [isOp_iff] at isOp
  exact .inr (.inr (.inr (by simpa [isOpIn, isOp] using member)))

theorem movesStart_of_isOp {text : String} (isOp : t.isOp text = true) : t.movesStart = false := by
  rw [isOp_iff] at isOp
  simp [movesStart, isOp.1]

theorem TypedParam.Spelled.known (spelled : param.Spelled ts) : ∀ t ∈ ts, t.IsParamToken := by
  obtain ⟨marks, name, colon, type, hashes, rfl, keywords, words, isName, -, -, isColon, isTypeName, -, isHash,
    -⟩ := spelled
  have passing : ∀ text ∈ passingWords param.passing, text ∈ ["ref", "immut", "in", "out", "params"] := by
    rcases param.passing with _ | _ | _ | _ | _ | _ <;> decide
  intro t member
  simp only [List.mem_append, List.mem_cons] at member
  rcases member with mark | rfl | rfl | rfl | hash
  · exact .inr (.inr (.inl ⟨keywords t mark, passing _ (words ▸ List.mem_map_of_mem mark)⟩))
  · exact .inl isName
  · exact isParamToken_of_isOp isColon (by decide)
  · exact .inr (.inl isTypeName)
  · exact isParamToken_of_isOp (isHash t hash) (by decide)

theorem isChain_hashFollowed {front hashes : List Token} (plain : ∀ t ∈ front, t.isOp "#" = false)
    (isHash : ∀ t ∈ hashes, t.isOp "#" = true) : (front ++ hashes).IsChain HashFollowed := by
  induction front with
  | nil =>
    induction hashes with
    | nil => exact .nil
    | cons t hashes ih =>
      obtain ⟨-, others⟩ := List.forall_mem_cons.1 isHash
      refine List.isChain_cons.2 ⟨fun next member _ => ?_, ih others⟩
      have isHash := others next (List.mem_of_mem_head? member)
      rw [isOp_iff] at isHash
      simp [isOpIn, isHash]
  | cons t front ih =>
    obtain ⟨first, others⟩ := List.forall_mem_cons.1 plain
    exact List.isChain_cons.2 ⟨fun next _ isHash => by simp [first] at isHash, ih others⟩

theorem TypedParam.Spelled.followed (spelled : param.Spelled ts) : ts.IsChain HashFollowed := by
  obtain ⟨marks, name, colon, type, hashes, rfl, keywords, -, isName, -, -, isColon, isTypeName, -, isHash,
    -⟩ := spelled
  have word {t : Token} (noOperator : t.category ≠ .operator) : t.isOp "#" = false := by
    simp [isOp, noOperator]
  have plain : ∀ t ∈ marks ++ [name, colon, type], t.isOp "#" = false := by
    intro t member
    simp only [List.mem_append, List.mem_cons, List.not_mem_nil, or_false] at member
    rcases member with mark | rfl | rfl | rfl
    · exact word (by simp [keywords t mark])
    · exact word (by simp [isName])
    · simp [isOp_of_isOp isColon]
    · refine word fun operator => ?_
      simp [Token.isTypeName, isNameLike, Token.keywordRole?, vocabularyRole?, operator] at isTypeName
  simpa using isChain_hashFollowed plain isHash

theorem TypedParam.Spelled.any_colon (spelled : param.Spelled ts) : ts.any (·.isOp ":") = true := by
  obtain ⟨marks, name, colon, type, hashes, rfl, -, -, -, -, -, isColon, -⟩ := spelled
  simp [isColon]

/-- Only the words in front of a parameter can move the start. -/
theorem TypedParam.Spelled.any_movesStart (spelled : param.Spelled ts) : ts.any movesStart = !param.keepsStart := by
  obtain ⟨marks, name, colon, type, hashes, rfl, keywords, words, isName, -, -, isColon, isTypeName, -, isHash,
    -⟩ := spelled
  have name_still : name.movesStart = false := by simp [movesStart, isName]
  have hashes_still : hashes.any movesStart = false := by
    simpa using fun t member => movesStart_of_isOp (isHash t member)
  have marked : marks.any movesStart = (passingWords param.passing).any ["ref", "in", "out"].contains := by
    rw [← words, List.any_map]
    clear words
    induction marks with
    | nil => rfl
    | cons t marks ih =>
      obtain ⟨keyword, keywords⟩ := List.forall_mem_cons.1 keywords
      rw [List.any_cons, List.any_cons, ih keywords]
      simp [movesStart, keyword]
  have passed : (passingWords param.passing).any ["ref", "in", "out"].contains = !param.keepsStart := by
    unfold TypedParam.keepsStart
    rcases param.passing with _ | _ | _ | _ | _ | _ <;> decide
  rw [List.any_append, List.any_cons, List.any_cons, List.any_cons, marked, passed, name_still,
    movesStart_of_isOp isColon, movesStart_of_isTypeName isTypeName, hashes_still]
  simp

namespace LambdaParams.Spelled

theorem exists_cons (spelled : params.Spelled ts) : ∃ t more, ts = t :: more ∧ t.isWord = true := by
  cases params with
  | plain names =>
    refine Separated.exists_cons spelled ?_
    rintro _ _ ⟨t, rfl, isName, -⟩
    exact ⟨t, [], rfl, by simp [isWord, isName]⟩
  | typed params =>
    refine Separated.exists_cons spelled ?_
    rintro _ _ ⟨marks, name, colon, type, hashes, rfl, keywords, -, isName, -⟩
    cases marks with
    | nil => exact ⟨name, _, rfl, by simp [isWord, isName]⟩
    | cons mark marks => exact ⟨mark, _, rfl, by simp [isWord, keywords mark List.mem_cons_self]⟩

theorem known (spelled : params.Spelled ts) : ∀ t ∈ ts, t.IsParamToken := by
  have comma (t : Token) (isComma : t.isOp "," = true) : t.IsParamToken :=
    isParamToken_of_isOp isComma (by decide)
  cases params with
  | plain names =>
    refine Separated.forall_mem spelled ?_ comma
    rintro _ _ ⟨t, rfl, isName, -⟩ t' member
    rw [List.mem_singleton.1 member]
    exact .inl isName
  | typed params => exact Separated.forall_mem spelled (fun _ _ => TypedParam.Spelled.known) comma

theorem paramTokens (spelled : params.Spelled (significant ts)) (listed : ∀ t ∈ ts, t.ContextListed) :
    ParamTokens ts := by
  have before (t next : Token) (isComma : next.isOp "," = true) : HashFollowed t next := by
    intro _
    rw [isOp_iff] at isComma
    simp [isOpIn, isComma]
  have after (t next : Token) (isComma : t.isOp "," = true) : HashFollowed t next := by
    intro isHash
    simp [isOp_of_isOp isComma] at isHash
  refine ⟨spelled.known, listed, ?_⟩
  cases params with
  | plain names =>
    refine Separated.isChain spelled ?_ before after
    rintro _ _ ⟨t, rfl, -⟩
    exact .singleton t
  | typed params => exact Separated.isChain spelled (fun _ _ => TypedParam.Spelled.followed) before after

/-- The colons show whether there are types. -/
theorem hasTop_colon (spelled : params.Spelled ts) : hasTop (·.isOp ":") ts = params.isTyped := by
  have comma (t : Token) (isComma : t.isOp "," = true) : t.isOp ":" = false := by
    simp [isOp_of_isOp isComma]
  rw [hasTop_eq_any fun t member => (spelled.known t member).plain]
  cases params with
  | plain names =>
    have names_free : ts.any (·.isOp ":") = names.any fun _ => false := by
      refine Separated.any_eq spelled ?_ comma
      rintro _ _ ⟨t, rfl, isName, -⟩
      simp [isOp, isName]
    exact names_free.trans (List.any_eq_false.2 fun _ _ => Bool.false_ne_true)
  | typed params =>
    have colons : ts.any (·.isOp ":") = params.any fun _ => true :=
      Separated.any_eq spelled (fun _ _ => TypedParam.Spelled.any_colon) comma
    obtain ⟨param, others, rfl⟩ := List.exists_cons_of_ne_nil (Separated.values_ne_nil spelled)
    exact colons.trans (List.any_cons.trans (Bool.true_or _))

theorem any_movesStart (spelled : params.Spelled ts) : ts.any movesStart = !params.keepsStart := by
  cases params with
  | plain names =>
    have still : ts.any movesStart = names.any fun _ => false := by
      refine Separated.any_eq spelled ?_ fun _ => movesStart_of_isOp
      rintro _ _ ⟨t, rfl, isName, -⟩
      simp [movesStart, isName]
    exact still.trans (List.any_eq_false.2 fun _ _ => Bool.false_ne_true)
  | typed params =>
    have moved : ts.any movesStart = params.any fun param => !param.keepsStart :=
      Separated.any_eq spelled (fun _ _ => TypedParam.Spelled.any_movesStart) fun _ => movesStart_of_isOp
    rw [moved, keepsStart, List.any_eq_not_all_not]
    simp

/-- Parameters without types are written as they are. -/
theorem flatMap_paramPieces {names : List String} (spelled : (plain names).Spelled ts) :
    ts.flatMap paramPieces = withCommas (names.map fun name => [.word name]) := by
  have word {ts : List Token} {name : String} (isName : IsName ts name) :
      ts.flatMap paramPieces = [.word name] := by
    obtain ⟨t, rfl, isName, rfl⟩ := isName
    simp [paramPieces, movesStart, isWord, isName]
  have comma {t : Token} (isComma : t.isOp "," = true) : t.paramPieces = [.code "," .trailing] := by
    have still := movesStart_of_isOp isComma
    have noHash : t.isOp "#" = false := by simp [isOp_of_isOp isComma]
    rw [isOp_iff] at isComma
    simp [paramPieces, still, noHash, isWord, isComma, operatorSpacing]
  have from_parts : ∀ {ts names}, Separated "," IsName ts names →
      ts.flatMap paramPieces = withCommas (names.map fun name => [.word name]) := by
    intro ts names parts
    induction parts with
    | single first => rw [word first, List.map_singleton, withCommas_singleton]
    | cons first separates following ih =>
      rw [List.flatMap_append, List.flatMap_cons, word first, comma separates, ih, List.map_cons,
        withCommas_cons _ (by simpa using following.values_ne_nil)]
      rfl
  exact from_parts spelled

end LambdaParams.Spelled

end Tokens

end Sharp
