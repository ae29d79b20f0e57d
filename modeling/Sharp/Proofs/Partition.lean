import Mathlib.Data.List.Chain
import Mathlib.Data.List.Infix
import Mathlib.Data.List.TakeWhile
import Sharp.Proofs.Scanned
import Sharp.Proofs.Tokenized

/-!
# The tokens of a source partition it

The tokens of a source are numbered from zero on, and each one starts where the one before it ends,
so that together they cover every byte of the source.  What is written for a token is what the
source has between its start and its end, except for a literal that had to be completed and for a
back-quoted string, which is written with quotes.

* `partitions_of_tokenize`: what `tokenize` gives partitions the source.
-/

namespace Sharp

variable {cs body rest : List Char} {start id stop n count : Nat} {s before middle after source : String}

/-! ## Slices of a string -/

theorem byteLength_eq_utf8ByteSize (cs : List Char) : byteLength cs = (String.ofList cs).utf8ByteSize := by
  induction cs with
  | nil => rfl
  | cons c cs ih => simp [byteLength, ih]

theorem byteLength_pos (nonempty : cs ≠ []) : 0 < byteLength cs := by
  match cs with
  | c :: cs =>
    have := c.utf8Size_pos
    simp only [byteLength]
    omega

/-- What a string has between the end of its first part and the end of its second one. -/
theorem extract_eq_middle (parts : s = before ++ middle ++ after) (start_eq : start = before.utf8ByteSize)
    (stop_eq : stop = before.utf8ByteSize + middle.utf8ByteSize)
    (start_isValid : String.Pos.Raw.IsValid s ⟨start⟩)
    (stop_isValid : String.Pos.Raw.IsValid s ⟨stop⟩) :
    s.extract (s.pos ⟨start⟩ start_isValid) (s.pos ⟨stop⟩ stop_isValid) = middle := by
  have bytes : s.toByteArray = before.toByteArray ++ (middle.toByteArray ++ after.toByteArray) := by
    rw [parts, String.append_assoc, String.toByteArray_append, String.toByteArray_append]
  rw [← String.toByteArray_inj, String.toByteArray_extract, bytes, String.offset_pos,
    String.offset_pos, start_eq, stop_eq]
  simp only [← String.size_toByteArray]
  have skip := ByteArray.extract_append_size_add (a := before.toByteArray)
    (b := middle.toByteArray ++ after.toByteArray) (i := 0) (j := middle.toByteArray.size)
  rw [ByteArray.extract_append_eq_left rfl] at skip
  simpa using skip

/-! ## What is written for a lexeme -/

/-- A back-quote in a back-quoted string. -/
def escapedBackquote : List Char := ['\\', backquote]

/-- `content` is `body` with a back-quote for every escaped one. -/
def Unescaped (body content : List Char) : Prop :=
  ∃ parts, parts ≠ [] ∧ (∀ part ∈ parts, ¬ escapedBackquote <:+: part) ∧
    escapedBackquote.intercalate parts = body ∧ [backquote].intercalate parts = content

theorem intercalate_cons_head (sep : List Char) (c : Char) (part : List Char) (parts : List (List Char)) :
    sep.intercalate ((c :: part) :: parts) = c :: sep.intercalate (part :: parts) := by
  cases parts <;> simp [List.intercalate_cons_cons]

theorem unescaped_unescapeBackquotes (body : List Char) : Unescaped body (unescapeBackquotes body) := by
  fun_induction unescapeBackquotes body with
  | case1 => exact ⟨[[]], by simp, by simp [escapedBackquote], rfl, rfl⟩
  | case2 c =>
    refine ⟨[[c]], by simp, ?_, rfl, rfl⟩
    intro part member occurs
    have := occurs.length_le
    simp_all [escapedBackquote]
  | case3 c d cs escaped ih =>
    obtain ⟨parts, nonempty, absent, rfl, content⟩ := ih
    obtain ⟨part, parts, rfl⟩ := List.exists_cons_of_ne_nil nonempty
    simp only [Bool.and_eq_true, beq_iff_eq] at escaped
    obtain ⟨rfl, rfl⟩ := escaped
    refine ⟨[] :: part :: parts, by simp, ?_, rfl, ?_⟩
    · intro part' member
      rcases List.mem_cons.1 member with rfl | member
      · simp [escapedBackquote]
      · exact absent part' member
    · rw [← content]
      rfl
  | case4 c d cs plain ih =>
    obtain ⟨parts, nonempty, absent, body, content⟩ := ih
    obtain ⟨part, parts, rfl⟩ := List.exists_cons_of_ne_nil nonempty
    refine ⟨(c :: part) :: parts, by simp, ?_, ?_, ?_⟩
    · intro part' member occurs
      rcases List.mem_cons.1 member with rfl | member
      · rcases List.infix_cons_iff.1 occurs with front | inside
        · -- an escaped back-quote at the front would have been caught by the case before
          obtain ⟨rest, front⟩ := front
          simp only [escapedBackquote, List.cons_append, List.cons.injEq, List.nil_append] at front
          obtain ⟨rfl, rfl⟩ := front
          rw [intercalate_cons_head] at body
          simp_all
        · exact absent part List.mem_cons_self inside
      · exact absent part' (List.mem_cons_of_mem _ member) occurs
    · rw [intercalate_cons_head, body]
    · rw [intercalate_cons_head, content]

theorem le_quoteRun_of_front (front : List.replicate n '"' <+: cs) : n ≤ quoteRun cs := by
  obtain ⟨rest, rfl⟩ := front
  rw [quoteRun, List.takeWhile_append_of_pos (by simp)]
  simp

/-- No run of quotes in a text is longer than its longest one. -/
theorem le_longestQuoteRun_of_infix (occurs : List.replicate n '"' <:+: cs) : n ≤ longestQuoteRun cs := by
  induction cs with
  | nil => simpa [longestQuoteRun] using occurs.length_le
  | cons c cs ih =>
    rw [longestQuoteRun]
    rcases List.infix_cons_iff.1 occurs with front | inside
    · exact Nat.le_trans (le_quoteRun_of_front front) (Nat.le_max_left _ _)
    · exact Nat.le_trans (ih inside) (Nat.le_max_right _ _)

/-- `Renders category slice text`: a token of the category that covers the characters `slice` is
written `text`. -/
inductive Renders : Category → List Char → List Char → Prop where
  | verbatim {category : Category} {slice : List Char}
      (unquoted : category = .rawStringLiteral → slice.getLast? ≠ some backquote) :
      Renders category slice slice
  | stringCompleted {slice : List Char} : Renders .stringLiteral slice (slice ++ ['"'])
  | charCompleted {slice : List Char} : Renders .charLiteral slice (slice ++ ['\''])
  /-- Enough quotes stand in the place of the back-quotes. -/
  | backquoted {marks body content : List Char} {n : Nat}
      (marked : ∀ c ∈ marks, c = '$' ∨ c = '@') (unescaped : Unescaped body content)
      (three : 3 ≤ n) (absent : ¬ List.replicate n '"' <:+: content) :
      Renders .rawStringLiteral (marks ++ backquote :: (body ++ [backquote]))
        (marks ++ List.replicate n '"' ++ content ++ List.replicate n '"')

def Scan.Faithful (scan : Scan) : Prop :=
  ∀ lexeme rest, scan = .ok (some (lexeme, rest)) → Renders lexeme.category lexeme.source lexeme.text.toList

theorem renders_verbatim {source : List Char} {category : Category} {role : Option Role}
    (unquoted : category = .rawStringLiteral → source.getLast? ≠ some backquote) :
    Renders (Lexeme.verbatim source category role).category (Lexeme.verbatim source category role).source
      (Lexeme.verbatim source category role).text.toList := by
  rw [Lexeme.verbatim, String.toList_ofList]
  exact .verbatim unquoted

theorem mem_splitRawMarks {c : Char} (member : c ∈ (splitRawMarks cs).1) : c = '$' ∨ c = '@' := by
  have dollar {cs : List Char} (member : c ∈ cs.takeWhile (· == '$')) : c = '$' := by
    simpa using List.mem_takeWhile_imp member
  unfold splitRawMarks at member
  split at member
  · rcases List.mem_cons.1 member with rfl | member
    · exact .inr rfl
    · exact .inl (dollar member)
  · split at member
    · rcases List.mem_append.1 member with member | member
      · exact .inl (dollar member)
      · exact .inr (by simpa using member)
    · exact .inl (dollar member)

theorem take_quoteRun (cs : List Char) : cs.take (quoteRun cs) = List.replicate (quoteRun cs) '"' := by
  rw [quoteRun, ← List.prefix_iff_eq_take.1 (List.takeWhile_prefix _)]
  refine List.eq_replicate_iff.2 ⟨rfl, fun c member => ?_⟩
  simpa using List.mem_takeWhile_imp member

theorem getLast?_splitQuotedBody (h : splitQuotedBody count cs = some (body, rest)) (positive : 0 < count) :
    body.getLast? = some '"' := by
  fun_induction splitQuotedBody count cs generalizing body with
  | case1 => simp at h
  | case2 c cs run =>
    simp only [Option.some.injEq, Prod.mk.injEq] at h
    rw [← h.1, ← run, take_quoteRun, List.getLast?_replicate, if_neg (by omega)]
  | case3 c cs run ih =>
    simp only [Option.map_eq_some_iff, Prod.mk.injEq, Prod.exists] at h
    obtain ⟨body, rest, h, rfl, rfl⟩ := h
    rw [List.getLast?_cons, ih h]
    rfl

theorem scan_faithful (cs : List Char) : (scan cs).Faithful := by
  intro lexeme rest found
  cases scanned_of_scan found with
  | closedString _ _ =>
    rw [String.toList_ofList]
    exact .verbatim (by simp)
  | openString _ _ =>
    rw [String.toList_ofList]
    exact .stringCompleted
  | charLiteral _ _ _ =>
    simp only [String.toList_ofList]
    split
    · rw [List.append_nil]
      exact .verbatim (by simp)
    · exact .charCompleted
  | @backquoted _ marks _ inside _ opens _ _ enough =>
    have marked : ∀ c ∈ marks, c = '$' ∨ c = '@' := fun c member => mem_splitRawMarks (by rwa [opens])
    simp only [String.toList_ofList, enough]
    refine .backquoted marked (unescaped_unescapeBackquotes inside) (Nat.le_max_left _ _) fun occurs => ?_
    have := le_longestQuoteRun_of_infix occurs
    omega
  | rawString _ three closes =>
    refine renders_verbatim fun _ => ?_
    rw [List.getLast?_append, getLast?_splitQuotedBody closes (by omega)]
    simp [backquote]
  | word _ =>
    rw [text_wordLexeme, source_wordLexeme, String.toList_ofList]
    refine .verbatim fun raw => ?_
    rcases category_wordLexeme _ with other | other | other <;> cases raw.symm.trans other
  | operator _ => exact .verbatim (by simp)
  | _ => exact renders_verbatim (by simp)

/-! ## Tokens of a source -/

/-- The token is a slice of the source, between two of its characters, and is written as such a
slice is. -/
structure Token.Fits (source : String) (t : Token) : Prop where
  start_lt_stop : t.start < t.stop
  start_isValid : String.Pos.Raw.IsValid source ⟨t.start⟩
  stop_isValid : String.Pos.Raw.IsValid source ⟨t.stop⟩
  rendered : Renders t.category
    (source.extract (source.pos ⟨t.start⟩ start_isValid) (source.pos ⟨t.stop⟩ stop_isValid)).toList
    t.text.toList

/-- The tokens are numbered in order, follow one another without a gap and cover the source. -/
structure Partitions (source : String) (tokens : List Token) : Prop where
  ids : tokens.map Token.id = List.range tokens.length
  first : ∀ t ∈ tokens.head?, t.start = 0
  adjacent : tokens.IsChain fun t next => t.stop = next.start
  last : ∀ t ∈ tokens.getLast?, t.stop = source.utf8ByteSize
  empty : tokens = [] ↔ source = ""
  fits : ∀ t ∈ tokens, t.Fits source

theorem Lexeme.fits_tokenAt {before : List Char} {lexeme : Lexeme}
    (covered : source.toList = before ++ (lexeme.source ++ rest)) (nonempty : lexeme.source ≠ [])
    (rendered : Renders lexeme.category lexeme.source lexeme.text.toList) :
    (lexeme.tokenAt id (byteLength before)).Fits source := by
  have parts : source = String.ofList before ++ String.ofList lexeme.source ++ String.ofList rest := by
    rw [← String.toList_inj, covered]
    simp
  have start_isValid : String.Pos.Raw.IsValid source ⟨byteLength before⟩ := by
    refine String.Pos.Raw.isValid_iff_exists_append.2 ⟨_, _, parts.trans String.append_assoc, ?_⟩
    exact String.Pos.Raw.ext (byteLength_eq_utf8ByteSize before)
  have stop_isValid : String.Pos.Raw.IsValid source ⟨byteLength before + byteLength lexeme.source⟩ := by
    refine String.Pos.Raw.isValid_iff_exists_append.2 ⟨_, _, parts, String.Pos.Raw.ext ?_⟩
    exact (congrArg₂ _ (byteLength_eq_utf8ByteSize _) (byteLength_eq_utf8ByteSize _)).trans
      (String.utf8ByteSize_append ..).symm
  refine ⟨Nat.lt_add_of_pos_right (byteLength_pos nonempty), start_isValid, stop_isValid, ?_⟩
  have slice := extract_eq_middle parts (byteLength_eq_utf8ByteSize before)
    (congrArg₂ _ (byteLength_eq_utf8ByteSize _) (byteLength_eq_utf8ByteSize _)) start_isValid
    stop_isValid
  simpa only [Lexeme.tokenAt, slice, String.toList_ofList] using rendered

namespace Tokenized

variable {tokens : List Token}

section

variable (derivation : Tokenized id start cs tokens)
include derivation

theorem map_id : tokens.map Token.id = List.range' id tokens.length := by
  induction derivation with
  | nil => rfl
  | cons nonempty scanned tail ih => simp [ih, Lexeme.tokenAt, List.range'_succ]

theorem start_of_mem_head? : ∀ t ∈ tokens.head?, t.start = start := by
  cases derivation with
  | nil => simp
  | cons => simp [Lexeme.tokenAt]

theorem isChain : tokens.IsChain fun t next => t.stop = next.start := by
  induction derivation with
  | nil => exact .nil
  | cons nonempty scanned tail ih =>
    refine List.isChain_cons.2 ⟨fun next member => ?_, ih⟩
    exact (tail.start_of_mem_head? next member).symm

theorem eq_nil_iff : tokens = [] ↔ cs = [] := by
  cases derivation with
  | nil => simp
  | cons nonempty => simp [nonempty]

theorem stop_of_mem_getLast? : ∀ t ∈ tokens.getLast?, t.stop = start + byteLength cs := by
  induction derivation with
  | nil => simp
  | @cons id start lexeme rest tokens nonempty scanned tail ih =>
    intro t member
    by_cases last : tokens = []
    · have rest_nil := tail.eq_nil_iff.1 last
      subst last rest_nil
      simp only [List.getLast?_singleton, Option.mem_def, Option.some.injEq] at member
      rw [← member, List.append_nil, Lexeme.tokenAt]
    · rw [List.getLast?_cons_of_ne_nil last] at member
      rw [ih t member, byteLength_append, Nat.add_assoc]

theorem fits (before : List Char) (covered : source.toList = before ++ cs) (start_eq : start = byteLength before) :
    ∀ t ∈ tokens, t.Fits source := by
  induction derivation generalizing before with
  | nil => simp
  | @cons id start lexeme rest tokens nonempty scanned tail ih =>
    subst start_eq
    intro t member
    rcases List.mem_cons.1 member with rfl | member
    · exact Lexeme.fits_tokenAt covered nonempty (scan_faithful _ _ _ scanned)
    · exact ih (before ++ lexeme.source) (by simp [covered]) (by simp) t member

end

end Tokenized

/-- The tokens of a source partition it, and each is written as its slice of the source is. -/
theorem partitions_of_tokenize {source : String} {tokens : List Token}
    (read : tokenize source = .ok tokens) : Partitions source tokens := by
  have derivation := tokenize_eq_ok_iff.1 read
  refine ⟨?_, derivation.start_of_mem_head?, derivation.isChain, ?_, ?_, ?_⟩
  · rw [derivation.map_id, List.range_eq_range']
  · intro t member
    rw [derivation.stop_of_mem_getLast? t member, byteLength_eq_utf8ByteSize]
    simp
  · rw [derivation.eq_nil_iff]
    simp
  · exact derivation.fits [] (by simp) rfl

/-- A name, a back-quoted string with an escape, and a string with a two-byte character and no
closing quote. -/
theorem partitions_of_tokenize_completed : tokenize "f$`\\``\"é" = .ok [⟨0, "f", 0, 1, .identifier, none⟩,
          ⟨1, "$\"\"\"`\"\"\"", 1, 6, .rawStringLiteral, some (.literal .rawString)⟩,
          ⟨2, "\"é\"", 6, 9, .stringLiteral, some (.literal .string)⟩] ∧
      Partitions "f$`\\``\"é" [⟨0, "f", 0, 1, .identifier, none⟩,
        ⟨1, "$\"\"\"`\"\"\"", 1, 6, .rawStringLiteral, some (.literal .rawString)⟩,
        ⟨2, "\"é\"", 6, 9, .stringLiteral, some (.literal .string)⟩] :=
  have read : tokenize "f$`\\``\"é" = .ok _ :=
    eq_ok_of_toOption (by decide +kernel)
  ⟨read, partitions_of_tokenize read⟩

end Sharp
