import Sharp.Lexeme.Number
import Sharp.Lexeme.Plain
import Sharp.Lexeme.Quoted
import Sharp.Lexeme.RawString

/-!
# The tokens of a source

`tokenize` reads a whole source.  Its tokens are numbered in order and follow one another without a
gap, white space and comments included.
-/

namespace Sharp

/-- The readers in the order in which they are asked.  Comments and literals come first, since
their marks can also be read as operators; numbers come before other words. -/
def lexemeReaders : List (List Char → Scan) :=
  [scanComment, scanString, scanRawString, scanChar, scanNumber, scanWord, scanBreak, scanBlanks,
   scanOperator]

def scan : List Char → Scan :=
  firstScan lexemeReaders

theorem scan_splits (cs : List Char) : (scan cs).Splits cs := by
  refine firstScan_splits fun reader h => ?_
  simp only [lexemeReaders, List.mem_cons, List.not_mem_nil, or_false] at h
  obtain rfl | rfl | rfl | rfl | rfl | rfl | rfl | rfl | rfl := h
  · exact scanComment_splits cs
  · exact scanString_splits cs
  · exact scanRawString_splits cs
  · exact scanChar_splits cs
  · exact scanNumber_splits cs
  · exact scanWord_splits cs
  · exact scanBreak_splits cs
  · exact scanBlanks_splits cs
  · exact scanOperator_splits cs

theorem length_of_scan {cs rest : List Char} {lexeme : Lexeme}
    (h : scan cs = .ok (some (lexeme, rest))) : rest.length < cs.length := by
  obtain ⟨nonempty, rfl⟩ := scan_splits cs lexeme rest h
  have := List.length_pos_iff.2 nonempty
  simp only [List.length_append]
  omega

/-- The tokens of the text `cs`, of which the first has the number `id` and starts at the byte
`start` of the source. -/
def tokenizeFrom (id start : Nat) (cs : List Char) : Except Fault (List Token) :=
  match cs with
  | [] => .ok []
  | c :: cs =>
    match h : scan (c :: cs) with
    | .error flaw => .error ⟨flaw.cause, some ⟨start + flaw.span.offset, flaw.span.length⟩⟩
    | .ok none => .error ⟨.unexpectedCharacter c, some ⟨start, c.utf8Size⟩⟩
    | .ok (some (lexeme, rest)) => do
      let stop := start + byteLength lexeme.source
      let tokens ← tokenizeFrom (id + 1) stop rest
      return ⟨id, lexeme.text, start, stop, lexeme.category, lexeme.role⟩ :: tokens
termination_by cs.length
decreasing_by exact length_of_scan h

def tokenize (source : String) : Except Fault (List Token) :=
  tokenizeFrom 0 0 source.toList

end Sharp
