import Sharp.Proofs.Output

/-!
# Where faults are

* `Span.Fits`: a stretch of a text between two of its characters.
* `fault_of_tokenize`: the faults of tokens concern such a stretch.
* `located_of_convert`: so do the faults of a conversion.
-/

namespace Sharp

variable {text : String} {fault : Fault} {before after middle cs : List Char}

/-! ## Stretches of a text -/

/-- The stretch is part of the text and starts and ends between characters. -/
structure Span.Fits (text : String) (span : Span) : Prop where
  stop_le : span.offset + span.length ≤ text.utf8ByteSize
  start_isValid : String.Pos.Raw.IsValid text ⟨span.offset⟩
  stop_isValid : String.Pos.Raw.IsValid text ⟨span.offset + span.length⟩

theorem isValid_byteLength (parts : text.toList = before ++ after) :
    String.Pos.Raw.IsValid text ⟨byteLength before⟩ := by
  have parts : text = String.ofList before ++ String.ofList after := by
    rw [← String.toList_inj, parts]
    simp
  exact String.Pos.Raw.isValid_iff_exists_append.2
    ⟨_, _, parts, String.Pos.Raw.ext (byteLength_eq_utf8ByteSize before)⟩

theorem Span.fits_of_parts (parts : text.toList = before ++ (middle ++ after)) :
    Span.Fits text ⟨byteLength before, byteLength middle⟩ := by
  have stop : String.Pos.Raw.IsValid text ⟨byteLength before + byteLength middle⟩ := by
    rw [← byteLength_append]
    exact isValid_byteLength (parts.trans (List.append_assoc ..).symm)
  exact ⟨stop.le_rawEndPos, isValid_byteLength parts, stop⟩

theorem Token.Fits.span {t : Token} (fits : t.Fits text) : t.span.Fits text := by
  have ends : t.span.offset + t.span.length = t.stop := Nat.add_sub_cancel' fits.start_lt_stop.le
  refine ⟨?_, fits.start_isValid, ?_⟩
  · rw [ends]
    exact fits.stop_isValid.le_rawEndPos
  · rw [ends]
    exact fits.stop_isValid

/-! ## Faults of tokens -/

/-- A flaw concerns a stretch of the characters. -/
theorem Flawed.located {flaw : Flaw} (flawed : Flawed cs flaw) :
    flaw.cause ≠ .outsideRange ∧ ∃ before middle after, cs = before ++ (middle ++ after) ∧
      flaw.span = ⟨byteLength before, byteLength middle⟩ := by
  cases flawed with
  | comment | rawString => exact ⟨by simp, [], cs, [], by simp, rfl⟩
  | @point whole digits fraction after digit point more second again =>
    -- The point of the second fraction.
    refine ⟨by simp, whole ++ '.' :: fraction, ['.'], after, ?_, rfl⟩
    have first := splitNumeral_append cs
    have last := splitNumeral_append digits
    rw [point] at first
    rw [second] at last
    simp [← first, ← last]

/-- A text that cannot be read as tokens is at fault between two of its characters. -/
theorem fault_of_tokenize (failed : tokenize text = .error fault) :
    fault.cause ≠ .outsideRange ∧ ∃ span, fault.span = some span ∧ span.Fits text := by
  obtain ⟨before, c, rest, parts, ⟨flaw, scanned, rfl⟩ | rfl⟩ := exists_flaw_of_tokenizeFrom failed
  · obtain ⟨inside, front, middle, after, split, span⟩ := (flawed_of_scan scanned).located
    refine ⟨inside, _, rfl, ?_⟩
    have whole : text.toList = (before ++ front) ++ (middle ++ after) := by
      rw [parts, split, List.append_assoc]
    have fits := Span.fits_of_parts whole
    rw [byteLength_append, ← Nat.zero_add (byteLength before)] at fits
    rwa [span]
  · have whole : text.toList = before ++ ([c] ++ rest) := parts
    have fits := Span.fits_of_parts whole
    refine ⟨by simp, _, rfl, ?_⟩
    rwa [Nat.zero_add]

/-! ## Faults of conversions -/

/-- A refused program is refused by the tokens or concerns one of them. -/
theorem Program.fault_of_ofSource (failed : Program.ofSource text = .error fault) : tokenize text = .error fault ∨
      ∃ tokens, ∃ read : tokenize text = .ok tokens, (Source.ofTokens read).Blames fault := by
  obtain ⟨fault', flawed⟩ | ⟨tokens, read⟩ : (∃ fault', tokenize text = .error fault') ∨
      ∃ tokens, tokenize text = .ok tokens := by
    cases tokenize text with
    | error fault' => exact .inl ⟨fault', rfl⟩
    | ok tokens => exact .inr ⟨tokens, rfl⟩
  · rw [Program.ofSource, Layers.program, flawed] at failed
    cases failed
    exact .inl flawed
  · have sound := Source.block_sound read
    rw [Program.ofSource, Layers.program, read] at failed
    cases block : Layers.standard.all.block .root tokens with
    | done _ output => simp [bind, Except.bind, block] at failed
    | fail fault' =>
      simp only [bind, Except.bind, block, Except.error.injEq] at failed
      rw [block] at sound
      exact .inr ⟨tokens, read, failed ▸ sound⟩

theorem Program.ofSource_of_convert {settings : LayoutSettings}
    (failed : convert settings text = .error fault) : Program.ofSource text = .error fault := by
  unfold convert at failed
  cases converted : Program.ofSource text with
  | error fault' => rw [converted] at failed; cases failed; rfl
  | ok program => rw [converted] at failed; cases failed

theorem Source.Blames.isUnhandled {source : Source} (blames : source.Blames fault) : fault.isUnhandled = false := by
  simpa [Fault.isUnhandled] using blames.inside

/-- The converters refuse nothing that they are given. -/
theorem Program.isUnhandled_of_ofSource (failed : Program.ofSource text = .error fault) :
    fault.isUnhandled = false := by
  rcases Program.fault_of_ofSource failed with flawed | ⟨tokens, read, blames⟩
  · simpa [Fault.isUnhandled] using (fault_of_tokenize flawed).1
  · exact blames.isUnhandled

/-- A fault of a conversion is one of the source.  It concerns no stretch of it only if a function
type is missing; otherwise it concerns a token, or what the tokens could not be read from, and this
is a stretch between two characters of the source. -/
theorem located_of_convert {settings : LayoutSettings} {text : String} {fault : Fault}
    (failed : convert settings text = .error fault) :
    fault.isUnhandled = false ∧ (fault.span = none → fault.message = "Missing function type") ∧
      ∀ span ∈ fault.span, span.Fits text ∧ (tokenize text = .error fault ∨
        ∃ tokens, tokenize text = .ok tokens ∧ ∃ t ∈ tokens, t.span = span) := by
  have refused := Program.ofSource_of_convert failed
  refine ⟨Program.isUnhandled_of_ofSource refused, ?_⟩
  rcases Program.fault_of_ofSource refused with flawed | ⟨tokens, read, blames⟩
  · obtain ⟨-, span, located, fits⟩ := fault_of_tokenize flawed
    refine ⟨fun none => ?_, fun span' located' => ?_⟩
    · rw [located] at none
      cases none
    · cases located.symm.trans located'
      exact ⟨fits, .inl flawed⟩
  · refine ⟨fun none => ?_, fun span located => ?_⟩
    · rw [Fault.message, blames.unlocated none]
      decide
    · obtain ⟨t, member, same⟩ := blames.located span located
      have fits : t.Fits text := (tokenize_eq_ok_iff.1 read).fits [] (List.nil_append _).symm rfl t member
      exact ⟨same ▸ fits.span, .inr ⟨tokens, read, t, member, same⟩⟩

/-- A brace that closes nothing, behind a character of two bytes. -/
theorem located_of_convert_brace :
    convert {} "x = \"é\" + \x7d" = .error ⟨.unexpectedToken "\x7d", some ⟨11, 1⟩⟩ ∧
      Span.Fits "x = \"é\" + \x7d" ⟨11, 1⟩ :=
  have failed : convert {} "x = \"é\" + \x7d" = .error ⟨.unexpectedToken "\x7d", some ⟨11, 1⟩⟩ :=
    eq_error_of_swap (by decide +kernel)
  ⟨failed, ((located_of_convert failed).2.2 _ rfl).1⟩

end Sharp
