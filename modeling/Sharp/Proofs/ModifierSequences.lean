import Mathlib.Data.List.Infix
import Sharp.Modifier

/-!
# Sequences of modifiers

Which words can stand in front of a declaration together, and what a declaration makes of them: their order
matters only where `ref` and `immut` stand in front of a struct.

* `foldlM_apply_legal_iff`: which sequences of words are accepted, and what their order decides.
-/

namespace Sharp

variable {word other otherWord : String} {held : Option Token} {mods added : Modifiers} {kind : Inheritance}

/-! ## Words -/

def inheritanceWords : List String := ["abstract", "new", "override", "virtual"]

/-- The words that can stand in front of a declaration. -/
def modifierWords : List String := inheritanceWords ++ ["async", "yield", "partial", "ref", "immut"]

/-- The words can stand in front of a declaration, in this order. -/
structure LegalWords (words : List String) : Prop where
  known : ∀ word ∈ words, word ∈ modifierWords
  once : words.Nodup
  /-- There is at most one word on inheritance. -/
  inheritance : ∀ word ∈ words, ∀ other ∈ words, word ∈ inheritanceWords → other ∈ inheritanceWords → word = other
  /-- The words `ref` and `immut` stand next to each other. -/
  together : "ref" ∈ words → "immut" ∈ words → ["ref", "immut"] <:+: words ∨ ["immut", "ref"] <:+: words

/-- One more word can stand behind the others. -/
structure Continues (words : List String) (word : String) : Prop where
  known : word ∈ modifierWords
  once : word ∉ words
  inheritance : word ∈ inheritanceWords → ∀ other ∈ words, other ∉ inheritanceWords
  ref : word = "ref" → "immut" ∈ words → words.getLast? = some "immut"
  immut : word = "immut" → "ref" ∈ words → words.getLast? = some "ref"

section Words

variable {words : List String} {word first second : String}

theorem LegalWords.nil : LegalWords [] :=
  ⟨List.forall_mem_nil _, .nil, List.forall_mem_nil _, by simp⟩

/-- Two words that stand next to each other stood so before the last word, or that word is the second of them. -/
theorem pair_infix_snoc : [first, second] <:+: words ++ [word] ↔
      words.getLast? = some first ∧ word = second ∨ [first, second] <:+: words := by
  rw [List.infix_concat_iff, List.suffix_concat_iff, ← List.singleton_suffix_iff_getLast?_eq_some]
  constructor
  · rintro ((empty | ⟨front, same, suffix⟩) | inside)
    · cases empty
    · have split : [first] ++ [second] = front ++ [word] := same
      obtain ⟨rfl, last⟩ := List.append_inj' split rfl
      exact .inl ⟨suffix, (List.singleton_inj.1 last).symm⟩
    · exact .inr inside
  · rintro (⟨suffix, rfl⟩ | inside)
    · exact .inl (.inr ⟨[first], rfl, suffix⟩)
    · exact .inr inside

/-- A new last word stands next to the word that was the last one before. -/
theorem beside_last_iff (fresh : word ∉ words) (differ : word ≠ other) :
    ([other, word] <:+: words ++ [word] ∨ [word, other] <:+: words ++ [word]) ↔ words.getLast? = some other := by
  have apart {front back : String} (pair : [front, back] <:+: words) : front ≠ word ∧ back ≠ word :=
    ⟨fun same => fresh (same ▸ pair.mem (by simp)), fun same => fresh (same ▸ pair.mem (by simp))⟩
  rw [pair_infix_snoc, pair_infix_snoc]
  constructor
  · rintro ((⟨last, -⟩ | pair) | (⟨-, same⟩ | pair))
    · exact last
    · exact absurd rfl (apart pair).2
    · exact absurd same differ
    · exact absurd rfl (apart pair).1
  · exact fun last => .inl (.inl ⟨last, rfl⟩)

section

variable (legal : LegalWords (words ++ [word]))
include legal

theorem LegalWords.fresh : word ∉ words :=
  fun member => (List.nodup_append.1 legal.once).2.2 word member word (by simp) rfl

theorem LegalWords.of_snoc : LegalWords words := by
  have inside {other : String} (member : other ∈ words) : other ∈ words ++ [word] := List.mem_append_left _ member
  refine ⟨fun other member => legal.known other (inside member), (List.nodup_append.1 legal.once).1, ?_, ?_⟩
  · exact fun a first b second => legal.inheritance a (inside first) b (inside second)
  · intro ref immut
    rcases legal.together (inside ref) (inside immut) with pair | pair
    · exact .inl ((pair_infix_snoc.1 pair).resolve_left fun last => legal.fresh (last.2 ▸ immut))
    · exact .inr ((pair_infix_snoc.1 pair).resolve_left fun last => legal.fresh (last.2 ▸ ref))

theorem LegalWords.continues : Continues words word := by
  have last : word ∈ words ++ [word] := by simp
  have inside {other : String} (member : other ∈ words) : other ∈ words ++ [word] := List.mem_append_left _ member
  refine ⟨legal.known word last, legal.fresh, fun listed other member listed' => ?_, ?_, ?_⟩
  · exact legal.fresh (legal.inheritance word last other (inside member) listed listed' ▸ member)
  · rintro rfl immut
    exact (beside_last_iff legal.fresh (by decide)).1 (legal.together last (inside immut)).symm
  · rintro rfl ref
    exact (beside_last_iff legal.fresh (by decide)).1 (legal.together (inside ref) last)

end

theorem LegalWords.snoc (legal : LegalWords words) (continues : Continues words word) :
    LegalWords (words ++ [word]) := by
  have split {other : String} (member : other ∈ words ++ [word]) : other ∈ words ∨ other = word := by
    simpa using member
  refine ⟨?_, ?_, ?_, ?_⟩
  · exact List.forall_mem_append.2 ⟨legal.known, List.forall_mem_singleton.2 continues.known⟩
  · refine List.nodup_append.2 ⟨legal.once, by simp, fun other member last listed same => ?_⟩
    obtain rfl := List.mem_singleton.1 listed
    exact continues.once (same ▸ member)
  · intro a first b second listedFirst listedSecond
    rcases split first with before | rfl <;> rcases split second with before' | rfl
    · exact legal.inheritance a before b before' listedFirst listedSecond
    · exact absurd listedFirst (continues.inheritance listedSecond a before)
    · exact absurd listedSecond (continues.inheritance listedFirst b before')
    · rfl
  · intro ref immut
    rcases split ref with before | rfl <;> rcases split immut with before' | same
    · exact (legal.together before before').imp (pair_infix_snoc.2 <| .inr ·) (pair_infix_snoc.2 <| .inr ·)
    · subst same
      exact (beside_last_iff continues.once (by decide)).2 (continues.immut rfl before)
    · exact ((beside_last_iff continues.once (by decide)).2 (continues.ref rfl before')).symm
    · exact absurd same (by decide)

end Words

/-! ## The state after some words -/

def RefImmut.words : RefImmut → List String
  | ref => ["ref"]
  | immut => ["immut"]
  | refImmut => ["ref", "immut"]
  | immutRef => ["immut", "ref"]

/-- The words `ref` and `immut` among others, in their order. -/
def refImmutWords (words : List String) : List String :=
  words.filter fun word => word == "ref" || word == "immut"

/-- The modifiers are those that the words name. -/
structure Modifiers.Holds (words : List String) (mods : Modifiers) : Prop where
  inheritance : ∀ kind, mods.inheritance.map (·.1) = some kind ↔ kind.text ∈ words
  refImmut : refImmutWords words = mods.refImmut.elim [] (·.1.words)
  async : mods.async.isSome ↔ "async" ∈ words
  yields : mods.yields.isSome ↔ "yield" ∈ words
  partly : mods.partly.isSome ↔ "partial" ∈ words

/-- The modifiers are what the words leave, one after another. -/
structure Modifiers.Collects (words : List String) (mods : Modifiers) : Prop extends mods.Holds words where
  latest : mods.latest.map Token.text = words.getLast?

/-- The outcome of adding one word, without the note that it is the latest one. -/
def Adds (words : List String) (word : String) : Except Fault Modifiers → Prop
  | .ok mods => Continues words word ∧ mods.Holds (words ++ [word])
  | .error _ => ¬ Continues words word

/-- The outcome of collecting the words. -/
def Collected (words : List String) : Except Fault Modifiers → Prop
  | .ok mods => LegalWords words ∧ mods.Collects words
  | .error _ => ¬ LegalWords words

namespace Inheritance

theorem ofText?_eq_some_iff : ofText? word = some kind ↔ word = kind.text := by
  constructor
  · intro named
    unfold ofText? at named
    split at named <;> simp_all [text] <;> subst named <;> rfl
  · rintro rfl
    cases kind <;> rfl

theorem text_mem (kind : Inheritance) : kind.text ∈ inheritanceWords := by
  cases kind <;> decide

theorem exists_text (listed : word ∈ inheritanceWords) : ∃ kind : Inheritance, word = kind.text := by
  simp only [inheritanceWords, List.mem_cons, List.not_mem_nil, or_false] at listed
  rcases listed with rfl | rfl | rfl | rfl
  · exact ⟨abstract, rfl⟩
  · exact ⟨new, rfl⟩
  · exact ⟨override, rfl⟩
  · exact ⟨virtual, rfl⟩

theorem text_inj {other : Inheritance} : kind.text = other.text ↔ kind = other := by
  cases kind <;> cases other <;> decide

theorem text_ne (kind : Inheritance) (unlisted : word ∉ inheritanceWords) : kind.text ≠ word :=
  fun same => unlisted (same ▸ kind.text_mem)

end Inheritance

namespace Modifiers

section Added

variable {words : List String} {word : String} {t : Token}

theorem refImmutWords_snoc (words : List String) (word : String) :
    refImmutWords (words ++ [word]) = refImmutWords words ++ refImmutWords [word] :=
  List.filter_append ..

theorem mem_of_refImmutWords (member : word ∈ refImmutWords words) : word ∈ words :=
  List.mem_of_mem_filter member

theorem mem_refImmutWords_iff (listed : word = "ref" ∨ word = "immut") :
    word ∈ refImmutWords words ↔ word ∈ words := by
  rw [refImmutWords, List.mem_filter]
  rcases listed with rfl | rfl <;> simp

/-- A held word is named by the words so far, and by one more that is not it. -/
theorem isSome_iff_mem_snoc (named : held.isSome ↔ other ∈ words) (differ : other ≠ word) :
    held.isSome ↔ other ∈ words ++ [word] := by
  simpa [differ] using named

theorem Holds.inheritance_snoc (holds : mods.Holds words) (unlisted : word ∉ inheritanceWords)
    (kind : Inheritance) : mods.inheritance.map (·.1) = some kind ↔ kind.text ∈ words ++ [word] := by
  simpa [kind.text_ne unlisted] using holds.inheritance kind

theorem Holds.refImmut_snoc (holds : mods.Holds words) (apart : refImmutWords [word] = []) :
    refImmutWords (words ++ [word]) = mods.refImmut.elim [] (·.1.words) := by
  rw [refImmutWords_snoc, apart, List.append_nil, holds.refImmut]

theorem Holds.inheritance_none_iff (holds : mods.Holds words) :
    mods.inheritance = none ↔ ∀ word ∈ words, word ∉ inheritanceWords := by
  constructor
  · intro none word member listed
    obtain ⟨kind, rfl⟩ := Inheritance.exists_text listed
    have held := (holds.inheritance kind).2 member
    rw [none] at held
    cases held
  · intro unlisted
    cases held : mods.inheritance with
    | none => rfl
    | some pair =>
      have member := (holds.inheritance pair.1).1 (by rw [held]; rfl)
      exact absurd pair.1.text_mem (unlisted _ member)

section

variable (known : word ∈ modifierWords) (unlisted : word ∉ inheritanceWords) (apart : refImmutWords [word] = [])
include known unlisted apart

/-- A word that belongs to no pair and says nothing on inheritance can be added if it is not there. -/
theorem continues_of_plain : Continues words word ↔ word ∉ words := by
  refine ⟨Continues.once, fun fresh => ⟨known, fresh, fun listed => absurd listed unlisted, ?_, ?_⟩⟩
  · rintro rfl
    exact absurd apart (by decide)
  · rintro rfl
    exact absurd apart (by decide)

/-- What is added is added exactly if the word is not there yet. -/
theorem addOnce_adds (named : held.isSome ↔ word ∈ words)
    (holds : added.Holds (words ++ [word])) : Adds words word (addOnce held t added) := by
  have continues : Continues words word ↔ word ∉ words := continues_of_plain known unlisted apart
  unfold addOnce
  split
  case isTrue there => exact fun more => more.once (named.1 there)
  case isFalse fresh => exact ⟨continues.2 fun member => fresh (named.2 member), holds⟩

end

theorem addInheritance_adds (holds : mods.Holds words)
    (apart : t.text ∉ ["async", "yield", "partial", "ref", "immut"]) :
    Adds words t.text (mods.addInheritance t) := by
  unfold addInheritance
  cases named : Inheritance.ofText? t.text with
  | none =>
    intro continues
    obtain ⟨kind, same⟩ := Inheritance.exists_text ((List.mem_append.1 continues.known).resolve_right apart)
    rw [Inheritance.ofText?_eq_some_iff.2 same] at named
    cases named
  | some kind =>
    have same : t.text = kind.text := Inheritance.ofText?_eq_some_iff.1 named
    have listed : t.text ∈ inheritanceWords := same ▸ kind.text_mem
    cases held : mods.inheritance with
    | none =>
      have unlisted := holds.inheritance_none_iff.1 held
      simp only [List.mem_cons, List.not_mem_nil, or_false, not_or] at apart
      obtain ⟨notAsync, notYield, notPartial, notRef, notImmut⟩ := apart
      refine ⟨⟨List.mem_append_left _ listed, fun member => unlisted _ member listed, fun _ => unlisted,
        fun ref => absurd ref notRef, fun immut => absurd immut notImmut⟩, ?_, ?_, ?_, ?_, ?_⟩
      · intro other
        have fresh : other.text ∉ words := fun member => unlisted _ member other.text_mem
        simp [same, fresh, Inheritance.text_inj, eq_comm]
      · exact holds.refImmut_snoc (by simp [refImmutWords, notRef, notImmut])
      · exact isSome_iff_mem_snoc holds.async (Ne.symm notAsync)
      · exact isSome_iff_mem_snoc holds.yields (Ne.symm notYield)
      · exact isSome_iff_mem_snoc holds.partly (Ne.symm notPartial)
    | some pair =>
      have refused : ¬ Continues words t.text := by
        intro continues
        have none := holds.inheritance_none_iff.2 (continues.inheritance listed)
        rw [held] at none
        cases none
      dsimp only
      split
      · exact refused
      · exact refused

theorem continues_ref_iff :
    Continues words "ref" ↔ "ref" ∉ words ∧ ("immut" ∈ words → words.getLast? = some "immut") :=
  ⟨fun more => ⟨more.once, more.ref rfl⟩, fun both =>
    ⟨by decide, both.1, fun listed => absurd listed (by decide), fun _ => both.2, fun same => absurd same (by decide)⟩⟩

theorem continues_immut_iff :
    Continues words "immut" ↔ "immut" ∉ words ∧ ("ref" ∈ words → words.getLast? = some "ref") :=
  ⟨fun more => ⟨more.once, more.immut rfl⟩, fun both =>
    ⟨by decide, both.1, fun listed => absurd listed (by decide), fun same => absurd same (by decide), fun _ => both.2⟩⟩

/-- The state with the pair replaced holds the words with one of the pair added. -/
theorem Holds.with_refImmut (holds : mods.Holds words) (listed : word = "ref" ∨ word = "immut")
    {pair : RefImmut × Token} (named : refImmutWords words ++ [word] = pair.1.words) :
    Modifiers.Holds (words ++ [word]) { mods with refImmut := some pair } := by
  have alone : refImmutWords [word] = [word] := by rcases listed with rfl | rfl <;> rfl
  refine ⟨holds.inheritance_snoc ?_, ?_, ?_, ?_, ?_⟩
  · rcases listed with rfl | rfl <;> decide
  · rw [refImmutWords_snoc, alone, named]
    rfl
  · exact isSome_iff_mem_snoc holds.async (by rcases listed with rfl | rfl <;> decide)
  · exact isSome_iff_mem_snoc holds.yields (by rcases listed with rfl | rfl <;> decide)
  · exact isSome_iff_mem_snoc holds.partly (by rcases listed with rfl | rfl <;> decide)

theorem Collects.latest_any_iff (collects : mods.Collects words) :
    mods.latest.any (·.text == word) ↔ words.getLast? = some word := by
  rw [← collects.latest]
  cases mods.latest <;> simp

/-- A word of the pair is added if the other one is missing, or is the latest modifier. -/
theorem joinRefImmut_adds {alone other joined : RefImmut} (collects : mods.Collects words)
    (listed : word = "ref" ∨ word = "immut") (otherListed : otherWord = "ref" ∨ otherWord = "immut")
    (differ : word ≠ otherWord) (aloneWords : alone.words = [word]) (otherWords : other.words = [otherWord])
    (joinedWords : joined.words = [otherWord, word]) (repeats : ∀ held, held ≠ other → word ∈ held.words)
    (continues : Continues words word ↔ word ∉ words ∧ (otherWord ∈ words → words.getLast? = some otherWord)) :
    Adds words word (mods.joinRefImmut t alone other joined otherWord) := by
  have words_eq : refImmutWords words = mods.refImmut.elim [] (·.1.words) := collects.refImmut
  unfold joinRefImmut
  cases held : mods.refImmut with
  | none =>
    have none : refImmutWords words = [] := by rw [words_eq, held]; rfl
    have absent {other : String} (listed : other = "ref" ∨ other = "immut") : other ∉ words := by
      rw [← mem_refImmutWords_iff listed, none]
      exact List.not_mem_nil
    refine ⟨continues.2 ⟨absent listed, fun member => absurd member (absent otherListed)⟩, ?_⟩
    exact collects.with_refImmut listed (by rw [none, aloneWords]; rfl)
  | some pair =>
    have some : refImmutWords words = pair.1.words := by rw [words_eq, held]; rfl
    dsimp only
    split
    case isTrue isOther =>
      rw [isOther, otherWords] at some
      have fresh : word ∉ words := by
        rw [← mem_refImmutWords_iff listed, some]
        simpa using differ
      have member : otherWord ∈ words := (mem_refImmutWords_iff otherListed).1 (by rw [some]; simp)
      split
      case isTrue latest =>
        refine ⟨continues.2 ⟨fresh, fun _ => collects.latest_any_iff.1 latest⟩, ?_⟩
        exact collects.with_refImmut listed (by rw [some, joinedWords]; rfl)
      case isFalse notLatest =>
        exact fun more => notLatest (collects.latest_any_iff.2 ((continues.1 more).2 member))
    -- Any other pair holds the word already, alone or joined.
    case isFalse isNotOther =>
      have member : word ∈ words := mem_of_refImmutWords (some ▸ repeats _ isNotOther)
      exact fun more => more.once member

theorem add_adds (collects : mods.Collects words) : Adds words t.text (mods.add t) := by
  have holds := collects.toHolds
  unfold add
  split
  case h_1 ref =>
    rw [ref]
    refine joinRefImmut_adds collects (.inl rfl) (.inr rfl) (by decide) rfl rfl rfl (fun held => ?_) continues_ref_iff
    cases held <;> decide
  case h_2 immut =>
    rw [immut]
    refine joinRefImmut_adds collects (.inr rfl) (.inl rfl) (by decide) rfl rfl rfl (fun held => ?_) continues_immut_iff
    cases held <;> decide
  case h_3 async =>
    rw [async]
    refine addOnce_adds (by decide) (by decide) rfl holds.async
      ⟨holds.inheritance_snoc (by decide), holds.refImmut_snoc rfl, by simp, ?_, ?_⟩
    · exact isSome_iff_mem_snoc holds.yields (by decide)
    · exact isSome_iff_mem_snoc holds.partly (by decide)
  case h_4 yields =>
    rw [yields]
    refine addOnce_adds (by decide) (by decide) rfl holds.yields
      ⟨holds.inheritance_snoc (by decide), holds.refImmut_snoc rfl, ?_, by simp, ?_⟩
    · exact isSome_iff_mem_snoc holds.async (by decide)
    · exact isSome_iff_mem_snoc holds.partly (by decide)
  case h_5 partly =>
    rw [partly]
    refine addOnce_adds (by decide) (by decide) rfl holds.partly
      ⟨holds.inheritance_snoc (by decide), holds.refImmut_snoc rfl, ?_, ?_, by simp⟩
    · exact isSome_iff_mem_snoc holds.async (by decide)
    · exact isSome_iff_mem_snoc holds.yields (by decide)
  case h_6 notRef notImmut notAsync notYield notPartial =>
    refine addInheritance_adds holds ?_
    simp only [List.mem_cons, List.not_mem_nil, or_false, not_or]
    exact ⟨notAsync, notYield, notPartial, notRef, notImmut⟩

end Added

/-- One more word: it is collected if it can stand behind the others. -/
theorem apply_collected {words : List String} (t : Token) (legal : LegalWords words)
    (collects : mods.Collects words) : Collected (words ++ [t.text]) (mods.apply t) := by
  have adds : Adds words t.text (mods.add t) := add_adds collects
  unfold apply
  cases added : mods.add t with
  | ok after =>
    rw [added] at adds
    obtain ⟨continues, holds⟩ := adds
    exact ⟨legal.snoc continues, ⟨holds.inheritance, holds.refImmut, holds.async, holds.yields, holds.partly⟩,
      by simp⟩
  | error fault =>
    rw [added] at adds
    exact fun legal => adds legal.continues

theorem collects_nil : Modifiers.Collects [] {} := ⟨⟨by simp, rfl, by simp, by simp, by simp⟩, rfl⟩

/-- Words are collected one after another exactly if they can stand together. -/
theorem foldlM_apply_collected (ts : List Token) :
    Collected (ts.map Token.text) (ts.foldlM Modifiers.apply {}) := by
  -- From the end: the last word meets the modifiers that the words in front of it have left.
  induction ts using List.reverseRecOn with
  | nil => exact ⟨.nil, collects_nil⟩
  | append_singleton before t inductionHypothesis =>
    rw [List.foldlM_append, List.map_append]
    cases collected : before.foldlM Modifiers.apply {} with
    | ok mods =>
      rw [collected] at inductionHypothesis
      change Collected _ ([t].foldlM Modifiers.apply mods)
      rw [List.foldlM_cons, show (fun after => [].foldlM Modifiers.apply after) = pure from rfl, bind_pure]
      exact apply_collected t inductionHypothesis.1 inductionHypothesis.2
    | error fault =>
      rw [collected] at inductionHypothesis
      exact fun legal => inductionHypothesis legal.of_snoc

/-! ## What a declaration makes of the words -/

/-- The modifiers differ at most in the tokens that gave them, and in the order of `ref` and `immut`. -/
structure Agree (mods mods' : Modifiers) : Prop where
  inheritance : mods.inheritance.map (·.1) = mods'.inheritance.map (·.1)
  refImmut : mods.refImmut.isSome = mods'.refImmut.isSome
  async : mods.async.isSome = mods'.async.isSome
  yields : mods.yields.isSome = mods'.yields.isSome
  partly : mods.partly.isSome = mods'.partly.isSome

section Agree

variable {words words' : List String} {mods' : Modifiers}

theorem Holds.refImmut_isSome_iff (holds : mods.Holds words) :
    mods.refImmut.isSome ↔ "ref" ∈ words ∨ "immut" ∈ words := by
  rw [← mem_refImmutWords_iff (.inl rfl), ← mem_refImmutWords_iff (.inr rfl), holds.refImmut]
  rcases mods.refImmut with _ | ⟨_ | _ | _ | _, _⟩ <;> simp [RefImmut.words]

theorem agree_of_holds (holds : mods.Holds words) (holds' : mods'.Holds words')
    (same : ∀ word, word ∈ words ↔ word ∈ words') : mods.Agree mods' := by
  refine ⟨Option.ext fun kind => ?_, ?_, ?_, ?_, ?_⟩
  · rw [holds.inheritance, holds'.inheritance, same]
  · rw [Bool.eq_iff_iff, holds.refImmut_isSome_iff, holds'.refImmut_isSome_iff, same, same]
  · rw [Bool.eq_iff_iff, holds.async, holds'.async, same]
  · rw [Bool.eq_iff_iff, holds.yields, holds'.yields, same]
  · rw [Bool.eq_iff_iff, holds.partly, holds'.partly, same]

/-- Two pairs are the same if they have the same words, in the same order if they have both. -/
theorem refImmut_ext {held held' : Option RefImmut}
    (ref : "ref" ∈ held.elim [] RefImmut.words ↔ "ref" ∈ held'.elim [] RefImmut.words)
    (immut : "immut" ∈ held.elim [] RefImmut.words ↔ "immut" ∈ held'.elim [] RefImmut.words)
    (order : ["ref", "immut"].Sublist (held.elim [] RefImmut.words) ↔
      ["ref", "immut"].Sublist (held'.elim [] RefImmut.words)) :
    held = held' := by
  revert ref immut order
  -- Five cases on each side; the words in common rule out all but the equal ones.
  rcases held with _ | _ | _ | _ | _ <;> rcases held' with _ | _ | _ | _ | _ <;> decide

theorem Holds.elim_words (holds : mods.Holds words) : (mods.refImmut.map (·.1)).elim []
    RefImmut.words = refImmutWords words := by
  rw [holds.refImmut]
  cases mods.refImmut <;> rfl

theorem pair_sublist_refImmutWords_iff : ["ref", "immut"].Sublist (refImmutWords words)
    ↔ ["ref", "immut"].Sublist words :=
  ⟨fun sub => sub.trans List.filter_sublist, fun sub => sub.filter fun word => word == "ref" || word == "immut"⟩

theorem refImmut_eq_of_order (holds : mods.Holds words) (holds' : mods'.Holds words')
    (same : ∀ word, word ∈ words ↔ word ∈ words')
    (order : ["ref", "immut"].Sublist words ↔ ["ref", "immut"].Sublist words') :
    mods.refImmut.map (·.1) = mods'.refImmut.map (·.1) := by
  apply refImmut_ext
  · rw [holds.elim_words, holds'.elim_words, mem_refImmutWords_iff (.inl rfl), mem_refImmutWords_iff (.inl rfl), same]
  · rw [holds.elim_words, holds'.elim_words, mem_refImmutWords_iff (.inr rfl), mem_refImmutWords_iff (.inr rfl), same]
  · rw [holds.elim_words, holds'.elim_words, pair_sublist_refImmutWords_iff, pair_sublist_refImmutWords_iff, order]

theorem toOption_bind_congr {α β : Type} {x y : Except Fault α} {f g : α → Except Fault β}
    (first : x.toOption = y.toOption) (next : ∀ a, (f a).toOption = (g a).toOption) :
    (x >>= f).toOption = (y >>= g).toOption := by
  cases x with
  | error fault =>
    cases y with
    | error fault' => rfl
    | ok b => cases first
  | ok a =>
    cases y with
    | error fault => cases first
    | ok b =>
      cases first
      exact next a

theorem toOption_refuse_congr {held' : Option Token} (target : String) (same : held.isSome = held'.isSome) :
    (refuse held target).toOption = (refuse held' target).toOption := by
  cases held <;> cases held' <;> first | rfl | cases same

section

variable (agree : mods.Agree mods')
include agree

theorem Agree.refuseRefImmut (target : String) :
    (mods.refuseRefImmut target).toOption = (mods'.refuseRefImmut target).toOption :=
  toOption_refuse_congr target (by simpa using agree.refImmut)

theorem Agree.refuseAsyncYield (target : String) :
    (mods.refuseAsyncYield target).toOption = (mods'.refuseAsyncYield target).toOption :=
  toOption_bind_congr (toOption_refuse_congr target agree.async) fun _ => toOption_refuse_congr target agree.yields

/-- The words on inheritance of modifiers that agree are both missing, or the same. -/
theorem Agree.inheritance_cases : mods.inheritance = none ∧ mods'.inheritance = none ∨
      ∃ kind t t', mods.inheritance = some (kind, t) ∧ mods'.inheritance = some (kind, t') := by
  have same := agree.inheritance
  cases held : mods.inheritance with
  | none =>
    rw [held] at same
    exact .inl ⟨rfl, Option.map_eq_none_iff.1 same.symm⟩
  | some pair =>
    rw [held] at same
    obtain ⟨pair', held', first⟩ := Option.map_eq_some_iff.1 same.symm
    exact .inr ⟨pair.1, pair.2, pair'.2, rfl, held'.trans (congrArg some (Prod.ext first rfl))⟩

theorem Agree.memberInheritance (container : Container) (target : String) :
    (mods.memberInheritance container target).toOption = (mods'.memberInheritance container target).toOption := by
  unfold Modifiers.memberInheritance
  rcases agree.inheritance_cases with ⟨none, none'⟩ | ⟨kind, t, t', some, some'⟩
  · rw [none, none']
  · rw [some, some']
    dsimp only
    split <;> rfl

theorem Agree.forClass : mods.forClass.toOption = mods'.forClass.toOption := by
  refine toOption_bind_congr (agree.refuseRefImmut _) fun _ => ?_
  refine toOption_bind_congr (agree.refuseAsyncYield _) fun _ => ?_
  rw [agree.partly]
  rcases agree.inheritance_cases with ⟨none, none'⟩ | ⟨kind, t, t', some, some'⟩
  · rw [none, none']
  · rw [some, some']
    cases kind <;> rfl

theorem Agree.forFn (container : Container) :
    (mods.forFn container).toOption = (mods'.forFn container).toOption := by
  refine toOption_bind_congr (agree.refuseRefImmut _) fun _ => ?_
  refine toOption_bind_congr (agree.memberInheritance container _) fun _ => ?_
  rw [agree.async, agree.yields, agree.partly]

theorem Agree.forProp (container : Container) :
    (mods.forProp container).toOption = (mods'.forProp container).toOption := by
  refine toOption_bind_congr (agree.refuseRefImmut _) fun _ => ?_
  refine toOption_bind_congr (agree.refuseAsyncYield _) fun _ => ?_
  refine toOption_bind_congr (toOption_refuse_congr _ agree.partly) fun _ => ?_
  exact agree.memberInheritance container _

theorem Agree.forStruct (order : mods.refImmut.map (·.1) = mods'.refImmut.map (·.1)) :
    mods.forStruct.toOption = mods'.forStruct.toOption := by
  refine toOption_bind_congr (agree.refuseAsyncYield _) fun _ => ?_
  refine toOption_bind_congr (toOption_refuse_congr _ ?_) fun _ => ?_
  · simpa using congrArg Option.isSome agree.inheritance
  · rw [agree.partly]
    rcases held : mods.refImmut with _ | ⟨_ | _ | _ | _, _⟩ <;>
      rcases held' : mods'.refImmut with _ | ⟨_ | _ | _ | _, _⟩ <;>
      rw [held, held'] at order <;> first | rfl | cases order

end

end Agree

/-- Words can be collected exactly if they can stand together.  What a class, a function or a property makes of
them does not depend on their order, and what a struct makes of them only on the order of `ref` and `immut`. -/
theorem foldlM_apply_legal_iff :
    (∀ ts : List Token, (∃ mods, ts.foldlM Modifiers.apply {} = .ok mods) ↔ LegalWords (ts.map Token.text)) ∧
      ∀ (ts ts' : List Token) (mods mods' : Modifiers),
        ts.foldlM Modifiers.apply {} = .ok mods → ts'.foldlM Modifiers.apply {} = .ok mods' →
        (∀ word, word ∈ ts.map Token.text ↔ word ∈ ts'.map Token.text) →
        mods.forClass.toOption = mods'.forClass.toOption ∧
        (∀ container, (mods.forFn container).toOption = (mods'.forFn container).toOption) ∧
        (∀ container, (mods.forProp container).toOption = (mods'.forProp container).toOption) ∧
        ((["ref", "immut"].Sublist (ts.map Token.text) ↔ ["ref", "immut"].Sublist (ts'.map Token.text)) →
          mods.forStruct.toOption = mods'.forStruct.toOption) := by
  refine ⟨fun ts => ?_, fun ts ts' mods mods' folded folded' same => ?_⟩
  · have collected := foldlM_apply_collected ts
    cases folded : ts.foldlM Modifiers.apply {} with
    | ok mods =>
      rw [folded] at collected
      exact ⟨fun _ => collected.1, fun _ => ⟨mods, rfl⟩⟩
    | error fault =>
      rw [folded] at collected
      refine ⟨?_, fun legal => absurd legal collected⟩
      rintro ⟨mods, ok⟩
      cases ok
  · have collected := foldlM_apply_collected ts
    have collected' := foldlM_apply_collected ts'
    rw [folded] at collected
    rw [folded'] at collected'
    have agree : mods.Agree mods' := agree_of_holds collected.2.toHolds collected'.2.toHolds same
    exact ⟨agree.forClass, agree.forFn, agree.forProp, fun order =>
      agree.forStruct (refImmut_eq_of_order collected.2.toHolds collected'.2.toHolds same order)⟩

/-- A struct that is `partial immut ref` is `immut ref partial`, too. -/
theorem foldlM_apply_legal_iff_struct :
    let tokens := ["partial", "immut", "ref"].map fun word => (⟨0, word, 0, 0, .keyword, none⟩ : Token)
    let tokens' := ["immut", "ref", "partial"].map fun word => (⟨0, word, 0, 0, .keyword, none⟩ : Token)
    ∃ mods mods', tokens.foldlM Modifiers.apply {} = .ok mods ∧ tokens'.foldlM Modifiers.apply {} = .ok mods' ∧
      LegalWords (tokens.map Token.text) ∧
      mods.forStruct.toOption = some ⟨some .immutRef, true⟩ ∧ mods.forStruct.toOption = mods'.forStruct.toOption ∧
      mods.forClass.toOption = none ∧ mods.forClass.toOption = mods'.forClass.toOption := by
  intro tokens tokens'
  have perm : (tokens.map Token.text).Perm (tokens'.map Token.text) := by decide
  have order : ["ref", "immut"].Sublist (tokens.map Token.text) ↔
      ["ref", "immut"].Sublist (tokens'.map Token.text) := by decide
  obtain ⟨legal, agree⟩ := foldlM_apply_legal_iff
  obtain ⟨forClass, -, -, forStruct⟩ := agree tokens tokens' _ _ rfl rfl (fun _ => perm.mem_iff)
  exact ⟨_, _, rfl, rfl, (legal tokens).1 ⟨_, rfl⟩, rfl, forStruct order, rfl, forClass⟩

end Modifiers

end Sharp
