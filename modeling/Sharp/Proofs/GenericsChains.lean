import Sharp.Proofs.MarkedTypes

/-!
# Generics in generics

Generics that are a parameter of generics take one parameter, so a `/` always separates the parameters of
the outermost head, however deep the generics in front of it are nested.

* `readWhole_generics`: parameters that are chains all belong to the outermost head.
-/

namespace Sharp

/-- Generics in generics down to a name with its marks. -/
structure GenericsChain where
  heads : List String
  leaf : MarkedName

/-- The type of a chain: each head has what follows it as its only parameter. -/
def GenericsChain.type (chain : GenericsChain) : TypeExpr :=
  chain.heads.foldr (fun head param => .plain (.generics (.normal head) [param])) chain.leaf.type

/-- The tokens spell the chain, with a `-` after each head. -/
inductive IsGenericsChain : List Token → GenericsChain → Prop where
  | leaf {ts : List Token} {marked : MarkedName} (spelled : IsMarkedName ts marked) (legal : marked.IsLegal) :
      IsGenericsChain ts ⟨[], marked⟩
  | cons {head dash : Token} {ts : List Token} {heads : List String} {marked : MarkedName}
      (isName : head.NamesType) (isDash : dash.isOp "-" = true) (param : IsGenericsChain ts ⟨heads, marked⟩) :
      IsGenericsChain (head :: dash :: ts) ⟨head.text :: heads, marked⟩

section Generics

variable {n : Nat} {opts : TypeOptions} {head dash : Token} {ts rest : List Token} {type : TypeExpr}
  {params : List TypeExpr} {chain : GenericsChain} {chains : List GenericsChain}

/-- A head with its parameters is a type, which ends where they end. -/
theorem readFrom_generics (isName : head.NamesType) (isDash : dash.isOp "-" = true) (nonempty : ts ≠ [])
    (read : (readParams (typeReader (dash :: ts).length) (opts.partsEndAtConnector && opts.inGenerics) dash ts).Gives
      ⟨params, rest⟩) :
    (TypeExpr.reader.readFrom opts head (dash :: ts)).Gives
      ⟨.plain (.generics (.normal head.text) params), rest⟩ := by
  have undotted : dottedName? (head :: dash :: ts) = none := by
    have no_dot : dash.isOp "." = false := by rw [Token.isOp_of_isOp isDash]; decide
    cases ts <;> simp [dottedName?, dottedTail?, no_dot]
  have generics : (readGenerics (typeReader (dash :: ts).length) opts head dash ts).Gives
      ⟨.plain (.generics (.normal head.text) params), rest⟩ := by
    obtain ⟨notes, noted⟩ := noteTypeName_done head
    exact .bind ⟨notes, noted⟩ (.note_bind (.bind read (.pure _)))
  have no_opener : head.isOp "(" = false := by simp [Token.isOp, isName.category_ne]
  have filled : ts.isEmpty = false := by simpa using nonempty
  have round : (readTerm (typeReader (dash :: ts).length) opts { first := head } head (dash :: ts)).Gives
      (.stop ⟨.plain (.generics (.normal head.text) params), rest⟩) := by
    simp only [readTerm, no_opener, isName.category_ne, isName.1, isName.2, readNameTerm, isDash, filled,
      TypeProgress.canStart, Bool.false_eq_true, Bool.not_true, Bool.not_false, Bool.and_self, if_false, if_true]
    exact .bind generics (.pure _)
  show (readTypeWith (typeReader (dash :: ts).length) opts head (dash :: ts)).Gives _
  rw [readTypeWith, undotted]
  show Reading.Gives (walk _ _ _ _) _
  rw [walk_cons]
  exact .bind round (.pure _)

/-- A parameter that starts with a name is no group of parameters. -/
theorem readParam_of_readFrom {t : Token} {more : List Token} (no_opener : t.isOp "(" = false)
    (read : ((typeReader n).readFrom .genericsParam t more).Gives ⟨type, rest⟩) :
    (readParam (typeReader n) t more).Gives ⟨[type], rest⟩ := by
  have single : splitParamGroup? t more = none := by simp [splitParamGroup?, no_opener]
  rw [readParam, single]
  exact .bind read (.pure _)

/-- A chain that is a parameter is read up to the `/` after it: each of its heads takes one parameter only,
and leaves the `/` to the head in front of it. -/
theorem IsGenericsChain.read (spelled : IsGenericsChain ts chain) (ends : TypeEnds rest) :
    ∃ t more, ts ++ rest = t :: more ∧ t.isOp "(" = false ∧ rest.length ≤ more.length ∧
      (TypeExpr.reader.readFrom .genericsParam t more).Gives ⟨chain.type, rest⟩ := by
  induction spelled with
  | @leaf ts marked spelled legal =>
    obtain ⟨name, marks, rfl, isName, text, operators⟩ := spelled
    exact ⟨name, marks ++ rest, rfl, by simp [Token.isOp, isName.category_ne], by simp,
      readFrom_markedName ⟨name, marks, rfl, isName, text, operators⟩ legal ends⟩
  | @cons head dash ts heads marked isName isDash _ ih =>
    obtain ⟨t, more, same, no_opener, shorter, read⟩ := ih
    refine ⟨head, dash :: (ts ++ rest), rfl, by simp [Token.isOp, isName.category_ne], ?_, ?_⟩
    · simp only [List.length_cons, List.length_append]
      omega
    · refine readFrom_generics isName isDash (by simp [same]) ?_
      have fewer : more.length < (dash :: (ts ++ rest)).length := by
        rw [same, List.length_cons, List.length_cons]
        omega
      rw [← typeReader_readFrom fewer] at read
      have round (state : ParamState) : (readParamRound (typeReader (dash :: (ts ++ rest)).length) true state t more).Gives
          (.stop ⟨state.params ++ [GenericsChain.type ⟨heads, marked⟩], rest⟩) := by
        refine .bind (readParam_of_readFrom no_opener read) ?_
        cases rest with
        | nil => exact .pure _
        | cons slash rest =>
          simp only [Bool.or_true, if_true]
          exact .pure _
      generalize (dash :: (ts ++ rest)).length = n at round ⊢
      rw [readParams, same, walk_cons]
      exact .bind (round { before := dash }) (.pure _)

theorem gives_readParams_chains (spelled : Separated "/" IsGenericsChain ts chains) (enough : ts.length ≤ n)
    (finish : ParamState → Reading (Parsed (List TypeExpr))) (state : ParamState) :
    Reading.Gives (walk (readParamRound (typeReader n) false) finish state ts)
      ⟨state.params ++ chains.map GenericsChain.type, []⟩ := by
  induction spelled generalizing state with
  | @single ts chain spelled =>
    obtain ⟨t, more, same, no_opener, -, read⟩ := spelled.read .nil
    rw [List.append_nil] at same
    subst same
    rw [← typeReader_readFrom (Nat.lt_of_succ_le enough)] at read
    rw [walk_cons]
    exact .bind (.bind (readParam_of_readFrom no_opener read) (.pure _)) (.pure _)
  | @cons ts others slash chain chains spelled separates _ ih =>
    obtain ⟨t, more, same, no_opener, shorter, read⟩ := spelled.read (.cons separates (by decide) others)
    rw [same] at enough ⊢
    rw [← typeReader_readFrom (Nat.lt_of_succ_le enough)] at read
    simp only [List.length_cons] at shorter enough
    have round : (readParamRound (typeReader n) false state t more).Gives
        (.next ⟨state.params ++ [chain.type], slash⟩ others) := by
      refine .bind (readParam_of_readFrom no_opener read) ?_
      simp only [separates, Bool.not_true, Bool.or_self, Bool.false_eq_true, if_false]
      exact .note_bind (.pure _)
    rw [gives_walk_next round (by omega)]
    have others_read := ih (by omega) ⟨state.params ++ [chain.type], slash⟩
    simpa using others_read

theorem Separated.chains_ne_nil (spelled : Separated "/" IsGenericsChain ts chains) : ts ≠ [] := by
  refine spelled.ne_nil fun ts chain spelled => ?_
  obtain ⟨t, more, same, -⟩ := spelled.read .nil
  rw [List.append_nil] at same
  simp [same]

/-- All parameters belong to the outermost head, and each of them is its chain of generics with one
parameter. -/
theorem readWhole_generics (isName : head.NamesType) (isDash : dash.isOp "-" = true)
    (spelled : Separated "/" IsGenericsChain ts chains) (before : Token) :
    (TypeExpr.readWhole before (head :: dash :: ts)).Gives
      (.plain (.generics (.normal head.text) (chains.map GenericsChain.type))) := by
  have params := @gives_readParams_chains (dash :: ts).length ts chains spelled (by simp)
    (fun state => .fail state.fault) { before := dash }
  have read := @readFrom_generics .declaration head dash ts [] _ isName isDash spelled.chains_ne_nil params
  exact .bind read (.pure _)

/-- The `/` behind a chain separates the parameters of the outermost head. -/
theorem readWhole_generics_chains :
    ∃ tokens before type, tokenize "A-B-c#/D-int?" = .ok tokens ∧ (TypeExpr.readWhole before tokens).Gives type ∧
      type.render .plain = "A<B<c[]>, D<int?>>" := by
  let name (id start : Nat) (text : String) : Token := ⟨id, text, start, start + 1, .identifier, none⟩
  let operator (id start : Nat) (text : String) : Token := ⟨id, text, start, start + 1, .operator, none⟩
  let int : Token := ⟨9, "int", 9, 12, .keyword, some (.keyword .builtinType)⟩
  have isName (id start : Nat) (text : String) : (name id start text).NamesType := Token.namesType_of_identifier rfl
  have isInt : int.NamesType := Token.namesType_of_builtinType (by decide +zetaReduce)
  have read : tokenize "A-B-c#/D-int?" = .ok (name 0 0 "A" :: operator 1 1 "-" ::
      ([name 2 2 "B", operator 3 3 "-", name 4 4 "c", operator 5 5 "#"] ++
        operator 6 6 "/" :: [name 7 7 "D", operator 8 8 "-", int, operator 10 12 "?"])) := by
    decide +kernel +zetaReduce
  have first : IsGenericsChain [name 2 2 "B", operator 3 3 "-", name 4 4 "c", operator 5 5 "#"]
      ⟨["B"], ⟨"c", [.array]⟩⟩ :=
    .cons (isName 2 2 "B") rfl (.leaf ⟨name 4 4 "c", [operator 5 5 "#"], rfl, isName 4 4 "c", rfl, .cons rfl .nil⟩ (by decide))
  have second : IsGenericsChain [name 7 7 "D", operator 8 8 "-", int, operator 10 12 "?"]
      ⟨["D"], ⟨"int", [.nullable]⟩⟩ :=
    .cons (isName 7 7 "D") rfl (.leaf ⟨int, [operator 10 12 "?"], rfl, isInt, rfl, .cons rfl .nil⟩ (by decide))
  have whole := readWhole_generics (isName 0 0 "A") (rfl : (operator 1 1 "-").isOp "-" = true)
    (.cons first (rfl : (operator 6 6 "/").isOp "/" = true) (.single second)) int
  exact ⟨_, int, _, read, whole, by decide +zetaReduce⟩

end Generics

end Sharp
