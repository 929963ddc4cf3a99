import Sigil.Parser.Operands

/-!
# Statements on one line

The parser reads the statements it has a branch for. On any other line of the grammar it fails,
or it stops before a token that no statement starts with.
-/

namespace Sigil.Parser

open Flow

variable {double : String → BitVec 64} {body : Parser (List Node)} {line steps : Nat}
  {F G : TokenKind → Prop}

/-- Names are read as handles up to the first token that is none. -/
theorem yields_parseHandles {handles : List String} (enough : handles.length < steps)
    (apart : ∀ n, ¬ F (.identifier n)) :
    Yields (parseHandles steps) (handles.map .identifier) F handles := by
  induction handles generalizing steps with
  | nil =>
      obtain ⟨steps, rfl⟩ := Nat.exists_eq_succ_of_ne_zero (Nat.ne_of_gt enough)
      refine .peek_nil (q := pure []) (fun k allowed => ?_) .pure
      split
      next n => exact absurd allowed (apart n)
      next => rfl
  | cons handle handles ih =>
      obtain ⟨steps, rfl⟩ := Nat.exists_eq_succ_of_ne_zero (Nat.ne_of_gt (Nat.zero_lt_of_lt enough))
      have fewer : handles.length < steps := by simpa using enough
      have later := ih fewer
      exact .peek (.name_bind later.last)

/-- One name at least is read as handles. -/
theorem yields_parseSomeHandles {handle : String} {handles : List String}
    (apart : ∀ n, ¬ F (.identifier n)) :
    Yields parseSomeHandles (.identifier handle :: handles.map .identifier) F (handle :: handles) :=
  .name_bind (.within_last fun n enough => yields_parseHandles (by simpa using enough) apart)

/-- Names behind commas are read in order. -/
theorem yields_parseMoreNames {names : List String}
    (enough : (names.flatMap fun name => [TokenKind.comma, .identifier name]).length < steps)
    (apart : ¬ F .comma) :
    Yields (parseMoreNames steps) (names.flatMap fun name => [.comma, .identifier name]) F
      names := by
  induction names generalizing steps with
  | nil =>
      obtain ⟨steps, rfl⟩ := Nat.exists_eq_succ_of_ne_zero (Nat.ne_of_gt enough)
      refine .peek_nil (q := pure []) (fun k allowed => ?_) .pure
      split
      · exact absurd allowed apart
      · rfl
  | cons name names ih =>
      obtain ⟨steps, rfl⟩ := Nat.exists_eq_succ_of_ne_zero (Nat.ne_of_gt (Nat.zero_lt_of_lt enough))
      rw [List.flatMap_cons, List.length_append, List.length_cons, List.length_cons,
        List.length_nil] at enough
      have fewer : (names.flatMap fun name => [TokenKind.comma, .identifier name]).length <
        steps := by omega
      have later := ih fewer
      exact .peek (.advance_bind (by simp) (.name_bind later.last))

/-- The outputs of a CALL are read in order. -/
theorem yields_parseOutputs {outputs : List String} :
    Yields parseOutputs (LineForm.outputKinds outputs) (· = .newline) outputs := by
  cases outputs with
  | nil =>
      refine .peek_nil (q := pure []) (fun k last => ?_) .pure
      rw [last]
  | cons output outputs =>
      exact .peek (.advance_bind (by simp) (.name_bind (.within_last fun n enough =>
        yields_parseMoreNames enough (by simp))))

/-- A call that is assigned, and what is read of it. -/
theorem yields_assigned {target : String} {kinds : List TokenKind} {e : Expr}
    (begins : ∀ k, F k → headKind kinds k ≠ .keyword .waitAll)
      (reads : Yields (parseExpr double) kinds F e) :
    Yields (parseUnindented double body line) (.identifier target :: .equals :: kinds) F
      (.assignment line target e) := by
  refine .peek (.advance_bind (by simp) (.peek (.advance_bind (by simp) (.look (fun k allowed => ?_)
    reads.last))))
  split
  next same => exact absurd same (begins k allowed)
  next => rfl

/-- An expression that begins with a keyword. -/
theorem yields_keyword {word : Keyword} {ks : List TokenKind} {e : Expr}
    (reads : ∀ operand, Operand operand →
      Yields (parseKeyword operand word) (.keyword word :: ks) F e) :
    Yields (parseExpr double) (.keyword word :: ks) F e := by
  refine .within fun n enough => ?_
  rw [List.length_cons] at enough
  obtain ⟨m, rfl⟩ := Nat.exists_eq_add_of_le (show 2 ≤ n by omega)
  rw [Nat.add_comm]
  exact .peek (reads _ operand_within)

/-- A CALL whose arguments are values is read as its statement. -/
theorem yields_call (double : String → BitVec 64) (behavior : String) {args : List Argument}
    (values : args.all fun arg => arg.expr?.isSome) :
      ∃ exprs, args.mapM Argument.expr? = some exprs ∧
      Yields (parseExpr double) (.keyword .call :: .identifier behavior :: LineForm.argKinds args)
        (fun k => endsCall k = true) (.call behavior exprs) := by
  obtain ⟨exprs, mapped, _⟩ := yields_parseArgs (operand_parseExpr double) endsArgs_endsCall
    values (Nat.lt_succ_self _)
  refine ⟨exprs, mapped, yields_keyword fun operand reads =>
    .advance_bind (by simp) (.name_bind (.within_last
    fun n enough => ?_))⟩
  obtain ⟨exprs', mapped', later⟩ := yields_parseArgs reads endsArgs_endsCall values enough
  obtain rfl := Option.some.inj (mapped.symm.trans mapped')
  exact later

/-- A SPAWN whose arguments are values is read as its statement. -/
theorem yields_spawn (double : String → BitVec 64) (pattern : String) {args : List Argument}
    (values : args.all fun arg => arg.expr?.isSome) :
      ∃ exprs, args.mapM Argument.expr? = some exprs ∧
      Yields (parseExpr double) (.keyword .spawn :: .identifier pattern :: LineForm.argKinds args)
        (fun k => endsSpawn k = true) (.spawn pattern exprs) := by
  obtain ⟨exprs, mapped, _⟩ := yields_parseArgs (operand_parseExpr double) endsArgs_endsSpawn
    values (Nat.lt_succ_self _)
  refine ⟨exprs, mapped, yields_keyword fun operand reads =>
    .advance_bind (by simp) (.name_bind (.within_last
    fun n enough => ?_))⟩
  obtain ⟨exprs', mapped', later⟩ := yields_parseArgs reads endsArgs_endsSpawn values enough
  obtain rfl := Option.some.inj (mapped.symm.trans mapped')
  exact later

/-- STORE to a name, up to its offset. -/
theorem yields_store {target : String} {value : Value} {size : BitVec 64} {offset : Option Value}
    (known : ∀ v ∈ offset, v.isString = false) :
    Yields (parseUnindented double body line)
      (PrimitiveCall.kinds (.store (.name target) value size offset)) AfterCall
      (.store line target value.expr size.toNat (offset.map Value.expr)) := by
  have reads := operand_parseExpr double
  have kinds : PrimitiveCall.kinds (.store (.name target) value size offset) = .keyword .store ::
      .identifier target :: (value.kinds ++ .integer size :: PrimitiveCall.offsetKinds offset) := by
    simp [PrimitiveCall.kinds, PrimitiveCall.operation, Value.kinds]
  rw [kinds]
  exact .peek (.advance_bind (by simp)
    (.name_bind (reads.value_bind (.size_bind (reads.offset known).last) fun _
      _ => by simp [headKind])))

/-- A FREE of a name is read as its statement. -/
theorem yields_free {name : String} : Yields (parseUnindented double body line)
    (PrimitiveCall.kinds (.free (.name name))) F (.free line name) :=
  .peek (.advance_bind (by simp) (.name_bind .pure))

/-- What comes after several targets and `=`. -/
theorem yields_targets {target next : String} {more : List String} {ks : List TokenKind}
    {node : Node}
    (reads : Yields (do
      match ← peekKind with
      | .keyword .waitAny =>
          advance
          match next :: more with
          | [which] =>
              let handles ← parseHandles ((← get).length + 1)
              return .waitAny line target which handles
          | _ => fail .waitAnyTargets
      | .keyword .waitAll =>
          advance
          let handles ← parseSomeHandles
          return .waitAll line (target :: next :: more) handles
      | _ => fail .expectedWait) ks G node) :
    Yields (parseUnindented double body line)
      (LineForm.targetKinds (target :: next :: more) ++ ks) G node := by
  have equals : Yields expectEquals [.equals] (fun _ => True) () :=
    .peek (.advance_bind (by simp) .pure)
  have names : Yields (parseTargets line target)
      (((next :: more).flatMap fun name => [.comma, .identifier name]) ++ ([.equals] ++ ks)) G
        node :=
    .within_bind (F := (· ≠ .comma)) (fun n enough => yields_parseMoreNames enough (by simp))
      (equals.bind reads fun _ _ => trivial) fun _ _ => by simp [headKind]
  have kinds : LineForm.targetKinds (target :: next :: more) ++ ks = .identifier target ::
      (((next :: more).flatMap fun name => [.comma, .identifier name]) ++ ([.equals] ++ ks)) := by
    simp [LineForm.targetKinds, LineForm.commaKinds]
  rw [kinds]
  exact .peek (.advance_bind (by simp) (.look (fun _ _ => rfl) names))

/-- No primitive call begins with WAIT_ALL. -/
theorem headKind_primitive {prim : PrimitiveCall} {k : TokenKind} :
    headKind prim.kinds k ≠ .keyword .waitAll := by
  cases prim <;> simp [PrimitiveCall.kinds, PrimitiveCall.operation, headKind]

/-- No value begins with WAIT_ALL. -/
theorem headKind_last {v : Value} {k : TokenKind} (_ : k = .newline) :
    headKind v.kinds k ≠ .keyword .waitAll := by
  cases v <;> simp [Value.kinds, headKind]

/-- A primitive call that may stand alone is read as its statement. -/
theorem yields_primitive_statement (double : String → BitVec 64) (body : Parser (List Node))
    (line : Nat)
    {prim : PrimitiveCall} (standalone : prim.Standalone) :
    ∃ node, prim.node? line = some node ∧
      Yields (parseUnindented double body line) prim.kinds AfterCall node := by
  cases prim with
  | store handle value size offset =>
      cases handle with
      | name target =>
          refine ⟨_, rfl, yields_store ?_⟩
          rintro v rfl
          simpa [PrimitiveCall.Standalone, Value.isName] using standalone
      | _ => cases offset <;> simp [PrimitiveCall.Standalone, Value.isName] at standalone
  | free handle =>
      cases handle with
      | name name => exact ⟨_, rfl, yields_free⟩
      | _ => simp [PrimitiveCall.Standalone, Value.isName] at standalone
  | _ => simp [PrimitiveCall.Standalone] at standalone

/-- The parser reads the statements it has a branch for, as what they stand for. -/
theorem yields_form (double : String → BitVec 64) (body : Parser (List Node)) (line : Nat)
    {form : LineForm}
    (read : form.Read) : ∃ node, form.node? line = some node ∧
      Yields (parseUnindented double body line) form.kinds (· = .newline) node := by
  have reads := operand_parseExpr double
  have after : ∀ k, k = TokenKind.newline → AfterCall k := by
    rintro k rfl
    trivial
  have apart : ∀ k, k = TokenKind.newline → k ≠ .dot := by
    rintro k rfl
    simp
  have ends : ∀ k, k = TokenKind.newline → endsCall k = true := by
    rintro k rfl
    rfl
  cases form with
  | assignment target prim =>
      obtain ⟨e, found, yields⟩ := yields_parseExpr_primitive double read
      refine ⟨.assignment line target e, by simp [LineForm.node?, found], ?_⟩
      exact yields_assigned (fun _ _ => headKind_primitive) (yields.mono after)
  | primitive prim =>
      obtain ⟨node, found, yields⟩ := yields_primitive_statement double body line read
      exact ⟨node, found, yields.mono after⟩
  | label name => exact ⟨_, rfl, .peek (.advance_bind (by simp) (.name_bind .pure))⟩
  | branch condition trueLabel falseLabel =>
      exact ⟨_, rfl,
        .peek (.advance_bind (by simp) (reads.value_bind (.name_bind (.name_bind .pure))
        fun _ _ => by simp [headKind]))⟩
  | jump target => exact ⟨_, rfl, .peek (.advance_bind (by simp) (.name_bind .pure))⟩
  | call target behavior args outputs =>
      simp only [LineForm.Read, Bool.and_eq_true, Bool.or_eq_true] at read
      obtain ⟨values, shape⟩ := read
      cases target with
      | none =>
          obtain ⟨exprs, mapped, _⟩ := yields_parseArgs reads endsArgs_endsCall values
            (Nat.lt_succ_self _)
          refine ⟨.call line none behavior exprs outputs, by simp [LineForm.node?, mapped], ?_⟩
          refine .peek (.advance_bind (by simp)
            (.name_bind (.within_bind (F := fun k => endsCall k = true)
            (fun n enough => ?_) yields_parseOutputs.last ?_)))
          · obtain ⟨exprs', mapped', later⟩ := yields_parseArgs reads endsArgs_endsCall values
              enough
            obtain rfl := Option.some.inj (mapped.symm.trans mapped')
            exact later
          · rintro k rfl
            cases outputs <;> rfl
      | some target =>
          obtain rfl : outputs = [] := by simpa using shape
          obtain ⟨exprs, mapped, yields⟩ := yields_call double behavior values
          refine ⟨.assignment line target (.call behavior
            exprs), by simp [LineForm.node?, mapped], ?_⟩
          have assigned : Yields (parseUnindented double body line)
              (.identifier target :: .equals :: .keyword .call :: .identifier behavior ::
                LineForm.argKinds args)
              (· = .newline) (.assignment line target (.call behavior exprs)) :=
            yields_assigned (fun _ _ => by simp [headKind]) (yields.mono ends)
          simpa [LineForm.kinds, LineForm.targetKinds, LineForm.commaKinds,
            LineForm.outputKinds] using assigned
  | set target value =>
      exact ⟨_, rfl,
        .peek (.advance_bind (by simp) (.name_bind ((reads.value value).mono apart).last))⟩
  | bind target value =>
      exact ⟨_, rfl, yields_assigned (fun _ => headKind_last) ((reads.value value).mono apart)⟩
  | discard name field =>
      cases field with
      | none =>
          exact ⟨_, rfl, .peek (.advance_bind (by simp) (yields_parseVar_name.mono apart).last)⟩
      | some field => exact ⟨_, rfl, .peek (.advance_bind (by simp) yields_parseVar_field.last)⟩
  | spawn target pattern args =>
      obtain ⟨exprs, mapped, yields⟩ := yields_spawn double pattern read
      refine ⟨.assignment line target (.spawn pattern exprs), by simp [LineForm.node?, mapped], ?_⟩
      exact yields_assigned (fun _ _ => by simp [headKind]) (yields.mono (by rintro k rfl; rfl))
  | wait target handle =>
      exact ⟨_, rfl, yields_assigned (fun _ _ => by simp [headKind])
        (yields_keyword fun _ _ => .advance_bind (by simp) (.name_bind .pure))⟩
  | waitAll targets handle handles =>
      have handles_ : Yields parseSomeHandles (.identifier handle :: handles.map .identifier)
        (· = .newline)
          (handle :: handles) := yields_parseSomeHandles (by simp)
      refine ⟨_, rfl, ?_⟩
      cases targets with
      | nil => exact .peek (.advance_bind (by simp) handles_.last)
      | cons target more =>
          cases more with
          | nil =>
              exact .peek (.advance_bind (by simp) (.peek (.advance_bind (by simp)
                (.peek (.advance_bind (by simp) handles_.last)))))
          | cons next more => exact yields_targets (.peek (.advance_bind (by simp) handles_.last))
  | waitAny result which handles =>
      exact ⟨_, rfl, yields_targets (.peek (.advance_bind (by simp) (.within_last
        fun n enough => yields_parseHandles (by simpa using enough) (by simp))))⟩
  | channel target typ capacity =>
      refine ⟨_, rfl, yields_assigned (fun _ _ => by simp [headKind])
        (yields_keyword fun _ reads => ?_)⟩
      exact .advance_bind (by simp) (.typ_bind ((reads.value capacity).mono apart).last)
  | channelSend channel value =>
      exact ⟨_, rfl,
        .peek (.advance_bind (by simp) (.name_bind ((reads.value value).mono apart).last))⟩
  | channelReceive target channel =>
      exact ⟨_, rfl, yields_assigned (fun _ _ => by simp [headKind])
        (yields_keyword fun _ _ => .advance_bind (by simp) (.name_bind .pure))⟩
  | channelClose channel => exact ⟨_, rfl, .peek (.advance_bind (by simp) (.name_bind .pure))⟩

/-- A call that is assigned and refused. -/
theorem rejects_assigned {target : String} {kinds : List TokenKind} {P : List Token → Prop}
    (begins : ∀ k, F k → headKind kinds k ≠ .keyword .waitAll)
      (rejects : Rejects (parseExpr double) kinds F) :
    Leaves P (parseUnindented double body line) (.identifier target :: .equals :: kinds) F := by
  have stops : Leaves P (do
      let expr ← parseExpr double
      return Node.assignment line target expr) kinds F := .stops rejects
  refine .peek (.advance_bind (by simp)
    (.peek (.advance_bind (by simp) (.look (fun k allowed => ?_) stops))))
  split
  next same => exact absurd same (begins k allowed)
  next => rfl

/-- A primitive call that has no value is not read as an expression. -/
theorem rejects_parseExpr_primitive {prim : PrimitiveCall} (none : prim.expr? = none) :
    Rejects (parseExpr double) prim.kinds F :=
  .within fun _ _ => rejects_primitive none

/-- A keyword that no operand begins with is rejected. -/
theorem rejects_keyword {word : Keyword} {ks : List TokenKind}
    (rejects : ∀ operand, Operand operand →
      Rejects (parseKeyword operand word) (.keyword word :: ks) F) :
    Rejects (parseExpr double) (.keyword word :: ks) F := by
  refine .within fun n enough => ?_
  rw [List.length_cons] at enough
  obtain ⟨m, rfl⟩ := Nat.exists_eq_add_of_le (show 2 ≤ n by omega)
  rw [Nat.add_comm]
  exact .peek (rejects _ operand_within)

/-- What is no name is refused where a name is expected. -/
theorem rejects_name {k : TokenKind} {ks : List TokenKind} (other : ∀ n, k ≠ .identifier n) :
    Rejects expectIdentifier (k :: ks) F := by
  refine .look (q := fail (.expectedIdentifier k)) (fun _ _ => ?_) .fail
  cases k with
  | identifier n => exact absurd rfl (other n)
  | _ => rfl

/-- No expression begins with a dot. -/
theorem rejects_dot {ks : List TokenKind} : Rejects (parseExpr double) (.dot :: ks) F := by
  refine .within fun n enough => ?_
  obtain ⟨m, rfl⟩ := Nat.exists_eq_succ_of_ne_zero (Nat.ne_of_gt (Nat.zero_lt_of_lt enough))
  exact .peek .fail

/-- A primitive call that the parser does not read after `name =`. -/
theorem strands_assignment {target : String} {prim : PrimitiveCall}
    (other : prim.Assignable = false) :
    Strands (parseUnindented double body line) (LineForm.assignment target prim).kinds
      (· = .newline) := by
  cases prim with
  | store | free =>
      exact rejects_assigned (fun _ _ => headKind_primitive) (rejects_parseExpr_primitive rfl)
  | load handle size offset =>
      cases offset with
      | none => simp [PrimitiveCall.Assignable] at other
      | some v =>
          cases v with
          | string s =>
              have readable : PrimitiveCall.Assignable (.load handle size none) := rfl
              obtain ⟨e, _, yields⟩ := yields_parseExpr_primitive double readable
              have assigned : Yields (parseUnindented double body line)
                  (.identifier target :: .equals :: PrimitiveCall.kinds
                    (.load handle size none)) AfterCall
                  (.assignment line target e) := yields_assigned (fun _ _ => headKind_primitive)
                    yields
              have stranded := assigned.strands (k := .stringLit s) (G := (· = .newline))
                [] trivial trivial
              simpa [LineForm.kinds, PrimitiveCall.kinds, PrimitiveCall.offsetKinds,
                Value.kinds] using stranded
          | _ => simp [PrimitiveCall.Assignable, Value.isString] at other
  | _ => simp [PrimitiveCall.Assignable] at other

/-- A primitive call that the parser does not read as a statement. -/
theorem strands_primitive {prim : PrimitiveCall} (other : prim.Standalone = false) :
    Strands (parseUnindented double body line) prim.kinds (· = .newline) := by
  cases prim with
  | store handle value size offset =>
      cases handle with
      | name target =>
          cases offset with
          | none => simp [PrimitiveCall.Standalone, Value.isName] at other
          | some v =>
              cases v with
              | string s =>
                  have stored : Yields (parseUnindented double body line)
                      (PrimitiveCall.kinds (.store (.name target) value size none)) AfterCall
                      (.store line target value.expr size.toNat none) := yields_store (by simp)
                  have stranded := stored.strands (k := .stringLit s) (G := (· = .newline))
                    [] trivial trivial
                  simpa [PrimitiveCall.kinds, PrimitiveCall.offsetKinds, Value.kinds] using stranded
              | _ => simp [PrimitiveCall.Standalone, Value.isName, Value.isString] at other
      | field base f => exact .peek (.advance_bind (by simp) (.name_bind (.stops rejects_dot)))
      | int n => exact .peek (.advance_bind (by simp) (.stops (rejects_name (by simp))))
      | string s => exact .peek (.advance_bind (by simp) (.stops (rejects_name (by simp))))
  | free handle =>
      cases handle with
      | name => simp [PrimitiveCall.Standalone, Value.isName] at other
      | field base f =>
          exact (yields_free (F := fun _ => True)).strands (k := .dot) _ trivial trivial
      | int n => exact .peek (.advance_bind (by simp) (.stops (rejects_name (by simp))))
      | string s => exact .peek (.advance_bind (by simp) (.stops (rejects_name (by simp))))
  | _ => exact .peek .fail

/-- The first token of an output list is no dot, and ends the arguments of a CALL. -/
theorem endsCall_outputs {outputs : List String} {k : TokenKind} (last : k = .newline) :
    endsCall (headKind (LineForm.outputKinds outputs) k) = true := by
  subst last
  cases outputs <;> rfl

/-- Other lines of the grammar are refused, or leave a stray token. -/
theorem strands_form {form : LineForm} (other : form.Read = false) :
    Strands (parseUnindented double body line) form.kinds (· = .newline) := by
  have reads := operand_parseExpr double
  cases form with
  | assignment target prim => exact strands_assignment other
  | primitive prim => exact strands_primitive other
  | call target behavior args outputs =>
      by_cases values : args.all fun arg => arg.expr?.isSome
      · cases target with
        | none => simp [LineForm.Read, values] at other
        | some target =>
            obtain ⟨exprs, _, yields⟩ := yields_call double behavior values
            have assigned : Yields (parseUnindented double body line)
                (.identifier target :: .equals :: .keyword .call :: .identifier behavior ::
                  LineForm.argKinds args)
                (fun k => endsCall k = true) (.assignment line target (.call behavior exprs)) :=
              yields_assigned (fun _ _ => by simp [headKind]) yields
            cases outputs with
            | nil => simp [LineForm.Read, values] at other
            | cons output outputs =>
                have stranded := assigned.strands (k := .arrow) (G := (· = .newline))
                  (.identifier output :: outputs.flatMap fun name => [.comma, .identifier name])
                    rfl trivial
                simpa [LineForm.kinds, LineForm.targetKinds, LineForm.commaKinds,
                  LineForm.outputKinds] using stranded
      · simp only [Bool.not_eq_true] at values
        cases target with
        | none =>
            refine .peek (.advance_bind (by simp) (.name_bind (.within_bind fun n _ => ?_)))
            exact .first (rejects_parseArgs reads endsArgs_endsCall values) fun _ =>
              endsCall_outputs
        | some target =>
            have rejects : Rejects (parseExpr double)
                (.keyword .call :: .identifier behavior ::
                  (LineForm.argKinds args ++ LineForm.outputKinds outputs))
                (· = .newline) := by
              refine rejects_keyword fun operand reads =>
                .advance_bind (by simp) (.name_bind (.within_bind fun n _ => ?_))
              exact .first (rejects_parseArgs reads endsArgs_endsCall values) fun _ =>
                endsCall_outputs
            exact rejects_assigned (fun _ _ => by simp [headKind]) rejects
  | spawn target pattern args =>
      have rejects : Rejects (parseExpr double)
          (.keyword .spawn :: .identifier pattern :: LineForm.argKinds args)
            (fun k => endsSpawn k = true) :=
        rejects_keyword fun operand reads =>
          .advance_bind (by simp) (.name_bind (.within_bind fun n _ =>
          .stops (rejects_parseArgs reads endsArgs_endsSpawn other)))
      refine rejects_assigned (fun _ _ => by simp [headKind]) (rejects.mono (fun _ => id) ?_)
      rintro k rfl
      rfl
  | _ => simp [LineForm.Read] at other

end Sigil.Parser
