import Sigil.Cfg.Control
import Sigil.Semantic.Analyze
import Sigil.Semantic.Checked

/-!
# What acceptance says about a body

The linear pass checks each statement against the bindings of the text before it,
so an accepted body passes every check under the bindings its own flattened text
records.
-/

namespace Sigil

namespace AnalysisContext

variable {c d : AnalysisContext}

/-- The variable a statement binds, as the analyzer records it. -/
def record (ctx : AnalysisContext) : Node → AnalysisContext
  | .assignment _ target e =>
      ctx.defineVar target ((ctx.inferExprInfo e).toVar (Analyzer.channelElementType e))
  | .call _ (some target) behavior _ _ =>
      let totalSize := (ctx.dependencyContracts.lookup behavior).map
        fun callee => (callee.outputs.map Parameter.size).sum
      ctx.defineVar target (ExprInfo.toVar
        { typ := none, size := 8, origin := .callResult totalSize } none)
  | _ => ctx

/-- Recording depends on nothing but the names. -/
theorem Agree.record (agree : Agree c d) (node : Node) : Agree (c.record node) (d.record node) := by
  cases node with
  | assignment line target e =>
      simp only [AnalysisContext.record, agree.inferExprInfo]
      exact agree.defineVar _ _
  | call line target behavior args outputs =>
      cases target with
      | none => exact agree
      | some target =>
          simp only [AnalysisContext.record, agree.dependencyContracts]
          exact agree.defineVar _ _
  | _ => exact agree

/-- Recording the same statements keeps two contexts in agreement. -/
theorem Agree.foldl_record (agree : Agree c d) (nodes : List Node) :
    Agree (nodes.foldl AnalysisContext.record c) (nodes.foldl AnalysisContext.record d) := by
  induction nodes generalizing c d with
  | nil => exact agree
  | cons node rest ih => exact ih (agree.record node)

/-- Which OUTPUTs are written is not among the facts that two contexts agree on. -/
theorem agree_markOutputWritten (ctx : AnalysisContext) (name : String) :
    Agree ctx (ctx.markOutputWritten name) := by
  unfold markOutputWritten
  split <;> exact ⟨rfl, rfl, rfl, rfl, rfl, rfl⟩

/-- Borrowing binds nothing. -/
theorem agree_spawnBorrows (line : Nat) (target : String) (e : Expr) (ctx : AnalysisContext) :
    Agree ctx (Analyzer.spawnBorrows line target e ctx) := by
  cases e with
  | spawn pattern args =>
      simp only [Analyzer.spawnBorrows]
      induction args generalizing ctx with
      | nil => exact .refl ctx
      | cons arg rest ih =>
          refine Agree.trans ?_ (ih _)
          cases arg <;> exact ⟨rfl, rfl, rfl, rfl, rfl, rfl⟩
  | _ => exact .refl ctx

end AnalysisContext

namespace Node

/-- The expressions validation reaches in a statement. -/
def validatedOperands : Node → List Expr
  | assignment _ _ e | branch _ e _ _ | set _ _ e | channelSend _ _ e | discard _ e
  | store _ _ e _ none => [e]
  | store _ _ e _ (some offset) => [e, offset]
  | call _ _ _ args _ => args
  | label _ _ | scope _ _ | jump _ _ | free _ _ | spawn _ _ _ _ | wait _ _ _ | waitAll _ _ _
  | waitAny _ _ _ _ | channelClose _ _ => []

/-- The check a statement makes besides validating its operands. What FREE asks of
borrows is left out: it is no matter of names. -/
def OwnChecks (ctx : AnalysisContext) : Node → Prop
  | store _ target _ size offset => ctx.varExists target = true ∧ ctx.NotShared target ∧
      (∀ off ∈ offset, ctx.IsValue off) ∧ IsIntSize size ∧ ctx.WithinRecorded target size offset ∧
      (offset = none → ∀ output, ctx.outputs.lookup target = some output → size = output.size)
  | set _ target value => ctx.varExists target = true ∧
      ∀ output found, ctx.outputs.lookup target = some output →
        (ctx.inferExprInfo value).typ = some found →
        found = output.typ ∨ (output.typ = .string ∧ found = .bytes)
  | branch _ _ trueLabel falseLabel =>
      ctx.labelExists trueLabel = true ∧ ctx.labelExists falseLabel = true
  | jump _ target => ctx.labelExists target = true
  | call _ _ behavior args _ => ctx.ArgsPass behavior args
  | channelSend _ channel value => ctx.varExists channel = true ∧
      ∀ expected found, (ctx.getVar channel).bind VarInfo.channelElementType = some expected →
        (ctx.inferExprInfo value).typ = some found → found = expected
  | channelClose _ channel => ctx.varExists channel = true
  | label _ _ | assignment _ _ _ | scope _ _ | discard _ _ | free _ _ | spawn _ _ _ _
  | wait _ _ _ | waitAll _ _ _ | waitAny _ _ _ _ => True

/-- A statement passes its own check and so does every expression validation
reaches in it. -/
structure Valid (ctx : AnalysisContext) (node : Node) : Prop where
  own : node.OwnChecks ctx
  operands : ∀ e ∈ node.validatedOperands, Expr.Valid ctx e

variable {c d : AnalysisContext} {node : Node}

/-- A statement's own checks give the same answer in contexts that agree. -/
theorem ownChecks_congr (agree : c.Agree d) : node.OwnChecks c ↔ node.OwnChecks d := by
  cases node <;>
    simp only [OwnChecks, agree.varExists, agree.withinRecorded, agree.isValue, agree.notShared,
      agree.argsPass, agree.inferExprInfo, agree.getVar, agree.outputs, agree.labelExists]

/-- A statement valid in a context is valid in every context that agrees with it. -/
theorem Valid.congr (agree : c.Agree d) (valid : node.Valid c) : node.Valid d :=
  ⟨(ownChecks_congr agree).mp valid.own,
    fun e member => (Expr.valid_congr agree).mp (valid.operands e member)⟩

end Node

/-- Every statement of a text is valid under what the text before it records. -/
def AllValid : AnalysisContext → List Node → Prop
  | _, [] => True
  | ctx, node :: rest => node.Valid ctx ∧ AllValid (ctx.record node) rest

section AllValid

variable {c d : AnalysisContext} {nodes : List Node}

/-- A body valid in a context is valid in every context that agrees with it. -/
theorem AllValid.congr (agree : c.Agree d) (valid : AllValid c nodes) : AllValid d nodes := by
  induction nodes generalizing c d with
  | nil => trivial
  | cons node rest ih => exact ⟨valid.1.congr agree, ih (agree.record node) valid.2⟩

/-- The back of a body is checked in the context that the front has left. -/
theorem allValid_append {front back : List Node} :
    AllValid c (front ++ back) ↔
      AllValid c front ∧ AllValid (front.foldl AnalysisContext.record c) back := by
  induction front generalizing c with
  | nil => simp [AllValid]
  | cons node rest ih => simp [AllValid, ih, and_assoc]

/-- The FREEs of END_SCOPE bind nothing and are always valid. -/
theorem allValid_frees (c : AnalysisContext) (line : Nat) (names : List String) :
    AllValid c (names.map (Node.free line)) ∧
      (names.map (Node.free line)).foldl AnalysisContext.record c = c := by
  induction names with
  | nil => exact ⟨trivial, rfl⟩
  | cons name rest ih => exact ⟨⟨⟨trivial, by simp [Node.validatedOperands]⟩, ih.1⟩, ih.2⟩

/-- The statement at an index is valid under what the text before it records. -/
theorem AllValid.at {i : Nat} {node : Node} (valid : AllValid c nodes)
    (at_ : nodes[i]? = some node) :
    node.Valid ((nodes.take i).foldl AnalysisContext.record c) := by
  obtain ⟨inRange, rfl⟩ := List.getElem?_eq_some_iff.mp at_
  have split : nodes = nodes.take i ++ nodes[i] :: nodes.drop (i + 1) := by simp
  rw [split, allValid_append] at valid
  exact valid.2.1

end AllValid

namespace Analyzer

open AnalysisContext

variable {s : Analyzer}

@[simp] theorem modify_errors {f : AnalysisContext → AnalysisContext} :
    (s.modify f).errors = s.errors := rfl

@[simp] theorem modify_ctx {f : AnalysisContext → AnalysisContext} :
    (s.modify f).ctx = f s.ctx := rfl

@[simp] theorem requireLabel_ctx {name context : String} {line : Nat} :
    (s.requireLabel name line context).ctx = s.ctx := require_ctx

@[simp] theorem requireLabel_quiet {name context : String} {line : Nat} :
    (s.requireLabel name line context).errors = [] ↔
      s.errors = [] ∧ s.ctx.labelExists name = true := require_quiet

/-- Checking operands leaves the facts of the context as they are. -/
theorem agree_validateExprs_of (es : List Expr) (s : Analyzer) :
    s.ctx.Agree (validateExprs es s).ctx :=
  agree_validateExprs (fun e _ => agree_validateExpr e) s

/-- A list of operands passes without a new error exactly when each of them is valid. -/
theorem validateExprs_quiet (es : List Expr) (s : Analyzer) :
    (validateExprs es s).errors = [] ↔ s.errors = [] ∧ ∀ e ∈ es, Expr.Valid s.ctx e :=
  validateExprs_quiet_of (fun e _ => validateExpr_quiet e) s

/-- An offset passes exactly when it is valid and an integer value. -/
theorem validateOffset_quiet (offset : Option Expr) (s : Analyzer) :
    (validateOffset offset s).errors = [] ↔
      s.errors = [] ∧ (∀ e ∈ offset, Expr.Valid s.ctx e) ∧ ∀ e ∈ offset, s.ctx.IsValue e :=
  validateOffset_quiet_of offset (fun e _ => validateExpr_quiet e) s

@[simp] theorem checkOutputSize_ctx {target : String} {size line : Nat} {offset : Option Expr} :
    (s.checkOutputSize target size offset line).ctx = s.ctx := by
  unfold checkOutputSize
  split
  · exact require_ctx
  · rfl

@[simp] theorem checkOutputSize_quiet {target : String} {size line : Nat} {offset : Option Expr} :
    (s.checkOutputSize target size offset line).errors = [] ↔ s.errors = [] ∧
      (offset = none → ∀ output, s.ctx.outputs.lookup target = some output →
        size = output.size) := by
  cases offset <;> cases known : s.ctx.outputs.lookup target <;> simp [checkOutputSize, known]

@[simp] theorem checkSetType_ctx {line : Nat} {target : String} {value : Expr} :
    (s.checkSetType line target value).ctx = s.ctx := by
  unfold checkSetType
  split
  · exact require_ctx
  · rfl

@[simp] theorem checkSetType_quiet {line : Nat} {target : String} {value : Expr} :
    (s.checkSetType line target value).errors = [] ↔ s.errors = [] ∧
      ∀ output found, s.ctx.outputs.lookup target = some output →
        (s.ctx.inferExprInfo value).typ = some found →
        found = output.typ ∨ (output.typ = .string ∧ found = .bytes) := by
  unfold checkSetType
  split <;> simp_all

@[simp] theorem checkSendType_ctx {line : Nat} {channel : String} {value : Expr} :
    (s.checkSendType line channel value).ctx = s.ctx := by
  unfold checkSendType
  split
  · exact require_ctx
  · rfl

@[simp] theorem checkSendType_quiet {line : Nat} {channel : String} {value : Expr} :
    (s.checkSendType line channel value).errors = [] ↔ s.errors = [] ∧
      ∀ expected found, (s.ctx.getVar channel).bind VarInfo.channelElementType = some expected →
        (s.ctx.inferExprInfo value).typ = some found → found = expected := by
  unfold checkSendType
  split <;> simp_all

/-- Validating a statement records what it binds, and reports nothing only if the
statement is valid. -/
structure Validates (node : Node) (s t : Analyzer) : Prop where
  agree : (s.ctx.record node).Agree t.ctx
  quiet : t.errors = [] → s.errors = [] ∧ node.Valid s.ctx

/-- `validate_assignment` reports nothing exactly on a valid assignment. -/
theorem validates_assignment (line : Nat) (target : String) (e : Expr) (s : Analyzer) :
    Validates (.assignment line target e) s (s.validateAssignment line target e) := by
  have agree := agree_validateExpr e s
  constructor
  · apply Agree.trans _ (agree_spawnBorrows line target e _)
    simp only [record, ← agree.inferExprInfo]
    exact agree.defineVar _ _
  · intro quiet
    obtain ⟨before, valid⟩ := (validateExpr_quiet e s).mp quiet
    exact ⟨before, trivial, by simpa [Node.validatedOperands] using valid⟩

/-- Checking the target of a STORE leaves the facts of the context as they are. -/
theorem agree_checkStoreTarget (line : Nat) (target : String) (s : Analyzer) :
    s.ctx.Agree (s.checkStoreTarget line target).ctx := by
  unfold checkStoreTarget
  dsimp only
  split
  · rw [checkNotShared_ctx, modify_ctx]
    split <;> exact ⟨rfl, rfl, rfl, rfl, rfl, rfl⟩
  · rw [error_ctx, modify_ctx]
    split <;> exact ⟨rfl, rfl, rfl, rfl, rfl, rfl⟩

/-- A STORE whose target passes names a variable that is not SHARED. -/
theorem checkStoreTarget_quiet {line : Nat} {target : String}
    (quiet : (s.checkStoreTarget line target).errors = []) :
    s.errors = [] ∧ s.ctx.varExists target = true ∧ s.ctx.NotShared target := by
  have agree : s.ctx.Agree (if s.ctx.isOutput target then s.ctx
      else { s.ctx with hasNonOutputWrites := true }) := by
    split <;> exact ⟨rfl, rfl, rfl, rfl, rfl, rfl⟩
  unfold checkStoreTarget at quiet
  dsimp only at quiet
  split at quiet
  next known =>
    rw [checkNotShared_quiet, modify_ctx, ← agree.notShared] at quiet
    exact ⟨quiet.1, agree.varExists.trans known, quiet.2⟩
  next unknown => exact absurd quiet error_errors_ne

/-- `validate_store` reports nothing exactly on a valid STORE. -/
theorem validates_store (line : Nat) (target : String) (value : Expr) (size : Nat)
    (offset : Option Expr) (s : Analyzer) :
    Validates (.store line target value size offset) s
      (s.validateStore line target value size offset) := by
  have agreeTarget := agree_checkStoreTarget line target s
  have agreeValue := agreeTarget.trans (agree_validateExpr value _)
  have agree := agreeValue.trans (agree_validateOffset offset _)
  constructor
  · apply Agree.trans _ (agree_markOutputWritten _ target)
    rw [checkOutputSize_ctx, checkBounds_ctx, validateIntSize_ctx]
    exact agree
  · intro quiet
    simp only [validateStore, modify_errors, checkOutputSize_quiet, checkBounds_quiet,
      checkBounds_ctx, validateIntSize_quiet, validateIntSize_ctx, validateOffset_quiet,
      validateExpr_quiet] at quiet
    obtain ⟨⟨⟨⟨⟨before, valid⟩, validOffset, isValue⟩, sized⟩, within⟩, whole⟩ := quiet
    obtain ⟨before, known, unshared⟩ := checkStoreTarget_quiet before
    refine ⟨before, ⟨known, unshared, ?_, sized, agree.withinRecorded.mpr within, ?_⟩, ?_⟩
    · exact fun off member => agreeValue.isValue.mpr (isValue off member)
    · rw [agree.outputs]
      exact whole
    · have inValue := (Expr.valid_congr agreeTarget).mpr valid
      have inOffset := fun off member => (Expr.valid_congr agreeValue).mpr (validOffset off member)
      cases offset with
      | none => simpa [Node.validatedOperands] using inValue
      | some off => simpa [Node.validatedOperands] using ⟨inValue, inOffset off rfl⟩

/-- `validate_set` reports nothing exactly on a valid SET. -/
theorem validates_set (line : Nat) (target : String) (value : Expr) (s : Analyzer) :
    Validates (.set line target value) s (s.validateSet line target value) := by
  let known := s.require (s.ctx.varExists target) (.undefinedVariable target) line "SET target"
  have agree : s.ctx.Agree (validateExpr value known).ctx := by
    simpa [known] using agree_validateExpr value known
  constructor
  · apply Agree.trans _ (agree_markOutputWritten _ target)
    rw [checkSetType_ctx]
    exact agree
  · intro quiet
    simp only [validateSet, modify_errors, checkSetType_quiet, validateExpr_quiet, require_quiet,
      require_ctx] at quiet
    obtain ⟨⟨⟨before, exists_⟩, valid⟩, typed⟩ := quiet
    refine ⟨before, ⟨exists_, ?_⟩, by simpa [Node.validatedOperands] using valid⟩
    rw [agree.outputs, agree.inferExprInfo]
    exact typed

/-- `validate_call` reports nothing exactly on a valid CALL. -/
theorem validates_call (line : Nat) (target : Option String) (behavior : String)
    (args : List Expr) (outputs : List String) (s : Analyzer) :
    Validates (.call line target behavior args outputs) s
      (s.validateCall line target behavior args) := by
  have agree := agree_validateExprs_of args s
  have checked : s.ctx.Agree ((validateExprs args s).validateCallee behavior args line).ctx := by
    simpa using agree
  have quiet : ((validateExprs args s).validateCallee behavior args line).errors = [] →
      s.errors = [] ∧ Node.Valid s.ctx (.call line target behavior args outputs) := by
    rw [validateCallee_quiet, validateExprs_quiet, ← agree.argsPass]
    exact fun ⟨⟨before, valid⟩, pass⟩ => ⟨before, pass, valid⟩
  cases target with
  | none => exact ⟨checked, quiet⟩
  | some target =>
      refine ⟨?_, quiet⟩
      simp only [record, validateCall, modify_ctx, checked.dependencyContracts]
      exact checked.defineVar _ _

/-- `validate_channel_send` reports nothing exactly on a valid CHANNEL_SEND. -/
theorem validates_channelSend (line : Nat) (channel : String) (value : Expr) (s : Analyzer) :
    Validates (.channelSend line channel value) s (s.validateChannelSend line channel value) := by
  let noted := s.modify fun ctx => { ctx with hasChannelOps := true }
  have agreeNoted : s.ctx.Agree noted.ctx := ⟨rfl, rfl, rfl, rfl, rfl, rfl⟩
  have agree := agreeNoted.trans (agree_validateExpr value noted)
  by_cases known : noted.ctx.varExists channel = true
  · have unfolded : s.validateChannelSend line channel value =
        (validateExpr value noted).checkSendType line channel value := if_pos known
    rw [unfolded]
    refine ⟨by rwa [checkSendType_ctx], ?_⟩
    rw [checkSendType_quiet, validateExpr_quiet, ← agree.getVar, ← agree.inferExprInfo]
    rintro ⟨⟨before, valid⟩, typed⟩
    refine ⟨before, ⟨agreeNoted.varExists.trans known, typed⟩, ?_⟩
    simpa [Node.validatedOperands] using (Expr.valid_congr agreeNoted).mpr valid
  · have unfolded : s.validateChannelSend line channel value =
        noted.error (.undefinedVariable channel) line "CHANNEL_SEND" := if_neg known
    rw [unfolded]
    exact ⟨agreeNoted, fun quiet => absurd quiet error_errors_ne⟩

/-- Whatever FREE reports, it binds nothing. -/
theorem validates_free (line : Nat) (name : String) (s : Analyzer) :
    Validates (.free line name) s (s.validateFree line name) := by
  have valid : Node.Valid s.ctx (.free line name) := ⟨trivial, by simp [Node.validatedOperands]⟩
  unfold validateFree
  repeat' split
  all_goals first
    | exact ⟨.refl s.ctx, fun quiet => absurd quiet error_errors_ne⟩
    | exact ⟨.refl s.ctx, fun quiet => ⟨quiet, valid⟩⟩

/-- A statement other than SCOPE is validated as it stands. -/
theorem validates_validateNode {node : Node} (flat : node.isScope = false) (s : Analyzer) :
    Validates node s (validateNode node s) := by
  cases node with
  | scope line nodes => simp [Node.isScope] at flat
  | assignment line target e => exact validates_assignment line target e s
  | store line target value size offset => exact validates_store line target value size offset s
  | set line target value => exact validates_set line target value s
  | call line target behavior args outputs =>
      exact validates_call line target behavior args outputs s
  | free line name => exact validates_free line name s
  | channelSend line channel value => exact validates_channelSend line channel value s
  | branch line condition trueLabel falseLabel =>
      have agree := agree_validateExpr condition s
      refine ⟨by simpa [validateNode, record] using agree, ?_⟩
      simp only [validateNode, requireLabel_quiet, requireLabel_ctx, validateExpr_quiet,
        ← agree.labelExists]
      rintro ⟨⟨⟨before, valid⟩, onTrue⟩, onFalse⟩
      exact ⟨before, ⟨onTrue, onFalse⟩, by simpa [Node.validatedOperands] using valid⟩
  | jump line target =>
      refine ⟨by simpa [validateNode, record] using AnalysisContext.Agree.refl s.ctx, ?_⟩
      simp only [validateNode, requireLabel_quiet]
      rintro ⟨before, known⟩
      exact ⟨before, known, by simp [Node.validatedOperands]⟩
  | channelClose line channel =>
      refine ⟨?_, ?_⟩
      · rw [validateNode, require_ctx]
        exact ⟨rfl, rfl, rfl, rfl, rfl, rfl⟩
      simp only [validateNode, require_quiet, modify_errors]
      rintro ⟨before, known⟩
      exact ⟨before, known, by simp [Node.validatedOperands]⟩
  | discard line e =>
      refine ⟨agree_validateExpr e s, fun quiet => ?_⟩
      obtain ⟨before, valid⟩ := (validateExpr_quiet e s).mp quiet
      exact ⟨before, trivial, by simpa [Node.validatedOperands] using valid⟩
  | label _ _ | spawn _ _ _ _ | wait _ _ _ | waitAll _ _ _ | waitAny _ _ _ _ =>
      exact ⟨.refl s.ctx, fun quiet => ⟨quiet, trivial, by simp [Node.validatedOperands]⟩⟩

/-- Validating statements records what their flattened text binds, and reports
nothing only if that text is valid. -/
structure ValidatesAll (flat : List Node) (s t : Analyzer) : Prop where
  agree : (flat.foldl AnalysisContext.record s.ctx).Agree t.ctx
  quiet : t.errors = [] → s.errors = [] ∧ AllValid s.ctx flat

/-- One validated statement is a validated body of one statement. -/
theorem Validates.all {node : Node} {t : Analyzer} (validates : Validates node s t) :
    ValidatesAll [node] s t :=
  ⟨validates.agree, fun quiet => ⟨(validates.quiet quiet).1, (validates.quiet quiet).2, trivial⟩⟩

/-- Validated bodies follow each other. -/
theorem ValidatesAll.append {front back : List Node} {t u : Analyzer}
    (first : ValidatesAll front s t) (second : ValidatesAll back t u) :
    ValidatesAll (front ++ back) s u := by
  constructor
  · rw [List.foldl_append]
    exact (first.agree.foldl_record back).trans second.agree
  · intro quiet
    obtain ⟨before, validBack⟩ := second.quiet quiet
    obtain ⟨start, validFront⟩ := first.quiet before
    exact ⟨start, allValid_append.mpr ⟨validFront, validBack.congr first.agree.symm⟩⟩

/-- Counting scopes and lines is no matter of names. -/
theorem ValidatesAll.congr {flat : List Node} {s' t t' : Analyzer}
    (validates : ValidatesAll flat s' t) (before : s.ctx.Agree s'.ctx) (same : s'.errors = s.errors)
    (after : t.ctx.Agree t'.ctx) (same' : t'.errors = t.errors) : ValidatesAll flat s t' := by
  constructor
  · exact ((before.foldl_record flat).trans validates.agree).trans after
  · intro quiet
    obtain ⟨start, valid⟩ := validates.quiet (same'.symm.trans quiet)
    exact ⟨same.symm.trans start, valid.congr before.symm⟩

mutual

/-- A SCOPE is validated as its body. -/
theorem validatesAll_validateNode (node : Node) (s : Analyzer) :
    ValidatesAll (flattenScope node) s (validateNode node s) := by
  cases node with
  | scope line nodes =>
      have inner := validatesAll_validateNodes nodes
        (s.modify fun ctx => { ctx with scopeDepth := ctx.scopeDepth + 1 })
      have frees : ∀ t, ValidatesAll ((scopedAllocs nodes).reverse.map (Node.free line)) t t := by
        intro t
        obtain ⟨valid, binds⟩ := allValid_frees t.ctx line (scopedAllocs nodes).reverse
        exact ⟨by rw [binds]; exact .refl t.ctx, fun quiet => ⟨quiet, valid⟩⟩
      exact (inner.append (frees _)).congr ⟨rfl, rfl, rfl, rfl, rfl, rfl⟩ rfl
        ⟨rfl, rfl, rfl, rfl, rfl, rfl⟩ rfl
  | _ => exact (validates_validateNode rfl s).all

/-- `validate_nodes` reports nothing exactly when the flattened body is valid. -/
theorem validatesAll_validateNodes (nodes : List Node) (s : Analyzer) :
    ValidatesAll (flattenScopes nodes) s (validateNodes nodes s) := by
  cases nodes with
  | nil => exact ⟨.refl s.ctx, fun quiet => ⟨quiet, trivial⟩⟩
  | cons node rest =>
      have here := validatesAll_validateNode node
        (s.modify fun ctx => { ctx with currentLine := node.line })
      have later := validatesAll_validateNodes rest (validateNode node
        (s.modify fun ctx => { ctx with currentLine := node.line }))
      exact (here.append later).congr ⟨rfl, rfl, rfl, rfl, rfl, rfl⟩ rfl (.refl _) rfl

end

/-- The path analysis leaves the context alone and only adds errors. -/
theorem validatesAll_validateBody (nodes : List Node) (s : Analyzer) :
    ValidatesAll (flattenScopes nodes) s (validateBody nodes s) := by
  have linear := validatesAll_validateNodes nodes s
  exact ⟨linear.agree, fun quiet => linear.quiet (List.append_eq_nil_iff.mp quiet).1⟩

/-- A phase that never takes an error back. -/
def OnlyAdds (phase : Analyzer → Analyzer) : Prop :=
  ∀ s, (phase s).errors = [] → s.errors = []

/-- Two phases that only add errors, one after the other, only add errors. -/
theorem OnlyAdds.comp {first second : Analyzer → Analyzer} (one : OnlyAdds first)
    (two : OnlyAdds second) : OnlyAdds fun s => second (first s) :=
  fun s quiet => one s (two _ quiet)

/-- A phase that only adds errors does so on an absent body too. -/
theorem OnlyAdds.onBody {phase : List Node → Analyzer → Analyzer}
    (each : ∀ nodes, OnlyAdds (phase nodes)) (body : Option (List Node)) :
    OnlyAdds (Analyzer.onBody phase body) := by
  intro s quiet
  cases body with
  | none => exact quiet
  | some nodes => exact each nodes s quiet

/-- Reporting an error only adds one. -/
theorem onlyAdds_error (kind : ErrorKind) (line : Nat) (context : Option String) :
    OnlyAdds fun s => s.error kind line context :=
  fun _ quiet => absurd quiet error_errors_ne

/-- A fold of steps that only add errors only adds errors. -/
theorem OnlyAdds.foldl {α : Type*} {step : Analyzer → α → Analyzer}
    (each : ∀ a, OnlyAdds fun s => step s a) (xs : List α) :
    OnlyAdds fun s => xs.foldl step s := by
  induction xs with
  | nil => exact fun s quiet => quiet
  | cons a rest ih => exact (each a).comp ih

/-- The wire check of a composite only adds errors. -/
theorem onlyAdds_checkWires (line : Nat) (e : Expr) : OnlyAdds fun s => checkWires line s e := by
  intro s quiet
  unfold checkWires at quiet
  split at quiet
  · exact onlyAdds_error _ _ _ s quiet
  · exact quiet

mutual

/-- The purity check of one statement only adds errors. -/
theorem onlyAdds_checkCompositeNode (node : Node) : OnlyAdds (checkCompositeNode node) := by
  intro s quiet
  cases node with
  | store _ _ _ _ _ | free _ _ => exact onlyAdds_error _ _ _ s quiet
  | scope line nodes =>
      exact onlyAdds_error _ _ _ s (onlyAdds_checkCompositePurity nodes _ quiet)
  | assignment line _ e | set line _ e | branch line e _ _ | channelSend line _ e =>
      exact onlyAdds_checkWires line e s quiet
  | call line _ _ args _ => exact OnlyAdds.foldl (onlyAdds_checkWires line) args s quiet
  | _ => exact quiet

/-- `check_composite_purity` only adds errors. -/
theorem onlyAdds_checkCompositePurity (nodes : List Node) :
    OnlyAdds (checkCompositePurity nodes) := by
  intro s quiet
  cases nodes with
  | nil => exact quiet
  | cons node rest =>
      exact onlyAdds_checkCompositeNode node s (onlyAdds_checkCompositePurity rest _ quiet)

end

mutual

/-- The leaf check of one statement only adds errors. -/
theorem onlyAdds_checkLeafNode (node : Node) : OnlyAdds (checkLeafNode node) := by
  intro s quiet
  cases node with
  | call _ _ _ _ _ => exact onlyAdds_error _ _ _ s quiet
  | assignment line target e =>
      cases e with
      | call behavior args => exact onlyAdds_error _ _ _ s quiet
      | _ => exact quiet
  | scope line nodes => exact onlyAdds_checkLeafNoCall nodes s quiet
  | _ => exact quiet

/-- `check_leaf_no_call` only adds errors. -/
theorem onlyAdds_checkLeafNoCall (nodes : List Node) : OnlyAdds (checkLeafNoCall nodes) := by
  intro s quiet
  cases nodes with
  | nil => exact quiet
  | cons node rest => exact onlyAdds_checkLeafNode node s (onlyAdds_checkLeafNoCall rest _ quiet)

end

/-- The role check only adds errors. -/
theorem onlyAdds_checkRole (behavior : Behavior) : OnlyAdds behavior.checkRole := by
  intro s quiet
  unfold Behavior.checkRole at quiet
  split at quiet
  · exact onlyAdds_checkCompositePurity _ s quiet
  · exact OnlyAdds.onBody onlyAdds_checkLeafNoCall _ s quiet

/-- The check that outputs are consumed only adds errors. -/
theorem onlyAdds_checkOutputsConsumed (nodes : List Node) :
    OnlyAdds (checkOutputsConsumed nodes) := by
  intro s quiet
  simp only [checkOutputsConsumed, List.append_eq_nil_iff] at quiet
  exact quiet.1.1

/-- The termination check only adds errors. -/
theorem onlyAdds_checkTermination (nodes : List Node) : OnlyAdds (checkTermination nodes) :=
  fun _ quiet => (require_quiet.mp quiet).1

/-- The guarantee check only adds errors. -/
theorem onlyAdds_validateGuarantees (behavior : Behavior) :
    OnlyAdds fun s => s.validateGuarantees behavior := by
  intro s quiet
  simp only [validateGuarantees, require_quiet] at quiet
  exact quiet.1.1.1.1

end Analyzer

namespace Behavior

open Analyzer

variable {behavior : Behavior} {sha256 : List UInt8 → List UInt8} {dependencies : Contracts}
  {patterns : List String} {nodes : List Node}

/-- No phase reports an error. -/
def Accepted (sha256 : List UInt8 → List UInt8) (behavior : Behavior) (dependencies : Contracts)
    (patterns : List String) : Prop :=
  (behavior.analysis sha256 dependencies patterns).errors = []

/-- A behavior is accepted exactly when `analyze` returns no error. -/
theorem accepted_iff_analyze : Accepted sha256 behavior dependencies patterns ↔
    behavior.analyze sha256 dependencies patterns = .ok () := by
  unfold Accepted analyze
  dsimp only
  split
  next quiet => simpa using quiet
  next loud => simpa using loud

/-- Without a declared hash nothing is digested, so acceptance can be evaluated. -/
theorem accepted_of_noHash (noHash : behavior.hash.isEmpty = true)
    (quiet : (behavior.analysis (fun _ => []) dependencies patterns).errors.isEmpty = true) :
    Accepted sha256 behavior dependencies patterns := by
  have same : validateContract sha256 behavior = validateContract (fun _ => []) behavior := by
    funext s
    simp only [validateContract, noHash, if_true]
  rw [List.isEmpty_iff] at quiet
  unfold analysis at quiet
  unfold Accepted analysis
  rwa [same]

/-- What the analyzer has when it starts to validate statements: the parameters
and the labels. -/
def labelled (sha256 : List UInt8 → List UInt8) (behavior : Behavior) (dependencies : Contracts)
    (patterns : List String) : Analyzer :=
  let s := validateContract sha256 behavior { ctx := .new behavior dependencies patterns }
  (s.onBody collectLabelsFromNodes behavior.implBody).onBody collectLabelsFromNodes
    behavior.compBody

/-- In an accepted behavior the linear pass reports nothing. -/
theorem Accepted.bodies (accepted : Accepted sha256 behavior dependencies patterns) :
    (((labelled sha256 behavior dependencies patterns).onBody validateBody
      behavior.implBody).onBody validateBody behavior.compBody).errors = [] := by
  unfold Accepted analysis at accepted
  apply OnlyAdds.onBody onlyAdds_checkTermination behavior.implBody
  apply OnlyAdds.onBody onlyAdds_checkTermination behavior.compBody
  apply onlyAdds_checkRole behavior
  apply OnlyAdds.onBody onlyAdds_checkOutputsConsumed behavior.compBody
  exact onlyAdds_validateGuarantees behavior _ accepted

/-- The bodies that are analyzed, each after the text that was validated before
it. -/
inductive HasBody (behavior : Behavior) : List Node → List Node → Prop
  | implementation {nodes : List Node} (body : behavior.implBody = some nodes) :
      HasBody behavior [] nodes
  | composition {nodes : List Node} (body : behavior.compBody = some nodes) :
      HasBody behavior (flattenScopes (behavior.implBody.getD [])) nodes

/-- Every statement of an accepted behavior is valid under what the text before it
records. -/
theorem Accepted.allValid (accepted : Accepted sha256 behavior dependencies patterns)
    {earlier : List Node} (body : behavior.HasBody earlier nodes) :
    AllValid (earlier.foldl AnalysisContext.record
      (labelled sha256 behavior dependencies patterns).ctx) (flattenScopes nodes) := by
  have quiet := accepted.bodies
  have linear : ∀ s, ValidatesAll (flattenScopes (behavior.implBody.getD [])) s
      (s.onBody validateBody behavior.implBody) := by
    intro s
    cases behavior.implBody with
    | none => exact ⟨.refl s.ctx, fun quiet => ⟨quiet, trivial⟩⟩
    | some nodes => exact validatesAll_validateBody nodes s
  cases body with
  | implementation body =>
      have first := linear (labelled sha256 behavior dependencies patterns)
      have quietFirst : ((labelled sha256 behavior dependencies patterns).onBody validateBody
          behavior.implBody).errors = [] := by
        cases comp : behavior.compBody with
        | none => simpa [comp, onBody] using quiet
        | some rest =>
            rw [comp] at quiet
            exact ((validatesAll_validateBody rest _).quiet quiet).1
      have valid := (first.quiet quietFirst).2
      rwa [body] at valid
  | composition body =>
      rw [body] at quiet
      have valid := ((validatesAll_validateBody nodes _).quiet quiet).2
      exact valid.congr (linear _).agree.symm

/-- Checking the contract leaves the context as it is. -/
theorem ctx_validateContract (sha256 : List UInt8 → List UInt8) (behavior : Behavior)
    (s : Analyzer) : (validateContract sha256 behavior s).ctx = s.ctx := by
  have param : ∀ (s : Analyzer) (p : Parameter), (s.validateParamSize p).ctx = s.ctx := by
    intro s p
    unfold validateParamSize
    split
    · exact require_ctx
    · exact require_ctx
    · split <;> rfl
    · rfl
  have params : ∀ (ps : List Parameter) (s : Analyzer),
      (ps.foldl validateParamSize s).ctx = s.ctx := by
    intro ps
    induction ps with
    | nil => exact fun s => rfl
    | cons p rest ih => exact fun s => (ih _).trans (param s p)
  unfold validateContract
  dsimp only
  split
  · rw [params, params]
  · rw [require_ctx, params, params]

mutual

/-- Collecting labels declares no variable. -/
theorem vars_collectNodeLabels (node : Node) (s : Analyzer) :
    (collectNodeLabels node s).ctx.vars = s.ctx.vars := by
  cases node with
  | label line name =>
      simp only [collectNodeLabels, collectLabel, AnalysisContext.defineLabel]
      cases s.ctx.labels.lookup name <;> rfl
  | scope line nodes => exact vars_collectLabelsFromNodes nodes s
  | _ => rfl

/-- Collecting the labels of a body declares no variable. -/
theorem vars_collectLabelsFromNodes (nodes : List Node) (s : Analyzer) :
    (collectLabelsFromNodes nodes s).ctx.vars = s.ctx.vars := by
  cases nodes with
  | nil => rfl
  | cons node rest =>
      exact (vars_collectLabelsFromNodes rest _).trans (vars_collectNodeLabels node s)

end

/-- Collecting labels leaves the parameters as the only variables. -/
theorem vars_labelled : (labelled sha256 behavior dependencies patterns).ctx.vars =
    (AnalysisContext.new behavior dependencies patterns).vars := by
  have onBody_vars : ∀ (body : Option (List Node)) (s : Analyzer),
      (s.onBody collectLabelsFromNodes body).ctx.vars = s.ctx.vars := by
    intro body s
    cases body with
    | none => rfl
    | some nodes => exact vars_collectLabelsFromNodes nodes s
  unfold labelled
  dsimp only
  rw [onBody_vars, onBody_vars, ctx_validateContract]

end Behavior

end Sigil
