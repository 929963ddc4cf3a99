import Sigil.Semantic.InOrder

/-!
# Noted effects

Two flags of the analysis context decide whether a behavior may promise to be `pure`: one
for CHANNEL operations and one for STOREs to names that are no OUTPUT. The linear pass sets
them where it meets such an operation and never takes them back.
-/

namespace Sigil

mutual

/-- A CHANNEL operation where validation reaches it. -/
def Expr.opsChannel : Expr → Bool
  | .channel _ _ | .channelReceive _ => true
  | .intLit _ | .floatLit _ | .stringLit _ | .var _ | .wait _ => false
  | .field a _ | .alloc a _ _ | .ineg a _ | .fneg a _ | .not a _ | .atomicLoad a _ | .ftoi a _ _
  | .itof a _ _ | .load a _ none => a.opsChannel
  | .load a _ (some b) | .intArith _ a b _ | .floatArith _ a b _ | .intCmp _ a b _
  | .floatCmp _ a b _ | .bitwise _ a b _ | .atomicStore a b _ | .atomicRmw _ a b _ =>
      a.opsChannel || b.opsChannel
  | .cas a b c _ => a.opsChannel || b.opsChannel || c.opsChannel
  | .call _ args | .spawn _ args => anyOpsChannel args

def anyOpsChannel : List Expr → Bool
  | [] => false
  | e :: rest => e.opsChannel || anyOpsChannel rest

end

mutual

/-- A CHANNEL operation in a statement, SCOPE bodies included. -/
def Node.opsChannel : Node → Bool
  | .channelSend _ _ _ | .channelClose _ _ => true
  | .scope _ nodes => bodyOpsChannel nodes
  | node => anyOpsChannel node.validatedOperands

def bodyOpsChannel : List Node → Bool
  | [] => false
  | node :: rest => node.opsChannel || bodyOpsChannel rest

end

mutual

/-- A STORE to a name that is not among the OUTPUTs. -/
def Node.storesOther (outputs : AList fun _ : String => Parameter) : Node → Bool
  | .store _ target _ _ _ => (outputs.lookup target).isNone
  | .scope _ nodes => bodyStoresOther outputs nodes
  | _ => false

def bodyStoresOther (outputs : AList fun _ : String => Parameter) : List Node → Bool
  | [] => false
  | node :: rest => node.storesOther outputs || bodyStoresOther outputs rest

end

/-- What validation adds to the flags: CHANNEL operations and other STOREs. -/
structure AnalysisContext.Notes (c d : AnalysisContext) (channel other : Bool) : Prop where
  channelOps : d.hasChannelOps = (c.hasChannelOps || channel)
  nonOutputWrites : d.hasNonOutputWrites = (c.hasNonOutputWrites || other)
  outputs : d.outputs = c.outputs
  guarantees : d.guarantees = c.guarantees

namespace AnalysisContext.Notes

variable {c d e : AnalysisContext} {channel channel' other other' : Bool}

/-- Where nothing happens nothing is noted. -/
theorem refl (c : AnalysisContext) : Notes c c false false := ⟨by simp, by simp, rfl, rfl⟩

/-- What two parts note, their sequence notes. -/
theorem trans (first : Notes c d channel other) (second : Notes d e channel' other') :
    Notes c e (channel || channel') (other || other') where
  channelOps := by rw [second.channelOps, first.channelOps, Bool.or_assoc]
  nonOutputWrites := by rw [second.nonOutputWrites, first.nonOutputWrites, Bool.or_assoc]
  outputs := second.outputs.trans first.outputs
  guarantees := second.guarantees.trans first.guarantees

/-- A step that notes nothing. -/
theorem quietly (first : Notes c d channel other) (second : Notes d e false false) :
    Notes c e channel other := by
  simpa using first.trans second

end AnalysisContext.Notes

namespace Analyzer

open AnalysisContext

/-- Validating operands notes what each of them does. -/
theorem notes_validateExprs {es : List Expr}
    (each : ∀ e ∈ es, ∀ s : Analyzer, s.ctx.Notes (validateExpr e s).ctx e.opsChannel false)
    (s : Analyzer) : s.ctx.Notes (validateExprs es s).ctx (anyOpsChannel es) false := by
  induction es generalizing s with
  | nil => exact .refl s.ctx
  | cons e rest ih =>
      have here := each e List.mem_cons_self s
      exact here.trans (ih (fun e member => each e (List.mem_cons_of_mem _ member)) _)

/-- Validating an expression notes its CHANNEL operations. -/
theorem notes_validateExpr (e : Expr) :
    ∀ s : Analyzer, s.ctx.Notes (validateExpr e s).ctx e.opsChannel false := by
  induction e using Expr.inductionOnChildren with
  | step e ih =>
    intro s
    cases e with
    | load source size offset =>
        have inSource := ih source (by cases offset <;> simp [Expr.children]) s
        cases offset with
        | none =>
            simp only [validateExpr, validateOffset]
            split <;> simpa [Expr.opsChannel] using inSource
        | some off =>
            have inOffset := ih off (by simp [Expr.children])
              ((validateExpr source s).validateIntSize size s.ctx.currentLine "LOAD")
            rw [validateIntSize_ctx] at inOffset
            simp only [validateExpr, validateOffset]
            split <;> simpa [Expr.opsChannel] using inSource.trans inOffset
    | call behavior args =>
        have inArgs : s.ctx.Notes (validateExprs args s).ctx (anyOpsChannel args) false :=
          notes_validateExprs (fun e member => ih e member) s
        simpa [validateExpr, Expr.opsChannel] using inArgs
    | spawn pattern args =>
        have inArgs : s.ctx.Notes (validateExprs args s).ctx (anyOpsChannel args) false :=
          notes_validateExprs (fun e member => ih e member) s
        simp only [validateExpr]
        split <;> simpa [Expr.opsChannel] using inArgs
    | wait handle =>
        simp only [validateExpr]
        split
        · exact ⟨by simp [AnalysisContext.releaseSpawnBorrows, Expr.opsChannel],
            by simp [AnalysisContext.releaseSpawnBorrows], rfl, rfl⟩
        · simpa [Expr.opsChannel] using AnalysisContext.Notes.refl s.ctx
    | alloc size typ shared =>
        have inSize := ih size (by simp [Expr.children]) s
        rw [Expr.opsChannel]
        refine inSize.quietly ?_
        simp only [validateExpr, modify]
        split
        · exact ⟨by simp, by simp, rfl, rfl⟩
        · exact .refl _
    | intArith op a b size | intCmp op a b size | bitwise op a b size | floatArith op a b size
    | floatCmp op a b size | atomicRmw op a b size | atomicStore a b size =>
        have inA := ih a (by simp [Expr.children]) s
        simpa [validateExpr, Expr.opsChannel] using inA.trans (ih b (by simp [Expr.children]) _)
    | cas a b c size =>
        have inA := ih a (by simp [Expr.children]) s
        have inB := inA.trans (ih b (by simp [Expr.children]) _)
        simpa [validateExpr, Expr.opsChannel, Bool.or_assoc] using
          inB.trans (ih c (by simp [Expr.children]) _)
    | field a _ | ineg a _ | not a _ | fneg a _ | ftoi a _ _ | itof a _ _ | atomicLoad a _ =>
        simpa [validateExpr, Expr.opsChannel] using ih a (by simp [Expr.children]) s
    | var _ | intLit _ | floatLit _ | stringLit _ =>
        simpa [validateExpr, Expr.opsChannel] using AnalysisContext.Notes.refl s.ctx
    | channel _ _ | channelReceive _ =>
        simp only [validateExpr, require_ctx]
        exact ⟨by simp [Expr.opsChannel], by simp, rfl, rfl⟩

/-- An offset notes the channel operations in it. -/
theorem notes_validateOffset (offset : Option Expr) (s : Analyzer) :
    s.ctx.Notes (validateOffset offset s).ctx (anyOpsChannel offset.toList) false := by
  cases offset with
  | none => exact .refl s.ctx
  | some off => simpa [validateOffset, anyOpsChannel] using notes_validateExpr off s

/-- Marking an OUTPUT written notes no effect. -/
theorem notes_markOutputWritten (ctx : AnalysisContext) (name : String) :
    ctx.Notes (ctx.markOutputWritten name) false false := by
  unfold AnalysisContext.markOutputWritten
  split
  · exact ⟨by simp, by simp, rfl, rfl⟩
  · exact .refl ctx

/-- Defining a variable notes no effect. -/
theorem notes_defineVar (ctx : AnalysisContext) (name : String) (info : VarInfo) :
    ctx.Notes (ctx.defineVar name info) false false :=
  ⟨by simp [AnalysisContext.defineVar], by simp [AnalysisContext.defineVar], rfl, rfl⟩

/-- The borrows of a SPAWN note no effect. -/
theorem notes_spawnBorrows (line : Nat) (target : String) (e : Expr) (ctx : AnalysisContext) :
    ctx.Notes (spawnBorrows line target e ctx) false false := by
  unfold spawnBorrows
  split
  next pattern args =>
    induction args generalizing ctx with
    | nil => exact .refl ctx
    | cons arg rest ih =>
        rw [List.foldl_cons]
        refine AnalysisContext.Notes.quietly ?_ (ih _)
        split
        · exact ⟨by simp [AnalysisContext.addSpawnBorrow], by simp [AnalysisContext.addSpawnBorrow],
            rfl, rfl⟩
        · exact .refl ctx
  next => exact .refl ctx

/-- A STORE to something other than an OUTPUT is noted. -/
theorem notes_checkStoreTarget (line : Nat) (target : String) (s : Analyzer) :
    s.ctx.Notes (s.checkStoreTarget line target).ctx false
      (s.ctx.outputs.lookup target).isNone := by
  have noted : s.ctx.Notes (s.modify fun ctx => if ctx.isOutput target then ctx
      else { ctx with hasNonOutputWrites := true }).ctx false
        (s.ctx.outputs.lookup target).isNone := by
    rw [modify_ctx]
    cases known : s.ctx.outputs.lookup target with
    | some output =>
        rw [if_pos (by simp [AnalysisContext.isOutput, known])]
        exact .refl s.ctx
    | none =>
        rw [if_neg (by simp [AnalysisContext.isOutput, known])]
        exact ⟨by simp, by simp, rfl, rfl⟩
  unfold checkStoreTarget
  dsimp only
  split
  · rwa [checkNotShared_ctx]
  · rwa [error_ctx]

/-- A statement other than SCOPE notes its CHANNEL operations and a STORE to another name. -/
theorem notes_validateNode {node : Node} (flat : node.isScope = false) (s : Analyzer) :
    s.ctx.Notes (validateNode node s).ctx node.opsChannel (node.storesOther s.ctx.outputs) := by
  cases node with
  | scope line nodes => simp [Node.isScope] at flat
  | assignment line target e =>
      have here := (notes_validateExpr e s).quietly (notes_defineVar _ target
        (((validateExpr e s).ctx.inferExprInfo e).toVar (channelElementType e)))
      simpa [validateNode, validateAssignment, Node.opsChannel, Node.validatedOperands,
        anyOpsChannel,
        Node.storesOther] using here.quietly (notes_spawnBorrows line target e _)
  | store line target value size offset =>
      have operands := ((notes_checkStoreTarget line target s).trans
        (notes_validateExpr value _)).trans (notes_validateOffset offset _)
      have whole := operands.quietly (notes_markOutputWritten _ target)
      have listed : (Node.store line target value size offset).opsChannel =
          (value.opsChannel || anyOpsChannel offset.toList) := by
        cases offset <;> simp [Node.opsChannel, Node.validatedOperands, anyOpsChannel]
      rw [listed]
      simpa [validateNode, validateStore, Node.storesOther] using whole
  | set line target value =>
      have here := notes_validateExpr value
        (s.require (s.ctx.varExists target) (.undefinedVariable target) line "SET target")
      have whole := here.quietly (notes_markOutputWritten _ target)
      simpa [validateNode, validateSet, Node.opsChannel, Node.validatedOperands, anyOpsChannel,
        Node.storesOther] using whole
  | call line target behavior args outputs =>
      have inArgs : s.ctx.Notes (validateExprs args s).ctx (anyOpsChannel args) false :=
        notes_validateExprs (fun e _ => notes_validateExpr e) s
      have checked : s.ctx.Notes ((validateExprs args s).validateCallee behavior args line).ctx
          (anyOpsChannel args) false := by simpa using inArgs
      cases target with
      | none => exact checked
      | some target => exact checked.quietly (notes_defineVar _ target _)
  | free line name =>
      simp only [validateNode, validateFree]
      repeat' split
      all_goals exact .refl s.ctx
  | channelSend line channel value =>
      have noted : s.ctx.Notes (s.modify fun ctx => { ctx with hasChannelOps := true }).ctx true
        false :=
        ⟨by simp, by simp, rfl, rfl⟩
      simp only [validateNode, validateChannelSend]
      split
      · rw [checkSendType_ctx]
        exact noted.trans (notes_validateExpr value _)
      · exact noted
  | branch line condition trueLabel falseLabel =>
      simpa [validateNode, Node.opsChannel, Node.validatedOperands, anyOpsChannel, Node.storesOther]
        using notes_validateExpr condition s
  | jump line target =>
      rw [validateNode, requireLabel_ctx]
      exact .refl s.ctx
  | channelClose line channel =>
      rw [validateNode, require_ctx]
      exact ⟨by simp [Node.opsChannel], by simp [Node.storesOther], rfl, rfl⟩
  | discard line e =>
      simpa [validateNode, Node.opsChannel, Node.validatedOperands, anyOpsChannel, Node.storesOther]
        using notes_validateExpr e s
  | label _ _ | spawn _ _ _ _ | wait _ _ _ | waitAll _ _ _ | waitAny _ _ _ _ => exact .refl s.ctx

mutual

/-- A SCOPE notes what its statements do. -/
theorem notes_validateNode_scoped (node : Node) (s : Analyzer) :
    s.ctx.Notes (validateNode node s).ctx node.opsChannel (node.storesOther s.ctx.outputs) := by
  cases node with
  | scope line nodes =>
      have inner := notes_validateNodes nodes
        (s.modify fun ctx => { ctx with scopeDepth := ctx.scopeDepth + 1 })
      exact ⟨inner.channelOps, inner.nonOutputWrites, inner.outputs, inner.guarantees⟩
  | _ => exact notes_validateNode rfl s

/-- Validating a body notes exactly the effects in its text. -/
theorem notes_validateNodes (nodes : List Node) (s : Analyzer) :
    s.ctx.Notes (validateNodes nodes s).ctx (bodyOpsChannel nodes)
      (bodyStoresOther s.ctx.outputs nodes) := by
  cases nodes with
  | nil => exact .refl s.ctx
  | cons node rest =>
      let s' := s.modify fun ctx => { ctx with currentLine := node.line }
      have here : s.ctx.Notes (validateNode node s').ctx node.opsChannel
          (node.storesOther s.ctx.outputs) := by
        have whole := notes_validateNode_scoped node s'
        exact ⟨whole.channelOps, whole.nonOutputWrites, whole.outputs, whole.guarantees⟩
      have later := notes_validateNodes rest (validateNode node s')
      rw [here.outputs] at later
      exact here.trans later

end

mutual

/-- Collecting labels notes no effect. -/
theorem notes_collectNodeLabels (node : Node) (s : Analyzer) :
    s.ctx.Notes (collectNodeLabels node s).ctx false false := by
  cases node with
  | label line name =>
      simp only [collectNodeLabels, collectLabel, AnalysisContext.defineLabel]
      cases s.ctx.labels.lookup name <;> exact ⟨by simp, by simp, rfl, rfl⟩
  | scope line nodes => exact notes_collectLabelsFromNodes nodes s
  | _ => exact .refl s.ctx

/-- Collecting the labels of a body notes no effect. -/
theorem notes_collectLabelsFromNodes (nodes : List Node) (s : Analyzer) :
    s.ctx.Notes (collectLabelsFromNodes nodes s).ctx false false := by
  cases nodes with
  | nil => exact .refl s.ctx
  | cons node rest =>
      exact (notes_collectNodeLabels node s).trans (notes_collectLabelsFromNodes rest _)

end

mutual

/-- The leaf check of one statement leaves the context as it is. -/
theorem checkLeafNode_ctx (node : Node) (s : Analyzer) : (checkLeafNode node s).ctx = s.ctx := by
  cases node with
  | assignment line target e => cases e <;> rfl
  | scope line nodes => exact checkLeafNoCall_ctx nodes s
  | _ => rfl

/-- `check_leaf_no_call` leaves the context as it is. -/
theorem checkLeafNoCall_ctx (nodes : List Node) (s : Analyzer) :
    (checkLeafNoCall nodes s).ctx = s.ctx := by
  cases nodes with
  | nil => rfl
  | cons node rest => exact (checkLeafNoCall_ctx rest _).trans (checkLeafNode_ctx node s)

end

end Analyzer

namespace Behavior

open Analyzer

variable {behavior : Behavior} {sha256 : List UInt8 → List UInt8} {dependencies : Contracts}
  {patterns : List String} {nodes : List Node} {name : String}

/-- The OUTPUTs of a contract are known from the start. -/
theorem lookup_outputs_new :
    (AnalysisContext.new behavior dependencies patterns).outputs.lookup name = none ↔
      name ∉ behavior.contract.outputs.map Parameter.name := by
  have inputs : ∀ (params : List Parameter) (ctx : AnalysisContext),
      (params.foldl AnalysisContext.addInput ctx).outputs = ctx.outputs := by
    intro params
    induction params with
    | nil => exact fun _ => rfl
    | cons param rest ih => exact fun ctx => ih (ctx.addInput param)
  have outputs : ∀ (params : List Parameter) (ctx : AnalysisContext),
      (params.foldl AnalysisContext.addOutput ctx).outputs.lookup name = none ↔
        name ∉ params.map Parameter.name ∧ ctx.outputs.lookup name = none := by
    intro params
    induction params with
    | nil => simp
    | cons param rest ih =>
        intro ctx
        rw [List.foldl_cons, ih, List.map_cons, List.mem_cons, not_or]
        by_cases same : name = param.name
        · simp [same, AnalysisContext.addOutput]
        · simp [same, AnalysisContext.addOutput, AList.lookup_insert_ne same]
  unfold AnalysisContext.new
  rw [outputs, inputs]
  simp

/-- The first context carries the guarantees of the contract. -/
theorem guarantees_new :
    (AnalysisContext.new behavior dependencies patterns).guarantees =
      behavior.contract.guarantees := by
  have kept : ∀ {add : AnalysisContext → Parameter → AnalysisContext},
      (∀ ctx param, (add ctx param).guarantees = ctx.guarantees) →
        ∀ (params : List Parameter) ctx, (params.foldl add ctx).guarantees = ctx.guarantees := by
    intro add one params
    induction params with
    | nil => exact fun _ => rfl
    | cons param rest ih => exact fun ctx => (ih _).trans (one ctx param)
  have inputs := @kept AnalysisContext.addInput fun _ _ => rfl
  have outputs := @kept AnalysisContext.addOutput fun _ _ => rfl
  unfold AnalysisContext.new
  dsimp only
  rw [outputs, inputs]

/-- What an accepted leaf that promises to be pure does not do. -/
theorem Accepted.pureLeaf (accepted : Accepted sha256 behavior dependencies patterns)
    (leaf : behavior.compBody = none) (body : behavior.implBody = some nodes)
    (promised : .pure ∈ behavior.contract.guarantees) :
    behavior.contract.requires.memory = [] ∧ bodyOpsChannel nodes = false ∧
      bodyStoresOther (AnalysisContext.new behavior dependencies patterns).outputs nodes =
        false := by
  have start : (AnalysisContext.new behavior dependencies patterns).Notes
      (labelled sha256 behavior dependencies patterns).ctx false false := by
    unfold labelled
    simp only [leaf, body, onBody]
    have collected := notes_collectLabelsFromNodes nodes
      (validateContract sha256 behavior { ctx := .new behavior dependencies patterns })
    rwa [ctx_validateContract] at collected
  have validated := notes_validateNodes nodes (labelled sha256 behavior dependencies patterns)
  have flags := start.trans validated
  have isPure :
    (validateNodes nodes (labelled sha256 behavior dependencies patterns)).ctx.hasGuarantee
      .pure = true := by
    rw [AnalysisContext.hasGuarantee, flags.guarantees, guarantees_new]
    exact decide_eq_true promised
  have same : (behavior.checkRole (checkTermination nodes (validateBody nodes
      (labelled sha256 behavior dependencies patterns)))).ctx =
        (validateNodes nodes (labelled sha256 behavior dependencies patterns)).ctx := by
    simp only [checkRole, leaf, body, onBody, checkLeafNoCall_ctx, checkTermination, require_ctx]
    rfl
  have quiet : (validateGuarantees behavior (behavior.checkRole (checkTermination nodes
      (validateBody nodes (labelled sha256 behavior dependencies patterns))))).errors = [] := by
    unfold Accepted analysis at accepted
    simpa only [leaf, body, onBody, labelled] using accepted
  simp only [validateGuarantees, require_quiet, require_ctx, same, isPure, Bool.true_and,
    Bool.not_eq_true', Bool.not_not] at quiet
  obtain ⟨⟨⟨⟨_, noChannel⟩, noStore⟩, noMemory⟩, _⟩ := quiet
  rw [flags.channelOps] at noChannel
  rw [flags.nonOutputWrites, start.outputs] at noStore
  simp only [Bool.or_eq_false_iff] at noChannel noStore
  exact ⟨List.isEmpty_iff.mp noMemory, noChannel.2.2, noStore.2.2⟩

end Behavior

end Sigil
