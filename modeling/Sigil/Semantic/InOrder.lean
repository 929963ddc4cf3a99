import Sigil.Semantic.Accepted

/-!
# Statements in the order of the text

The linear pass meets the statements of a body in the order of the text, those of a
SCOPE in place. `track` is what it knows after each: the names, and which handles a
spawned pattern still borrows. An accepted body passes every check on the way, FREE's
check of borrows included.
-/

namespace Sigil

mutual

/-- The statements of a body in textual order, SCOPE left out. -/
def inlineScopes : List Node → List Node
  | [] => []
  | node :: rest => inlineScope node ++ inlineScopes rest

/-- What one statement contributes to `inlineScopes`. -/
def inlineScope : Node → List Node
  | .scope _ inner => inlineScopes inner
  | node => [node]

end

mutual

/-- The handles of the WAITs that validation reaches in an expression. -/
def Expr.waits : Expr → List String
  | .wait handle => [handle]
  | .intLit _ | .floatLit _ | .stringLit _ | .var _ | .channelReceive _ | .channel _ _ => []
  | .field a _ | .alloc a _ _ | .ineg a _ | .fneg a _ | .not a _ | .atomicLoad a _ | .ftoi a _ _
  | .itof a _ _ | .load a _ none => a.waits
  | .load a _ (some b) | .intArith _ a b _ | .floatArith _ a b _ | .intCmp _ a b _
  | .floatCmp _ a b _ | .bitwise _ a b _ | .atomicStore a b _ | .atomicRmw _ a b _ =>
      a.waits ++ b.waits
  | .cas a b c _ => a.waits ++ b.waits ++ c.waits
  | .call _ args | .spawn _ args => listWaits args

def listWaits : List Expr → List String
  | [] => []
  | e :: rest => e.waits ++ listWaits rest

end

namespace AnalysisContext

variable {c d e : AnalysisContext}

/-- Two contexts with the same names and the same borrows in them. -/
structure Tracks (c d : AnalysisContext) : Prop where
  agree : c.Agree d
  borrows : c.spawnBorrows = d.spawnBorrows

namespace Tracks

/-- Every context tracks itself. -/
theorem refl (c : AnalysisContext) : Tracks c c := ⟨.refl c, rfl⟩

/-- Tracking is transitive. -/
theorem trans (first : Tracks c d) (second : Tracks d e) : Tracks c e :=
  ⟨first.agree.trans second.agree, first.borrows.trans second.borrows⟩

/-- Tracking is symmetric. -/
theorem symm (tracks : Tracks c d) : Tracks d c := ⟨tracks.agree.symm, tracks.borrows.symm⟩

/-- Contexts that track each other find the same active borrow. -/
theorem getActiveBorrow (tracks : Tracks c d) (name : String) :
    c.getActiveBorrow name = d.getActiveBorrow name := by
  rw [AnalysisContext.getActiveBorrow, AnalysisContext.getActiveBorrow, tracks.borrows]

end Tracks

/-- End the borrows held through a handle that a WAIT names. -/
def await (ctx : AnalysisContext) (handle : String) : AnalysisContext :=
  if ctx.varExists handle then ctx.releaseSpawnBorrows handle else ctx

/-- The handles of the WAITs validation reaches in a statement. The value of a
CHANNEL_SEND to an unknown channel is not validated. -/
def reachedWaits (ctx : AnalysisContext) : Node → List String
  | .channelSend _ channel value => if ctx.varExists channel then value.waits else []
  | node => listWaits node.validatedOperands

/-- What the linear pass knows after a statement. -/
def track (ctx : AnalysisContext) (node : Node) : AnalysisContext :=
  let known := ((ctx.reachedWaits node).foldl await ctx).record node
  match node with
  | .assignment line target e => Analyzer.spawnBorrows line target e known
  | _ => known

/-- A wait on the same handle ends the same borrows. -/
theorem Tracks.await (tracks : Tracks c d) (handle : String) :
    Tracks (c.await handle) (d.await handle) := by
  unfold AnalysisContext.await
  rw [tracks.agree.varExists]
  split
  · refine ⟨⟨tracks.agree.vars, tracks.agree.labels, tracks.agree.inputs, tracks.agree.outputs,
      tracks.agree.dependencyContracts, tracks.agree.patternNames⟩, ?_⟩
    simp only [releaseSpawnBorrows, tracks.borrows]
  · exact tracks

/-- Waits on the same handles end the same borrows. -/
theorem Tracks.awaits (tracks : Tracks c d) (handles : List String) :
    Tracks (handles.foldl AnalysisContext.await c) (handles.foldl AnalysisContext.await d) := by
  induction handles generalizing c d with
  | nil => exact tracks
  | cons handle rest ih => exact ih (tracks.await handle)

/-- Awaiting binds nothing. -/
theorem agree_awaits (handles : List String) (c : AnalysisContext) :
    Agree c (handles.foldl AnalysisContext.await c) := by
  induction handles generalizing c with
  | nil => exact .refl c
  | cons handle rest ih =>
      refine Agree.trans ?_ (ih _)
      unfold AnalysisContext.await
      split
      · exact ⟨rfl, rfl, rfl, rfl, rfl, rfl⟩
      · exact .refl c

/-- Defining the same variable keeps contexts tracking each other. -/
theorem Tracks.defineVar (tracks : Tracks c d) (name : String) (info : VarInfo) :
    Tracks (c.defineVar name info) (d.defineVar name info) :=
  ⟨tracks.agree.defineVar name info, tracks.borrows⟩

/-- The same SPAWN starts the same borrows. -/
theorem Tracks.spawnBorrows (tracks : Tracks c d) (line : Nat) (target : String) (e : Expr) :
    Tracks (Analyzer.spawnBorrows line target e c) (Analyzer.spawnBorrows line target e d) := by
  cases e with
  | spawn pattern args =>
      simp only [Analyzer.spawnBorrows]
      induction args generalizing c d with
      | nil => exact tracks
      | cons arg rest ih =>
          apply ih
          cases arg with
          | var name =>
              refine ⟨⟨tracks.agree.vars, tracks.agree.labels, tracks.agree.inputs,
                tracks.agree.outputs, tracks.agree.dependencyContracts,
                tracks.agree.patternNames⟩, ?_⟩
              simp only [addSpawnBorrow, tracks.borrows]
          | _ => exact tracks
  | _ => exact tracks

/-- Recording the same statement keeps contexts tracking each other. -/
theorem Tracks.record (tracks : Tracks c d) (node : Node) : Tracks (c.record node) (d.record node) := by
  refine ⟨tracks.agree.record node, ?_⟩
  cases node with
  | call line target behavior args outputs => cases target <;> exact tracks.borrows
  | _ => exact tracks.borrows

/-- Tracking the same statement keeps contexts tracking each other. -/
theorem Tracks.track (tracks : Tracks c d) (node : Node) : Tracks (c.track node) (d.track node) := by
  have reached : c.reachedWaits node = d.reachedWaits node := by
    cases node <;> simp only [reachedWaits, tracks.agree.varExists]
  have known := (tracks.awaits (c.reachedWaits node)).record node
  rw [reached] at known
  unfold AnalysisContext.track
  rw [reached]
  cases node with
  | assignment line target e => exact known.spawnBorrows line target e
  | _ => exact known

/-- Tracking the same text keeps contexts tracking each other. -/
theorem Tracks.foldl (tracks : Tracks c d) (text : List Node) :
    Tracks (text.foldl AnalysisContext.track c) (text.foldl AnalysisContext.track d) := by
  induction text generalizing c d with
  | nil => exact tracks
  | cons node rest ih => exact ih (tracks.track node)

/-- Tracking binds what recording binds. -/
theorem agree_track (ctx : AnalysisContext) (node : Node) : Agree (ctx.record node) (ctx.track node) := by
  have known := (agree_awaits (ctx.reachedWaits node) ctx).record node
  unfold track
  cases node with
  | assignment line target e => exact known.trans (agree_spawnBorrows line target e _)
  | _ => exact known

end AnalysisContext

namespace Node

/-- The check of a FREE: of a handle that is known, not a parameter's, and that no
spawned pattern borrows. -/
def FreeChecks (ctx : AnalysisContext) : Node → Prop
  | free _ name => ∃ info, ctx.getVar name = some info ∧ info.state ≠ .borrowed ∧
      info.state ≠ .notAHandle ∧ (info.state = .owned → ctx.getActiveBorrow name = none)
  | _ => True

/-- The checks of a FREE give the same answer in contexts that track each other. -/
theorem freeChecks_congr {c d : AnalysisContext} {node : Node} (tracks : c.Tracks d) :
    node.FreeChecks c ↔ node.FreeChecks d := by
  cases node <;> simp only [FreeChecks, tracks.agree.getVar, tracks.getActiveBorrow]

end Node

/-- Every statement of a text passes its checks under what the text before it tracks. -/
def AllChecked : AnalysisContext → List Node → Prop
  | _, [] => True
  | ctx, node :: rest => node.Valid ctx ∧ node.FreeChecks ctx ∧ AllChecked (ctx.track node) rest

section AllChecked

variable {c d : AnalysisContext} {nodes : List Node}

/-- A body checked in a context is checked in every one that tracks it. -/
theorem AllChecked.congr (tracks : c.Tracks d) (checked : AllChecked c nodes) :
    AllChecked d nodes := by
  induction nodes generalizing c d with
  | nil => trivial
  | cons node rest ih =>
      exact ⟨checked.1.congr tracks.agree, (Node.freeChecks_congr tracks).mp checked.2.1,
        ih (tracks.track node) checked.2.2⟩

/-- The back of a body is checked in the context that tracking the front has left. -/
theorem allChecked_append {front back : List Node} :
    AllChecked c (front ++ back) ↔
      AllChecked c front ∧ AllChecked (front.foldl AnalysisContext.track c) back := by
  induction front generalizing c with
  | nil => simp [AllChecked]
  | cons node rest ih => simp [AllChecked, ih, and_assoc]

/-- The statement at an index passes its checks under what the text before it
tracks. -/
theorem AllChecked.at {i : Nat} {node : Node} (checked : AllChecked c nodes)
    (at_ : nodes[i]? = some node) :
    node.Valid ((nodes.take i).foldl AnalysisContext.track c) ∧
      node.FreeChecks ((nodes.take i).foldl AnalysisContext.track c) := by
  obtain ⟨inRange, rfl⟩ := List.getElem?_eq_some_iff.mp at_
  have split : nodes = nodes.take i ++ nodes[i] :: nodes.drop (i + 1) := by simp
  rw [split, allChecked_append] at checked
  exact ⟨checked.2.1, checked.2.2.1⟩

end AllChecked

namespace Analyzer

open AnalysisContext

variable {s : Analyzer}

/-- Validating operands one after the other awaits what each awaits. -/
theorem tracks_validateExprs_of {es : List Expr}
    (each : ∀ e ∈ es, ∀ s : Analyzer, (e.waits.foldl await s.ctx).Tracks (validateExpr e s).ctx)
    (s : Analyzer) : ((listWaits es).foldl await s.ctx).Tracks (validateExprs es s).ctx := by
  induction es generalizing s with
  | nil => exact .refl s.ctx
  | cons e rest ih =>
      rw [listWaits, List.foldl_append]
      have here := (each e List.mem_cons_self s).awaits (listWaits rest)
      exact here.trans (ih (fun e member => each e (List.mem_cons_of_mem _ member)) _)

/-- Validating an expression awaits the handles of its WAITs. -/
theorem tracks_validateExpr (e : Expr) :
    ∀ s : Analyzer, (e.waits.foldl await s.ctx).Tracks (validateExpr e s).ctx := by
  induction e using Expr.inductionOnChildren with
  | step e ih =>
    intro s
    cases e with
    | load source size offset =>
        have inSource := ih source (by cases offset <;> simp [Expr.children]) s
        cases offset with
        | none =>
            simp only [Expr.waits, validateExpr, validateOffset]
            split <;> simpa using inSource
        | some off =>
            have inOffset := ih off (by simp [Expr.children])
              ((validateExpr source s).validateIntSize size s.ctx.currentLine "LOAD")
            rw [validateIntSize_ctx] at inOffset
            simp only [Expr.waits, List.foldl_append, validateExpr, validateOffset]
            split <;> simpa using (inSource.awaits off.waits).trans inOffset
    | call behavior args =>
        have inArgs : ((listWaits args).foldl await s.ctx).Tracks (validateExprs args s).ctx :=
          tracks_validateExprs_of (fun e member => ih e member) s
        simpa [Expr.waits, validateExpr] using inArgs
    | spawn pattern args =>
        have inArgs : ((listWaits args).foldl await s.ctx).Tracks (validateExprs args s).ctx :=
          tracks_validateExprs_of (fun e member => ih e member) s
        simp only [Expr.waits, validateExpr]
        split <;> simpa using inArgs
    | wait handle =>
        simp only [Expr.waits, List.foldl_cons, List.foldl_nil, AnalysisContext.await, validateExpr]
        split <;> exact .refl _
    | alloc size typ shared =>
        apply (ih size (by simp [Expr.children]) s).trans
        simp only [validateExpr, modify]
        split <;> exact ⟨⟨rfl, rfl, rfl, rfl, rfl, rfl⟩, rfl⟩
    | intArith op a b size | intCmp op a b size | bitwise op a b size | floatArith op a b size
    | floatCmp op a b size | atomicRmw op a b size | atomicStore a b size =>
        have inA := (ih a (by simp [Expr.children]) s).awaits b.waits
        simpa [Expr.waits, validateExpr] using inA.trans (ih b (by simp [Expr.children]) _)
    | cas a b c size =>
        have inA := (ih a (by simp [Expr.children]) s).awaits b.waits
        have inB := (inA.trans (ih b (by simp [Expr.children]) _)).awaits c.waits
        simpa [Expr.waits, validateExpr] using inB.trans (ih c (by simp [Expr.children]) _)
    | field a _ | ineg a _ | not a _ | fneg a _ | ftoi a _ _ | itof a _ _ | atomicLoad a _ =>
        simpa [Expr.waits, validateExpr] using ih a (by simp [Expr.children]) s
    | var _ | intLit _ | floatLit _ | stringLit _ =>
        simpa [Expr.waits, validateExpr] using AnalysisContext.Tracks.refl s.ctx
    | channel _ _ | channelReceive _ =>
        simp only [Expr.waits, List.foldl_nil, validateExpr, require_ctx]
        exact ⟨⟨rfl, rfl, rfl, rfl, rfl, rfl⟩, rfl⟩

/-- Checking operands ends the borrows of the waits in them and does nothing else. -/
theorem tracks_validateExprs (es : List Expr) (s : Analyzer) :
    ((listWaits es).foldl await s.ctx).Tracks (validateExprs es s).ctx :=
  tracks_validateExprs_of (fun e _ => tracks_validateExpr e) s

/-- Checking an offset ends the borrows of the waits in it and does nothing else. -/
theorem tracks_validateOffset (offset : Option Expr) (s : Analyzer) :
    ((listWaits offset.toList).foldl await s.ctx).Tracks (validateOffset offset s).ctx := by
  cases offset with
  | none => exact .refl s.ctx
  | some off => simpa [listWaits, validateOffset] using tracks_validateExpr off s

/-- Checking the target of a STORE touches no borrow. -/
theorem tracks_checkStoreTarget (line : Nat) (target : String) (s : Analyzer) :
    s.ctx.Tracks (s.checkStoreTarget line target).ctx := by
  refine ⟨agree_checkStoreTarget line target s, ?_⟩
  unfold checkStoreTarget
  dsimp only
  split
  · rw [checkNotShared_ctx, modify_ctx]
    split <;> rfl
  · rw [error_ctx, modify_ctx]
    split <;> rfl

/-- Marking an OUTPUT written touches no borrow. -/
theorem tracks_markOutputWritten (ctx : AnalysisContext) (name : String) :
    ctx.Tracks (ctx.markOutputWritten name) := by
  refine ⟨agree_markOutputWritten ctx name, ?_⟩
  unfold markOutputWritten
  split <;> rfl

/-- Validating a statement, SCOPE aside, leads to what it tracks. -/
theorem tracks_validateNode {node : Node} (flat : node.isScope = false) (s : Analyzer) :
    (s.ctx.track node).Tracks (validateNode node s).ctx := by
  cases node with
  | scope line nodes => simp [Node.isScope] at flat
  | assignment line target e =>
      have inExpr := tracks_validateExpr e s
      simp only [track, reachedWaits, Node.validatedOperands, listWaits, List.append_nil, record]
      apply Tracks.spawnBorrows
      rw [inExpr.agree.inferExprInfo]
      exact inExpr.defineVar _ _
  | store line target value size offset =>
      have inTarget := tracks_checkStoreTarget line target s
      have inValue := (inTarget.awaits value.waits).trans (tracks_validateExpr value _)
      have inOffset := (inValue.awaits (listWaits offset.toList)).trans
        (tracks_validateOffset offset _)
      have operands : listWaits (Node.store line target value size offset).validatedOperands =
          value.waits ++ listWaits offset.toList := by
        cases offset <;> simp [Node.validatedOperands, listWaits]
      apply Tracks.trans _ (tracks_markOutputWritten _ target)
      rw [checkOutputSize_ctx, checkBounds_ctx, validateIntSize_ctx]
      simpa [track, reachedWaits, record, operands] using inOffset
  | set line target value =>
      have inValue := tracks_validateExpr value
        (s.require (s.ctx.varExists target) (.undefinedVariable target) line "SET target")
      apply Tracks.trans _ (tracks_markOutputWritten _ target)
      simpa [track, reachedWaits, record, Node.validatedOperands, listWaits] using inValue
  | branch line condition trueLabel falseLabel =>
      simpa [track, reachedWaits, record, Node.validatedOperands, listWaits, validateNode]
        using tracks_validateExpr condition s
  | discard line e =>
      simpa [track, reachedWaits, record, Node.validatedOperands, listWaits, validateNode]
        using tracks_validateExpr e s
  | call line target behavior args outputs =>
      have inArgs := tracks_validateExprs args s
      have checked : ((listWaits args).foldl await s.ctx).Tracks
          ((validateExprs args s).validateCallee behavior args line).ctx := by
        simpa using inArgs
      simp only [track, reachedWaits, Node.validatedOperands, validateNode, validateCall]
      cases target with
      | none => exact checked
      | some name =>
          simp only [record, modify_ctx, checked.agree.dependencyContracts]
          exact checked.defineVar _ _
  | channelSend line channel value =>
      have noted : s.ctx.Tracks (s.modify fun ctx => { ctx with hasChannelOps := true }).ctx :=
        ⟨⟨rfl, rfl, rfl, rfl, rfl, rfl⟩, rfl⟩
      have inValue := (noted.awaits value.waits).trans (tracks_validateExpr value _)
      simp only [track, reachedWaits, record, validateNode, validateChannelSend,
        ← noted.agree.varExists]
      split
      · simpa using inValue
      · simpa using noted
  | channelClose line channel =>
      simp only [track, reachedWaits, record, Node.validatedOperands, listWaits, List.foldl_nil,
        validateNode, require_ctx]
      exact ⟨⟨rfl, rfl, rfl, rfl, rfl, rfl⟩, rfl⟩
  | free line name =>
      have same : (s.validateFree line name).ctx = s.ctx := by
        unfold validateFree
        repeat' split
        all_goals rfl
      simpa [track, reachedWaits, record, Node.validatedOperands, listWaits, validateNode, same]
        using AnalysisContext.Tracks.refl s.ctx
  | jump line target =>
      simpa [track, reachedWaits, record, Node.validatedOperands, listWaits, validateNode]
        using AnalysisContext.Tracks.refl s.ctx
  | label _ _ | spawn _ _ _ _ | wait _ _ _ | waitAll _ _ _ | waitAny _ _ _ _ =>
      exact .refl s.ctx

/-- FREE is quiet only where it passes its check. -/
theorem freeChecks_of_quiet {node : Node} (quiet : (validateNode node s).errors = []) :
    node.FreeChecks s.ctx := by
  cases node with
  | free line name =>
      simp only [validateNode, validateFree] at quiet
      split at quiet
      · exact absurd quiet error_errors_ne
      next info known =>
        split at quiet
        next owned =>
          refine ⟨info, known, by simp [owned], by simp [owned], fun _ => ?_⟩
          split at quiet
          · exact absurd quiet error_errors_ne
          next unborrowed => exact unborrowed
        · exact absurd quiet error_errors_ne
        next freed => exact ⟨info, known, by simp [freed], by simp [freed], by simp [freed]⟩
        · exact absurd quiet error_errors_ne
  | _ => trivial

/-- Validating statements leads to what the text tracks, and reports nothing only if
every statement passes its checks. -/
structure TracksAll (text : List Node) (s t : Analyzer) : Prop where
  tracks : (text.foldl AnalysisContext.track s.ctx).Tracks t.ctx
  quiet : t.errors = [] → s.errors = [] ∧ AllChecked s.ctx text

/-- Tracked bodies follow each other. -/
theorem TracksAll.append {front back : List Node} {t u : Analyzer}
    (first : TracksAll front s t) (second : TracksAll back t u) :
    TracksAll (front ++ back) s u := by
  constructor
  · rw [List.foldl_append]
    exact (first.tracks.foldl back).trans second.tracks
  · intro quiet
    obtain ⟨before, checkedBack⟩ := second.quiet quiet
    obtain ⟨start, checkedFront⟩ := first.quiet before
    exact ⟨start, allChecked_append.mpr ⟨checkedFront, checkedBack.congr first.tracks.symm⟩⟩

/-- Counting scopes and lines is no matter of names or borrows. -/
theorem TracksAll.congr {text : List Node} {s' t t' : Analyzer} (all : TracksAll text s' t)
    (before : s.ctx.Tracks s'.ctx) (same : s'.errors = s.errors) (after : t.ctx.Tracks t'.ctx)
    (same' : t'.errors = t.errors) : TracksAll text s t' := by
  constructor
  · exact ((before.foldl text).trans all.tracks).trans after
  · intro quiet
    obtain ⟨start, checked⟩ := all.quiet (same'.symm.trans quiet)
    exact ⟨same.symm.trans start, checked.congr before.symm⟩

/-- Validating a statement that is not a SCOPE tracks it. -/
theorem tracksAll_of_flat {node : Node} (flat : node.isScope = false) (s : Analyzer) :
    TracksAll [node] s (validateNode node s) := by
  refine ⟨tracks_validateNode flat s, fun quiet => ?_⟩
  obtain ⟨before, valid⟩ := (validates_validateNode flat s).quiet quiet
  exact ⟨before, valid, freeChecks_of_quiet quiet, trivial⟩

mutual

/-- A SCOPE is validated as its body. -/
theorem tracksAll_validateNode (node : Node) (s : Analyzer) :
    TracksAll (inlineScope node) s (validateNode node s) := by
  cases node with
  | scope line nodes =>
      have inner := tracksAll_validateNodes nodes
        (s.modify fun ctx => { ctx with scopeDepth := ctx.scopeDepth + 1 })
      exact inner.congr ⟨⟨rfl, rfl, rfl, rfl, rfl, rfl⟩, rfl⟩ rfl
        ⟨⟨rfl, rfl, rfl, rfl, rfl, rfl⟩, rfl⟩ rfl
  | _ => exact tracksAll_of_flat rfl s

/-- Validating a body tracks its text with the SCOPEs inlined. -/
theorem tracksAll_validateNodes (nodes : List Node) (s : Analyzer) :
    TracksAll (inlineScopes nodes) s (validateNodes nodes s) := by
  cases nodes with
  | nil => exact ⟨.refl s.ctx, fun quiet => ⟨quiet, trivial⟩⟩
  | cons node rest =>
      have here := tracksAll_validateNode node
        (s.modify fun ctx => { ctx with currentLine := node.line })
      have later := tracksAll_validateNodes rest (validateNode node
        (s.modify fun ctx => { ctx with currentLine := node.line }))
      exact (here.append later).congr ⟨⟨rfl, rfl, rfl, rfl, rfl, rfl⟩, rfl⟩ rfl (.refl _) rfl

end

/-- The path analysis leaves the context alone and only adds errors. -/
theorem tracksAll_validateBody (nodes : List Node) (s : Analyzer) :
    TracksAll (inlineScopes nodes) s (validateBody nodes s) := by
  have linear := tracksAll_validateNodes nodes s
  exact ⟨linear.tracks, fun quiet => linear.quiet (List.append_eq_nil_iff.mp quiet).1⟩

end Analyzer

namespace Behavior

open Analyzer

variable {behavior : Behavior} {sha256 : List UInt8 → List UInt8} {dependencies : Contracts}
  {patterns : List String} {nodes earlier : List Node}

/-- The bodies that are analyzed, each after the text that was validated before it,
in textual order. -/
inductive HasText (behavior : Behavior) : List Node → List Node → Prop
  | implementation {nodes : List Node} (body : behavior.implBody = some nodes) :
      HasText behavior [] (inlineScopes nodes)
  | composition {nodes : List Node} (body : behavior.compBody = some nodes) :
      HasText behavior (inlineScopes (behavior.implBody.getD [])) (inlineScopes nodes)

/-- Every statement of an accepted behavior passes its checks under what the text
before it tracks. -/
theorem Accepted.allChecked (accepted : Accepted sha256 behavior dependencies patterns)
    (text : behavior.HasText earlier nodes) :
    AllChecked (earlier.foldl AnalysisContext.track
      (labelled sha256 behavior dependencies patterns).ctx) nodes := by
  have quiet := accepted.bodies
  have linear : ∀ s, TracksAll (inlineScopes (behavior.implBody.getD [])) s
      (s.onBody validateBody behavior.implBody) := by
    intro s
    cases behavior.implBody with
    | none => exact ⟨.refl s.ctx, fun quiet => ⟨quiet, trivial⟩⟩
    | some nodes => exact tracksAll_validateBody nodes s
  cases text with
  | implementation body =>
      have first := linear (labelled sha256 behavior dependencies patterns)
      have quietFirst : ((labelled sha256 behavior dependencies patterns).onBody validateBody
          behavior.implBody).errors = [] := by
        cases comp : behavior.compBody with
        | none => simpa [comp, onBody] using quiet
        | some rest =>
            rw [comp] at quiet
            exact ((tracksAll_validateBody rest _).quiet quiet).1
      have checked := (first.quiet quietFirst).2
      rwa [body] at checked
  | composition body =>
      rw [body] at quiet
      have checked := ((tracksAll_validateBody _ _).quiet quiet).2
      exact checked.congr (linear _).tracks.symm

end Behavior

end Sigil
