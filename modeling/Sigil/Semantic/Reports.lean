import Sigil.Cfg.Executions
import Sigil.Semantic.PathState

/-!
# What the ownership validation reports

Reports only accumulate, so whatever some statement of some enumerated path
would report is reported in the end. For a flat body the enumerated paths are
its executions that repeat no statement.
-/

namespace Sigil

/-- The key an ownership error is reported under. -/
def ErrorKind.reportKey? : ErrorKind → Option ReportKey
  | .doubleFree handle _ => some (.doubleFree handle)
  | .useAfterFree handle _ => some (.useAfterFree handle)
  | .uninitializedLoad handle => some (.uninitializedLoad handle)
  | .memoryLeak handle => some (.memoryLeak handle)
  | .outputNotWritten outputs => some (.outputNotWritten outputs)
  | _ => none

/-- Some error is reported under a key. -/
def Reports (errors : List SemanticError) (key : ReportKey) : Prop :=
  ∃ error ∈ errors, error.kind.reportKey? = some key

/-- A report stays among more errors. -/
theorem Reports.mono {left right : List SemanticError} {key : ReportKey}
    (subset : left ⊆ right) (reports : Reports left key) : Reports right key := by
  obtain ⟨error, member, isKey⟩ := reports
  exact ⟨error, subset member, isKey⟩

/-- Where there is no error nothing is reported. -/
theorem not_reports_of_isEmpty {errors : List SemanticError} {key : ReportKey}
    (quiet : errors.isEmpty = true) : ¬ Reports errors key := by
  rintro ⟨error, member, _⟩
  rw [List.isEmpty_iff.mp quiet] at member
  simp at member

namespace Expr

/-- The variable at the end of a chain of LOAD sources and field bases. -/
def root? : Expr → Option String
  | var name => some name
  | load source _ _ | field source _ => source.root?
  | _ => none

/-- The variables LOADed along a chain of LOAD sources. -/
def chainLoads : Expr → List String
  | load (var name) _ _ => [name]
  | load source _ _ => source.chainLoads
  | _ => []

end Expr

namespace OwnershipState

/-- Every key that was reported has its error. -/
def Backed (st : OwnershipState) : Prop :=
  ∀ entry ∈ st.reported, Reports st.errors entry.1

/-- No error about unwritten outputs yet. -/
def NoOutputs (st : OwnershipState) : Prop :=
  ∀ error ∈ st.errors, ∀ outputs, error.kind ≠ .outputNotWritten outputs

/-- A later state keeps the errors and allocations of an earlier one and stays
well formed; only finished paths change what they left. -/
structure Extends (left right : OwnershipState) : Prop where
  errors : left.errors ⊆ right.errors
  backed : left.Backed → right.Backed
  noOutputs : left.NoOutputs → right.NoOutputs
  allocations : ∀ name, (left.allocations.lookup name).isSome = true →
    (right.allocations.lookup name).isSome = true
  notFreed : right.notFreed = left.notFreed
  outputsNotWritten : right.outputsNotWritten = left.outputsNotWritten

variable {st mid right : OwnershipState} {key : ReportKey} {error : SemanticError}

/-- Every state extends itself. -/
theorem Extends.refl (st : OwnershipState) : Extends st st :=
  ⟨fun _ => id, id, id, fun _ => id, rfl, rfl⟩

/-- Extension is transitive. -/
theorem Extends.trans (first : Extends st mid) (second : Extends mid right) :
    Extends st right where
  errors := fun _ member => second.errors (first.errors member)
  backed := second.backed ∘ first.backed
  noOutputs := second.noOutputs ∘ first.noOutputs
  allocations := fun name known => second.allocations name (first.allocations name known)
  notFreed := second.notFreed.trans first.notFreed
  outputsNotWritten := second.outputsNotWritten.trans first.outputsNotWritten

/-- `report` keeps the errors there are. -/
theorem errors_subset_report (st : OwnershipState) (key : ReportKey) (error : SemanticError) :
    st.errors ⊆ (st.report key error).errors := by
  unfold report
  split <;> simp

/-- `report` keeps every reported key backed by an error. -/
theorem backed_report (isKey : error.kind.reportKey? = some key) (backed : st.Backed) :
    (st.report key error).Backed := by
  unfold report
  split
  · exact backed
  · intro entry member
    rcases List.mem_cons.mp member with rfl | old
    · exact ⟨error, by simp, isKey⟩
    · exact Reports.mono (by simp) (backed entry old)

/-- What is reported is in the errors, now or from an earlier time. -/
theorem reports_report (isKey : error.kind.reportKey? = some key) (backed : st.Backed) :
    Reports (st.report key error).errors key := by
  unfold report
  split
  next seen => exact backed _ seen
  next => exact ⟨error, by simp, isKey⟩

/-- Reporting an error that is not about outputs extends the state. -/
theorem extends_report (st : OwnershipState) (isKey : error.kind.reportKey? = some key)
    (noOutputs : ∀ outputs, error.kind ≠ .outputNotWritten outputs) :
    Extends st (st.report key error) where
  errors := errors_subset_report st key error
  backed := backed_report isKey
  noOutputs := by
    intro before other member
    unfold report at member
    split at member
    · exact before other member
    · rcases List.mem_append.mp member with old | new
      · exact before other old
      · rwa [List.mem_singleton.mp new]
  allocations := by
    unfold report
    split <;> simp
  notFreed := by unfold report; split <;> rfl
  outputsNotWritten := by unfold report; split <;> rfl

/-- The check of freed uses only adds reports. -/
theorem extends_checkExprUsesFreed (freed : AList fun _ : String => Nat) (line : Nat)
    (e : Expr) (st : OwnershipState) : Extends st (checkExprUsesFreed freed line e st) := by
  fun_induction checkExprUsesFreed with
  | case1 name st freedLine _ => exact extends_report st rfl (by simp)
  | case2 name st _ => exact .refl st
  | case3 st source _ _ ih => exact ih
  | case4 st base _ ih => exact ih
  | case5 => exact .refl _

/-- The freed variable at the end of the inspected chain is reported. -/
theorem reports_checkExprUsesFreed {freed : AList fun _ : String => Nat} (line : Nat)
    {e : Expr} {handle : String} (backed : st.Backed) (root : e.root? = some handle)
    (isFreed : (freed.lookup handle).isSome = true) :
    Reports (checkExprUsesFreed freed line e st).errors (.useAfterFree handle) := by
  fun_induction checkExprUsesFreed with
  | case1 name st freedLine _ =>
      obtain rfl : name = handle := by simpa [Expr.root?] using root
      exact reports_report rfl backed
  | case2 name st unfreed =>
      obtain rfl : name = handle := by simpa [Expr.root?] using root
      simp [unfreed] at isFreed
  | case3 st source _ _ ih => exact ih backed root
  | case4 st base _ ih => exact ih backed root
  | case5 e st noVar noLoad noField => cases e <;> simp_all [Expr.root?]

/-- The check of uninitialised LOADs only adds reports. -/
theorem extends_checkUninitializedLoad (stored : List String) (line : Nat) (e : Expr)
    (st : OwnershipState) : Extends st (checkUninitializedLoad stored line e st) := by
  fun_induction checkUninitializedLoad with
  | case1 source _ _ st mid ih =>
      refine Extends.trans ?_ ih
      unfold mid
      split
      · split
        · exact .refl st
        · exact extends_report st rfl (by simp)
      · exact .refl st
  | case2 => exact .refl _

/-- A LOAD on the inspected chain of a variable nothing was stored to is
reported. -/
theorem reports_checkUninitializedLoad {stored : List String} (line : Nat) {e : Expr}
    {handle : String} (backed : st.Backed) (loads : handle ∈ e.chainLoads)
    (unstored : handle ∉ stored) :
    Reports (checkUninitializedLoad stored line e st).errors (.uninitializedLoad handle) := by
  fun_induction checkUninitializedLoad with
  | case1 source _ _ st mid ih =>
      cases source with
      | var name =>
          obtain rfl : handle = name := by simpa [Expr.chainLoads] using loads
          refine Reports.mono (extends_checkUninitializedLoad _ _ _ mid).errors ?_
          simp only [mid, if_neg unstored]
          exact reports_report rfl backed
      | load inner size offset => exact ih backed loads
      | _ => simp [Expr.chainLoads] at loads
  | case2 e st noLoad => cases e <;> simp_all [Expr.chainLoads]

/-- Inspecting a statement only adds reports. -/
theorem extends_inspect (node : Node) (path : PathState) (st : OwnershipState) :
    Extends st (st.inspect node path) := by
  cases node with
  | assignment line target expr =>
      have checked := (extends_checkExprUsesFreed path.freed line expr st).trans
        (extends_checkUninitializedLoad path.stored line expr _)
      unfold inspect
      dsimp only
      split
      · refine checked.trans ⟨fun _ => id, id, id, ?_, rfl, rfl⟩
        intro name known
        by_cases same : name = target
        · subst same
          simp
        · simpa [AList.lookup_insert_ne same] using known
      · exact checked
  | free line name =>
      unfold inspect
      dsimp only
      split
      · exact extends_report st rfl (by simp)
      · exact .refl st
  | store line target value size offset =>
      unfold inspect
      dsimp only
      split
      · exact extends_report st rfl (by simp)
      · exact .refl st
  | _ => exact .refl st

section Visit

variable {ctx : AnalysisContext} {nodes : List Node} {trace : List Nat} {path : PathState}

/-- The path part of a run of visits is the run of the path alone. -/
theorem foldl_visit_fst (ctx : AnalysisContext) (nodes : List Node) (trace : List Nat)
    (s : PathState × OwnershipState) :
    (trace.foldl (visit ctx nodes) s).1 = s.1.run ctx nodes trace := by
  induction trace generalizing s with
  | nil => rfl
  | cons i trace ih =>
      rw [List.foldl_cons, ih, PathState.run, PathState.run, List.foldl_cons, visit]
      cases nodes[i]? <;> rfl

/-- Visiting the statements of a trace only adds reports. -/
theorem extends_foldl_visit (ctx : AnalysisContext) (nodes : List Node) (trace : List Nat)
    (s : PathState × OwnershipState) : Extends s.2 (trace.foldl (visit ctx nodes) s).2 := by
  induction trace generalizing s with
  | nil => exact .refl s.2
  | cons i trace ih =>
      refine Extends.trans ?_ (ih (visit ctx nodes s i))
      unfold visit
      cases nodes[i]? with
      | none => exact .refl s.2
      | some node => exact extends_inspect node s.1 s.2

/-- Visiting the blocks of a path visits the statements on it. -/
theorem foldl_visitBlock (ctx : AnalysisContext) (nodes : List Node) (cfg : CFG)
    (path : List BlockId) (s : PathState × OwnershipState) :
    path.foldl (visitBlock ctx nodes cfg) s =
      (cfg.statementsOnPath path).foldl (visit ctx nodes) s := by
  induction path generalizing s with
  | nil => rfl
  | cons b path ih =>
      rw [List.foldl_cons, ih, CFG.statementsOnPath, CFG.statementsOnPath, List.flatMap_cons,
        List.foldl_append, visitBlock]
      cases cfg.blocks[b]? <;> rfl

/-- What the inspection of one statement of a path reports, the path reports. -/
theorem reports_foldl_visit {before after : List Nat} {i : Nat} {node : Node}
    {key : ReportKey} {st : OwnershipState} (backed : st.Backed) (at_ : nodes[i]? = some node)
    (seen : ∀ mid : OwnershipState, mid.Backed →
      Reports (mid.inspect node (path.run ctx nodes before)).errors key) :
    Reports ((before ++ i :: after).foldl (visit ctx nodes) (path, st)).2.errors key := by
  rw [List.foldl_append, List.foldl_cons]
  refine Reports.mono (extends_foldl_visit ctx nodes after _).errors ?_
  have there := (extends_foldl_visit ctx nodes before (path, st)).backed backed
  have state := foldl_visit_fst ctx nodes before (path, st)
  rw [visit, at_]
  simp only [state]
  exact seen _ there

end Visit

section Paths

variable {ctx : AnalysisContext} {nodes : List Node} {cfg : CFG}

/-- The path state at the end of a path. -/
def finalState (ctx : AnalysisContext) (nodes : List Node) (cfg : CFG) (path : List BlockId) :
    PathState :=
  (PathState.init ctx).run ctx nodes (cfg.statementsOnPath path)

/-- A path is its visits, closed by what it left. -/
theorem visitPath_eq (st : OwnershipState) (path : List BlockId) :
    visitPath ctx nodes cfg st path =
      ((cfg.statementsOnPath path).foldl (visit ctx nodes) (PathState.init ctx, st)).2.endPath ctx
        (finalState ctx nodes cfg path) := by
  have state := foldl_visit_fst ctx nodes (cfg.statementsOnPath path) (PathState.init ctx, st)
  rw [visitPath, foldl_visitBlock]
  simp only [state, finalState]

/-- What visiting any number of paths preserves. -/
theorem visitPaths_preserves (paths : List (List BlockId)) (st : OwnershipState) :
    st.errors ⊆ (paths.foldl (visitPath ctx nodes cfg) st).errors ∧
      (st.Backed → (paths.foldl (visitPath ctx nodes cfg) st).Backed) ∧
      (st.NoOutputs → (paths.foldl (visitPath ctx nodes cfg) st).NoOutputs) ∧
      ∀ name, (st.allocations.lookup name).isSome = true →
        ((paths.foldl (visitPath ctx nodes cfg) st).allocations.lookup name).isSome = true := by
  induction paths generalizing st with
  | nil => exact ⟨fun _ => id, id, id, fun _ => id⟩
  | cons path paths ih =>
      have visited := extends_foldl_visit ctx nodes (cfg.statementsOnPath path)
        (PathState.init ctx, st)
      obtain ⟨errors, backed, noOutputs, allocations⟩ := ih (visitPath ctx nodes cfg st path)
      rw [visitPath_eq] at errors backed noOutputs allocations
      rw [List.foldl_cons, visitPath_eq]
      exact ⟨fun _ member => errors (visited.errors member),
        fun before => backed (visited.backed before),
        fun before => noOutputs (visited.noOutputs before),
        fun name known => allocations name (visited.allocations name known)⟩

/-- What one path reports is reported after all paths. -/
theorem reports_visitPaths {paths : List (List BlockId)} {path : List BlockId}
    (member : path ∈ paths) {st : OwnershipState} (backed : st.Backed) {key : ReportKey}
    (seen : ∀ mid : OwnershipState, mid.Backed → Reports ((cfg.statementsOnPath path).foldl
      (visit ctx nodes) (PathState.init ctx, mid)).2.errors key) :
    Reports (paths.foldl (visitPath ctx nodes cfg) st).errors key := by
  obtain ⟨front, back, rfl⟩ := List.append_of_mem member
  rw [List.foldl_append, List.foldl_cons]
  refine Reports.mono (visitPaths_preserves back _).1 ?_
  rw [visitPath_eq]
  exact seen _ ((visitPaths_preserves front _).2.1 backed)

/-- The unfreed variables collected are those some path allocated and left
unfreed. -/
theorem mem_notFreed_iff (paths : List (List BlockId)) {st : OwnershipState} {name : String} :
    name ∈ (paths.foldl (visitPath ctx nodes cfg) st).notFreed ↔
      name ∈ st.notFreed ∨ ∃ path ∈ paths,
        name ∈ (finalState ctx nodes cfg path).allocated ∧
          ((finalState ctx nodes cfg path).freed.lookup name).isNone = true := by
  induction paths generalizing st with
  | nil => simp
  | cons path paths ih =>
      have visited := extends_foldl_visit ctx nodes (cfg.statementsOnPath path)
        (PathState.init ctx, st)
      rw [List.foldl_cons, ih, visitPath_eq, endPath, List.mem_union_iff, List.mem_filter,
        visited.notFreed, List.exists_mem_cons_iff, ← or_assoc, or_comm (a := name ∈ st.notFreed)]

/-- The unwritten outputs collected are those some path did not write. -/
theorem mem_outputsNotWritten_iff (paths : List (List BlockId)) {st : OwnershipState}
    {name : String} (declared : ctx.hasGuarantee .writesOutput = true) :
    name ∈ (paths.foldl (visitPath ctx nodes cfg) st).outputsNotWritten ↔
      name ∈ st.outputsNotWritten ∨ ∃ path ∈ paths, name ∈ ctx.outputs.keys ∧
        name ∉ (finalState ctx nodes cfg path).written := by
  induction paths generalizing st with
  | nil => simp
  | cons path paths ih =>
      have visited := extends_foldl_visit ctx nodes (cfg.statementsOnPath path)
        (PathState.init ctx, st)
      rw [List.foldl_cons, ih, visitPath_eq, endPath, if_pos declared, List.mem_union_iff,
        List.mem_filter, visited.outputsNotWritten, List.exists_mem_cons_iff, ← or_assoc,
        or_comm (a := name ∈ st.outputsNotWritten), decide_eq_true_eq]

/-- A variable a path allocated has an allocation line. -/
theorem allocations_foldl_visit {trace : List Nat} {name : String} (path : PathState)
    (st : OwnershipState) (allocates : ∃ i ∈ trace, Holds nodes (·.allocTarget? = some name) i) :
    ((trace.foldl (visit ctx nodes) (path, st)).2.allocations.lookup name).isSome = true := by
  obtain ⟨i, member, node, at_, isAlloc⟩ := allocates
  obtain ⟨front, back, rfl⟩ := List.append_of_mem member
  rw [List.foldl_append, List.foldl_cons]
  apply (extends_foldl_visit ctx nodes back _).allocations
  rw [visit, at_]
  cases node with
  | assignment line target expr =>
      obtain rfl : target = name := by cases expr <;> simp_all [Node.allocTarget?]
      simp [inspect, isAlloc]
  | _ => simp [Node.allocTarget?] at isAlloc

end Paths

section Final

variable {ctx : AnalysisContext} {st : OwnershipState} {name : String}

/-- Reporting leaks only adds reports. -/
theorem extends_foldl_reportLeak (vars : List String) (st : OwnershipState) :
    Extends st (vars.foldl reportLeak st) := by
  induction vars generalizing st with
  | nil => exact .refl st
  | cons var vars ih =>
      refine Extends.trans ?_ (ih (st.reportLeak var))
      unfold reportLeak
      split
      · exact extends_report st rfl (by simp)
      · exact .refl st

/-- The leak pass only adds reports. -/
theorem extends_reportLeaks (st : OwnershipState) : Extends st st.reportLeaks :=
  extends_foldl_reportLeak st.notFreed st

/-- Every collected variable with an allocation line is reported as a leak. -/
theorem reports_reportLeaks (backed : st.Backed) (member : name ∈ st.notFreed)
    (known : (st.allocations.lookup name).isSome = true) :
    Reports st.reportLeaks.errors (.memoryLeak name) := by
  unfold reportLeaks
  obtain ⟨front, back, split⟩ := List.append_of_mem member
  rw [split, List.foldl_append, List.foldl_cons]
  refine Reports.mono (extends_foldl_reportLeak back _).errors ?_
  have before := extends_foldl_reportLeak front st
  obtain ⟨line, at_⟩ := Option.isSome_iff_exists.mp (before.allocations name known)
  rw [reportLeak, at_]
  exact reports_report rfl (before.backed backed)

/-- The OUTPUT pass keeps the errors there are. -/
theorem errors_subset_reportOutputs (ctx : AnalysisContext) (st : OwnershipState) :
    st.errors ⊆ (st.reportOutputs ctx).errors := by
  unfold reportOutputs
  split
  · exact errors_subset_report st _ _
  · exact fun _ => id

/-- Some error names an output as not written. -/
def NamesOutput (errors : List SemanticError) (output : String) : Prop :=
  ∃ error ∈ errors, ∃ outputs, error.kind = .outputNotWritten outputs ∧ output ∈ outputs

/-- The last report names exactly the collected outputs. -/
theorem namesOutput_reportOutputs_iff (declared : ctx.hasGuarantee .writesOutput = true)
    (backed : st.Backed) (noOutputs : st.NoOutputs) :
    NamesOutput (st.reportOutputs ctx).errors name ↔ name ∈ st.outputsNotWritten := by
  have unnamed : ¬ NamesOutput st.errors name := by
    rintro ⟨error, member, outputs, isKind, _⟩
    exact noOutputs error member outputs isKind
  unfold reportOutputs
  cases collected : st.outputsNotWritten with
  | nil => simpa using unnamed
  | cons output outputs =>
      have fresh : (ReportKey.outputNotWritten (output :: outputs), 0) ∉ st.reported := by
        intro seen
        obtain ⟨error, member, isKey⟩ := backed _ seen
        cases kind : error.kind <;> simp [kind, ErrorKind.reportKey?] at isKey
        exact noOutputs error member _ kind
      simp only [declared, List.isEmpty_cons, Bool.not_false, Bool.and_self, if_true, report,
        if_neg fresh]
      constructor
      · rintro ⟨error, member, names, isKind, named⟩
        rcases List.mem_append.mp member with old | new
        · exact absurd isKind (noOutputs error old names)
        · obtain rfl := List.mem_singleton.mp new
          simp only [ErrorKind.outputNotWritten.injEq] at isKind
          rwa [isKind]
      · intro named
        exact ⟨_, List.mem_append_right _ (List.mem_singleton.mpr rfl), _, rfl, named⟩

end Final

end OwnershipState

section Body

open OwnershipState

variable {nodes : List Node} {ctx : AnalysisContext} {name : String}

/-- All paths of a body visited. -/
def visited (nodes : List Node) (ctx : AnalysisContext) : OwnershipState :=
  (CFG.build nodes).allPaths.foldl (visitPath ctx nodes (CFG.build nodes)) {}

/-- On a flat body the errors are those of the visited walks, the leaks and the OUTPUTs. -/
theorem validateOwnershipCfg_of_flat (body : FlatBody nodes) (ctx : AnalysisContext) :
    validateOwnershipCfg nodes ctx =
      ((visited nodes ctx).reportLeaks.reportOutputs ctx).errors := by
  rw [validateOwnershipCfg, flattenScopes_of_flat body.flat, visited]

/-- After the walks every reported key is backed by an error. -/
theorem backed_visited (nodes : List Node) (ctx : AnalysisContext) :
    (visited nodes ctx).Backed :=
  (visitPaths_preserves _ _).2.1 (by simp [Backed])

/-- The walks report nothing of OUTPUTs. -/
theorem noOutputs_visited (nodes : List Node) (ctx : AnalysisContext) :
    (visited nodes ctx).NoOutputs :=
  (visitPaths_preserves _ _).2.2.1 (by simp [NoOutputs])

/-- What the inspection of a statement reports on an execution to the end that
repeats no statement is reported for the body. -/
theorem reports_of_execution (body : FlatBody nodes) {before after : List Nat} {i : Nat}
    {node : Node} {key : ReportKey}
    (execution : ControlWalk nodes 0 nodes.length (before ++ i :: after ++ [nodes.length]))
    (nodup : (before ++ i :: after).Nodup) (at_ : nodes[i]? = some node)
    (seen : ∀ mid : OwnershipState, mid.Backed →
      Reports (mid.inspect node ((PathState.init ctx).run ctx nodes before)).errors key) :
    Reports (validateOwnershipCfg nodes ctx) key := by
  obtain ⟨path, listed, statements⟩ := (CFG.statementsOnPath_iff body).mpr ⟨execution, nodup⟩
  rw [validateOwnershipCfg_of_flat body]
  refine Reports.mono (errors_subset_reportOutputs ctx _) ?_
  refine Reports.mono (extends_reportLeaks _).errors ?_
  refine reports_visitPaths listed (by simp [Backed]) fun mid backed => ?_
  rw [statements]
  exact reports_foldl_visit backed at_ seen

/-- A variable allocated on such an execution and not freed at its end is
reported as a leak. -/
theorem reports_leak (body : FlatBody nodes) {executed : List Nat}
    (execution : ControlWalk nodes 0 nodes.length (executed ++ [nodes.length]))
    (nodup : executed.Nodup)
    (allocated : ∃ i ∈ executed, Holds nodes (·.allocTarget? = some name) i)
    (unfreed : ¬ Flow.Since (Holds nodes (·.freed? = some name))
      (Holds nodes (·.assignTarget? = some name)) executed) :
    Reports (validateOwnershipCfg nodes ctx) (.memoryLeak name) := by
  obtain ⟨path, listed, rfl⟩ := (CFG.statementsOnPath_iff body).mpr ⟨execution, nodup⟩
  rw [validateOwnershipCfg_of_flat body]
  refine Reports.mono (errors_subset_reportOutputs ctx _) ?_
  refine reports_reportLeaks (backed_visited nodes ctx) ?_ ?_
  · refine (mem_notFreed_iff _).mpr (.inr ⟨path, listed, ?_, ?_⟩)
    · exact PathState.mem_allocated_run.mpr allocated
    · rw [← PathState.freed_run ctx] at unfreed
      simpa [finalState] using unfreed
  · obtain ⟨front, back, split⟩ := List.append_of_mem listed
    rw [visited, split, List.foldl_append, List.foldl_cons]
    refine (visitPaths_preserves back _).2.2.2 name ?_
    rw [visitPath_eq]
    exact allocations_foldl_visit _ _ allocated

/-- The error about unwritten outputs names the outputs that some such execution
does not write. -/
theorem namesOutput_iff (body : FlatBody nodes)
    (declared : ctx.hasGuarantee .writesOutput = true) :
    NamesOutput (validateOwnershipCfg nodes ctx) name ↔
      ctx.isOutput name = true ∧ ∃ executed,
        ControlWalk nodes 0 nodes.length (executed ++ [nodes.length]) ∧ executed.Nodup ∧
          ∀ i ∈ executed, ¬ Holds nodes (name ∈ ·.writes) i := by
  have isOutput : name ∈ ctx.outputs.keys ↔ ctx.isOutput name = true := by
    rw [AnalysisContext.isOutput, AList.lookup_isSome, AList.mem_keys]
  have leaks := extends_reportLeaks (visited nodes ctx)
  rw [validateOwnershipCfg_of_flat body, namesOutput_reportOutputs_iff declared
    (leaks.backed (backed_visited nodes ctx)) (leaks.noOutputs (noOutputs_visited nodes ctx)),
    leaks.outputsNotWritten, visited, mem_outputsNotWritten_iff _ declared, isOutput]
  simp only [List.not_mem_nil, false_or, finalState, PathState.mem_written_run]
  constructor
  · rintro ⟨path, listed, output, unwritten⟩
    obtain ⟨execution, nodup⟩ := (CFG.statementsOnPath_iff body).mp ⟨path, listed, rfl⟩
    exact ⟨output, _, execution, nodup, fun i member writes => unwritten ⟨output, i, member, writes⟩⟩
  · rintro ⟨output, executed, execution, nodup, unwritten⟩
    obtain ⟨path, listed, rfl⟩ := (CFG.statementsOnPath_iff body).mpr ⟨execution, nodup⟩
    refine ⟨path, listed, output, ?_⟩
    rintro ⟨_, i, member, writes⟩
    exact unwritten i member writes

end Body

end Sigil
