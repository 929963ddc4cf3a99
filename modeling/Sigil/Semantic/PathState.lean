import Sigil.Flow.Trace
import Sigil.Semantic.Ownership

/-!
# What a path state records

After a list of statements a path state says exactly which variables were freed
and not assigned since, and which were stored to, allocated and written at any
time before.
-/

namespace Sigil

/-- The variable an assignment binds. -/
def Node.assignTarget? : Node → Option String
  | .assignment _ target _ => some target
  | _ => none

/-- The variable a STORE writes through. -/
def Node.storeTarget? : Node → Option String
  | .store _ target _ _ _ => some target
  | _ => none

/-- The target of a STORE or SET. -/
def Node.ownWrites : Node → List String
  | .store _ target _ _ _ | .set _ target _ => [target]
  | _ => []

/-- The names a statement writes if they are outputs: the target of a STORE or
SET, a variable passed directly to a CALL, and what a CALL statement lists after
`->`. -/
def Node.writes (node : Node) : List String :=
  node.ownWrites ++ directVars node.callArgs ++ PathState.redirects node

/-- The statement at an index has a property. -/
def Holds (nodes : List Node) (P : Node → Prop) (i : Nat) : Prop :=
  ∃ node, nodes[i]? = some node ∧ P node

instance (nodes : List Node) (P : Node → Prop) [DecidablePred P] (i : Nat) :
    Decidable (Holds nodes P i) :=
  decidable_of_iff (∃ node ∈ nodes[i]?, P node) (by simp [Holds, Option.mem_def])

section Holds

variable {nodes : List Node} {P : Node → Prop} {i : Nat} {node : Node} {trace : List Nat}

/-- At a place of the body `Holds` speaks of the statement there. -/
theorem holds_iff (at_ : nodes[i]? = some node) : Holds nodes P i ↔ P node := by
  simp [Holds, at_]

/-- Beyond the body nothing holds. -/
theorem not_holds (beyond : nodes[i]? = none) : ¬ Holds nodes P i := by
  simp [Holds, beyond]

/-- What holds somewhere on a longer trace held before or holds at its end. -/
theorem exists_holds_concat : (∃ j ∈ trace ++ [i], Holds nodes P j) ↔
    (∃ j ∈ trace, Holds nodes P j) ∨ Holds nodes P i := by
  simp only [List.mem_append, List.mem_singleton, or_and_right, exists_or, exists_eq_left]

end Holds

namespace PathState

variable {ctx : AnalysisContext} {path : PathState} {node : Node} {name handle : String}

/-- Crediting a write changes nothing but the written outputs. -/
structure SameMemory (left right : PathState) : Prop where
  freed : right.freed = left.freed
  stored : right.stored = left.stored
  allocated : right.allocated = left.allocated

/-- Writing an OUTPUT touches no memory. -/
theorem sameMemory_writeOutput (ctx : AnalysisContext) (path : PathState) (name : String) :
    SameMemory path (path.writeOutput ctx name) := by
  unfold writeOutput
  split <;> constructor <;> rfl

/-- Writing several OUTPUTs touches no memory. -/
theorem sameMemory_foldl_writeOutput (ctx : AnalysisContext) (names : List String)
    (path : PathState) : SameMemory path (names.foldl (writeOutput ctx) path) := by
  induction names generalizing path with
  | nil => exact ⟨rfl, rfl, rfl⟩
  | cons name names ih =>
      have first := sameMemory_writeOutput ctx path name
      have rest := ih (path.writeOutput ctx name)
      exact ⟨rest.freed.trans first.freed, rest.stored.trans first.stored,
        rest.allocated.trans first.allocated⟩

/-- The OUTPUTs written after one more has been. -/
theorem mem_written_writeOutput : name ∈ (path.writeOutput ctx handle).written ↔
    name ∈ path.written ∨ (ctx.isOutput name = true ∧ name = handle) := by
  unfold writeOutput
  split
  next isOutput =>
    rw [List.mem_insert_iff, or_comm]
    constructor
    · rintro (old | rfl)
      · exact .inl old
      · exact .inr ⟨isOutput, rfl⟩
    · rintro (old | ⟨_, same⟩)
      · exact .inl old
      · exact .inr same
  next noOutput =>
    constructor
    · exact .inl
    · rintro (old | ⟨isOutput, rfl⟩)
      · exact old
      · exact absurd isOutput noOutput

/-- The OUTPUTs written after several more have been. -/
theorem mem_written_foldl_writeOutput (names : List String) :
    name ∈ (names.foldl (writeOutput ctx) path).written ↔
      name ∈ path.written ∨ (ctx.isOutput name = true ∧ name ∈ names) := by
  induction names generalizing path with
  | nil => simp
  | cons other names ih =>
      rw [List.foldl_cons, ih, mem_written_writeOutput, List.mem_cons]
      tauto

/-- Beyond its own action a statement only writes outputs. -/
theorem sameMemory_step (ctx : AnalysisContext) (node : Node) (path : PathState) :
    SameMemory (path.act ctx node) (path.step ctx node) := by
  have passed := sameMemory_foldl_writeOutput ctx (directVars node.callArgs) (path.act ctx node)
  have redirected := sameMemory_foldl_writeOutput ctx (redirects node)
    ((directVars node.callArgs).foldl (writeOutput ctx) (path.act ctx node))
  exact ⟨redirected.freed.trans passed.freed, redirected.stored.trans passed.stored,
    redirected.allocated.trans passed.allocated⟩

/-- One statement makes a handle freed by freeing it, and not freed by assigning
to it. -/
theorem freed_step : ((path.step ctx node).freed.lookup handle).isSome = true ↔
    node.freed? = some handle ∨
      (node.assignTarget? ≠ some handle ∧ (path.freed.lookup handle).isSome = true) := by
  rw [(sameMemory_step ctx node path).freed]
  cases node with
  | assignment line target expr =>
      by_cases same : handle = target
      · subst same
        simp [act, Node.freed?, Node.assignTarget?, AList.lookup_erase]
      · simp [act, AList.lookup_erase_ne same, Node.freed?, Node.assignTarget?, Ne.symm same]
  | free line name =>
      by_cases same : handle = name
      · subst same
        cases freed : path.freed.lookup handle <;>
          simp [act, freed, Node.freed?, Node.assignTarget?]
      · cases freed : path.freed.lookup name <;>
          simp [act, freed, AList.lookup_insert_ne same, Node.freed?, Node.assignTarget?,
            Ne.symm same]
  | store line target value size offset =>
      simp [act, (sameMemory_writeOutput ctx _ target).freed, Node.freed?, Node.assignTarget?]
  | set line target value =>
      simp [act, (sameMemory_writeOutput ctx _ target).freed, Node.freed?, Node.assignTarget?]
  | _ => simp [act, Node.freed?, Node.assignTarget?]

/-- The names stored to after a statement. -/
theorem mem_stored_step : name ∈ (path.step ctx node).stored ↔
    node.storeTarget? = some name ∨ name ∈ path.stored := by
  rw [(sameMemory_step ctx node path).stored]
  cases node with
  | store line target value size offset =>
      rw [act, (sameMemory_writeOutput ctx _ target).stored, List.mem_insert_iff]
      simp [Node.storeTarget?, eq_comm]
  | set line target value =>
      simp [act, (sameMemory_writeOutput ctx _ target).stored, Node.storeTarget?]
  | free line name =>
      cases freed : path.freed.lookup name <;> simp [act, freed, Node.storeTarget?]
  | _ => simp [act, Node.storeTarget?]

/-- The names allocated after a statement. -/
theorem mem_allocated_step : name ∈ (path.step ctx node).allocated ↔
    node.allocTarget? = some name ∨ name ∈ path.allocated := by
  rw [(sameMemory_step ctx node path).allocated]
  cases node with
  | assignment line target expr =>
      cases expr <;> simp [act, Node.allocTarget?, eq_comm]
  | store line target value size offset =>
      simp [act, (sameMemory_writeOutput ctx _ target).allocated, Node.allocTarget?]
  | set line target value =>
      simp [act, (sameMemory_writeOutput ctx _ target).allocated, Node.allocTarget?]
  | free line name =>
      cases freed : path.freed.lookup name <;> simp [act, freed, Node.allocTarget?]
  | _ => simp [act, Node.allocTarget?]

/-- The OUTPUTs written after a statement's own action. -/
theorem mem_written_act : name ∈ (path.act ctx node).written ↔
    name ∈ path.written ∨ (ctx.isOutput name = true ∧ name ∈ node.ownWrites) := by
  cases node with
  | store line target value size offset =>
      rw [act, mem_written_writeOutput]
      simp [Node.ownWrites]
  | set line target value =>
      rw [act, mem_written_writeOutput]
      simp [Node.ownWrites]
  | free line name =>
      cases freed : path.freed.lookup name <;> simp [act, freed, Node.ownWrites]
  | _ => simp [act, Node.ownWrites]

/-- The OUTPUTs written after a statement. -/
theorem mem_written_step : name ∈ (path.step ctx node).written ↔
    name ∈ path.written ∨ (ctx.isOutput name = true ∧ name ∈ node.writes) := by
  rw [step, mem_written_foldl_writeOutput, mem_written_foldl_writeOutput, mem_written_act,
    Node.writes, List.mem_append, List.mem_append]
  tauto

/-- Take the statements of a list of indices. -/
def run (ctx : AnalysisContext) (nodes : List Node) (path : PathState) (trace : List Nat) :
    PathState :=
  trace.foldl (fun path idx => match nodes[idx]? with
    | some node => path.step ctx node
    | none => path) path

section Run

variable {nodes : List Node} {trace : List Nat} {i : Nat}

/-- The path state at the end of a longer trace, from the one before. -/
theorem run_concat (ctx : AnalysisContext) (nodes : List Node) (path : PathState)
    (trace : List Nat) (i : Nat) : path.run ctx nodes (trace ++ [i]) =
      match nodes[i]? with
      | some node => (path.run ctx nodes trace).step ctx node
      | none => path.run ctx nodes trace := by
  simp [run]

/-- A handle is freed when it was freed and not assigned since. -/
theorem freed_run (ctx : AnalysisContext) : (((init ctx).run ctx nodes trace).freed.lookup handle).isSome = true ↔
    Flow.Since (Holds nodes (·.freed? = some handle))
      (Holds nodes (·.assignTarget? = some handle)) trace := by
  induction trace using List.reverseRecOn with
  | nil => simp [run, init]
  | append_singleton trace i ih =>
      rw [run_concat, Flow.since_concat_iff, ← ih]
      cases at_ : nodes[i]? with
      | none => simp [not_holds at_]
      | some node => simp [holds_iff at_, freed_step]

/-- A variable counts as stored when it is an INPUT or was stored to. -/
theorem mem_stored_run : name ∈ ((init ctx).run ctx nodes trace).stored ↔
    name ∈ ctx.inputs.keys ∨ ∃ i ∈ trace, Holds nodes (·.storeTarget? = some name) i := by
  induction trace using List.reverseRecOn with
  | nil => simp [run, init]
  | append_singleton trace i ih =>
      rw [run_concat]
      cases at_ : nodes[i]? with
      | none => simp [ih, not_holds at_]
      | some node =>
          rw [exists_holds_concat, holds_iff at_, mem_stored_step, ih, or_comm, or_assoc]

/-- A name is allocated on a trace exactly when a statement on it allocates into it. -/
theorem mem_allocated_run : name ∈ ((init ctx).run ctx nodes trace).allocated ↔
    ∃ i ∈ trace, Holds nodes (·.allocTarget? = some name) i := by
  induction trace using List.reverseRecOn with
  | nil => simp [run, init]
  | append_singleton trace i ih =>
      rw [run_concat]
      cases at_ : nodes[i]? with
      | none => simp [ih, not_holds at_]
      | some node =>
          rw [exists_holds_concat, holds_iff at_, mem_allocated_step, ih, or_comm]

/-- A name is written on a trace exactly when it is an OUTPUT that a statement on it writes. -/
theorem mem_written_run : name ∈ ((init ctx).run ctx nodes trace).written ↔
    ctx.isOutput name = true ∧ ∃ i ∈ trace, Holds nodes (name ∈ ·.writes) i := by
  induction trace using List.reverseRecOn with
  | nil => simp [run, init]
  | append_singleton trace i ih =>
      rw [run_concat]
      cases at_ : nodes[i]? with
      | none => simp [ih, not_holds at_]
      | some node =>
          rw [exists_holds_concat, holds_iff at_, mem_written_step, ih, and_or_left]

end Run

end PathState

end Sigil
