import Sigil.Semantic.Reports

/-!
# Handle lifetimes

A handle is dead on a walk once it was freed and not assigned since. The checker
follows loop-free paths and looks at FREE, at STORE targets and at the root of an
assigned expression; within that reach an accepted body never touches a dead
handle, and beyond it the checker sees nothing.
-/

namespace Sigil

open OwnershipState

/-- The variable names an expression node holds itself. -/
def Expr.ownNames : Expr → List String
  | var name | wait name | channelReceive name => [name]
  | _ => []

namespace Node

/-- The variables a statement binds anew. -/
def assigned : Node → List String
  | assignment _ target _ | spawn _ target _ _ | wait _ target _
  | call _ (some target) _ _ _ => [target]
  | waitAll _ targets _ => targets
  | waitAny _ result which _ => [result, which]
  | _ => []

/-- The names a statement mentions: as STORE target, or at any depth in any of
its expressions. -/
def mentions (node : Node) : List String :=
  node.storeTarget?.toList ++
    (node.exprs.flatMap Expr.subexprs).flatMap Expr.ownNames

/-- The names a statement frees or mentions. -/
def touches (node : Node) : List String :=
  node.freed?.toList ++ node.mentions

/-- The names the checker looks up among the freed handles. -/
def inspected : Node → List String
  | free _ name => [name]
  | store _ target _ _ _ => [target]
  | assignment _ _ e => e.root?.toList
  | _ => []

end Node

/-- A double FREE or a use after FREE. -/
def ErrorKind.isLifetime : ErrorKind → Bool
  | .doubleFree _ _ | .useAfterFree _ _ => true
  | _ => false

/-- The checker reports neither a double FREE nor a use after FREE. -/
def LifetimeAccepted (nodes : List Node) (ctx : AnalysisContext) : Prop :=
  ∀ error ∈ validateOwnershipCfg nodes ctx, error.kind.isLifetime = false

instance (nodes : List Node) (ctx : AnalysisContext) : Decidable (LifetimeAccepted nodes ctx) :=
  inferInstanceAs (Decidable (∀ error ∈ validateOwnershipCfg nodes ctx, _))

/-- A handle was freed on the trace and not assigned since. -/
def Dead (nodes : List Node) (trace : List Nat) (handle : String) : Prop :=
  Flow.Since (Holds nodes (·.freed? = some handle)) (Holds nodes (handle ∈ ·.assigned)) trace

/-- Statement `i`, about to run after `before`, touches no dead handle. -/
def LifetimeSafe (nodes : List Node) (before : List Nat) (i : Nat) : Prop :=
  ∀ handle, Dead nodes before handle → ¬ Holds nodes (handle ∈ ·.touches) i

/-- The walk lets the checker see statement `i` touch a freed handle: it looks at
that place, the walk has not come back since the FREE to a statement it had run by
then, and the end can be reached without repeating a statement. -/
structure LifetimeVisible (nodes : List Node) (before : List Nat) (i : Nat) (handle : String) :
    Prop where
  place : Holds nodes (handle ∈ ·.inspected) i
  unlooped : ∃ front f mid, before = front ++ f :: mid ∧
    Holds nodes (·.freed? = some handle) f ∧ (∀ j ∈ mid, ¬ Holds nodes (handle ∈ ·.assigned) j) ∧
    ∀ j ∈ front ++ [f], j ∉ mid ++ [i]
  finishes : ∃ after, ControlWalk nodes i nodes.length (i :: after) ∧ ∀ j ∈ before ++ [i], j ∉ after

/-- Whatever statement `i` touches of the dead handles, the checker can see. -/
def LifetimeInReach (nodes : List Node) (before : List Nat) (i : Nat) : Prop :=
  ∀ handle, Dead nodes before handle → Holds nodes (handle ∈ ·.touches) i →
    LifetimeVisible nodes before i handle

section Inspection

variable {ctx : AnalysisContext} {nodes : List Node} {handle : String}

/-- The target of an assignment is among the names the statement assigns. -/
theorem Node.mem_assigned_of_assignTarget? {node : Node} (target : node.assignTarget? = some handle) :
    handle ∈ node.assigned := by
  cases node <;> simp_all [Node.assignTarget?, Node.assigned]

/-- An inspected statement that touches a freed handle is reported. -/
theorem reports_inspect {node : Node} {path : PathState} (looks : handle ∈ node.inspected)
    (freed : (path.freed.lookup handle).isSome = true) :
    ∃ key, (key = .doubleFree handle ∨ key = .useAfterFree handle) ∧
      ∀ st : OwnershipState, st.Backed → Reports (st.inspect node path).errors key := by
  obtain ⟨freedLine, freedAt⟩ := Option.isSome_iff_exists.mp freed
  cases node with
  | free line name =>
      obtain rfl : handle = name := by simpa [Node.inspected] using looks
      refine ⟨_, .inl rfl, fun st backed => ?_⟩
      simp only [inspect, freedAt]
      exact reports_report rfl backed
  | store line target value size offset =>
      obtain rfl : handle = target := by simpa [Node.inspected] using looks
      refine ⟨_, .inr rfl, fun st backed => ?_⟩
      simp only [inspect, freedAt]
      exact reports_report rfl backed
  | assignment line target e =>
      have root : e.root? = some handle := by simpa [Node.inspected] using looks
      refine ⟨_, .inr rfl, fun st backed => ?_⟩
      have checked := reports_checkExprUsesFreed line backed root freed
      have reported := Reports.mono (extends_checkUninitializedLoad path.stored line e _).errors
        checked
      unfold inspect
      dsimp only
      split <;> exact reported
  | _ => simp [Node.inspected] at looks

/-- Neither report survives in an accepted body. -/
theorem LifetimeAccepted.not_reports (accepted : LifetimeAccepted nodes ctx) {key : ReportKey}
    (isKey : key = .doubleFree handle ∨ key = .useAfterFree handle) :
    ¬ Reports (validateOwnershipCfg nodes ctx) key := by
  rintro ⟨error, member, reported⟩
  have quiet := accepted error member
  rcases isKey with rfl | rfl <;> cases kind : error.kind <;>
    simp_all [ErrorKind.reportKey?, ErrorKind.isLifetime]

end Inspection

section Soundness

variable {ctx : AnalysisContext} {nodes : List Node} {handle : String} {before : List Nat} {i : Nat}

/-- A visible touch of a freed handle also happens on an execution to the end
that repeats no statement. -/
theorem LifetimeVisible.execution (visible : LifetimeVisible nodes before i handle)
    (walk : ControlWalk nodes 0 i (before ++ [i])) (inBody : i < nodes.length) :
    ∃ before' after', ControlWalk nodes 0 nodes.length (before' ++ i :: after' ++ [nodes.length]) ∧
      (before' ++ i :: after').Nodup ∧ Dead nodes before' handle := by
  obtain ⟨front, f, mid, rfl, frees, kept, apart⟩ := visible.unlooped
  obtain ⟨after, finish, fresh⟩ := visible.finishes
  obtain ⟨front', mid', after', simple, nodup, subset⟩ :=
    exists_simple_execution_through_two walk finish inBody apart fresh
  exact ⟨front' ++ f :: mid', after', simple, nodup, front', f, mid', rfl, frees,
    fun j member => kept j (subset member)⟩

/-- In an accepted body a statement whose touches are in reach touches no dead
handle. -/
theorem lifetimeSafe_of_inReach (body : FlatBody nodes) (accepted : LifetimeAccepted nodes ctx)
    (walk : ControlWalk nodes 0 i (before ++ [i])) (inReach : LifetimeInReach nodes before i) :
    LifetimeSafe nodes before i := by
  intro handle dead touched
  have visible := inReach handle dead touched
  obtain ⟨node, at_, looks⟩ := visible.place
  obtain ⟨before', after', execution, nodup, dead'⟩ :=
    visible.execution walk (List.getElem?_eq_some_iff.mp at_).1
  have freed : (((PathState.init ctx).run ctx nodes before').freed.lookup handle).isSome = true := by
    refine (PathState.freed_run ctx).mpr (dead'.mono ?_)
    rintro j ⟨other, otherAt, target⟩
    exact ⟨other, otherAt, Node.mem_assigned_of_assignTarget? target⟩
  obtain ⟨key, isKey, reported⟩ := reports_inspect looks freed
  exact accepted.not_reports isKey (reports_of_execution body execution nodup at_ reported)

/-- In an accepted body a walk touches no dead handle exactly when all that its
steps touch of dead handles is in reach. -/
theorem lifetimeSafe_iff_inReach (body : FlatBody nodes) (accepted : LifetimeAccepted nodes ctx)
    {target : Nat} {visited : List Nat} (walk : ControlWalk nodes 0 target visited) :
    (∀ before i after, visited = before ++ i :: after → LifetimeSafe nodes before i) ↔
      ∀ before i after, visited = before ++ i :: after → LifetimeInReach nodes before i := by
  constructor
  · intro safe before i after split handle dead touched
    exact absurd touched (safe before i after split handle dead)
  · rintro inReach before i after rfl
    exact lifetimeSafe_of_inReach body accepted walk.split.1 (inReach before i after rfl)

end Soundness

/-- `h = ALLOC 8 bytes`, `FREE h`, `x = IADD LOAD h 8 0 1 8`. -/
def useInOperand : List Node :=
  [.assignment 1 "h" (.alloc (.intLit 8) .bytes false), .free 2 "h",
    .assignment 3 "x" (.intArith .add (.load (.var "h") 8 (some (.intLit 0))) (.intLit 1) 8)]

/-- The walk through `useInOperand` from its first statement to its last. -/
theorem walk_useInOperand : ControlWalk useInOperand 0 3 [0, 1, 2, 3] :=
  .cons (by decide) (.cons (by decide) (.cons (by decide) (.single 3)))

/-- A freed handle in the operand of an operation. -/
theorem lifetimeSafe_iff_inReach_useInOperand :
    (∀ before i after, [0, 1, 2, 3] = before ++ i :: after →
        LifetimeSafe useInOperand before i) ↔
      ∀ before i after, [0, 1, 2, 3] = before ++ i :: after →
        LifetimeInReach useInOperand before i :=
  lifetimeSafe_iff_inReach (by decide) (show LifetimeAccepted useInOperand .bare by decide)
    walk_useInOperand

/-- The checker accepts a body that reads a freed handle inside an operand. -/
theorem useInOperand_accepted_and_unsafe :
    FlatBody useInOperand ∧ LifetimeAccepted useInOperand .bare ∧
      ControlWalk useInOperand 0 3 [0, 1, 2, 3] ∧ ¬ LifetimeSafe useInOperand [0, 1] 2 := by
  refine ⟨by decide, by decide, walk_useInOperand, fun safe => ?_⟩
  refine safe "h" ⟨[0], 1, [], rfl, ⟨_, rfl, rfl⟩, by simp⟩ ⟨_, rfl, by decide⟩

end Sigil
