import Sigil.Semantic.Reports

/-!
# Initialization

A LOAD is initialized when its variable was stored to since its last ALLOC, or is
an INPUT that was never allocated. The checker counts a variable as stored for
ever once it was stored to, and looks only at LOADs at the root of an assigned
expression, on loop-free paths.
-/

namespace Sigil

open OwnershipState

/-- The variable an expression node LOADs. -/
def Expr.loadedVar? : Expr → Option String
  | load (var name) _ _ => some name
  | _ => none

namespace Node

/-- The variables a statement LOADs, at any depth in any of its expressions. -/
def loads (node : Node) : List String :=
  (node.exprs.flatMap Expr.subexprs).filterMap Expr.loadedVar?

/-- The LOADs the checker looks at. -/
def inspectedLoads : Node → List String
  | assignment _ _ e => e.chainLoads
  | _ => []

end Node

/-- The checker reports no uninitialized LOAD. -/
def InitializationAccepted (nodes : List Node) (ctx : AnalysisContext) : Prop :=
  ∀ handle, ¬ Reports (validateOwnershipCfg nodes ctx) (.uninitializedLoad handle)

/-- A variable was stored to after its most recent ALLOC; an INPUT counts as
stored from the start. -/
def Initialized (nodes : List Node) (ctx : AnalysisContext) (trace : List Nat) (name : String) :
    Prop :=
  Flow.Since (Holds nodes (·.storeTarget? = some name)) (Holds nodes (·.allocTarget? = some name))
      trace ∨
    (name ∈ ctx.inputs.keys ∧ ∀ i ∈ trace, ¬ Holds nodes (·.allocTarget? = some name) i)

/-- A variable counts as stored for the checker. -/
def CountsStored (nodes : List Node) (ctx : AnalysisContext) (trace : List Nat) (name : String) :
    Prop :=
  name ∈ ctx.inputs.keys ∨ ∃ i ∈ trace, Holds nodes (·.storeTarget? = some name) i

/-- Every variable that statement `i`, about to run after `before`, LOADs is
initialized. -/
def LoadsInitialized (nodes : List Node) (ctx : AnalysisContext) (before : List Nat) (i : Nat) :
    Prop :=
  ∀ name, Holds nodes (name ∈ ·.loads) i → Initialized nodes ctx before name

/-- The LOADs of statement `i` are in reach of the checker: a loaded variable that
was allocated when it already counted as stored was stored to again, and a LOAD of
one that never counted as stored is at a place the checker looks at, from which the
end can be reached without repeating a statement. -/
structure LoadsInReach (nodes : List Node) (ctx : AnalysisContext) (before : List Nat) (i : Nat) :
    Prop where
  refreshed : ∀ name, Holds nodes (name ∈ ·.loads) i → ∀ front a rest,
    before = front ++ a :: rest → Holds nodes (·.allocTarget? = some name) a →
    CountsStored nodes ctx front name → ∃ j ∈ rest, Holds nodes (·.storeTarget? = some name) j
  visible : ∀ name, Holds nodes (name ∈ ·.loads) i → ¬ CountsStored nodes ctx before name →
    Holds nodes (name ∈ ·.inspectedLoads) i ∧ ∃ after,
      ControlWalk nodes i nodes.length (i :: after) ∧ ∀ j ∈ before ++ [i], j ∉ after

variable {nodes : List Node} {ctx : AnalysisContext} {before : List Nat} {i : Nat} {name : String}

/-- A STORE is no ALLOC. -/
theorem not_allocates_of_stores (stores : Holds nodes (·.storeTarget? = some name) i) :
    ¬ Holds nodes (·.allocTarget? = some name) i := by
  obtain ⟨node, at_, target⟩ := stores
  rw [holds_iff at_]
  cases node <;> simp_all [Node.storeTarget?, Node.allocTarget?]

/-- A statement that LOADs an unstored variable where the checker looks is
reported. -/
theorem reports_inspect_load {node : Node} {path : PathState} {st : OwnershipState}
    (backed : st.Backed) (looks : name ∈ node.inspectedLoads) (unstored : name ∉ path.stored) :
    Reports (st.inspect node path).errors (.uninitializedLoad name) := by
  cases node with
  | assignment line target e =>
      have before := (extends_checkExprUsesFreed path.freed line e st).backed backed
      have reported := reports_checkUninitializedLoad line before looks unstored
      unfold inspect
      dsimp only
      split <;> exact reported
  | _ => simp [Node.inspectedLoads] at looks

/-- A variable that counts as stored, and was stored to again whenever it was
allocated while it did, is initialized. -/
theorem initialized_of_countsStored (stored : CountsStored nodes ctx before name)
    (refreshed : ∀ front a rest, before = front ++ a :: rest →
      Holds nodes (·.allocTarget? = some name) a → CountsStored nodes ctx front name →
      ∃ j ∈ rest, Holds nodes (·.storeTarget? = some name) j) :
    Initialized nodes ctx before name := by
  by_cases allocated : ∃ a ∈ before, Holds nodes (·.allocTarget? = some name) a
  · -- everything hinges on the last ALLOC
    obtain ⟨front, a, rest, rfl, allocates, last⟩ := Flow.since_self allocated
    obtain ⟨j, member, stores⟩ : ∃ j ∈ rest, Holds nodes (·.storeTarget? = some name) j := by
      by_cases early : CountsStored nodes ctx front name
      · exact refreshed front a rest rfl allocates early
      · rcases stored with input | ⟨j, member, stores⟩
        · exact absurd (.inl input) early
        · rcases List.mem_append.mp member with inFront | later
          · exact absurd (.inr ⟨j, inFront, stores⟩) early
          · rcases List.mem_cons.mp later with rfl | inRest
            · exact absurd allocates (not_allocates_of_stores stores)
            · exact ⟨j, inRest, stores⟩
    obtain ⟨mid, tail, rfl⟩ := List.append_of_mem member
    exact .inl ⟨front ++ a :: mid, j, tail, by simp, stores, fun k inTail => last k (by simp [inTail])⟩
  · have never : ∀ a ∈ before, ¬ Holds nodes (·.allocTarget? = some name) a :=
      fun a member allocates => allocated ⟨a, member, allocates⟩
    rcases stored with input | ⟨j, member, stores⟩
    · exact .inr ⟨input, never⟩
    · obtain ⟨front, rest, rfl⟩ := List.append_of_mem member
      exact .inl ⟨front, j, rest, rfl, stores, fun k inRest => never k (by simp [inRest])⟩

/-- An initialized variable counts as stored, and was stored to after every ALLOC
that found it so. -/
theorem Initialized.refreshed (initialized : Initialized nodes ctx before name) :
    CountsStored nodes ctx before name ∧ ∀ front a rest, before = front ++ a :: rest →
      Holds nodes (·.allocTarget? = some name) a →
      ∃ j ∈ rest, Holds nodes (·.storeTarget? = some name) j := by
  rcases initialized with ⟨early, j, late, rfl, stores, kept⟩ | ⟨input, never⟩
  · refine ⟨.inr ⟨j, by simp, stores⟩, fun front a rest split allocates => ⟨j, ?_, stores⟩⟩
    rcases List.append_eq_append_iff.mp split with ⟨mid, rfl, same⟩ | ⟨mid, rfl, same⟩
    · -- the ALLOC would come at or after the STORE
      rcases List.cons_eq_append_iff.mp same with ⟨rfl, same⟩ | ⟨tail, rfl, rfl⟩
      · obtain ⟨rfl, _⟩ := List.cons.inj same
        exact absurd allocates (not_allocates_of_stores stores)
      · exact absurd allocates (kept a (by simp))
    · rcases List.cons_eq_append_iff.mp same with ⟨rfl, same⟩ | ⟨tail, rfl, rfl⟩
      · obtain ⟨rfl, _⟩ := List.cons.inj same
        exact absurd allocates (not_allocates_of_stores stores)
      · simp
  · refine ⟨.inl input, fun front a rest split allocates => ?_⟩
    exact absurd allocates (never a (by simp [split]))

/-- In an accepted body the LOADs of a statement in reach are initialized. -/
theorem loadsInitialized_of_inReach (body : FlatBody nodes)
    (accepted : InitializationAccepted nodes ctx) (walk : ControlWalk nodes 0 i (before ++ [i]))
    (inReach : LoadsInReach nodes ctx before i) : LoadsInitialized nodes ctx before i := by
  intro name loads
  by_cases stored : CountsStored nodes ctx before name
  · exact initialized_of_countsStored stored (inReach.refreshed name loads)
  · obtain ⟨⟨node, at_, looks⟩, after, finish, fresh⟩ := inReach.visible name loads stored
    obtain ⟨before', after', execution, nodup, subset, _⟩ :=
      exists_simple_execution_through walk finish (List.getElem?_eq_some_iff.mp at_).1 fresh
    have unstored : name ∉ ((PathState.init ctx).run ctx nodes before').stored := by
      rw [PathState.mem_stored_run]
      rintro (input | ⟨j, member, stores⟩)
      · exact stored (.inl input)
      · exact stored (.inr ⟨j, subset member, stores⟩)
    exact absurd (reports_of_execution body execution nodup at_ fun mid backed =>
      reports_inspect_load backed looks unstored) (accepted name)

/-- In an accepted body every LOAD on a walk is initialized exactly when all LOADs
of its steps are in reach. -/
theorem loadsInitialized_iff_inReach (body : FlatBody nodes)
    (accepted : InitializationAccepted nodes ctx) {target : Nat} {visited : List Nat}
    (walk : ControlWalk nodes 0 target visited) :
    (∀ before i after, visited = before ++ i :: after → LoadsInitialized nodes ctx before i) ↔
      ∀ before i after, visited = before ++ i :: after → LoadsInReach nodes ctx before i := by
  constructor
  · intro initialized before i after split
    refine ⟨fun name loads front a rest inner allocates _ => ?_, fun name loads unstored => ?_⟩
    · exact (initialized before i after split name loads).refreshed.2 front a rest inner allocates
    · exact absurd (initialized before i after split name loads).refreshed.1 unstored
  · rintro inReach before i after rfl
    exact loadsInitialized_of_inReach body accepted walk.split.1 (inReach before i after rfl)

/-- `h = ALLOC 8 bytes`, `STORE h 1 8`, `FREE h`, `h = ALLOC 8 bytes`,
`x = LOAD h 8`, `FREE h`. -/
def loadAfterRealloc : List Node :=
  [.assignment 1 "h" (.alloc (.intLit 8) .bytes false), .store 2 "h" (.intLit 1) 8 none,
    .free 3 "h", .assignment 4 "h" (.alloc (.intLit 8) .bytes false),
    .assignment 5 "x" (.load (.var "h") 8 none), .free 6 "h"]

/-- The walk through `loadAfterRealloc` from its first statement to its last. -/
theorem walk_loadAfterRealloc : ControlWalk loadAfterRealloc 0 4 [0, 1, 2, 3, 4] :=
  .cons (by decide) (.cons (by decide) (.cons (by decide) (.cons (by decide) (.single 4))))

/-- The checker accepts `loadAfterRealloc`. -/
theorem loadAfterRealloc_accepted : InitializationAccepted loadAfterRealloc .bare := by
  have quiet : (validateOwnershipCfg loadAfterRealloc .bare).isEmpty = true := by decide
  exact fun handle => not_reports_of_isEmpty quiet

/-- A LOAD behind a second ALLOC of its name. -/
theorem loadsInitialized_iff_inReach_loadAfterRealloc :
    (∀ before i after, [0, 1, 2, 3, 4] = before ++ i :: after →
        LoadsInitialized loadAfterRealloc .bare before i) ↔
      ∀ before i after, [0, 1, 2, 3, 4] = before ++ i :: after →
        LoadsInReach loadAfterRealloc .bare before i :=
  loadsInitialized_iff_inReach (by decide) loadAfterRealloc_accepted walk_loadAfterRealloc

/-- The checker accepts a LOAD of fresh memory whose variable was stored to before
it was allocated again. -/
theorem loadAfterRealloc_accepted_and_uninitialized :
    FlatBody loadAfterRealloc ∧ InitializationAccepted loadAfterRealloc .bare ∧
      ControlWalk loadAfterRealloc 0 4 [0, 1, 2, 3, 4] ∧
      ¬ LoadsInitialized loadAfterRealloc .bare [0, 1, 2, 3] 4 := by
  refine ⟨by decide, loadAfterRealloc_accepted, walk_loadAfterRealloc, fun initialized => ?_⟩
  obtain ⟨_, again⟩ := (initialized "h" ⟨_, rfl, by decide⟩).refreshed
  obtain ⟨j, member, _⟩ := again [0, 1, 2] 3 [] rfl ⟨_, rfl, rfl⟩
  simp at member

end Sigil
