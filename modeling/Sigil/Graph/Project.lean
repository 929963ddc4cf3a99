import Sigil.ContractHash

/-!
# Project graph

The graph of a build: local behaviors with ports, guarantees and requirements, and the
contracts of linked libraries. A hash map is an association list; its order stands for
whatever order the map iterates in.
-/

namespace Sigil

/-- The side of a behavior a port is on. -/
inductive Direction where
  | input
  | output
  | error
  deriving DecidableEq, Repr

/-- A port of a behavior. -/
structure Port where
  name : String
  direction : Direction
  interpretation : AstType
  size : Nat
  discarded : Bool := false
  deriving DecidableEq, Repr

/-- A connection from an output or error port to an input port. -/
structure ProjectGraph.Edge where
  id : Nat
  fromNode : Nat
  fromPort : String
  toNode : Nat
  toPort : String
  deriving DecidableEq, Repr

/-- A required behavior, pinned by contract hash. -/
structure DependencyRef where
  name : String
  hash : String
  deriving DecidableEq, Repr

/-- A behavior in the graph. -/
structure BehaviorNode where
  id : Nat
  name : String
  hash : String := ""
  ports : List Port := []
  guarantees : List Guarantee := []
  requires : List DependencyRef := []
  deriving DecidableEq, Repr

/-- A library behavior: its contract without its requirements. -/
structure ContractRef where
  name : String
  hash : String
  ports : List Port
  guarantees : List Guarantee
  deriving DecidableEq, Repr

/-- The graph of a project. -/
structure ProjectGraph where
  nodes : AList (fun _ : Nat => BehaviorNode) := ∅
  libraryNodes : AList (fun _ : String => ContractRef) := ∅
  edges : List ProjectGraph.Edge := []
  nextNodeId : Nat := 1
  nextEdgeId : Nat := 1

namespace Port

def ofInput (param : Parameter) : Port := ⟨param.name, .input, param.typ, param.size, false⟩

def ofOutput (param : Parameter) : Port := ⟨param.name, .output, param.typ, param.size, false⟩

def toParameter (port : Port) : Parameter := ⟨port.name, port.interpretation, port.size⟩

end Port

namespace BehaviorNode

/-- The contract a node stands for, without required MEMORY. -/
def toAstContract (node : BehaviorNode) : Contract where
  inputs := (node.ports.filter fun p => p.direction = .input).map Port.toParameter
  outputs := ((node.ports.filter fun p => p.direction = .output) ++
    (node.ports.filter fun p => p.direction = .error)).map Port.toParameter
  requires := { behaviors := node.requires.map fun ref => ⟨ref.name, ref.hash⟩ }
  guarantees := node.guarantees

def updateHash (sha256 : List UInt8 → List UInt8) (node : BehaviorNode) : BehaviorNode :=
  { node with hash := computeContractHash sha256 node.toAstContract }

end BehaviorNode

namespace ProjectGraph

/-- The local behaviors, in the order the map yields them. -/
def behaviorNodes (graph : ProjectGraph) : List BehaviorNode :=
  graph.nodes.entries.map fun entry => entry.2

def addNode (sha256 : List UInt8 → List UInt8) (graph : ProjectGraph) (node : BehaviorNode) :
    ProjectGraph :=
  { graph with nodes := graph.nodes.insert node.id (node.updateHash sha256) }

def addLibraryNode (graph : ProjectGraph) (contract : ContractRef) : ProjectGraph :=
  { graph with libraryNodes := graph.libraryNodes.insert contract.name contract }

/-- A local behavior by name. -/
def findNode (graph : ProjectGraph) (name : String) : Option BehaviorNode :=
  graph.behaviorNodes.find? fun node => node.name = name

/-- The hash of a behavior by name, local behaviors before library ones. -/
def lookupHash (graph : ProjectGraph) (name : String) : Option String :=
  match graph.findNode name with
  | some node => some node.hash
  | none => (graph.libraryNodes.lookup name).map ContractRef.hash

end ProjectGraph

/-- A behavior as a node of the graph. -/
def behaviorToNode (graph : ProjectGraph) (behavior : Behavior) : BehaviorNode × ProjectGraph :=
  ({ id := graph.nextNodeId
     name := behavior.name
     ports := behavior.contract.inputs.map Port.ofInput ++ behavior.contract.outputs.map Port.ofOutput
     guarantees := behavior.contract.guarantees
     requires := behavior.contract.requires.behaviors.map fun ref => ⟨ref.name, ref.hash⟩ },
    { graph with nextNodeId := graph.nextNodeId + 1 })

def contractToRef (name : String) (contract : Contract) (hash : String) : ContractRef where
  name := name
  hash := hash
  ports := contract.inputs.map Port.ofInput ++ contract.outputs.map Port.ofOutput
  guarantees := contract.guarantees

/-- The graph of local behaviors and the contracts of linked libraries. -/
def projectGraph (sha256 : List UInt8 → List UInt8) (behaviors : List Behavior)
    (libraries : AList fun _ : String => Contract) : ProjectGraph :=
  let addBehavior (graph : ProjectGraph) (behavior : Behavior) :=
    let (node, graph) := behaviorToNode graph behavior
    graph.addNode sha256 node
  let addLibrary (graph : ProjectGraph) (library : Sigma fun _ : String => Contract) :=
    graph.addLibraryNode
      (contractToRef library.1 library.2 (computeContractHash sha256 library.2))
  libraries.entries.foldl addLibrary (behaviors.foldl addBehavior {})

section Built

variable {sha256 : List UInt8 → List UInt8} {graph : ProjectGraph} {behavior : Behavior}

/-- The contract without required MEMORY, which no hash covers. -/
def Contract.withoutMemory (contract : Contract) : Contract :=
  { contract with requires := { contract.requires with memory := [] } }

@[simp] theorem computeContractHash_withoutMemory (contract : Contract) :
    computeContractHash sha256 contract.withoutMemory = computeContractHash sha256 contract := rfl

/-- A node stands for the contract it was made from. -/
theorem toAstContract_behaviorToNode :
    (behaviorToNode graph behavior).1.toAstContract = behavior.contract.withoutMemory := by
  have inputs : ∀ params : List Parameter, ((params.map Port.ofInput).filter
      fun p => p.direction = .input) = params.map Port.ofInput := by
    intro params
    rw [List.filter_eq_self]
    simp [Port.ofInput]
  have outputs : ∀ params : List Parameter, ((params.map Port.ofOutput).filter
      fun p => p.direction = .output) = params.map Port.ofOutput := by
    intro params
    rw [List.filter_eq_self]
    simp [Port.ofOutput]
  have noInputs : ∀ params : List Parameter, ((params.map Port.ofOutput).filter
      fun p => p.direction = .input) = [] := by
    intro params
    simp [Port.ofOutput, List.filter_eq_nil_iff]
  have noOutputs : ∀ params : List Parameter, ((params.map Port.ofInput).filter
      fun p => p.direction = .output) = [] := by
    intro params
    simp [Port.ofInput, List.filter_eq_nil_iff]
  have noErrors : ∀ (params params' : List Parameter), ((params.map Port.ofInput ++
      params'.map Port.ofOutput).filter fun p => p.direction = .error) = [] := by
    intro params params'
    simp [Port.ofInput, Port.ofOutput, List.filter_eq_nil_iff]
  have back : ∀ params : List Parameter, (params.map Port.ofInput).map Port.toParameter = params := by
    intro params
    simp [Port.ofInput, Port.toParameter, Function.comp_def]
  have back' : ∀ params : List Parameter,
      (params.map Port.ofOutput).map Port.toParameter = params := by
    intro params
    simp [Port.ofOutput, Port.toParameter, Function.comp_def]
  unfold BehaviorNode.toAstContract behaviorToNode Contract.withoutMemory
  dsimp only
  rw [noErrors, List.filter_append, List.filter_append, inputs, outputs, noInputs, noOutputs,
    List.append_nil, List.append_nil, List.nil_append, back, back']
  simp [Function.comp_def]

/-- The node of a behavior, whatever number it gets. -/
def Behavior.IsNode (sha256 : List UInt8 → List UInt8) (behavior : Behavior) (node : BehaviorNode) :
    Prop :=
  node.name = behavior.name ∧ node.hash = computeContractHash sha256 behavior.contract ∧
    node.guarantees = behavior.contract.guarantees ∧
    node.requires = behavior.contract.requires.behaviors.map fun ref => ⟨ref.name, ref.hash⟩

/-- Every number given so far is smaller than the next one. -/
def ProjectGraph.Numbered (graph : ProjectGraph) : Prop :=
  ∀ id ∈ graph.nodes, id < graph.nextNodeId

/-- Adding a behavior puts its node in front. -/
theorem addBehavior_nodes (numbered : graph.Numbered) (behavior : Behavior) :
    let added := (behaviorToNode graph behavior).2.addNode sha256 (behaviorToNode graph behavior).1
    added.Numbered ∧ ∃ node, behavior.IsNode sha256 node ∧
      added.behaviorNodes = node :: graph.behaviorNodes := by
  have fresh : graph.nextNodeId ∉ graph.nodes := fun old => lt_irrefl _ (numbered _ old)
  have hash : ((behaviorToNode graph behavior).1.updateHash sha256).hash =
      computeContractHash sha256 behavior.contract := by
    rw [BehaviorNode.updateHash, toAstContract_behaviorToNode, computeContractHash_withoutMemory]
  refine ⟨?_, (behaviorToNode graph behavior).1.updateHash sha256, ⟨rfl, hash, rfl, rfl⟩, ?_⟩
  · intro id member
    obtain rfl | old := (AList.mem_insert _).mp member
    · exact Nat.lt_succ_self _
    · exact (numbered id old).trans (Nat.lt_succ_self _)
  · unfold ProjectGraph.behaviorNodes
    change List.map _ (graph.nodes.insert graph.nextNodeId _).entries = _
    rw [AList.entries_insert_of_notMem fresh]
    rfl

/-- Library contracts leave the local behaviors alone. -/
theorem addLibraries_nodes (libraries : List (Sigma fun _ : String => Contract)) :
    (libraries.foldl (fun (graph : ProjectGraph) library => graph.addLibraryNode
      (contractToRef library.1 library.2 (computeContractHash sha256 library.2))) graph).nodes =
      graph.nodes := by
  induction libraries generalizing graph with
  | nil => rfl
  | cons library rest ih => exact ih

/-- The local nodes of the graph of a build are those of its behaviors, the last one
first. -/
theorem behaviorNodes_projectGraph (behaviors : List Behavior)
    (libraries : AList fun _ : String => Contract) :
    List.Forall₂ (Behavior.IsNode sha256) behaviors.reverse
      (projectGraph sha256 behaviors libraries).behaviorNodes := by
  have step : ∀ (rest done : List Behavior) (graph : ProjectGraph), graph.Numbered →
      List.Forall₂ (Behavior.IsNode sha256) done graph.behaviorNodes →
      List.Forall₂ (Behavior.IsNode sha256) (rest.reverse ++ done)
        (rest.foldl (fun graph behavior =>
          (behaviorToNode graph behavior).2.addNode sha256 (behaviorToNode graph behavior).1)
          graph).behaviorNodes := by
    intro rest
    induction rest with
    | nil => exact fun done graph _ matched => matched
    | cons behavior rest ih =>
        intro done graph numbered matched
        obtain ⟨numbered', node, isNode, front⟩ := @addBehavior_nodes sha256 _ numbered behavior
        have more : List.Forall₂ (Behavior.IsNode sha256) (behavior :: done)
            ((behaviorToNode graph behavior).2.addNode sha256
              (behaviorToNode graph behavior).1).behaviorNodes := by
          rw [front]
          exact .cons isNode matched
        simpa using ih (behavior :: done) _ numbered' more
  have built := step behaviors [] {} (by simp [ProjectGraph.Numbered]) .nil
  rw [List.append_nil] at built
  unfold projectGraph ProjectGraph.behaviorNodes
  dsimp only
  rw [addLibraries_nodes]
  exact built

/-- A library node is made from the contract of that name. -/
theorem libraryNodes_projectGraph (behaviors : List Behavior)
    (libraries : AList fun _ : String => Contract) (name : String) :
    (projectGraph sha256 behaviors libraries).libraryNodes.lookup name =
      (libraries.lookup name).map fun contract =>
        contractToRef name contract (computeContractHash sha256 contract) := by
  have noLibraries : ∀ (rest : List Behavior) (graph : ProjectGraph),
      (rest.foldl (fun graph behavior =>
        (behaviorToNode graph behavior).2.addNode sha256 (behaviorToNode graph behavior).1)
        graph).libraryNodes = graph.libraryNodes := by
    intro rest
    induction rest with
    | nil => exact fun graph => rfl
    | cons behavior rest ih => exact fun graph => ih _
  have added : ∀ (rest : List (Sigma fun _ : String => Contract)), rest.NodupKeys →
      ∀ graph : ProjectGraph, (rest.foldl (fun (graph : ProjectGraph) library =>
        graph.addLibraryNode (contractToRef library.1 library.2
          (computeContractHash sha256 library.2))) graph).libraryNodes.lookup name =
        match rest.dlookup name with
        | some contract => some (contractToRef name contract (computeContractHash sha256 contract))
        | none => graph.libraryNodes.lookup name := by
    intro rest
    induction rest with
    | nil => exact fun _ graph => rfl
    | cons library rest ih =>
        intro distinct graph
        obtain ⟨absent, distinct⟩ := List.nodupKeys_cons.mp distinct
        rw [List.foldl_cons, ih distinct]
        obtain ⟨key, contract⟩ := library
        by_cases here : name = key
        · subst here
          rw [List.dlookup_cons_eq, List.dlookup_eq_none.mpr absent]
          exact AList.lookup_insert _
        · rw [List.dlookup_cons_ne _ _ here]
          cases rest.dlookup name with
          | some contract' => rfl
          | none => exact AList.lookup_insert_ne here
  unfold projectGraph
  dsimp only
  rw [added libraries.entries libraries.nodupKeys, noLibraries]
  change (match libraries.lookup name with
    | some contract => some (contractToRef name contract (computeContractHash sha256 contract))
    | none => none) = _
  cases libraries.lookup name <;> rfl

end Built

end Sigil
