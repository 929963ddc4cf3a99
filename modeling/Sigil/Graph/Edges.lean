import Sigil.Flow.Returns
import Sigil.Graph.Project
import Sigil.Semantic.Infer

/-!
# Edges of the project graph

The operations that connect ports: an edge runs from an output or error port to an input port of
the same type and size, and no input port has two of them. `WellConnected` is what every run of
the operations keeps.
-/

namespace Sigil

open Flow

/-- Why an edge is rejected. -/
inductive EdgeError where
  | nodeNotFound (id : Nat)
  | portNotFound (nodeName port : String)
  | wrongDirection (nodeName port expected : String)
  | typeMismatch (source target : String)
  | sizeMismatch (source target : Nat)
  | alreadyConnected (nodeName port : String)
  deriving DecidableEq, Repr

/-- The first port of a name. -/
def BehaviorNode.port (node : BehaviorNode) (name : String) : Option Port :=
  node.ports.find? fun port => port.name = name

namespace ProjectGraph

/-- Remove a behavior and all its edges. -/
def removeNode (graph : ProjectGraph) (id : Nat) : ProjectGraph :=
  { graph with
    edges := graph.edges.filter fun e => e.fromNode ≠ id ∧ e.toNode ≠ id
    nodes := graph.nodes.erase id }

/-- The name of a node in an error. -/
def nodeName (graph : ProjectGraph) (id : Nat) : String :=
  match graph.nodes.lookup id with
  | some node => node.name
  | none => s!"<node {id}>"

def resolvePort (graph : ProjectGraph) (id : Nat) (name : String) : Except EdgeError Port :=
  match graph.nodes.lookup id with
  | some node =>
      match node.port name with
      | some port => .ok port
      | none => .error (.portNotFound node.name name)
  | none => .error (.nodeNotFound id)

def portHasConsumer (graph : ProjectGraph) (id : Nat) (name : String) : Bool :=
  graph.edges.any fun e => e.fromNode = id ∧ e.fromPort = name

def portHasSource (graph : ProjectGraph) (id : Nat) (name : String) : Bool :=
  graph.edges.any fun e => e.toNode = id ∧ e.toPort = name

/-- An error where a condition fails. -/
def demand (holds : Bool) (error : EdgeError) : Except EdgeError Unit :=
    if holds then .ok () else .error error

/-- The checks of a new edge, in their order. -/
def checkEdge (graph : ProjectGraph) (fromNode : Nat) (fromPort : String) (toNode : Nat)
    (toPort : String) :
    Except EdgeError Unit := do
  let source ← graph.resolvePort fromNode fromPort
  demand (source.direction ≠ .input) (.wrongDirection (graph.nodeName fromNode) fromPort
    "Out or Error")
  let target ← graph.resolvePort toNode toPort
  demand (target.direction = .input) (.wrongDirection (graph.nodeName toNode) toPort "In")
  demand (source.interpretation = target.interpretation)
    (.typeMismatch source.interpretation.debug target.interpretation.debug)
  demand (source.size = target.size) (.sizeMismatch source.size target.size)
  demand (!graph.portHasSource toNode toPort) (.alreadyConnected (graph.nodeName toNode) toPort)

/-- Add an edge; the graph stays as it is where a check fails. -/
def addEdge (graph : ProjectGraph) (fromNode : Nat) (fromPort : String) (toNode : Nat)
    (toPort : String) :
    Except EdgeError Nat × ProjectGraph :=
  match graph.checkEdge fromNode fromPort toNode toPort with
  | .error e => (.error e, graph)
  | .ok () =>
      let id := graph.nextEdgeId
      (.ok id, { graph with
        edges := graph.edges ++ [⟨id, fromNode, fromPort, toNode, toPort⟩], nextEdgeId := id + 1 })

/-- Remove an edge; whether there was one. -/
def removeEdge (graph : ProjectGraph) (id : Nat) : Bool × ProjectGraph :=
  let edges := graph.edges.filter fun e => e.id ≠ id
  (edges.length < graph.edges.length, { graph with edges := edges })

end ProjectGraph

/-- An operation on a project graph. -/
inductive GraphOp where
  | addNode (node : BehaviorNode)
  | removeNode (id : Nat)
  | addEdge (fromNode : Nat) (fromPort : String) (toNode : Nat) (toPort : String)
  | removeEdge (id : Nat)

namespace GraphOp

variable (sha256 : List UInt8 → List UInt8)

def run (graph : ProjectGraph) : GraphOp → ProjectGraph
  | addNode node => graph.addNode sha256 node
  | removeNode id => graph.removeNode id
  | addEdge fromNode fromPort toNode toPort => (graph.addEdge fromNode fromPort toNode toPort).2
  | removeEdge id => (graph.removeEdge id).2

/-- A node is added under an ID that is not in use. -/
def Fresh (graph : ProjectGraph) : GraphOp → Prop
  | addNode node => node.id ∉ graph.nodes
  | _ => True

instance (graph : ProjectGraph) : (op : GraphOp) → Decidable (op.Fresh graph)
  | addNode node => inferInstanceAs (Decidable (node.id ∉ graph.nodes))
  | removeNode _ => isTrue trivial
  | addEdge _ _ _ _ => isTrue trivial
  | removeEdge _ => isTrue trivial

end GraphOp

/-- The graphs that operations lead to from the empty one. -/
inductive ProjectGraph.Reachable (sha256 : List UInt8 → List UInt8) : ProjectGraph → Prop where
  | empty : Reachable sha256 {}
  | run {graph : ProjectGraph} (op : GraphOp) : Reachable sha256 graph → op.Fresh graph →
      Reachable sha256 (op.run sha256 graph)

namespace ProjectGraph

/-- Every node is kept under its ID. -/
def Keyed (graph : ProjectGraph) : Prop := ∀ entry ∈ graph.nodes.entries, entry.2.id = entry.1

variable {sha256 : List UInt8 → List UInt8} {graph : ProjectGraph} {e : Edge}

/-- The ends of an edge: an output or error port and an input port, of one type and size. -/
structure Connects (graph : ProjectGraph) (e : Edge) (source target : Port) : Prop where
  sourceAt : graph.resolvePort e.fromNode e.fromPort = .ok source
  targetAt : graph.resolvePort e.toNode e.toPort = .ok target
  gives : source.direction ≠ .input
  takes : target.direction = .input
  type : source.interpretation = target.interpretation
  size : source.size = target.size

/-- Every edge connects two ports, no input port has two edges, and no two edges have one ID. -/
structure WellConnected (graph : ProjectGraph) : Prop where
  connects : ∀ e ∈ graph.edges, ∃ source target, graph.Connects e source target
  single : graph.edges.Pairwise fun e e' => ¬ (e.toNode = e'.toNode ∧ e.toPort = e'.toPort)
  unique : graph.edges.Pairwise fun e e' => e.id ≠ e'.id
  issued : ∀ e ∈ graph.edges, e.id < graph.nextEdgeId

section Steps

/-- A port is resolved by its node. -/
theorem resolvePort_congr {graph' : ProjectGraph} {id : Nat} {name : String}
    (same : graph'.nodes.lookup id = graph.nodes.lookup id) :
    graph'.resolvePort id name = graph.resolvePort id name := by
  rw [resolvePort, resolvePort, same]

/-- The node of a port that resolves is in the graph. -/
theorem mem_of_resolvePort {id : Nat} {name : String} {port : Port}
    (resolved : graph.resolvePort id name = .ok port) : id ∈ graph.nodes := by
  rw [← AList.lookup_isSome]
  unfold resolvePort at resolved
  cases found : graph.nodes.lookup id with
  | none => rw [found] at resolved; cases resolved
  | some node => rfl

/-- An edge stays connected where the nodes at its ends stay. -/
theorem Connects.congr {graph' : ProjectGraph} {source target : Port}
    (connects : graph.Connects e source target)
    (fromSame : graph'.nodes.lookup e.fromNode = graph.nodes.lookup e.fromNode)
    (toSame : graph'.nodes.lookup e.toNode = graph.nodes.lookup e.toNode) :
      graph'.Connects e source target :=
  { connects with
    sourceAt := (resolvePort_congr fromSame).trans connects.sourceAt
    targetAt := (resolvePort_congr toSame).trans connects.targetAt }

/-- A new node keeps the edges as they are. -/
theorem WellConnected.addNode (connected : graph.WellConnected) {node : BehaviorNode}
    (fresh : node.id ∉ graph.nodes) :
    (graph.addNode sha256 node).WellConnected where
  connects e member := by
    obtain ⟨source, target, connects⟩ := connected.connects e member
    have other : ∀ {id}, id ∈ graph.nodes → id ≠ node.id := fun inside same => fresh (same ▸ inside)
    exact ⟨source, target, connects.congr
      (AList.lookup_insert_ne (other (mem_of_resolvePort connects.sourceAt)))
      (AList.lookup_insert_ne (other (mem_of_resolvePort connects.targetAt)))⟩
  single := connected.single
  unique := connected.unique
  issued := connected.issued

/-- A removed node takes its edges along. -/
theorem WellConnected.removeNode (connected : graph.WellConnected) (id : Nat) :
    (graph.removeNode id).WellConnected where
  connects e member := by
    obtain ⟨inside, kept⟩ := List.mem_filter.mp member
    obtain ⟨fromOther, toOther⟩ := of_decide_eq_true kept
    obtain ⟨source, target, connects⟩ := connected.connects e inside
    exact ⟨source, target, connects.congr (AList.lookup_erase_ne fromOther)
      (AList.lookup_erase_ne toOther)⟩
  single := connected.single.filter _
  unique := connected.unique.filter _
  issued e member := connected.issued e (List.mem_filter.mp member).1

/-- The edges that are left are as they were. -/
theorem WellConnected.removeEdge (connected : graph.WellConnected) (id : Nat) :
    (graph.removeEdge id).2.WellConnected where
  connects e member := by
    obtain ⟨source, target, connects⟩ := connected.connects e (List.mem_filter.mp member).1
    exact ⟨source, target, connects.congr rfl rfl⟩
  single := connected.single.filter _
  unique := connected.unique.filter _
  issued e member := connected.issued e (List.mem_filter.mp member).1

/-- A demand passes when it is met. -/
theorem demand_ok_iff {holds : Bool} {error : EdgeError} {u : Unit} :
    demand holds error = .ok u ↔ holds = true := by
  cases holds <;> simp [demand]

/-- What the checks of an edge establish. -/
theorem checkEdge_ok {fromNode toNode : Nat} {fromPort toPort : String}
    (checked : graph.checkEdge fromNode fromPort toNode toPort = .ok ()) (id : Nat) :
    (∃ source target, graph.Connects ⟨id, fromNode, fromPort, toNode, toPort⟩ source target) ∧
      graph.portHasSource toNode toPort = false := by
  obtain ⟨source, sourceAt, checked⟩ := bind_eq_ok_iff.mp checked
  obtain ⟨_, gives, checked⟩ := bind_eq_ok_iff.mp checked
  obtain ⟨target, targetAt, checked⟩ := bind_eq_ok_iff.mp checked
  obtain ⟨_, takes, checked⟩ := bind_eq_ok_iff.mp checked
  obtain ⟨_, type, checked⟩ := bind_eq_ok_iff.mp checked
  obtain ⟨_, size, free⟩ := bind_eq_ok_iff.mp checked
  rw [demand_ok_iff, decide_eq_true_iff] at gives takes type size
  rw [demand_ok_iff, Bool.not_eq_true'] at free
  exact ⟨⟨source, target, sourceAt, targetAt, gives, takes, type, size⟩, free⟩

/-- An edge is added between ports that fit only. -/
theorem WellConnected.addEdge (connected : graph.WellConnected) (fromNode : Nat) (fromPort : String)
    (toNode : Nat) (toPort : String) :
      (graph.addEdge fromNode fromPort toNode toPort).2.WellConnected := by
  unfold ProjectGraph.addEdge
  cases checked : graph.checkEdge fromNode fromPort toNode toPort with
  | error e => exact connected
  | ok u =>
      obtain ⟨⟨source, target, connects⟩, free⟩ := checkEdge_ok checked graph.nextEdgeId
      have others : ∀ e ∈ graph.edges, ¬ (e.toNode = toNode ∧ e.toPort = toPort) := by
        simpa [portHasSource] using free
      constructor
      · intro e member
        obtain inside | last := List.mem_append.mp member
        · obtain ⟨source, target, connects⟩ := connected.connects e inside
          exact ⟨source, target, connects.congr rfl rfl⟩
        · exact ⟨source, target, List.mem_singleton.mp last ▸ connects.congr rfl rfl⟩
      · refine List.pairwise_append.mpr ⟨connected.single, List.pairwise_singleton _ _,
          fun e inside e' last => ?_⟩
        exact List.mem_singleton.mp last ▸ others e inside
      · refine List.pairwise_append.mpr ⟨connected.unique, List.pairwise_singleton _ _,
          fun e inside e' last => ?_⟩
        exact List.mem_singleton.mp last ▸ (connected.issued e inside).ne
      · intro e member
        obtain inside | last := List.mem_append.mp member
        · exact Nat.lt_succ_of_lt (connected.issued e inside)
        · exact List.mem_singleton.mp last ▸ Nat.lt_succ_self _

/-- Every operation keeps the edges well connected. -/
theorem WellConnected.run (connected : graph.WellConnected) (op : GraphOp)
    (fresh : op.Fresh graph) :
    (op.run sha256 graph).WellConnected := by
  cases op with
  | addNode node => exact connected.addNode fresh
  | removeNode id => exact connected.removeNode id
  | addEdge fromNode fromPort toNode toPort =>
      exact connected.addEdge fromNode fromPort toNode toPort
  | removeEdge id => exact connected.removeEdge id

end Steps

/-- So they are in every graph that operations make. -/
theorem Reachable.wellConnected (reachable : Reachable sha256 graph) : graph.WellConnected := by
  induction reachable with
  | empty =>
      exact ⟨fun _ member => absurd member List.not_mem_nil, .nil, .nil,
        fun _ member => absurd member List.not_mem_nil⟩
  | run op _ fresh ih => exact ih.run op fresh

/-- An edge adds no node. -/
theorem nodes_addEdge {fromNode toNode : Nat} {fromPort toPort : String} :
    (graph.addEdge fromNode fromPort toNode toPort).2.nodes = graph.nodes := by
  unfold addEdge
  cases graph.checkEdge fromNode fromPort toNode toPort <;> rfl

/-- Every node is filed under its id. -/
theorem Reachable.keyed (reachable : Reachable sha256 graph) : graph.Keyed := by
  induction reachable with
  | empty => exact fun _ member => absurd member List.not_mem_nil
  | @run graph op _ _ ih =>
      cases op with
      | addNode node =>
          intro entry member
          obtain rfl | kept := List.mem_cons.mp member
          · rfl
          · exact ih entry (List.mem_of_mem_eraseP kept)
      | removeNode id => exact fun entry member => ih entry (List.mem_of_mem_eraseP member)
      | addEdge fromNode fromPort toNode toPort =>
          intro entry member
          exact ih entry (@nodes_addEdge graph _ _ _ _ ▸ member)
      | removeEdge id => exact ih

/-- An edge that is refused changes nothing. -/
theorem addEdge_error {fromNode toNode : Nat} {fromPort toPort : String} {error : EdgeError}
    (refused : (graph.addEdge fromNode fromPort toNode toPort).1 = .error error) :
    (graph.addEdge fromNode fromPort toNode toPort).2 = graph := by
  unfold addEdge at refused ⊢
  cases checked : graph.checkEdge fromNode fromPort toNode toPort with
  | error e => rfl
  | ok u => rw [checked] at refused; cases refused

/-- What holds of a project graph at any time. -/
structure Invariant (graph : ProjectGraph) : Prop where
  ends : ∀ e ∈ graph.edges, e.fromNode ∈ graph.nodes ∧ e.toNode ∈ graph.nodes
  connects : ∀ e ∈ graph.edges, ∃ source target, graph.Connects e source target
  single : graph.edges.Pairwise fun e e' => ¬ (e.toNode = e'.toNode ∧ e.toPort = e'.toPort)
  unique : (graph.edges.map Edge.id).Nodup
  refused : ∀ fromNode fromPort toNode toPort error,
    (graph.addEdge fromNode fromPort toNode toPort).1 = .error error →
      (graph.addEdge fromNode fromPort toNode toPort).2 = graph

/-- Whatever operations have made a graph, its edges connect its nodes. -/
theorem invariant_of_reachable (reachable : Reachable sha256 graph) : graph.Invariant where
  ends e member := by
    obtain ⟨source, target, connects⟩ := reachable.wellConnected.connects e member
    exact ⟨mem_of_resolvePort connects.sourceAt, mem_of_resolvePort connects.targetAt⟩
  connects := reachable.wellConnected.connects
  single := reachable.wellConnected.single
  unique := List.pairwise_map.mpr reachable.wellConnected.unique
  refused _ _ _ _ _ := addEdge_error

/-- A producer and a consumer, connected. -/
def pairOps : List GraphOp :=
  [.addNode { id := 1, name := "producer", ports := [⟨"result", .output, .int, 8, false⟩] },
    .addNode { id := 2, name := "consumer", ports := [⟨"data", .input, .int, 8, false⟩] },
    .addEdge 1 "result" 2 "data"]

def pairGraph : ProjectGraph := pairOps.foldl (GraphOp.run fun _ => []) {}

/-- Two nodes with a typed edge between them. -/
theorem invariant_pairGraph : pairGraph.edges = [⟨1, 1, "result", 2, "data"⟩] ∧
    pairGraph.Invariant :=
  ⟨by decide, @invariant_of_reachable (fun _ => []) _
    (.run (.addEdge 1 "result" 2 "data") (.run _ (.run _ .empty (by decide)) (by decide)) trivial)⟩

end ProjectGraph

end Sigil
