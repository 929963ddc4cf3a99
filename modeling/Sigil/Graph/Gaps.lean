import Sigil.Graph.Edges

/-!
# Gaps of the project graph

A port without an edge, or a requirement that is undefined or stale, is a gap. The completeness
of a graph subtracts the gaps from the ports; it says what it is meant to say exactly when no
more requirements are open than ports are settled.
-/

namespace Sigil

/-- A port that nothing is connected to. -/
structure Gap where
  nodeId : Nat
  nodeName : String
  portName : String
  direction : Direction
  portType : AstType
  portSize : Nat
  question : String
  deriving DecidableEq, Repr

namespace ProjectGraph

variable (graph : ProjectGraph) (node : BehaviorNode)

/-- An input port has a source; another port has a consumer or is discarded. -/
def isSettled (port : Port) : Bool :=
  match port.direction with
  | .input => graph.portHasSource node.id port.name
  | .output | .error => port.discarded || graph.portHasConsumer node.id port.name

/-- What is asked about a port. -/
def portQuestion (port : Port) : String :=
  let typed := s!"({port.interpretation.debug}, {port.size} bytes)"
  match port.direction with
  | .input =>
      s!"Behavior '{node.name}' needs input '{port.name}' {typed} — where does this data come from?"
  | .output =>
      s!"Behavior '{node.name}' produces output '{port.name}' {typed} — what should happen with this data?"
  | .error =>
      s!"Behavior '{node.name}' can produce error '{port.name}' {typed} — how should this error be handled?"

def findPortGaps : List Gap :=
  (node.ports.filter fun port => !graph.isSettled node port).map fun port =>
    { nodeId := node.id, nodeName := node.name, portName := port.name, direction := port.direction
      portType := port.interpretation, portSize := port.size, question := portQuestion node port }

/-- What is asked about a requirement that is undefined or not at the hash it is pinned to. -/
def dependencyQuestion (dep : DependencyRef) : Option String :=
  match graph.lookupHash dep.name with
  | some hash =>
      if dep.hash ≠ "" ∧ hash ≠ dep.hash then
        some (s!"Behavior '{node.name}' expects '{dep.name}@{dep.hash}' but '{dep.name}' is now @{hash} " ++
          "— the dependency's contract changed. Accept the update?")
      else none
  | none =>
      some (s!"Behavior '{node.name}' requires '{dep.name}' but it's not defined " ++
        s!"— what should '{dep.name}' do?")

def findDependencyGaps : List Gap :=
  node.requires.filterMap fun dep =>
    (graph.dependencyQuestion node dep).map fun question =>
      { nodeId := node.id, nodeName := node.name, portName := dep.name, direction := .input
        portType := .bytes, portSize := 0, question := question }

def findGaps : List Gap :=
  graph.behaviorNodes.flatMap fun node => graph.findPortGaps node ++ graph.findDependencyGaps node

def totalPorts : Nat := (graph.behaviorNodes.map fun node => node.ports.length).sum

def isComplete : Bool := graph.findGaps.isEmpty

/-- The percentage of connected ports; none where the subtraction underflows. -/
def completenessPct : Option ℚ :=
  let gaps := graph.findGaps
  if graph.totalPorts = 0 then some 100
  else if gaps.length ≤ graph.totalPorts then
    some (((graph.totalPorts - gaps.length : Nat) : ℚ) / graph.totalPorts * 100)
  else none

/-- The percentage is one, and it is 100 for complete graphs only. -/
def Meaningful : Prop :=
  ∃ pct, graph.completenessPct = some pct ∧ pct ≤ 100 ∧ (pct = 100 ↔ graph.isComplete = true)

/-- The ports that are connected or discarded. -/
def settledPorts : Nat :=
    (graph.behaviorNodes.map fun node => node.ports.countP (graph.isSettled node)).sum

/-- A requirement is undefined or not at the hash it is pinned to. -/
def isOpen (dep : DependencyRef) : Bool :=
  match graph.lookupHash dep.name with
  | some hash => dep.hash ≠ "" ∧ hash ≠ dep.hash
  | none => true

/-- The requirements that are open. -/
def openRequirements : Nat :=
    (graph.behaviorNodes.map fun node => node.requires.countP graph.isOpen).sum

section Counts

variable {graph node}

/-- Every port of a node is settled or a gap. -/
theorem length_findPortGaps :
    (graph.findPortGaps node).length + node.ports.countP (graph.isSettled node) =
      node.ports.length := by
  rw [findPortGaps, List.length_map, ← List.countP_eq_length_filter, Nat.add_comm]
  have split := @List.length_eq_countP_add_countP _ (graph.isSettled node) node.ports
  simp only [Bool.not_eq_true] at split
  simp only [split, Bool.decide_eq_false]

/-- A question is asked about an open requirement. -/
theorem dependencyQuestion_isSome {dep : DependencyRef} :
    (graph.dependencyQuestion node dep).isSome = graph.isOpen dep := by
  unfold dependencyQuestion isOpen
  cases graph.lookupHash dep.name with
  | none => rfl
  | some hash => by_cases stale : dep.hash ≠ "" ∧ hash ≠ dep.hash <;> simp [stale]

/-- Every open requirement is a gap. -/
theorem length_findDependencyGaps :
    (graph.findDependencyGaps node).length = node.requires.countP graph.isOpen := by
  unfold findDependencyGaps
  rw [List.length_filterMap_eq_countP]
  congr 1
  funext dep
  rw [Option.isSome_map, dependencyQuestion_isSome]

/-- The gaps are the ports that are not settled and the open requirements. -/
theorem length_findGaps :
    graph.findGaps.length + graph.settledPorts = graph.totalPorts + graph.openRequirements := by
  unfold findGaps settledPorts totalPorts openRequirements
  induction graph.behaviorNodes with
  | nil => rfl
  | cons node nodes ih =>
      have ports := @length_findPortGaps graph node
      have deps := @length_findDependencyGaps graph node
      simp only [List.flatMap_cons, List.length_append, List.map_cons, List.sum_cons]
      omega

end Counts

variable {graph}

/-- With no more gaps than ports the score is a share. -/
theorem meaningful_of_fits (fits : graph.findGaps.length ≤ graph.totalPorts) :
    graph.Meaningful := by
  unfold Meaningful completenessPct isComplete
  rw [List.isEmpty_iff, ← List.length_eq_zero_iff]
  dsimp only
  by_cases none : graph.totalPorts = 0
  · exact ⟨100, if_pos none, le_refl _, iff_of_true rfl (by omega)⟩
  · rw [if_neg none, if_pos fits]
    have positive : (0 : ℚ) < graph.totalPorts := by exact_mod_cast Nat.pos_of_ne_zero none
    refine ⟨_, rfl, ?_, ?_⟩
    · have fraction : ((graph.totalPorts - graph.findGaps.length : Nat) : ℚ) / graph.totalPorts
        ≤ 1 := by
        rw [div_le_one positive]
        exact_mod_cast Nat.sub_le _ _
      linarith
    · rw [mul_eq_right₀ (by norm_num), div_eq_one_iff_eq positive.ne']
      norm_cast
      omega

/-- The completeness of a graph means what it says exactly when no more requirements are open
than ports are settled. -/
theorem meaningful_iff : graph.Meaningful ↔ graph.openRequirements ≤ graph.settledPorts := by
  have counts := @length_findGaps graph
  constructor
  · rintro ⟨pct, computed, -, complete⟩
    unfold completenessPct at computed
    dsimp only at computed
    split at computed
    next none =>
      obtain rfl : 100 = pct := Option.some.inj computed
      have empty : graph.findGaps.length = 0 := by
        rw [List.length_eq_zero_iff, ← List.isEmpty_iff]
        exact complete.mp rfl
      omega
    next =>
      split at computed
      next fits => omega
      next => cases computed
  · intro few
    exact meaningful_of_fits (by omega)

/-- A behavior without ports requires one that is not there, and so does one with an input. -/
theorem unported_not_meaningful :
    let missing : DependencyRef := ⟨"absent", ""⟩
    let unported := GraphOp.run (fun _ => []) {}
      (.addNode { id := 1, name := "user", requires := [missing] })
    let ported := GraphOp.run (fun _ => []) {} (.addNode
      { id := 1, name := "user", ports := [⟨"data", .input, .int, 8, false⟩], requires :=
        [missing] })
    Reachable (fun _ => []) unported ∧ unported.completenessPct = some 100 ∧
      unported.isComplete = false ∧
      ¬ unported.Meaningful ∧
      Reachable (fun _ => []) ported ∧ ported.completenessPct = none ∧ ¬ ported.Meaningful := by
  refine ⟨.run _ .empty
    (by decide), by decide, by decide, ?_, .run _ .empty (by decide), by decide, ?_⟩
  · rintro ⟨pct, computed, -, complete⟩
    obtain rfl : 100 = pct := Option.some.inj computed
    exact absurd (complete.mp rfl) (by decide)
  · rintro ⟨pct, computed, -⟩
    cases computed

end ProjectGraph

end Sigil
