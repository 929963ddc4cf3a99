import Sigil.Flow.Closure
import Sigil.Flow.Elimination
import Sigil.Graph.Project

/-!
# Validation of the project graph

What `validate_graph` checks across behaviors: that requirements resolve, that their
pins are current, that they form no cycle, and that `pure` behaviors depend on pure
ones only.
-/

namespace Sigil

open Flow

/-- What a reference gets wrong. -/
inductive GraphErrorKind where
  | undefinedDependency (name : String)
  | staleDependency (name expected actual : String)
  | circularDependency (cycle : List String)
  | transitivePurityViolation (impureDep : String)
  deriving DecidableEq, Repr

/-- An error and the behavior it is about. -/
structure GraphError where
  kind : GraphErrorKind
  behavior : String
  message : String
  deriving DecidableEq, Repr

namespace ProjectGraph

/-- Requirements that resolve to nothing. -/
def checkDependenciesResolve (graph : ProjectGraph) : List GraphError :=
  graph.behaviorNodes.flatMap fun node => node.requires.flatMap fun dep =>
    if (graph.lookupHash dep.name).isNone then
      [⟨.undefinedDependency dep.name, node.name,
        s!"Required behavior '{dep.name}' not found in local behaviors or libraries"⟩]
    else []

/-- Pins that are not the current hash. -/
def checkHashConsistency (graph : ProjectGraph) : List GraphError :=
  graph.behaviorNodes.flatMap fun node => node.requires.flatMap fun dep =>
    if dep.hash.isEmpty then []
    else match graph.lookupHash dep.name with
      | none => []
      | some actual =>
          if !actual.isEmpty && dep.hash != actual then
            [⟨.staleDependency dep.name dep.hash actual, node.name,
              s!"Dependency '{dep.name}' hash mismatch: expects @{dep.hash} but found @{actual}. " ++
                "The dependency's contract has changed."⟩]
          else []

/-- The requirements of a node that are local behaviors. -/
def localDeps (graph : ProjectGraph) (node : BehaviorNode) : List String :=
  (node.requires.map DependencyRef.name).filter fun name => (graph.findNode name).isSome

/-- The local behaviors every name requires. -/
def adjacency (graph : ProjectGraph) (name : String) : List String :=
  (graph.behaviorNodes.filter fun node => node.name = name).flatMap graph.localDeps

/-- How often a name is required by local behaviors. -/
def inDegrees (graph : ProjectGraph) (name : String) : Nat :=
  (graph.behaviorNodes.flatMap graph.localDeps).count name

/-- The names with an in-degree. -/
def degreeNames (graph : ProjectGraph) : List String :=
  (graph.behaviorNodes.flatMap fun node => node.name :: graph.localDeps node).dedup

/-- Names that elimination leaves. -/
def checkCircularDependencies (graph : ProjectGraph) : List GraphError :=
  let names := graph.degreeNames
  match eliminate graph.adjacency (names.length + 1)
      (names.filter fun name => graph.inDegrees name = 0) graph.inDegrees [] with
  | none => []
  | some (sorted, degrees) =>
      if sorted.length < names.length then
        let cycle := names.filter fun name => degrees name > 0
        [⟨.circularDependency cycle, cycle.headD "",
          "Circular dependency detected involving: " ++ " → ".intercalate cycle⟩]
      else []

/-- The requirements of a name, if it is a local behavior. -/
def requirementsOf (graph : ProjectGraph) (name : String) : List String :=
  match graph.findNode name with
  | some node => node.requires.map DependencyRef.name
  | none => []

/-- Whether a name resolves to a behavior that does not declare `pure`. -/
def isImpure (graph : ProjectGraph) (name : String) : Bool :=
  match graph.findNode name with
  | some node => .pure ∉ node.guarantees
  | none => match graph.libraryNodes.lookup name with
    | some contract => .pure ∉ contract.guarantees
    | none => false

/-- Enough steps to follow every requirement of the graph from a node. -/
def purityFuel (graph : ProjectGraph) (node : BehaviorNode) : Nat :=
  node.requires.length + (graph.behaviorNodes.map fun node => node.requires.length).sum + 1

/-- The first impure behavior each `pure` one depends on. -/
def checkTransitivePurity (graph : ProjectGraph) : List GraphError :=
  (graph.behaviorNodes.filter fun node => .pure ∈ node.guarantees).flatMap fun node =>
    match firstBad graph.requirementsOf graph.isImpure (graph.purityFuel node)
        (node.requires.map DependencyRef.name).reverse [] with
    | some (some dep) =>
        [⟨.transitivePurityViolation dep, node.name,
          s!"Behavior '{node.name}' declares 'pure' but depends on '{dep}' which is not pure. " ++
            "Pure behaviors cannot transitively depend on impure behaviors."⟩]
    | _ => []

/-- All checks; a valid graph has no error. -/
def validateGraph (graph : ProjectGraph) : List GraphError :=
  graph.checkDependenciesResolve ++ graph.checkHashConsistency ++
    graph.checkCircularDependencies ++ graph.checkTransitivePurity

end ProjectGraph

end Sigil
