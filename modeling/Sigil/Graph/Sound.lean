import Sigil.Flow.Sha256
import Sigil.Graph.Order

/-!
# What an accepted graph is

No error is reported exactly when all requirements resolve, pins are current, the
requirements of local behaviors form no cycle, and whatever a `pure` behavior requires
through local behaviors is `pure`.
-/

namespace Sigil

open Flow Relation

/-- The contract a name stands for in a build, local behaviors before libraries. -/
def resolve (behaviors : List Behavior) (libraries : AList fun _ : String => Contract)
    (name : String) : Option Contract :=
  match behaviors.find? fun behavior => behavior.name = name with
  | some behavior => some behavior.contract
  | none => libraries.lookup name

/-- A local behavior of the first name requires the second. -/
def Requires (behaviors : List Behavior) (name dep : String) : Prop :=
  ∃ behavior ∈ behaviors, behavior.name = name ∧
    ∃ ref ∈ behavior.contract.requires.behaviors, ref.name = dep

/-- A name is that of a local behavior. -/
def IsLocal (behaviors : List Behavior) (name : String) : Prop :=
  ∃ behavior ∈ behaviors, behavior.name = name

/-- What the checks of a build promise of its behaviors. -/
structure SoundGraph (sha256 : List UInt8 → List UInt8) (behaviors : List Behavior)
    (libraries : AList fun _ : String => Contract) : Prop where
  resolved : ∀ behavior ∈ behaviors, ∀ ref ∈ behavior.contract.requires.behaviors,
    (resolve behaviors libraries ref.name).isSome
  pinned : ∀ behavior ∈ behaviors, ∀ ref ∈ behavior.contract.requires.behaviors, ref.hash ≠ "" →
    ∀ contract, resolve behaviors libraries ref.name = some contract →
      ref.hash = computeContractHash sha256 contract
  acyclic : ∀ name, ¬ TransGen (fun name dep => Requires behaviors name dep ∧ IsLocal behaviors dep)
    name name
  pure : ∀ behavior ∈ behaviors, .pure ∈ behavior.contract.guarantees → ∀ name,
    TransGen (Requires behaviors) behavior.name name → ∀ contract,
      resolve behaviors libraries name = some contract → .pure ∈ contract.guarantees

/-- A hash has digits when the digest has bytes. -/
theorem computeContractHash_ne_empty {sha256 : List UInt8 → List UInt8}
    (digest : ∀ bytes, (sha256 bytes).length = 32) (contract : Contract) :
    computeContractHash sha256 contract ≠ "" := by
  intro none
  have length := congrArg String.length none
  simp [computeContractHash, hexEncode, digest] at length

section Graph

variable {sha256 : List UInt8 → List UInt8} {behaviors : List Behavior}
  {libraries : AList fun _ : String => Contract}

/-- A local name stands for one behavior, and its node is found. -/
theorem find_of_mem (distinct : (behaviors.map Behavior.name).Nodup) {behavior : Behavior}
    (member : behavior ∈ behaviors) :
    (behaviors.find? fun other => other.name = behavior.name) = some behavior := by
  induction behaviors with
  | nil => simp at member
  | cons other rest ih =>
      obtain ⟨absent, distinct⟩ := List.nodup_cons.mp distinct
      obtain rfl | later := List.mem_cons.mp member
      · simp
      · have differs : other.name ≠ behavior.name := fun same =>
          absent (same ▸ List.mem_map_of_mem later)
        rw [List.find?_cons_of_neg (by simpa using differs)]
        exact ih distinct later

/-- The nodes of the graph of a build, one for each behavior. -/
theorem exists_node {behavior : Behavior} (member : behavior ∈ behaviors) :
    ∃ node ∈ (projectGraph sha256 behaviors libraries).behaviorNodes,
      behavior.IsNode sha256 node := by
  have matched := @behaviorNodes_projectGraph sha256 behaviors libraries
  obtain ⟨i, bound, rfl⟩ := List.mem_iff_getElem.mp (List.mem_reverse.mpr member)
  have bound' := matched.length_eq ▸ bound
  exact ⟨_, List.getElem_mem bound', matched.get bound bound'⟩

/-- Every node is made from a behavior. -/
theorem exists_behavior {node : BehaviorNode}
    (member : node ∈ (projectGraph sha256 behaviors libraries).behaviorNodes) :
    ∃ behavior ∈ behaviors, behavior.IsNode sha256 node := by
  have matched := @behaviorNodes_projectGraph sha256 behaviors libraries
  obtain ⟨i, bound, rfl⟩ := List.mem_iff_getElem.mp member
  have bound' := matched.length_eq.symm ▸ bound
  exact ⟨_, List.mem_reverse.mp (List.getElem_mem bound'), matched.get bound' bound⟩

/-- The names of the nodes are those of the behaviors, the last one first. -/
theorem names_behaviorNodes :
    (projectGraph sha256 behaviors libraries).behaviorNodes.map BehaviorNode.name =
      (behaviors.map Behavior.name).reverse := by
  have matched := @behaviorNodes_projectGraph sha256 behaviors libraries
  rw [← List.map_reverse]
  apply List.ext_getElem
  · rw [List.length_map, List.length_map, matched.length_eq]
  · intro i bound bound'
    rw [List.getElem_map, List.getElem_map]
    rw [List.length_map] at bound bound'
    exact (matched.get bound' bound).1

/-- A node that is found is a node of that name. -/
theorem findNode_name {graph : ProjectGraph} {name : String} {node : BehaviorNode}
    (found : graph.findNode name = some node) :
    node ∈ graph.behaviorNodes ∧ node.name = name :=
  ⟨List.mem_of_find?_eq_some found, by simpa using List.find?_some found⟩

/-- Finding a node by name finds the node of the behavior of that name. -/
theorem findNode_iff (distinct : (behaviors.map Behavior.name).Nodup) {name : String}
    {node : BehaviorNode} :
    (projectGraph sha256 behaviors libraries).findNode name = some node ↔
      node ∈ (projectGraph sha256 behaviors libraries).behaviorNodes ∧ node.name = name := by
  refine ⟨findNode_name, ?_⟩
  rintro ⟨member, rfl⟩
  have unique : ((projectGraph sha256 behaviors libraries).behaviorNodes.map
      BehaviorNode.name).Nodup := by
    rw [names_behaviorNodes]
    exact List.nodup_reverse.mpr distinct
  cases found : (projectGraph sha256 behaviors libraries).findNode node.name with
  | none =>
      have none := List.find?_eq_none.mp found node member
      simp at none
  | some other =>
      obtain ⟨member', same⟩ := findNode_name found
      rw [List.inj_on_of_nodup_map unique member' member same]

/-- The names that are found are the local ones. -/
theorem findNode_isSome_iff {name : String} :
    ((projectGraph sha256 behaviors libraries).findNode name).isSome ↔ IsLocal behaviors name := by
  constructor
  · intro found
    obtain ⟨node, found⟩ := Option.isSome_iff_exists.mp found
    obtain ⟨member, rfl⟩ := findNode_name found
    obtain ⟨behavior, member, isNode⟩ := exists_behavior member
    exact ⟨behavior, member, isNode.1.symm⟩
  · rintro ⟨behavior, member, rfl⟩
    obtain ⟨node, member, isNode⟩ := @exists_node sha256 _ libraries _ member
    exact List.find?_isSome.mpr ⟨node, member, by simpa using isNode.1⟩

/-- A name that is not local resolves in the libraries. -/
theorem resolve_of_not_local {name : String} (outside : ¬ IsLocal behaviors name) :
    resolve behaviors libraries name = libraries.lookup name := by
  have none : (behaviors.find? fun behavior => behavior.name = name) = none :=
    List.find?_eq_none.mpr fun behavior member same =>
      outside ⟨behavior, member, by simpa using same⟩
  rw [resolve, none]

/-- Looking a name up finds the current hash of what it resolves to. -/
theorem lookupHash_eq (distinct : (behaviors.map Behavior.name).Nodup) (name : String) :
    (projectGraph sha256 behaviors libraries).lookupHash name =
      (resolve behaviors libraries name).map (computeContractHash sha256) := by
  unfold ProjectGraph.lookupHash
  cases found : (projectGraph sha256 behaviors libraries).findNode name with
  | some node =>
      obtain ⟨member, rfl⟩ := findNode_name found
      obtain ⟨behavior, member, isNode⟩ := exists_behavior member
      rw [resolve, isNode.1, find_of_mem distinct member]
      simp [isNode.2.1]
  | none =>
      have outside : ¬ IsLocal behaviors name := by
        rw [← @findNode_isSome_iff sha256 _ libraries, found]
        simp
      rw [resolve_of_not_local outside, libraryNodes_projectGraph]
      cases libraries.lookup name <;> rfl

/-- A search over all requirements of all nodes is one over the references of all
behaviors. -/
theorem forall_requires_iff {P : String → DependencyRef → Prop} :
    (∀ node ∈ (projectGraph sha256 behaviors libraries).behaviorNodes, ∀ dep ∈ node.requires,
        P node.name dep) ↔
      ∀ behavior ∈ behaviors, ∀ ref ∈ behavior.contract.requires.behaviors,
        P behavior.name ⟨ref.name, ref.hash⟩ := by
  constructor
  · intro all behavior member ref required
    obtain ⟨node, member, isNode⟩ := @exists_node sha256 _ libraries _ member
    have here := all node member ⟨ref.name, ref.hash⟩ (by
      rw [isNode.2.2.2]
      exact List.mem_map_of_mem required)
    rwa [isNode.1] at here
  · intro all node member dep required
    obtain ⟨behavior, member, isNode⟩ := exists_behavior member
    rw [isNode.2.2.2] at required
    obtain ⟨ref, listed, rfl⟩ := List.mem_map.mp required
    rw [isNode.1]
    exact all behavior member ref listed

/-- The first check passes when every reference resolves. -/
theorem checkDependenciesResolve_eq_nil_iff (distinct : (behaviors.map Behavior.name).Nodup) :
    (projectGraph sha256 behaviors libraries).checkDependenciesResolve = [] ↔
      ∀ behavior ∈ behaviors, ∀ ref ∈ behavior.contract.requires.behaviors,
        (resolve behaviors libraries ref.name).isSome := by
  rw [← @forall_requires_iff sha256 _ libraries
    fun _ dep => (resolve behaviors libraries dep.name).isSome]
  simp only [ProjectGraph.checkDependenciesResolve, List.flatMap_eq_nil_iff, lookupHash_eq distinct,
    Option.isNone_map]
  refine forall₂_congr fun node _ => forall₂_congr fun dep _ => ?_
  cases resolve behaviors libraries dep.name <;> simp

/-- The second when every pin is the digest of its contract. -/
theorem checkHashConsistency_eq_nil_iff (distinct : (behaviors.map Behavior.name).Nodup)
    (digest : ∀ bytes, (sha256 bytes).length = 32) :
    (projectGraph sha256 behaviors libraries).checkHashConsistency = [] ↔
      ∀ behavior ∈ behaviors, ∀ ref ∈ behavior.contract.requires.behaviors, ref.hash ≠ "" →
        ∀ contract, resolve behaviors libraries ref.name = some contract →
          ref.hash = computeContractHash sha256 contract := by
  rw [← @forall_requires_iff sha256 _ libraries fun _ dep => dep.hash ≠ "" → ∀ contract,
      resolve behaviors libraries dep.name = some contract →
        dep.hash = computeContractHash sha256 contract]
  simp only [ProjectGraph.checkHashConsistency, List.flatMap_eq_nil_iff, lookupHash_eq distinct]
  refine forall₂_congr fun node _ => forall₂_congr fun dep _ => ?_
  by_cases unpinned : dep.hash = ""
  · simp [unpinned]
  · cases resolve behaviors libraries dep.name with
    | none => simp
    | some contract =>
        have digits := computeContractHash_ne_empty digest contract
        simp [unpinned, digits]

/-- The edges the cycle check follows. -/
theorem mem_adjacency_iff {name dep : String} :
    dep ∈ (projectGraph sha256 behaviors libraries).adjacency name ↔
      Requires behaviors name dep ∧ IsLocal behaviors dep := by
  simp only [ProjectGraph.adjacency, ProjectGraph.localDeps, List.mem_flatMap, List.mem_filter,
    List.mem_map, decide_eq_true_eq, findNode_isSome_iff]
  constructor
  · rintro ⟨node, ⟨member, rfl⟩, ⟨⟨ref, required, rfl⟩, isLocal⟩⟩
    obtain ⟨behavior, member, isNode⟩ := exists_behavior member
    rw [isNode.2.2.2] at required
    obtain ⟨ref, listed, rfl⟩ := List.mem_map.mp required
    exact ⟨⟨behavior, member, isNode.1.symm, ref, listed, rfl⟩, isLocal⟩
  · rintro ⟨⟨behavior, member, rfl, ref, listed, rfl⟩, isLocal⟩
    obtain ⟨node, member, isNode⟩ := @exists_node sha256 _ libraries _ member
    refine ⟨node, ⟨member, isNode.1⟩, ⟨⟨ref.name, ref.hash⟩, ?_, rfl⟩, isLocal⟩
    rw [isNode.2.2.2]
    exact List.mem_map_of_mem listed

/-- The third when no name requires itself. -/
theorem checkCircularDependencies_eq_nil_iff :
    (projectGraph sha256 behaviors libraries).checkCircularDependencies = [] ↔
      ∀ name, ¬ TransGen (fun name dep => Requires behaviors name dep ∧ IsLocal behaviors dep)
        name name := by
  have edges : (projectGraph sha256 behaviors libraries).LocallyRequires =
      fun name dep => Requires behaviors name dep ∧ IsLocal behaviors dep := by
    funext name dep
    exact propext (ProjectGraph.mem_adjacency_iff.symm.trans mem_adjacency_iff)
  rw [ProjectGraph.checkCircularDependencies_eq_nil_iff_noCycle, ProjectGraph.NoCycle, edges]

/-- The requirements the purity check follows. -/
theorem mem_requirementsOf_iff (distinct : (behaviors.map Behavior.name).Nodup)
    {name dep : String} :
    dep ∈ (projectGraph sha256 behaviors libraries).requirementsOf name ↔
      Requires behaviors name dep := by
  unfold ProjectGraph.requirementsOf
  constructor
  · intro member
    cases found : (projectGraph sha256 behaviors libraries).findNode name with
    | none => simp [found] at member
    | some node =>
        rw [found] at member
        obtain ⟨inGraph, rfl⟩ := findNode_name found
        obtain ⟨behavior, known, isNode⟩ := exists_behavior inGraph
        obtain ⟨ref, required, rfl⟩ := List.mem_map.mp member
        rw [isNode.2.2.2] at required
        obtain ⟨ref, listed, rfl⟩ := List.mem_map.mp required
        exact ⟨behavior, known, isNode.1.symm, ref, listed, rfl⟩
  · rintro ⟨behavior, known, rfl, ref, listed, rfl⟩
    obtain ⟨node, member, isNode⟩ := @exists_node sha256 _ libraries _ known
    rw [(findNode_iff distinct).mpr ⟨member, isNode.1⟩]
    dsimp only
    rw [isNode.2.2.2, List.map_map]
    exact List.mem_map_of_mem (f := DependencyRef.name ∘ fun ref => ⟨ref.name, ref.hash⟩) listed

/-- A name is impure when what it resolves to does not declare `pure`. -/
theorem isImpure_eq_false_iff (distinct : (behaviors.map Behavior.name).Nodup) {name : String} :
    (projectGraph sha256 behaviors libraries).isImpure name = false ↔
      ∀ contract, resolve behaviors libraries name = some contract →
        .pure ∈ contract.guarantees := by
  unfold ProjectGraph.isImpure
  cases found : (projectGraph sha256 behaviors libraries).findNode name with
  | some node =>
      obtain ⟨member, rfl⟩ := findNode_name found
      obtain ⟨behavior, member, isNode⟩ := exists_behavior member
      rw [resolve, isNode.1, find_of_mem distinct member]
      simp [isNode.2.2.1]
  | none =>
      have outside : ¬ IsLocal behaviors name := by
        rw [← @findNode_isSome_iff sha256 _ libraries, found]
        simp
      rw [resolve_of_not_local outside, libraryNodes_projectGraph]
      cases libraries.lookup name <;> simp [contractToRef]

/-- The nodes that names find are among the nodes, each once. -/
theorem sum_requirementsOf_le (graph : ProjectGraph) :
    ((graph.behaviorNodes.map BehaviorNode.name).dedup.map fun name =>
        (graph.requirementsOf name).length).sum ≤
      (graph.behaviorNodes.map fun node => node.requires.length).sum := by
  let names := (graph.behaviorNodes.map BehaviorNode.name).dedup
  have counted : ∀ name ∈ names, ∃ node, graph.findNode name = some node := by
    intro name member
    obtain ⟨node, inGraph, rfl⟩ := List.mem_map.mp (List.mem_dedup.mp member)
    refine Option.isSome_iff_exists.mp ?_
    rw [ProjectGraph.findNode, List.find?_isSome]
    exact ⟨node, inGraph, by simp⟩
  let found := names.filterMap graph.findNode
  have distinct : found.Nodup := by
    refine List.Nodup.filterMap ?_ (List.nodup_dedup _)
    intro name name' node one two
    rw [← (findNode_name one).2, (findNode_name two).2]
  have known : found ⊆ graph.behaviorNodes := by
    intro node member
    obtain ⟨name, _, one⟩ := List.mem_filterMap.mp member
    exact (findNode_name one).1
  have same : (names.map fun name => (graph.requirementsOf name).length) =
      found.map fun node => node.requires.length := by
    have all : ∀ front : List String, (∀ name ∈ front, ∃ node, graph.findNode name = some node) →
        (front.map fun name => (graph.requirementsOf name).length) =
          (front.filterMap graph.findNode).map fun node => node.requires.length := by
      intro front
      induction front with
      | nil => exact fun _ => rfl
      | cons name rest ih =>
          intro counted
          obtain ⟨⟨node, one⟩, counted⟩ := List.forall_mem_cons.mp counted
          rw [List.map_cons, ih counted, List.filterMap_cons_some one, List.map_cons,
            ProjectGraph.requirementsOf, one, List.length_map]
    exact all names counted
  rw [same]
  obtain ⟨order, permuted, inOrder⟩ := List.subperm_of_subset distinct known
  rw [← (permuted.map _).sum_eq]
  exact (inOrder.map _).sum_le_sum fun _ _ => Nat.zero_le _

/-- The purity search of a node has steps enough to finish. -/
theorem purity_finishes (graph : ProjectGraph) (node : BehaviorNode) :
    (firstBad graph.requirementsOf graph.isImpure (graph.purityFuel node)
      (node.requires.map DependencyRef.name).reverse []).isSome := by
  apply firstBad_isSome (List.nodup_dedup (graph.behaviorNodes.map BehaviorNode.name))
  · intro name absent
    have none : graph.findNode name = none := by
      cases found : graph.findNode name with
      | none => rfl
      | some node =>
          obtain ⟨member, rfl⟩ := findNode_name found
          exact absurd (List.mem_dedup.mpr (List.mem_map_of_mem member)) absent
    rw [ProjectGraph.requirementsOf, none]
  · have total := sum_requirementsOf_le graph
    unfold unexplored
    rw [List.filter_eq_self.mpr (by simp), List.length_reverse, List.length_map,
      ProjectGraph.purityFuel]
    omega

/-- Where the purity check is quiet, a `pure` node requires nothing impure. -/
theorem isImpure_of_checkTransitivePurity {graph : ProjectGraph}
    (quiet : graph.checkTransitivePurity = []) {node : BehaviorNode}
    (member : node ∈ graph.behaviorNodes) (pure : .pure ∈ node.guarantees) {ref : DependencyRef}
    (required : ref ∈ node.requires) : graph.isImpure ref.name = false := by
  obtain ⟨result, finished⟩ := Option.isSome_iff_exists.mp (purity_finishes graph node)
  have clean : result = none := by
    have here := List.flatMap_eq_nil_iff.mp quiet node
      (List.mem_filter.mpr ⟨member, by simpa using pure⟩)
    rw [finished] at here
    cases result with
    | none => rfl
    | some dep => cases here
  exact (firstBad_eq_none_iff finished).mp clean ref.name
    (List.mem_reverse.mpr (List.mem_map_of_mem required)) ref.name .refl

/-- A node has no purity error exactly when all it depends on is pure. -/
theorem purityError_eq_nil_iff (distinct : (behaviors.map Behavior.name).Nodup)
    {node : BehaviorNode}
    (member : node ∈ (projectGraph sha256 behaviors libraries).behaviorNodes) :
    (match firstBad (projectGraph sha256 behaviors libraries).requirementsOf
          (projectGraph sha256 behaviors libraries).isImpure
            ((projectGraph sha256 behaviors libraries).purityFuel node)
          (node.requires.map DependencyRef.name).reverse [] with
        | some (some dep) => [(⟨.transitivePurityViolation dep, node.name,
            s!"Behavior '{node.name}' declares 'pure' but depends on '{dep}' which is not pure. " ++
              "Pure behaviors cannot transitively depend on impure behaviors."⟩ : GraphError)]
        | _ => []) = [] ↔
      ∀ name, TransGen (Requires behaviors) node.name name → ∀ contract,
        resolve behaviors libraries name = some contract → .pure ∈ contract.guarantees := by
  obtain ⟨result, finished⟩ := Option.isSome_iff_exists.mp
    (purity_finishes (projectGraph sha256 behaviors libraries) node)
  have clean := firstBad_eq_none_iff finished
  have found : (projectGraph sha256 behaviors libraries).findNode node.name = some node :=
    (findNode_iff distinct).mpr ⟨member, rfl⟩
  have starts : ∀ start, start ∈ (node.requires.map DependencyRef.name).reverse ↔
      Requires behaviors node.name start := by
    intro start
    rw [← @mem_requirementsOf_iff sha256 _ libraries distinct, List.mem_reverse,
      ProjectGraph.requirementsOf, found]
  have none : result = none ↔ ∀ name, TransGen (Requires behaviors) node.name name → ∀ contract,
      resolve behaviors libraries name = some contract → .pure ∈ contract.guarantees := by
    rw [clean]
    simp only [starts, isImpure_eq_false_iff distinct, mem_requirementsOf_iff distinct]
    constructor
    · intro all name path
      obtain ⟨start, edge, rest⟩ := TransGen.head'_iff.mp path
      exact all start edge name rest
    · intro all start edge name path
      exact all name (TransGen.head'_iff.mpr ⟨start, edge, path⟩)
  rw [← none, finished]
  cases result <;> simp

/-- The last when what a pure behavior requires is pure. -/
theorem checkTransitivePurity_eq_nil_iff (distinct : (behaviors.map Behavior.name).Nodup) :
    (projectGraph sha256 behaviors libraries).checkTransitivePurity = [] ↔
      ∀ behavior ∈ behaviors, .pure ∈ behavior.contract.guarantees → ∀ name,
        TransGen (Requires behaviors) behavior.name name → ∀ contract,
          resolve behaviors libraries name = some contract → .pure ∈ contract.guarantees := by
  have each := @purityError_eq_nil_iff sha256 behaviors libraries distinct
  simp only [ProjectGraph.checkTransitivePurity, List.flatMap_eq_nil_iff, List.mem_filter,
    decide_eq_true_eq]
  constructor
  · intro quiet behavior member pure
    obtain ⟨node, inGraph, isNode⟩ := @exists_node sha256 _ libraries _ member
    have here := (each inGraph).mp (quiet node ⟨inGraph, isNode.2.2.1 ▸ pure⟩)
    rwa [isNode.1] at here
  · rintro sound node ⟨inGraph, pure⟩
    obtain ⟨behavior, member, isNode⟩ := exists_behavior inGraph
    refine (each inGraph).mpr ?_
    rw [isNode.1]
    exact sound behavior member (isNode.2.2.1 ▸ pure)

/-- A build's graph has no error exactly when it is sound. -/
theorem validateGraph_eq_nil_iff (distinct : (behaviors.map Behavior.name).Nodup)
    (digest : ∀ bytes, (sha256 bytes).length = 32) :
    (projectGraph sha256 behaviors libraries).validateGraph = [] ↔
      SoundGraph sha256 behaviors libraries := by
  simp only [ProjectGraph.validateGraph, List.append_eq_nil_iff,
    checkDependenciesResolve_eq_nil_iff distinct, checkHashConsistency_eq_nil_iff distinct digest,
    checkCircularDependencies_eq_nil_iff, checkTransitivePurity_eq_nil_iff distinct]
  constructor
  · rintro ⟨⟨⟨resolved, pinned⟩, acyclic⟩, pure⟩
    exact ⟨resolved, pinned, acyclic, pure⟩
  · rintro ⟨resolved, pinned, acyclic, pure⟩
    exact ⟨⟨⟨resolved, pinned⟩, acyclic⟩, pure⟩

end Graph

/-- `double` promises to be pure and requires `scale`, which is pure, with its hash pinned. -/
def pinnedBehaviors : List Behavior :=
  let promising (name : String) (requires : List BehaviorRef) : Behavior :=
    { name := name
      contract :=
        { inputs := [⟨"v", .int, 8⟩], outputs := [⟨"r", .int, 8⟩]
          requires := { behaviors := requires }, guarantees := [.pure] }
      hash := ""
      implementations := []
      composition := none }
  [promising "scale" [], promising "double" [⟨"scale", "ce35bcf9"⟩]]

/-- A reference whose pin is the digest of the contract. -/
theorem validateGraph_eq_nil_iff_pinned :
    (projectGraph Flow.Sha256.digest pinnedBehaviors ∅).validateGraph = [] ↔
      SoundGraph Flow.Sha256.digest pinnedBehaviors ∅ :=
  validateGraph_eq_nil_iff (by decide) Flow.Sha256.length_digest

end Sigil
