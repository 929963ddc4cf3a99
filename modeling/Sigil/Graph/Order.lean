import Sigil.Graph.Validate
import Sigil.Graph.Edges

/-!
# The order of compilation

`topological_sort` lists local behaviors after what they require. The check for cycles eliminates
names and the sort node IDs, from opposite ends; they agree on every graph of distinct names.
-/

namespace Sigil

open Flow Relation

section Counting

/-- A sum over distinct names with one summand that counts. -/
theorem sum_map_single {names : List String} (distinct : names.Nodup) {only : String}
    (member : only ∈ names) (amount : Nat) :
    (names.map fun name => if name = only then amount else 0).sum = amount := by
  induction names with
  | nil => simp at member
  | cons name rest ih =>
      obtain ⟨absent, distinct⟩ := List.nodup_cons.mp distinct
      rw [List.map_cons, List.sum_cons]
      by_cases same : name = only
      · have none : (rest.map fun other => if other = only then amount else 0).sum = 0 := by
          rw [List.sum_eq_zero]
          intro summand listed
          obtain ⟨other, known, rfl⟩ := List.mem_map.mp listed
          refine if_neg fun again => absent ?_
          rwa [same, ← again]
        rw [if_pos same, none, Nat.add_zero]
      · rw [if_neg same, Nat.zero_add]
        exact ih distinct (List.mem_of_ne_of_mem (Ne.symm same) member)

/-- Counting over all nodes is counting over the nodes of each name. -/
theorem count_flatMap_eq_sum {nodes : List BehaviorNode} {names : List String}
    (distinct : names.Nodup)
    (named : ∀ node ∈ nodes, node.name ∈ names) (deps : BehaviorNode → List String) (dep : String) :
    (nodes.flatMap deps).count dep = (names.map fun name =>
      ((nodes.filter fun node => node.name = name).flatMap deps).count dep).sum := by
  induction nodes with
  | nil => simp
  | cons node rest ih =>
      obtain ⟨here, later⟩ := List.forall_mem_cons.mp named
      have split : ∀ name, (((node :: rest).filter fun node => node.name = name).flatMap deps).count
          dep = (if name = node.name then (deps node).count dep else 0) +
            ((rest.filter fun node => node.name = name).flatMap deps).count dep := by
        intro name
        by_cases same : node.name = name
        · simp [same]
        · simp [same, Ne.symm same]
      simp only [split, List.sum_map_add, sum_map_single distinct here, List.flatMap_cons,
        List.count_append, ih later]

/-- Counting every value that may occur is counting all. -/
theorem sum_count_eq_length {V : Type*} [DecidableEq V] {vertices l : List V}
    (distinct : vertices.Nodup)
    (inside : ∀ v ∈ l, v ∈ vertices) : (vertices.map fun v => l.count v).sum = l.length := by
  have total := @Multiset.sum_count_eq_card _ _ vertices.toFinset (l : Multiset V)
    (by simpa using inside)
  rw [List.sum_toFinset _ distinct] at total
  simpa using total

end Counting

namespace ProjectGraph

section Sorting

variable (graph : ProjectGraph)

/-- A local behavior by name, as a node ID. -/
def findNodeId (name : String) : Option Nat := (graph.findNode name).map BehaviorNode.id

/-- The local behaviors a node requires, once for each reference. -/
def localDepIds (node : BehaviorNode) : List Nat :=
  node.requires.filterMap fun dep => graph.findNodeId dep.name

/-- The nodes that require a node, once for each reference. -/
def dependents (id : Nat) : List Nat :=
  graph.behaviorNodes.flatMap fun node => List.replicate ((graph.localDepIds node).count id) node.id

/-- The number of local references of a node. -/
def idDegree (id : Nat) : Nat :=
  ((graph.behaviorNodes.filter fun node => node.id = id).map fun node =>
    (graph.localDepIds node).length).sum

/-- The local behaviors, each after what it requires, or those left in cycles. `ids` is the order
in which the hash map of in-degrees yields its keys. -/
def topologicalSort (ids : List Nat) : Except (List String) (List Nat) :=
  match eliminate graph.dependents (ids.length + 1) (ids.filter fun id => graph.idDegree id = 0)
      graph.idDegree [] with
  | none => .error []
  | some (order, degrees) =>
      if order.length < ids.length then
        .error ((ids.filter fun id => degrees id > 0).filterMap fun id =>
          (graph.nodes.lookup id).map BehaviorNode.name)
      else .ok order

def DistinctNames : Prop := (graph.behaviorNodes.map BehaviorNode.name).Nodup

/-- A local behavior requires another one. -/
def LocallyRequires (name dep : String) : Prop :=
  ∃ node ∈ graph.behaviorNodes, node.name = name ∧ ∃ ref ∈ node.requires, ref.name = dep ∧
    ∃ other ∈ graph.behaviorNodes, other.name = dep

/-- A node requires another one. -/
def DependsOn (id dep : Nat) : Prop :=
  ∃ node ∈ graph.behaviorNodes, node.id = id ∧ ∃ ref ∈ node.requires,
    ∃ other ∈ graph.behaviorNodes, other.name = ref.name ∧ other.id = dep

/-- No local behavior requires itself, directly or through others. -/
def NoCycle : Prop := ∀ name, ¬ TransGen graph.LocallyRequires name name

end Sorting

variable {graph : ProjectGraph} {ids : List Nat} {name dep : String} {id id' : Nat}
  {node : BehaviorNode}

section Names

/-- A node that is found is a node of that name. -/
theorem findNode_some (found : graph.findNode name = some node) :
    node ∈ graph.behaviorNodes ∧ node.name = name :=
  ⟨List.mem_of_find?_eq_some found, by simpa using List.find?_some found⟩

/-- A name is found when a node has it. -/
theorem findNode_isSome_iff : (graph.findNode name).isSome ↔ ∃ node ∈ graph.behaviorNodes,
    node.name = name := by
  simp [findNode]

/-- The local dependencies are the required names that nodes have. -/
theorem mem_localDeps_iff : dep ∈ graph.localDeps node ↔ ∃ ref ∈ node.requires, ref.name = dep ∧
    ∃ other ∈ graph.behaviorNodes, other.name = dep := by
  rw [localDeps, List.mem_filter, List.mem_map, findNode_isSome_iff]
  constructor
  · rintro ⟨⟨ref, required, rfl⟩, local_⟩
    exact ⟨ref, required, rfl, local_⟩
  · rintro ⟨ref, required, rfl, local_⟩
    exact ⟨⟨ref, required, rfl⟩, local_⟩

/-- The edges of the sort are the local requirements. -/
theorem mem_adjacency_iff : dep ∈ graph.adjacency name ↔ graph.LocallyRequires name dep := by
  simp only [adjacency, List.mem_flatMap, List.mem_filter, decide_eq_true_eq, mem_localDeps_iff,
    and_assoc,
    LocallyRequires]

/-- Every node has a degree. -/
theorem name_mem_degreeNames (member : node ∈ graph.behaviorNodes) :
    node.name ∈ graph.degreeNames :=
  List.mem_dedup.mpr (List.mem_flatMap.mpr ⟨node, member, List.mem_cons_self⟩)

/-- So has what it requires. -/
theorem mem_degreeNames_of_adjacency (edge : dep ∈ graph.adjacency name) :
    dep ∈ graph.degreeNames := by
  obtain ⟨node, found, dep⟩ := List.mem_flatMap.mp edge
  exact List.mem_dedup.mpr (List.mem_flatMap.mpr
    ⟨node, (List.mem_filter.mp found).1, List.mem_cons_of_mem _ dep⟩)

/-- A name without a degree has no edges. -/
theorem adjacency_eq_nil (absent : name ∉ graph.degreeNames) : graph.adjacency name = [] := by
  have none : (graph.behaviorNodes.filter fun node => node.name = name) = [] := by
    rw [List.filter_eq_nil_iff]
    intro node member same
    exact absent ((by simpa using same : node.name = name) ▸ name_mem_degreeNames member)
  rw [adjacency, none, List.flatMap_nil]

/-- A cycle is reported exactly when there is one. -/
theorem checkCircularDependencies_eq_nil_iff_noCycle :
    graph.checkCircularDependencies = [] ↔ graph.NoCycle := by
  have counts : ∀ w ∈ graph.degreeNames, graph.inDegrees w =
    inDegree graph.adjacency graph.degreeNames [] w := by
    intro w _
    unfold inDegree
    rw [List.filter_eq_self.mpr (by simp)]
    exact count_flatMap_eq_sum (List.nodup_dedup _) (fun _ => name_mem_degreeNames) _ _
  have distinct : graph.degreeNames.Nodup := List.nodup_dedup _
  have closed : ∀ u ∈ graph.degreeNames, ∀ w ∈ graph.adjacency u, w ∈ graph.degreeNames :=
    fun _ _ _ => mem_degreeNames_of_adjacency
  have outside : ∀ u, u ∉ graph.degreeNames → graph.adjacency u = [] := fun _ => adjacency_eq_nil
  obtain ⟨sorted, degrees, finished, all⟩ := eliminate_sorts_iff distinct closed outside counts
  have acyclic : Acyclic graph.adjacency ↔ graph.NoCycle := by
    simp only [Acyclic, mem_adjacency_iff, NoCycle]
  rw [← acyclic, ← all]
  unfold checkCircularDependencies
  dsimp only
  rw [finished]
  dsimp only
  split
  next fewer => exact iff_of_false (by simp) (by omega)
  next enough => exact iff_of_true rfl (by omega)

end Names

section Keys

/-- The id of a node is a key. -/
theorem id_mem_keys (keyed : graph.Keyed) (member : node ∈ graph.behaviorNodes) :
    node.id ∈ graph.nodes.keys := by
  obtain ⟨entry, inside, rfl⟩ := List.mem_map.mp member
  rw [keyed entry inside]
  exact List.mem_map_of_mem inside

/-- Nodes of one name are one node. -/
theorem eq_of_name_eq (distinct : graph.DistinctNames) {other : BehaviorNode}
    (member : node ∈ graph.behaviorNodes)
    (member' : other ∈ graph.behaviorNodes) (same : node.name = other.name) : node = other :=
  List.inj_on_of_nodup_map distinct member member' same

/-- The id that is found for a name is that of its node. -/
theorem findNodeId_eq_some_iff (distinct : graph.DistinctNames) :
    graph.findNodeId name = some id ↔ ∃ node ∈ graph.behaviorNodes, node.name = name ∧ node.id =
      id := by
  unfold findNodeId
  rw [Option.map_eq_some_iff]
  constructor
  · rintro ⟨node, found, same⟩
    exact ⟨node, (findNode_some found).1, (findNode_some found).2, same⟩
  · rintro ⟨node, member, named, same⟩
    obtain ⟨other, found⟩ := Option.isSome_iff_exists.mp
      (findNode_isSome_iff.mpr ⟨node, member, named⟩)
    obtain ⟨member', named'⟩ := findNode_some found
    exact ⟨other, found, eq_of_name_eq distinct member' member (named'.trans named.symm) ▸ same⟩

/-- The ids of the local dependencies. -/
theorem mem_localDepIds_iff (distinct : graph.DistinctNames) : id ∈ graph.localDepIds node ↔
    ∃ ref ∈ node.requires, ∃ other ∈ graph.behaviorNodes, other.name = ref.name ∧ other.id =
      id := by
  simp only [localDepIds, List.mem_filterMap, findNodeId_eq_some_iff distinct]

/-- The dependents are those that depend on a node. -/
theorem mem_dependents_iff (distinct : graph.DistinctNames) :
    id ∈ graph.dependents id' ↔ graph.DependsOn id id' := by
  simp only [dependents, DependsOn, List.mem_flatMap, List.mem_replicate,
    ← mem_localDepIds_iff distinct,
    ne_eq, List.count_eq_zero, not_not]
  refine exists_congr fun node => and_congr_right fun _ => ?_
  rw [and_comm, eq_comm]

end Keys

section Eliminated

/-- The id of a dependency is a key. -/
theorem mem_ids_of_localDepIds (keyed : graph.Keyed) (distinct : graph.DistinctNames)
    (member : id ∈ graph.localDepIds node) : id ∈ graph.nodes.keys := by
  obtain ⟨_, _, other, inside, _, rfl⟩ := (mem_localDepIds_iff distinct).mp member
  exact id_mem_keys keyed inside

/-- The degrees of the sort count the edges between nodes. -/
theorem idDegree_eq (keyed : graph.Keyed) (distinct : graph.DistinctNames)
    (order : ids.Perm graph.nodes.keys)
    (id : Nat) : graph.idDegree id = inDegree graph.dependents ids [] id := by
  have vertices : ids.Nodup := order.nodup_iff.mpr graph.nodes.keys_nodup
  have total : ∀ node, (ids.map fun dep => (graph.localDepIds node).count dep).sum =
    (graph.localDepIds node).length :=
    fun node => sum_count_eq_length vertices fun dep member =>
      order.mem_iff.mpr (mem_ids_of_localDepIds keyed distinct member)
  have all : ids.filter (· ∉ ([] : List Nat)) = ids := List.filter_eq_self.mpr (by simp)
  unfold inDegree idDegree dependents
  rw [all]
  induction graph.behaviorNodes with
  | nil => simp
  | cons node nodes ih =>
      simp only [List.flatMap_cons, List.count_append, List.sum_map_add, ← ih, List.count_replicate]
      by_cases here : node.id = id
      · simp [here, total]
      · simp [here]

/-- The sort ends with an elimination of the IDs. -/
theorem topologicalSort_eq (keyed : graph.Keyed) (distinct : graph.DistinctNames)
    (order : ids.Perm graph.nodes.keys) :
    ∃ sorted degrees, Eliminating graph.dependents ids [] degrees sorted ∧
      ((∀ id ∈ ids, id ∈ sorted) ↔ Acyclic graph.dependents) ∧
      graph.topologicalSort ids = if sorted.length < ids.length then
        .error ((ids.filter fun id => degrees id > 0).filterMap fun id =>
          (graph.nodes.lookup id).map BehaviorNode.name)
      else .ok sorted := by
  have vertices : ids.Nodup := order.nodup_iff.mpr graph.nodes.keys_nodup
  have closed : ∀ u ∈ ids, ∀ w ∈ graph.dependents u, w ∈ ids := by
    intro u _ w edge
    obtain ⟨node, member, rfl, _⟩ := (mem_dependents_iff distinct).mp edge
    exact order.mem_iff.mpr (id_mem_keys keyed member)
  have outside : ∀ u, u ∉ ids → graph.dependents u = [] := by
    intro u absent
    rw [List.eq_nil_iff_forall_not_mem]
    intro w edge
    obtain ⟨_, _, _, _, _, other, member, _, rfl⟩ := (mem_dependents_iff distinct).mp edge
    exact absent (order.mem_iff.mpr (id_mem_keys keyed member))
  obtain ⟨sorted, degrees, finished, state⟩ := (eliminating_start vertices
    fun w _ => idDegree_eq keyed distinct order w).finishes vertices closed
      (Nat.lt_succ_self ids.length)
  refine ⟨sorted, degrees, state, state.all_sorted_iff closed outside, ?_⟩
  rw [topologicalSort, finished]

end Eliminated

section Cycles

/-- The name of a node. -/
def nameOf (graph : ProjectGraph) (id : Nat) : String :=
    ((graph.nodes.lookup id).map BehaviorNode.name).getD ""

/-- The name of an id is that of its node. -/
theorem nameOf_id (keyed : graph.Keyed) (member : node ∈ graph.behaviorNodes) :
    graph.nameOf node.id = node.name := by
  obtain ⟨entry, inside, rfl⟩ := List.mem_map.mp member
  have found : graph.nodes.lookup entry.1 = some entry.2 := AList.mem_lookup_iff.mpr inside
  rw [nameOf, keyed entry inside, found]
  rfl

/-- The id of a name is that of its node. -/
theorem findNodeId_name (distinct : graph.DistinctNames) (member : node ∈ graph.behaviorNodes) :
    (graph.findNodeId node.name).getD 0 = node.id := by
  rw [(findNodeId_eq_some_iff distinct).mpr ⟨node, member, rfl, rfl⟩]
  rfl

/-- A cycle of nodes is one of names. -/
theorem acyclic_dependents_iff (keyed : graph.Keyed) (distinct : graph.DistinctNames) :
    Acyclic graph.dependents ↔ graph.NoCycle := by
  have named : ∀ id dep, graph.DependsOn id dep →
    graph.LocallyRequires (graph.nameOf id) (graph.nameOf dep) := by
    rintro id dep ⟨node, member, rfl, ref, required, other, member', same, rfl⟩
    rw [nameOf_id keyed member, nameOf_id keyed member']
    exact ⟨node, member, rfl, ref, required, same.symm, other, member', rfl⟩
  have numbered : ∀ name dep, graph.LocallyRequires name dep →
      graph.DependsOn ((graph.findNodeId name).getD 0) ((graph.findNodeId dep).getD 0) := by
    rintro name dep ⟨node, member, rfl, ref, required, rfl, other, member', same⟩
    rw [findNodeId_name distinct member, ← same, findNodeId_name distinct member']
    exact ⟨node, member, rfl, ref, required, other, member', same, rfl⟩
  have swapped : ∀ id, TransGen (fun u w => w ∈ graph.dependents u) id id ↔
    TransGen graph.DependsOn id id := by
    intro id
    rw [← transGen_swap]
    simp only [mem_dependents_iff distinct]
  simp only [Acyclic, NoCycle, swapped]
  constructor
  · intro acyclic name cycle
    exact acyclic _ (cycle.lift _ numbered)
  · intro acyclic id cycle
    exact acyclic _ (cycle.lift _ named)

end Cycles

/-- The order is complete and has every node after what it requires. -/
structure Compilable (graph : ProjectGraph) (order : List Nat) : Prop where
  complete : order.Perm graph.nodes.keys
  after : ∀ before id rest, order = before ++ id :: rest → ∀ dep, graph.DependsOn id dep →
    dep ∈ before

/-- The sort succeeds exactly on the graphs without cycles, where the check reports none. -/
theorem topologicalSort_spec (keyed : graph.Keyed) (distinct : graph.DistinctNames)
    (order : ids.Perm graph.nodes.keys) :
    ((∃ sorted, graph.topologicalSort ids = .ok sorted) ↔ graph.NoCycle) ∧
      (∀ sorted, graph.topologicalSort ids = .ok sorted → graph.Compilable sorted) ∧
      ((∃ cycle, graph.topologicalSort ids = .error cycle) ↔
        graph.checkCircularDependencies ≠ []) := by
  have vertices : ids.Nodup := order.nodup_iff.mpr graph.nodes.keys_nodup
  obtain ⟨sorted, degrees, state, all, result⟩ := topologicalSort_eq keyed distinct order
  rw [acyclic_dependents_iff keyed distinct] at all
  have nodup : sorted.Nodup := state.nodup.of_append_left
  have inside : sorted ⊆ ids := fun id member => state.inside id (List.mem_append_left _ member)
  rw [Ne, checkCircularDependencies_eq_nil_iff_noCycle, ← all, result]
  by_cases fewer : sorted.length < ids.length
  · have missing : ¬ ∀ id ∈ ids, id ∈ sorted :=
      fun every => fewer.not_ge (vertices.subperm every).length_le
    rw [if_pos fewer]
    exact ⟨iff_of_false (by simp) missing, by simp, iff_of_true ⟨_, rfl⟩ missing⟩
  · have same : sorted.Perm ids := (nodup.subperm inside).perm_of_length_le (Nat.le_of_not_lt fewer)
    have every : ∀ id ∈ ids, id ∈ sorted := fun id member => same.mem_iff.mpr member
    rw [if_neg fewer]
    refine ⟨iff_of_true ⟨_, rfl⟩ every, ?_, iff_of_false (by simp) (not_not.mpr every)⟩
    rintro _ ⟨rfl⟩
    refine ⟨same.trans order, fun before id rest split dep depends => ?_⟩
    refine state.ordered before id rest split dep ?_ ((mem_dependents_iff distinct).mpr depends)
    obtain ⟨_, _, _, _, _, other, member, _, rfl⟩ := depends
    exact order.mem_iff.mpr (id_mem_keys keyed member)

/-- A behavior that requires another one, twice, and a missing one. -/
def chainGraph : ProjectGraph :=
  [.addNode { id := 1, name := "user", requires := [⟨"used", ""⟩, ⟨"used", ""⟩, ⟨"absent", ""⟩] },
    .addNode { id := 2, name := "used" }].foldl (GraphOp.run fun _ => []) {}

/-- Two nodes, one of which requires the other. -/
theorem topologicalSort_spec_chain :
    ((∃ sorted, chainGraph.topologicalSort [1, 2] = .ok sorted) ↔ chainGraph.NoCycle) ∧
      (∀ sorted, chainGraph.topologicalSort [1, 2] = .ok sorted → chainGraph.Compilable sorted) ∧
      ((∃ cycle, chainGraph.topologicalSort [1, 2] = .error cycle) ↔
        chainGraph.checkCircularDependencies ≠ []) :=
  topologicalSort_spec (by unfold Keyed; decide +kernel)
    (by unfold DistinctNames; decide +kernel) (by decide +kernel)

example : (chainGraph.topologicalSort [1, 2]).toOption = some [2, 1] := by decide +kernel

end ProjectGraph

end Sigil
