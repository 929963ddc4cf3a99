import Sigil.Driver.Contracts
import Sigil.Graph.Sound

/-!
# Purity across libraries

The graph of a build knows what local behaviors require, under the names they declare. What
library behaviors require is in their contracts, which the graph does not follow.
-/

namespace Sigil

open Flow Relation

variable {sha256 : List UInt8 → List UInt8} {platform : TargetPlatform} {build : Build}

namespace LoadedProject

variable (loaded : LoadedProject) (libraries : Contracts)

/-- The contract of the behavior a name stands for in a build. -/
def contractOf (name : String) : Option Contract :=
  (loaded.dependencyContracts libraries).lookup name

/-- The contract of the first name requires the second. -/
def Requires (name dep : String) : Prop :=
  ∃ contract, loaded.contractOf libraries name = some contract ∧
    ∃ req ∈ contract.requires.behaviors, req.name = dep

/-- Whatever behavior a name stands for declares `pure`. -/
def IsPure (name : String) : Prop :=
  ∀ contract, loaded.contractOf libraries name = some contract → .pure ∈ contract.guarantees

/-- Everything a `pure` behavior requires, directly or through others, is `pure`. -/
def TransitivelyPure : Prop :=
  ∀ name contract, loaded.contractOf libraries name = some contract → .pure ∈ contract.guarantees →
    ∀ dep, ReflTransGen (loaded.Requires libraries) name dep → loaded.IsPure libraries dep

/-- The behavior that was loaded by a name is the one that declares it. -/
def NamedAsLoaded (name : String) : Prop :=
  ∀ dep ∈ loaded.dependencies, dep.1 = name ↔ dep.2.behavior.name = name

/-- What the graph does not see is `pure` all the same: the requirements of `pure` library
behaviors, and those of `pure` local ones that are loaded by another name than they
declare. -/
structure UnseenPure : Prop where
  library : ∀ name ∉ loaded.dependencies.map Prod.fst, ∀ contract,
    libraries.lookup name = some contract → .pure ∈ contract.guarantees →
      ∀ req ∈ contract.requires.behaviors, loaded.IsPure libraries req.name
  renamed : ∀ dep ∈ loaded.dependencies, .pure ∈ dep.2.behavior.contract.guarantees →
    ∀ req ∈ dep.2.behavior.contract.requires.behaviors, ¬ loaded.NamedAsLoaded req.name →
      loaded.IsPure libraries req.name

variable {loaded libraries}

/-- It is enough that what a `pure` behavior requires itself is `pure`. -/
theorem transitivelyPure_iff : loaded.TransitivelyPure libraries ↔
    ∀ name contract, loaded.contractOf libraries name = some contract →
      .pure ∈ contract.guarantees → ∀ req ∈ contract.requires.behaviors,
        loaded.IsPure libraries req.name := by
  constructor
  · intro transitive name contract known pure req required
    exact transitive name contract known pure req.name
      (.single ⟨contract, known, req, required, rfl⟩)
  · intro direct name contract known pure dep path
    induction path with
    | refl =>
        intro contract' known'
        cases known.symm.trans known'
        exact pure
    | tail _ edge ih =>
        obtain ⟨user, knownUser, req, required, rfl⟩ := edge
        exact direct _ user knownUser (ih user knownUser) req required

/-- A name that is not impure in the graph is `pure`, where it is loaded as it is declared. -/
theorem isPure_of_graph (distinct : loaded.Distinct) {name : String}
    (same : loaded.NamedAsLoaded name)
    (clean : (projectGraph sha256 loaded.behaviors libraries).isImpure name = false) :
    loaded.IsPure libraries name := by
  intro contract known
  unfold ProjectGraph.isImpure at clean
  obtain ⟨dep, listed, here, rfl⟩ | ⟨absent, library⟩ :=
    (lookup_dependencyContracts_iff distinct).mp known
  · have declared : dep.2.behavior.name = name := (same dep listed).mp here
    cases found : (projectGraph sha256 loaded.behaviors libraries).findNode name with
    | none =>
        have isLocal : IsLocal loaded.behaviors name :=
          ⟨dep.2.behavior, List.mem_map_of_mem listed, declared⟩
        rw [← @findNode_isSome_iff sha256 _ libraries, found] at isLocal
        cases isLocal
    | some node =>
        obtain ⟨member, named⟩ := findNode_name found
        obtain ⟨behavior, known', isNode⟩ := exists_behavior member
        obtain ⟨other, listed', rfl⟩ := List.mem_map.mp known'
        have here' : other.1 = name := (same other listed').mpr (isNode.1.symm.trans named)
        have one : other = dep := List.inj_on_of_nodup_map distinct listed' listed
          (here'.trans here.symm)
        rw [found] at clean
        simpa [isNode.2.2.1, one] using clean
  · have outside : (projectGraph sha256 loaded.behaviors libraries).findNode name = none := by
      cases found : (projectGraph sha256 loaded.behaviors libraries).findNode name with
      | none => rfl
      | some node =>
          obtain ⟨member, named⟩ := findNode_name found
          obtain ⟨behavior, known', isNode⟩ := exists_behavior member
          obtain ⟨other, listed, rfl⟩ := List.mem_map.mp known'
          have here : other.1 = name := (same other listed).mpr (isNode.1.symm.trans named)
          exact absurd (here ▸ List.mem_map_of_mem listed) absent
    rw [outside, libraryNodes_projectGraph, library] at clean
    simpa [contractToRef] using clean

/-- A valid graph has seen everything `pure` behaviors require except what is listed as
unseen. -/
theorem transitivelyPure_of_graph (distinct : loaded.Distinct)
    (valid : (projectGraph sha256 loaded.behaviors libraries).validateGraph = []) :
    loaded.TransitivelyPure libraries ↔ loaded.UnseenPure libraries := by
  rw [transitivelyPure_iff]
  have quiet : (projectGraph sha256 loaded.behaviors libraries).checkTransitivePurity = [] :=
    (List.append_eq_nil_iff.mp valid).2
  constructor
  · intro direct
    refine ⟨fun name absent contract known pure => direct name contract
      ((lookup_dependencyContracts_iff distinct).mpr (.inr ⟨absent, known⟩)) pure,
      fun dep listed pure req required _ => direct dep.1 _
        ((lookup_dependencyContracts_iff distinct).mpr (.inl ⟨dep, listed, rfl, rfl⟩)) pure req
          required⟩
  · intro unseen name contract known pure req required
    obtain ⟨dep, listed, rfl, rfl⟩ | ⟨absent, library⟩ :=
      (lookup_dependencyContracts_iff distinct).mp known
    · by_cases same : loaded.NamedAsLoaded req.name
      · obtain ⟨node, member, isNode⟩ := @exists_node sha256 loaded.behaviors libraries
          dep.2.behavior (List.mem_map_of_mem listed)
        have required' : ⟨req.name, req.hash⟩ ∈ node.requires := by
          rw [isNode.2.2.2]
          exact List.mem_map_of_mem required
        exact isPure_of_graph distinct same
          (isImpure_of_checkTransitivePurity quiet member (isNode.2.2.1 ▸ pure) required')
      · exact unseen.renamed dep listed pure req required same
    · exact unseen.library name absent contract library pure req required

end LoadedProject

/-- In an executable that compiles, `pure` behaviors require `pure` ones only, exactly when
this holds of the requirements the graph does not see. -/
theorem transitivelyPure_iff_unseenPure {project : Project} {steps : Nat} {loaded : LoadedProject}
    (loads : project.load steps = .done loaded)
    (compiles : (Program.executable project).Compiles sha256 platform build) :
    loaded.TransitivelyPure project.libraryContracts ↔
      loaded.UnseenPure project.libraryContracts := by
  obtain ⟨steps', done⟩ := compiles
  obtain ⟨_, loaded', loads', compiled⟩ := compileExecutable_done.mp done
  obtain rfl := Project.load_unique loads loads'
  exact LoadedProject.transitivelyPure_of_graph (Project.load_distinct loads)
    (LoadedProject.compile_ok compiled).2.1

/-- A composition that calls one behavior, pinned by its hash. -/
def forwarder (name : String) (dep : BehaviorRef) (hash : String) : Behavior where
  name := name
  contract := { inputs := [], outputs := [], requires := { behaviors := [dep] }, guarantees :=
    [.pure] }
  hash := hash
  implementations := []
  composition := some ⟨[.call 6 none dep.name [] []]⟩

/-- A behavior that does nothing and promises nothing. -/
def idleBehavior (name hash : String) : Behavior where
  name := name
  contract := { inputs := [], outputs := [], guarantees := [] }
  hash := hash
  implementations := [⟨none, []⟩]
  composition := none

def lastBehavior : Behavior := idleBehavior "last" "bc7c374b"

def middleBehavior : Behavior := forwarder "middle" ⟨"last", "bc7c374b"⟩ "dba061d3"

def firstBehavior : Behavior := forwarder "first" ⟨"middle", "dba061d3"⟩ "b9a207a2"

/-- SHA-256 of the three contracts. -/
def linkedDigest (bytes : List UInt8) : List UInt8 :=
  if bytes = lastBehavior.contract.hashInput then
    [188, 124, 55, 75, 142, 85, 38, 60, 218, 55, 155, 5, 26, 63, 73, 193, 139, 232, 73, 251, 19, 54,
      131, 232, 148, 252, 100, 44, 230, 92, 248, 1]
  else if bytes = middleBehavior.contract.hashInput then
    [219, 160, 97, 211, 171, 110, 118, 182, 246, 25, 113, 64, 40, 14, 162, 183, 154, 28, 189,
      19, 184,
      146, 13, 199, 25, 127, 26, 208, 10, 221, 152, 98]
  else if bytes = firstBehavior.contract.hashInput then
    [185, 162, 7, 162, 119, 198, 159, 157, 184, 4, 245, 16, 170, 197, 57, 217, 10, 253, 111,
      219, 195,
      26, 98, 15, 89, 68, 31, 39, 43, 199, 27, 164]
  else []

/-- A library in which `middle` is `pure` and calls `last`, which is not. -/
def impureLibrary : List LoadedFile :=
  [⟨"lib/last.beh", lastBehavior⟩, ⟨"lib/middle.beh", middleBehavior⟩]

/-- An executable whose `pure` behavior `first` calls `middle` of that library. -/
def linkedProject : Project where
  executable := { name := "app", entry := [.call 3 none "first" [] []] }
  uses := []
  files := (∅ : BehaviorFiles).insert "first" ⟨"first.beh", .ok firstBehavior⟩
  patternFiles := ∅
  libraries := [⟨["last", "middle"], contractsByName impureLibrary⟩]

def linkedLoaded : LoadedProject where
  dependencies := [("first", ⟨"first.beh", firstBehavior⟩)]
  patterns := []

/-- The project `linkedProject` loads its dependency. -/
theorem linkedProject_loads : linkedProject.load 1 = .done linkedLoaded := rfl

/-- The project `linkedProject` is built. -/
theorem linkedProject_compiles :
    ∃ build, (Program.executable linkedProject).Compiles linkedDigest .linux build := by
  obtain ⟨build, done⟩ := Outcome.exists_of_isDone
    (show (compileExecutable linkedDigest .linux linkedProject 1).isDone = true by decide +kernel)
  exact ⟨build, 1, done⟩

/-- An executable with a library. -/
theorem transitivelyPure_iff_unseenPure_linked :
    linkedLoaded.TransitivelyPure linkedProject.libraryContracts ↔
      linkedLoaded.UnseenPure linkedProject.libraryContracts := by
  obtain ⟨build, compiles⟩ := linkedProject_compiles
  exact transitivelyPure_iff_unseenPure linkedProject_loads compiles

/-- The library and the executable compile, and `first`, which is `pure`, reaches `last`,
which is not. -/
theorem linkedProject_impure :
    (∃ build, (Program.library "lib" impureLibrary).Compiles linkedDigest .linux build) ∧
      (∃ build, (Program.executable linkedProject).Compiles linkedDigest .linux build) ∧
      linkedProject.load 1 = .done linkedLoaded ∧
      ¬ linkedLoaded.TransitivelyPure linkedProject.libraryContracts := by
  refine ⟨exists_ok_of_isOk (by decide +kernel), linkedProject_compiles, linkedProject_loads,
    fun transitive => ?_⟩
  have first : linkedLoaded.Requires linkedProject.libraryContracts "first" "middle" :=
    ⟨_, rfl, _, List.mem_singleton_self _, rfl⟩
  have middle : linkedLoaded.Requires linkedProject.libraryContracts "middle" "last" :=
    ⟨_, rfl, _, List.mem_singleton_self _, rfl⟩
  have pure := transitive "first" _ rfl (by decide) "last" (.tail (.single first) middle) _ rfl
  revert pure
  decide

end Sigil
