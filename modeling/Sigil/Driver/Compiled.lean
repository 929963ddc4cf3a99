import Sigil.Driver.Build

/-!
# Builds that succeed

What a program that compiles has gone through, and the units its object files come from.
-/

namespace Sigil

open Flow

variable {sha256 : List UInt8 → List UInt8} {platform : TargetPlatform} {build : Build}

/-- The object file of a unit holds the function its module returns. -/
theorem compileModule_ok {name : String} {source : CodeUnit} {code : Gen EmittedFunction}
    {object : ObjectFile} (compiled : compileModule platform name source code = .ok object) :
    object.source = source ∧ ∃ cg, Returns code { platform := platform } object.function cg := by
  unfold compileModule at compiled
  cases run : code { platform := platform } with
  | error e => rw [run] at compiled; cases compiled
  | ok result =>
      rw [run] at compiled
      cases compiled
      exact ⟨rfl, result.2, run⟩

/-- A behavior that is compiled was generated without an error. -/
theorem compileBehavior_ok {contracts : Contracts} {name : String} {behavior : Behavior}
    {object : ObjectFile} (compiled : compileBehavior platform contracts name behavior = .ok object) :
    object.source = .behavior name behavior ∧
      ∃ cg, Returns (behaviorModule contracts name behavior) { platform := platform }
        object.function cg :=
  compileModule_ok compiled

/-- The check for duplicates passes exactly when there is none. -/
theorem checkDistinct_ok_iff {files : List LoadedFile} :
    checkDistinct files = .ok () ↔ firstDuplicate [] files = none := by
  unfold checkDistinct
  cases firstDuplicate [] files <;> simp

/-- The check of the graph passes exactly when it has no error. -/
theorem checkGraph_ok_iff {graph : ProjectGraph} :
    checkGraph graph = .ok () ↔ graph.validateGraph = [] := by
  unfold checkGraph
  cases graph.validateGraph <;> simp

/-- What a library that compiles has gone through. -/
theorem compileLibrary_ok {directory : String} {files : List LoadedFile}
    (compiled : compileLibrary sha256 platform directory files = .ok build) :
    (∀ behavior ∈ compiledBehaviors files,
      validateBehavior sha256 (contractsByName files) behavior = .ok ()) ∧
    firstDuplicate [] files = none ∧
    List.Forall₂ (fun behavior object =>
        compileBehavior platform (contractsByName files) behavior.name behavior = .ok object)
      (compiledBehaviors files) build.objects ∧
    build.analyzed =
      (compiledBehaviors files).flatMap fun behavior => analyzedBodies behavior.name behavior := by
  obtain ⟨_, _, compiled⟩ := bind_eq_ok_iff.mp compiled
  obtain ⟨_, valid, compiled⟩ := bind_eq_ok_iff.mp compiled
  obtain ⟨_, distinct, compiled⟩ := bind_eq_ok_iff.mp compiled
  obtain ⟨objects, compiledEach, compiled⟩ := bind_eq_ok_iff.mp compiled
  cases compiled
  exact ⟨forM_eq_ok_iff.mp valid, checkDistinct_ok_iff.mp distinct,
    mapM_eq_ok_iff.mp compiledEach, rfl⟩

/-- The units an executable is compiled from. -/
def LoadedProject.units (loaded : LoadedProject) (executable : Executable) : List CodeUnit :=
  (loaded.dependencies.map fun dep => .behavior dep.1 dep.2.behavior) ++
    (loaded.patterns.map fun entry => .pattern entry.1 entry.2.pattern) ++ [.entry executable]

/-- The name a unit is built as. -/
def CodeUnit.name : CodeUnit → String
  | .behavior name _ | .pattern name _ => name
  | .entry executable => executable.name

/-- The module of a unit of an executable. -/
def LoadedProject.moduleOf (loaded : LoadedProject) (libraries : Contracts) :
    CodeUnit → Gen EmittedFunction
  | .behavior name source => behaviorModule (loaded.allContracts libraries) name source
  | .pattern _ source => patternModule (loaded.allContracts libraries) source
  | .entry executable => entryModule loaded.dependencies libraries loaded.patterns executable

/-- What an executable that compiles has gone through. -/
theorem LoadedProject.compile_ok {loaded : LoadedProject} {libraries : Contracts}
    {executable : Executable}
    (compiled : loaded.compile sha256 platform libraries executable = .ok build) :
    (∀ behavior ∈ loaded.behaviors,
      validateBehavior sha256 (loaded.dependencyContracts libraries) behavior = .ok ()) ∧
    (projectGraph sha256 loaded.behaviors libraries).validateGraph = [] ∧
    List.Forall₂ (fun unit object =>
        compileModule platform unit.name unit (loaded.moduleOf libraries unit) = .ok object)
      (loaded.units executable) build.objects ∧
    build.analyzed = loaded.dependencies.flatMap fun dep => analyzedBodies dep.1 dep.2.behavior := by
  obtain ⟨_, valid, compiled⟩ := bind_eq_ok_iff.mp compiled
  obtain ⟨_, sound, compiled⟩ := bind_eq_ok_iff.mp compiled
  obtain ⟨behaviors, compiledBehaviors, compiled⟩ := bind_eq_ok_iff.mp compiled
  obtain ⟨patterns, compiledPatterns, compiled⟩ := bind_eq_ok_iff.mp compiled
  obtain ⟨entry, compiledEntry, compiled⟩ := bind_eq_ok_iff.mp compiled
  cases compiled
  refine ⟨forM_eq_ok_iff.mp valid, checkGraph_ok_iff.mp sound, ?_, rfl⟩
  refine List.rel_append (List.rel_append ?_ ?_) (.cons compiledEntry .nil)
  · exact List.forall₂_map_left_iff.mpr (mapM_eq_ok_iff.mp compiledBehaviors)
  · exact List.forall₂_map_left_iff.mpr (mapM_eq_ok_iff.mp compiledPatterns)

/-- An executable is built exactly when every phase passes. -/
theorem compileExecutable_done {project : Project} {steps : Nat} :
    compileExecutable sha256 platform project steps = .done build ↔
      checkEntryIsComposite project.executable.entry = [] ∧
      ∃ loaded, project.load steps = .done loaded ∧
        loaded.compile sha256 platform project.libraryContracts project.executable = .ok build := by
  unfold compileExecutable
  cases violations : checkEntryIsComposite project.executable.entry with
  | cons e errors => simp
  | nil =>
      simp only [List.isEmpty_nil, Bool.not_true, Bool.false_eq_true, if_false, true_and,
        Outcome.bind_eq_done_iff]
      refine exists_congr fun loaded => and_congr_right fun _ => ?_
      cases loaded.compile sha256 platform project.libraryContracts project.executable <;> simp

/-- Loading by name does not depend on the steps it is given, once they suffice. -/
theorem Project.loadBehaviors_unique {project : Project} {steps steps' : Nat} {names : List String}
    {loader one other : Loader} (first : project.loadBehaviors steps names loader = .done one)
    (second : project.loadBehaviors steps' names loader = .done other) : one = other := by
  induction names generalizing loader with
  | nil =>
      cases first
      cases second
      rfl
  | cons name rest ih =>
      obtain ⟨next, here, later⟩ := Outcome.bind_eq_done_iff.mp first
      obtain ⟨next', here', later'⟩ := Outcome.bind_eq_done_iff.mp second
      have loaded := Outcome.mapError_eq_done_iff.mp here
      have loaded' := Outcome.mapError_eq_done_iff.mp here'
      obtain rfl := loadBehaviorByName_unique loaded loaded'
      exact ih later later'

/-- A project loads to one set of units. -/
theorem Project.load_unique {project : Project} {steps steps' : Nat} {one other : LoadedProject}
    (first : project.load steps = .done one) (second : project.load steps' = .done other) :
    one = other := by
  obtain ⟨called, entryLoaded, first⟩ := Outcome.bind_eq_done_iff.mp first
  obtain ⟨called', entryLoaded', second⟩ := Outcome.bind_eq_done_iff.mp second
  obtain rfl := loadBehaviors_unique entryLoaded entryLoaded'
  split at first
  · cases first
  next patterns found =>
    obtain ⟨loader, patternsLoaded, first⟩ := Outcome.bind_eq_done_iff.mp first
    rw [found] at second
    obtain ⟨loader', patternsLoaded', second⟩ := Outcome.bind_eq_done_iff.mp second
    obtain rfl := loadBehaviors_unique patternsLoaded patternsLoaded'
    cases first
    cases second
    rfl

/-- Loading by name keeps what is listed in step with what is loaded. -/
theorem Project.loadBehaviors_settled {project : Project} {steps : Nat} {names : List String}
    {loader after : Loader} (loads : project.loadBehaviors steps names loader = .done after)
    (settled : Settled BehaviorRef.name (openDependency project.files project.librarySymbols)
      LoadedFile.requires loader) :
    Settled BehaviorRef.name (openDependency project.files project.librarySymbols)
      LoadedFile.requires after :=
  each_preserves (I := Settled BehaviorRef.name
      (openDependency project.files project.librarySymbols) LoadedFile.requires)
    (fun _ _ _ _ settled loaded => settled_of_visit consistent_openDependency
      bounded_openDependency settled (Outcome.mapError_eq_done_iff.mp loaded)) settled loads

/-- A project is loaded in the order of its requirements, each name once. -/
theorem Project.load_ordered {project : Project} {steps : Nat} {loaded : LoadedProject}
    (loads : project.load steps = .done loaded) :
    Ordered BehaviorRef.name (openDependency project.files project.librarySymbols)
      LoadedFile.requires loaded.dependencies := by
  obtain ⟨called, entryLoaded, loads⟩ := Outcome.bind_eq_done_iff.mp loads
  split at loads
  · cases loads
  next patterns found =>
    obtain ⟨loader, patternsLoaded, loads⟩ := Outcome.bind_eq_done_iff.mp loads
    cases loads
    exact (loadBehaviors_settled patternsLoaded (loadBehaviors_settled entryLoaded .start)).ordered

/-- The units a program is compiled from. -/
def Program.Units : Program → List CodeUnit → Prop
  | library _ files, units =>
      units = files.map fun file => .behavior file.behavior.name file.behavior
  | executable project, units => ∃ steps loaded, project.load steps = .done loaded ∧
      units = loaded.units project.executable

/-- A NATIVE behavior has no code of its own. -/
def CodeUnit.IsNative : CodeUnit → Prop
  | .behavior _ source => source.isNative
  | .pattern _ _ | .entry _ => False

/-- The statement lists of a unit that the analyzer checks. -/
def CodeUnit.analyzedBodies : CodeUnit → List (List Node)
  | .behavior _ source => source.implBody.toList ++ source.compBody.toList
  | .pattern _ _ | .entry _ => []

/-- What object files and analyzed bodies are to the units of a program. -/
structure Build.Covers (build : Build) (units : List CodeUnit) : Prop where
  sources : ∀ object ∈ build.objects, object.source ∈ units
  compiled : ∀ unit ∈ units, ¬ unit.IsNative → ∃ object ∈ build.objects, object.source = unit
  analyzed : ∀ object ∈ build.objects, ∀ nodes,
    (object.source, nodes) ∈ build.analyzed ↔ nodes ∈ object.source.analyzedBodies

/-- The analyzed bodies of a behavior are those of its implementations. -/
theorem mem_analyzedBodies_iff {name : String} {behavior : Behavior} {unit : CodeUnit}
    {nodes : List Node} : (unit, nodes) ∈ analyzedBodies name behavior ↔
      unit = .behavior name behavior ∧ nodes ∈ unit.analyzedBodies := by
  unfold analyzedBodies
  constructor
  · intro member
    obtain ⟨nodes', listed, same⟩ := List.mem_map.mp member
    cases same
    exact ⟨rfl, listed⟩
  · rintro ⟨rfl, listed⟩
    exact List.mem_map_of_mem listed

/-- A library is built from its files. -/
theorem covers_of_compileLibrary {directory : String} {files : List LoadedFile}
    (compiled : compileLibrary sha256 platform directory files = .ok build) :
    build.Covers (files.map fun file => .behavior file.behavior.name file.behavior) := by
  obtain ⟨_, _, objects, analyzed⟩ := compileLibrary_ok compiled
  have source : ∀ object ∈ build.objects, ∃ behavior ∈ compiledBehaviors files,
      object.source = .behavior behavior.name behavior := by
    intro object member
    obtain ⟨behavior, listed, compiled⟩ := exists_mem_of_forall₂_right objects member
    exact ⟨behavior, listed, (compileBehavior_ok compiled).1⟩
  refine ⟨fun object member => ?_, fun unit member other => ?_, fun object member nodes => ?_⟩
  · obtain ⟨behavior, listed, same⟩ := source object member
    obtain ⟨file, known, rfl⟩ := List.mem_map.mp (List.mem_of_mem_filter listed)
    exact List.mem_map.mpr ⟨file, known, same.symm⟩
  · obtain ⟨file, known, rfl⟩ := List.mem_map.mp member
    have listed : file.behavior ∈ compiledBehaviors files :=
      List.mem_filter.mpr ⟨List.mem_map_of_mem known, by simpa [CodeUnit.IsNative] using other⟩
    obtain ⟨object, member, compiled⟩ := exists_mem_of_forall₂_left objects listed
    exact ⟨object, member, (compileBehavior_ok compiled).1⟩
  · obtain ⟨behavior, listed, same⟩ := source object member
    rw [analyzed, List.mem_flatMap]
    constructor
    · rintro ⟨behavior', _, inside⟩
      exact (mem_analyzedBodies_iff.mp inside).2
    · intro inside
      exact ⟨behavior, listed, mem_analyzedBodies_iff.mpr ⟨same, inside⟩⟩

/-- An executable is built from what is loaded for it. -/
theorem LoadedProject.covers_of_compile {loaded : LoadedProject} {libraries : Contracts}
    {executable : Executable}
    (compiled : loaded.compile sha256 platform libraries executable = .ok build) :
    build.Covers (loaded.units executable) := by
  obtain ⟨_, _, objects, analyzed⟩ := compile_ok compiled
  have source : ∀ object ∈ build.objects, object.source ∈ loaded.units executable := by
    intro object member
    obtain ⟨unit, listed, compiled⟩ := exists_mem_of_forall₂_right objects member
    rw [(compileModule_ok compiled).1]
    exact listed
  refine ⟨source, fun unit member _ => ?_, fun object member nodes => ?_⟩
  · obtain ⟨object, listed, compiled⟩ := exists_mem_of_forall₂_left objects member
    exact ⟨object, listed, (compileModule_ok compiled).1⟩
  · rw [analyzed, List.mem_flatMap]
    constructor
    · rintro ⟨dep, _, inside⟩
      exact (mem_analyzedBodies_iff.mp inside).2
    · intro inside
      have listed := source object member
      simp only [units, List.mem_append, List.mem_map, List.mem_singleton] at listed
      obtain (⟨dep, known, same⟩ | ⟨entry, _, same⟩) | same := listed
      · exact ⟨dep, known, mem_analyzedBodies_iff.mpr ⟨same.symm, inside⟩⟩
      · rw [← same] at inside
        cases inside
      · rw [same] at inside
        cases inside

/-- A build that succeeds covers the units of its program. -/
theorem Program.Compiles.covers {program : Program} {units : List CodeUnit}
    (compiles : program.Compiles sha256 platform build) (loaded : program.Units units) :
    build.Covers units := by
  cases program with
  | library directory files => exact loaded ▸ covers_of_compileLibrary compiles
  | executable project =>
      obtain ⟨steps, done⟩ := compiles
      obtain ⟨_, project', load, compiled⟩ := compileExecutable_done.mp done
      obtain ⟨steps', project'', load', rfl⟩ := loaded
      obtain rfl := Project.load_unique load load'
      exact LoadedProject.covers_of_compile compiled

/-- A program that is built has units. -/
theorem Program.Compiles.exists_units {program : Program}
    (compiles : program.Compiles sha256 platform build) : ∃ units, program.Units units := by
  cases program with
  | library directory files => exact ⟨_, rfl⟩
  | executable project =>
      obtain ⟨steps, done⟩ := compiles
      obtain ⟨_, loaded, load, _⟩ := compileExecutable_done.mp done
      exact ⟨_, steps, loaded, load, rfl⟩

/-- Every behavior of a program that is not NATIVE has been compiled in a module. -/
theorem Program.Compiles.returns_behaviorModule {program : Program} {units : List CodeUnit}
    (compiles : program.Compiles sha256 platform build) (loaded : program.Units units) {name : String}
    {behavior : Behavior} (member : .behavior name behavior ∈ units)
    (notNative : behavior.isNative = false) : ∃ contracts function cg,
      Returns (behaviorModule contracts name behavior) { platform := platform } function cg := by
  cases program with
  | library directory files =>
      obtain ⟨_, _, objects, _⟩ := compileLibrary_ok compiles
      obtain rfl : units = files.map fun file => .behavior file.behavior.name file.behavior := loaded
      obtain ⟨file, known, same⟩ := List.mem_map.mp member
      cases same
      have listed : file.behavior ∈ compiledBehaviors files :=
        List.mem_filter.mpr ⟨List.mem_map_of_mem known, by simp [notNative]⟩
      obtain ⟨object, _, compiled⟩ := exists_mem_of_forall₂_left objects listed
      obtain ⟨_, cg, returned⟩ := compileBehavior_ok compiled
      exact ⟨_, _, cg, returned⟩
  | executable project =>
      obtain ⟨steps, done⟩ := compiles
      obtain ⟨_, project', load, compiled⟩ := compileExecutable_done.mp done
      obtain ⟨steps', project'', load', rfl⟩ := loaded
      obtain rfl := Project.load_unique load load'
      obtain ⟨_, _, objects, _⟩ := LoadedProject.compile_ok compiled
      obtain ⟨object, _, compiled⟩ := exists_mem_of_forall₂_left objects member
      obtain ⟨_, cg, returned⟩ := compileModule_ok compiled
      exact ⟨_, _, cg, returned⟩

end Sigil
