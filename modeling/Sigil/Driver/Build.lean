import Sigil.Codegen.Function
import Sigil.Driver.Load
import Sigil.Graph.Validate
import Sigil.Semantic.Analyze

/-!
# Building libraries and executables

The order in which the driver loads, analyzes and compiles the units of a build. Object
files are compiled one unit a module; linking and the object cache come after.
-/

namespace Sigil

open Flow

/-- Why a build stops. A rejected behavior keeps the errors the analyzer found. -/
inductive BuildError where
  | compiler (error : CompilerError)
  | rejected (name : String) (errors : List SemanticError)
  | entryComputes (errors : List SemanticError)
  | graph (errors : List GraphError)
  | codegen (name : String) (error : CodeGenError)

/-- A unit that is compiled to an object file, under the name it is built as. -/
inductive CodeUnit where
  | behavior (name : String) (behavior : Behavior)
  | pattern (name : String) (pattern : Pattern)
  | entry (executable : Executable)

/-- The function an object file was compiled to. -/
structure ObjectFile where
  source : CodeUnit
  function : EmittedFunction

/-- What a build did: the statement lists the analyzer checked, each with the unit it is a
body of, and the object files. -/
structure Build where
  analyzed : List (CodeUnit × List Node)
  objects : List ObjectFile

/-- A pattern file, with the ON_DESTROY block that is loaded for and never compiled. -/
structure PatternFile where
  pattern : Pattern
  onDestroy : List Node

/-- The registry of a linked library: the names of its behaviors, and the contracts of those
it has one for. -/
structure Library where
  symbols : List String
  contracts : Contracts

/-- What an executable is built from. -/
structure Project where
  executable : Executable
  uses : List String
  files : BehaviorFiles
  patternFiles : AList fun _ : String => Except CompilerError PatternFile
  libraries : List Library

section Units

variable (platform : TargetPlatform) (contracts : Contracts)

/-- Declare the required behaviors whose contracts are known. -/
def declareRequired : List BehaviorRef → Gen Unit
  | [] => return ()
  | req :: rest => do
      match contracts.lookup req.name with
      | some contract => Gen.declareExternalBehavior req.name contract
      | none => pure ()
      declareRequired rest

/-- Declare behaviors. -/
def declareBehaviors : List (Sigma fun _ : String => Contract) → Gen Unit
  | [] => return ()
  | entry :: rest => do
      Gen.declareExternalBehavior entry.1 entry.2
      declareBehaviors rest

/-- Declare patterns. -/
def declarePatterns : List (String × PatternFile) → Gen Unit
  | [] => return ()
  | entry :: rest => do
      Gen.declareExternalPattern entry.1 entry.2.pattern
      declarePatterns rest

/-- A behavior in a module with what it requires. -/
def behaviorModule (name : String) (behavior : Behavior) : Gen EmittedFunction := do
  declareRequired contracts behavior.contract.requires.behaviors
  Gen.compileFunction behavior name

/-- A pattern in a module with every behavior. -/
def patternModule (pattern : Pattern) : Gen EmittedFunction := do
  declareBehaviors contracts.entries
  Gen.compilePattern pattern

/-- ENTRY in a module with every behavior and pattern. -/
def entryModule (dependencies : List (String × LoadedFile)) (libraries : Contracts)
    (patterns : List (String × PatternFile)) (executable : Executable) : Gen EmittedFunction := do
  declareBehaviors (dependencies.map fun dep => ⟨dep.1, dep.2.behavior.contract⟩)
  declareBehaviors libraries.entries
  declarePatterns patterns
  Gen.compileExecutableMain executable

/-- Generate a module of its own for a unit. -/
def compileModule (name : String) (source : CodeUnit) (code : Gen EmittedFunction) :
    Except BuildError ObjectFile :=
  match code { platform := platform } with
  | .ok (function, _) => .ok ⟨source, function⟩
  | .error e => .error (.codegen name e)

def compileBehavior (name : String) (behavior : Behavior) : Except BuildError ObjectFile :=
  compileModule platform name (.behavior name behavior) (behaviorModule contracts name behavior)

end Units

/-- Run the analyzer on a behavior. No pattern is known to it. -/
def validateBehavior (sha256 : List UInt8 → List UInt8) (contracts : Contracts)
    (behavior : Behavior) : Except BuildError Unit :=
  match behavior.analyze sha256 contracts [] with
  | .ok () => .ok ()
  | .error errors => .error (.rejected behavior.name errors)

/-- The first behavior whose name an earlier one has. -/
def firstDuplicate : List String → List LoadedFile → Option LoadedFile
  | _, [] => none
  | seen, file :: rest =>
      if file.behavior.name ∈ seen then some file
      else firstDuplicate (file.behavior.name :: seen) rest

def duplicateError (file : LoadedFile) : BuildError :=
  let name := file.behavior.name
  let mangled := String.ofList (name.toList.map fun c => if c = '-' then '_' else c)
  .compiler
    { kind := .semantic
      message := s!"duplicate behavior name '{name}' ({file.path}): behavior names must be " ++
        "globally unique (two behaviors with the same name collide on the " ++
        s!"sigil_{mangled} symbol)" }

/-- Names are to be unique in a library. -/
def checkDistinct (files : List LoadedFile) : Except BuildError Unit :=
  match firstDuplicate [] files with
  | some file => .error (duplicateError file)
  | none => .ok ()

/-- A library has behaviors. -/
def checkNonempty (directory : String) (files : List LoadedFile) : Except BuildError Unit :=
  if files.isEmpty then
    .error (.compiler { kind := .cli, message := s!"No .beh files found in {directory}" })
  else .ok ()

/-- The contracts of some behaviors by their own names. -/
def contractsByName (files : List LoadedFile) : Contracts :=
  files.foldl (fun contracts file => contracts.insert file.behavior.name file.behavior.contract) ∅

/-- The bodies of a behavior that the analyzer checks. -/
def analyzedBodies (name : String) (behavior : Behavior) : List (CodeUnit × List Node) :=
  (behavior.implBody.toList ++ behavior.compBody.toList).map fun nodes =>
    (.behavior name behavior, nodes)

/-- The behaviors of a directory that are not NATIVE. -/
def compiledBehaviors (files : List LoadedFile) : List Behavior :=
  (files.map LoadedFile.behavior).filter fun behavior => !behavior.isNative

/-- `--lib`: the behaviors of a directory. The graph of what they require is not checked. -/
def compileLibrary (sha256 : List UInt8 → List UInt8) (platform : TargetPlatform)
    (directory : String) (files : List LoadedFile) : Except BuildError Build := do
  checkNonempty directory files
  let contracts := contractsByName files
  let compiled := compiledBehaviors files
  compiled.forM (validateBehavior sha256 contracts)
  checkDistinct files
  let objects ← compiled.mapM fun behavior => compileBehavior platform contracts behavior.name behavior
  return ⟨compiled.flatMap fun behavior => analyzedBodies behavior.name behavior, objects⟩

/-- The behaviors some statements CALL, outside SCOPE bodies and operands. -/
def collectCallBehaviors (nodes : List Node) (names : List String) : List String :=
  nodes.foldl (fun names node =>
    match node with
    | .call _ _ behavior _ _ | .assignment _ _ (.call behavior _) =>
        if behavior ∈ names then names else names ++ [behavior]
    | _ => names) names

mutual

/-- The patterns a statement SPAWNs. -/
def collectSpawnPattern : Node → List String → List String
  | .assignment _ _ (.spawn pattern _), names =>
      if pattern ∈ names then names else names ++ [pattern]
  | .scope _ nodes, names => collectSpawnPatterns nodes names
  | _, names => names

/-- The patterns some statements SPAWN. -/
def collectSpawnPatterns : List Node → List String → List String
  | [], names => names
  | node :: rest, names => collectSpawnPatterns rest (collectSpawnPattern node names)

end

/-- Find and parse the patterns of some names, each once. -/
def loadPatterns (missing : String → String)
    (files : AList fun _ : String => Except CompilerError PatternFile) :
    List String → List (String × PatternFile) → Except CompilerError (List (String × PatternFile))
  | [], patterns => .ok patterns
  | name :: rest, patterns =>
      if name ∈ patterns.map Prod.fst then loadPatterns missing files rest patterns
      else match files.lookup name with
        | none => .error { kind := .load, message := missing name }
        | some (.error e) => .error e
        | some (.ok file) => loadPatterns missing files rest (patterns ++ [(name, file)])

/-- Everything an executable is compiled with. -/
structure LoadedProject where
  dependencies : List (String × LoadedFile)
  patterns : List (String × PatternFile)

namespace Project

/-- The names of all library behaviors. -/
def librarySymbols (project : Project) : List String := project.libraries.flatMap Library.symbols

/-- The contracts of all libraries; of two with one name the later one counts. -/
def libraryContracts (project : Project) : Contracts :=
  project.libraries.foldl (fun contracts library =>
    library.contracts.entries.foldl (fun contracts entry => contracts.insert entry.1 entry.2)
      contracts) ∅

/-- Load behaviors by name, one after another. -/
def loadBehaviors (project : Project) (steps : Nat) (names : List String) (loader : Loader) :
    Outcome BuildError Loader :=
  each (fun name loader =>
    (loadBehaviorByName project.files project.librarySymbols steps name loader).mapError .compiler)
    names loader

/-- Patterns that USES lists or ENTRY spawns. -/
def loadAllPatterns (project : Project) : Except CompilerError (List (String × PatternFile)) := do
  let used ← loadPatterns (fun name => s!"Could not find pattern from USES: {name}")
    project.patternFiles project.uses []
  loadPatterns (fun name => s!"Could not find pattern: {name}") project.patternFiles
    (collectSpawnPatterns project.executable.entry []) used

/-- Load what ENTRY calls, the patterns, and what these call. -/
def load (project : Project) (steps : Nat) : Outcome BuildError LoadedProject :=
  (project.loadBehaviors steps (collectCallBehaviors project.executable.entry []) {}).bind
    fun loader =>
      match project.loadAllPatterns with
      | .error e => .failed (.compiler e)
      | .ok patterns =>
          let called := patterns.foldl (fun names entry =>
            collectCallBehaviors entry.2.onDestroy
              (collectCallBehaviors entry.2.pattern.onCreate names)) []
          (project.loadBehaviors steps called loader).bind fun loader =>
            .done ⟨loader.items, patterns⟩

end Project

/-- Every error of the graph is fatal. -/
def checkGraph (graph : ProjectGraph) : Except BuildError Unit :=
  let errors := graph.validateGraph
  if errors.isEmpty then .ok () else .error (.graph errors)

namespace LoadedProject

variable (loaded : LoadedProject) (sha256 : List UInt8 → List UInt8) (platform : TargetPlatform)
  (libraries : Contracts)

/-- The behaviors that were loaded, without the names they were loaded by. -/
def behaviors : List Behavior := loaded.dependencies.map fun dep => dep.2.behavior

/-- Contracts by the names behaviors were loaded by; libraries add what is missing. -/
def dependencyContracts : Contracts :=
  libraries.entries.foldl
    (fun contracts entry =>
      if entry.1 ∈ contracts then contracts else contracts.insert entry.1 entry.2)
    (loaded.dependencies.foldl
      (fun contracts dep => contracts.insert dep.1 dep.2.behavior.contract) ∅)

/-- The same with library contracts in place of those of one name. -/
def allContracts : Contracts :=
  libraries.entries.foldl (fun contracts entry => contracts.insert entry.1 entry.2)
    (loaded.dependencyContracts libraries)

/-- Analyze the behaviors, check their graph, and compile the behaviors, the patterns and
ENTRY. -/
def compile (executable : Executable) : Except BuildError Build := do
  loaded.behaviors.forM (validateBehavior sha256 (loaded.dependencyContracts libraries))
  checkGraph (projectGraph sha256 loaded.behaviors libraries)
  let contracts := loaded.allContracts libraries
  let behaviors ← loaded.dependencies.mapM fun dep =>
    compileBehavior platform contracts dep.1 dep.2.behavior
  let patterns ← loaded.patterns.mapM fun entry =>
    compileModule platform entry.1 (.pattern entry.1 entry.2.pattern)
      (patternModule contracts entry.2.pattern)
  let entry ← compileModule platform executable.name (.entry executable)
    (entryModule loaded.dependencies libraries loaded.patterns executable)
  return ⟨loaded.dependencies.flatMap fun dep => analyzedBodies dep.1 dep.2.behavior,
    behaviors ++ patterns ++ [entry]⟩

end LoadedProject

/-- What ENTRY computes itself. -/
def checkEntryIsComposite (entry : List Node) : List SemanticError :=
  (Analyzer.checkCompositePurity entry { ctx := .bare }).errors

/-- An executable up to linking. Loading may need more steps than it is given. -/
def compileExecutable (sha256 : List UInt8 → List UInt8) (platform : TargetPlatform)
    (project : Project) (steps : Nat) : Outcome BuildError Build :=
  let violations := checkEntryIsComposite project.executable.entry
  if !violations.isEmpty then .failed (.entryComputes violations)
  else (project.load steps).bind fun loaded =>
    match loaded.compile sha256 platform project.libraryContracts project.executable with
    | .error e => .failed e
    | .ok build => .done build

/-- What the compiler is run on. -/
inductive Program where
  | library (directory : String) (files : List LoadedFile)
  | executable (project : Project)

/-- A program compiles without error. -/
def Program.Compiles (sha256 : List UInt8 → List UInt8) (platform : TargetPlatform) (build : Build) :
    Program → Prop
  | library directory files => compileLibrary sha256 platform directory files = .ok build
  | executable project => ∃ steps, compileExecutable sha256 platform project steps = .done build

end Sigil
