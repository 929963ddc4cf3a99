import Sigil.Codegen.Callees
import Sigil.Driver.Contracts
import Sigil.Driver.Analyzed

/-!
# The object cache

A build of an executable keeps the objects of its units in the output directory, with a
manifest that says what each was compiled from. A later build takes an object again when the
file and the dependencies of the unit have the hashes in the manifest.
-/

namespace Sigil

open Flow Gen

mutual

/-- The patterns a statement SPAWNs, in SCOPE and in operands too. -/
def Node.spawns : Node → List String
  | .scope _ nodes => bodySpawns nodes
  | .spawn _ _ pattern args => (Expr.spawn pattern args).spawned
  | node => node.exprs.flatMap Expr.spawned

def bodySpawns : List Node → List String
  | [] => []
  | node :: rest => node.spawns ++ bodySpawns rest

end

/-- What a source file is parsed to. -/
inductive UnitAst where
  | behavior (source : Behavior)
  | pattern (source : Pattern)
  | entry (executable : Executable)

namespace CodeUnit

variable (platform : TargetPlatform)

def ast : CodeUnit → UnitAst
  | .behavior _ source => .behavior source
  | .pattern _ source => .pattern source
  | .entry executable => .entry executable

/-- The names a unit CALLs, at any depth. -/
def callees (unit : CodeUnit) : List String := bodyCalls ((unit.body platform).getD [])

/-- The patterns a unit SPAWNs, at any depth. -/
def spawnedPatterns (unit : CodeUnit) : List String := bodySpawns ((unit.body platform).getD [])

end CodeUnit

/-- What the manifest keeps of a unit. -/
structure CacheEntry where
  sourceHash : String
  contractHash : String
  depsHash : String
  objectPath : String

abbrev CacheManifest := AList fun _ : String => CacheEntry

section Hashes

variable (sha256 : List UInt8 → List UInt8)

/-- The digest of a file. -/
def computeSourceHash (contents : List UInt8) : String := hexEncode (sha256 contents)

/-- Dependencies in the order of their names. -/
def sortedDeps (deps : List (String × String)) : List (String × String) :=
  deps.mergeSort fun a b => a.1 ≤ b.1

/-- The text of a dependency and its hash. -/
def depLine (dep : String × String) : List UInt8 :=
  utf8Bytes dep.1 ++ utf8Bytes "@" ++ utf8Bytes dep.2 ++ utf8Bytes "\n"

/-- The digest of the contract hashes of dependencies. -/
def computeDepsHash (deps : List (String × String)) : String :=
  if deps.isEmpty then "none"
  else hexEncode ((sha256 ((sortedDeps deps).flatMap depLine)).take 8)

end Hashes

/-- The file an object is written to. -/
def objectPath (name sourceHash : String) : String :=
  name ++ "_" ++ String.ofList (sourceHash.toList.take 16) ++ ".o"

/-- An executable that is analyzed without error, with the contents of the files its units
were parsed from. -/
structure SourceBuild (sha256 : List UInt8 → List UInt8) (parse : List UInt8 → Option UnitAst) where
  project : Project
  loaded : LoadedProject
  text : CodeUnit → List UInt8
  composite : checkEntryIsComposite project.executable.entry = []
  loads : ∃ steps, project.load steps = .done loaded
  valid : ∀ behavior ∈ loaded.behaviors,
    validateBehavior sha256 (loaded.dependencyContracts project.libraryContracts) behavior = .ok ()
  sound : (projectGraph sha256 loaded.behaviors project.libraryContracts).validateGraph = []
  parsed : ∀ unit ∈ loaded.units project.executable, parse (text unit) = some unit.ast

variable {sha256 : List UInt8 → List UInt8} {parse : List UInt8 → Option UnitAst}

/-- What the code of a unit is generated from: its AST, the contracts of what it CALLs and
the MEMORY of what it SPAWNs. -/
structure CodegenInputs where
  ast : UnitAst
  contracts : List (String × Option Contract)
  layouts : List (String × Option (List MemoryDecl))

/-- The build that wrote an object file, and the unit it was compiled from. -/
structure Written (sha256 : List UInt8 → List UInt8) (parse : List UInt8 → Option UnitAst) where
  build : SourceBuild sha256 parse
  unit : CodeUnit

/-- The cache in an output directory. -/
structure Disk (sha256 : List UInt8 → List UInt8) (parse : List UInt8 → Option UnitAst) where
  manifest : CacheManifest
  objects : AList fun _ : String => Written sha256 parse

/-- Whether a unit is to be compiled again. -/
def Disk.needsRecompile (disk : Disk sha256 parse) (name sourceHash contractHash depsHash : String) :
    Bool :=
  match disk.manifest.lookup name with
  | none => true
  | some entry =>
      if entry.sourceHash ≠ sourceHash then true
      else if entry.contractHash ≠ contractHash then true
      else if entry.depsHash ≠ depsHash then true
      else if entry.objectPath ∉ disk.objects then true
      else false

/-- How far a build has come: the cache, what was not compiled again with the object that is
linked in its place, and the error that has stopped it. -/
structure Progress (sha256 : List UInt8 → List UInt8) (parse : List UInt8 → Option UnitAst) where
  disk : Disk sha256 parse
  reused : List (CodeUnit × Option (Written sha256 parse)) := []
  error : Option BuildError := none

namespace SourceBuild

variable (platform : TargetPlatform) (build : SourceBuild sha256 parse)

def units : List CodeUnit := build.loaded.units build.project.executable

/-- The contract a unit is compiled with for a name it CALLs. -/
def contractOf : CodeUnit → String → Option Contract
  | .entry _, name => (build.loaded.dependencyContracts build.project.libraryContracts).lookup name
  | .behavior _ _, name | .pattern _ _, name =>
      (build.loaded.allContracts build.project.libraryContracts).lookup name

/-- The MEMORY of a pattern. -/
def layoutOf (name : String) : Option (List MemoryDecl) :=
  (build.loaded.patterns.find? fun entry => entry.1 = name).map fun entry => entry.2.pattern.memory

def inputs (unit : CodeUnit) : CodegenInputs where
  ast := unit.ast
  contracts := (unit.callees platform).map fun name => (name, build.contractOf unit name)
  layouts := (unit.spawnedPatterns platform).map fun name => (name, build.layoutOf name)

/-- The HASH lines of the behaviors that were loaded. -/
def declaredHashes : List (String × String) :=
  build.loaded.dependencies.map fun dep => (dep.1, dep.2.behavior.hash)

/-- The dependencies of a unit with the hashes that go into its digest. A pattern has none. -/
def depHashes : CodeUnit → List (String × String)
  | unit@(.behavior _ source) => source.contract.requires.behaviors.filterMap fun req =>
      (build.contractOf unit req.name).map fun contract =>
        (req.name, computeContractHash sha256 contract)
  | .pattern _ _ => []
  | .entry _ => build.declaredHashes

/-- The declared hash of a behavior. -/
def contractHashOf : CodeUnit → String
  | .behavior _ source => source.hash
  | .pattern _ _ | .entry _ => ""

/-- The manifest entry of a unit that has been compiled. -/
def entryOf (unit : CodeUnit) : CacheEntry :=
  let sourceHash := computeSourceHash sha256 (build.text unit)
  { sourceHash
    contractHash := contractHashOf unit
    depsHash := computeDepsHash sha256 (build.depHashes unit)
    objectPath := objectPath unit.name sourceHash }

/-- Compile a unit, or take its object again. -/
def compileUnit (progress : Progress sha256 parse) (unit : CodeUnit) : Progress sha256 parse :=
  let entry := build.entryOf unit
  match progress.error with
  | some _ => progress
  | none =>
      if progress.disk.needsRecompile unit.name entry.sourceHash entry.contractHash entry.depsHash then
        match compileModule platform unit.name unit
            (build.loaded.moduleOf build.project.libraryContracts unit) with
        | .error e => { progress with error := some e }
        | .ok _ =>
            { progress with disk :=
                { manifest := progress.disk.manifest.insert unit.name entry
                  objects := progress.disk.objects.insert entry.objectPath ⟨build, unit⟩ } }
      else
        { progress with reused :=
            progress.reused ++ [(unit, progress.disk.objects.lookup entry.objectPath)] }

/-- The behaviors, the patterns and ENTRY, until an error. -/
def run (disk : Disk sha256 parse) : Progress sha256 parse :=
  build.units.foldl (build.compileUnit platform) { disk }

/-- The cache a build leaves. The manifest is saved when all units have their objects. -/
def leaves (disk : Disk sha256 parse) : Disk sha256 parse :=
  let progress := build.run platform disk
  match progress.error with
  | none => progress.disk
  | some _ => { progress.disk with manifest := disk.manifest }

/-- Every object that is taken again was written with the inputs the unit has now. -/
def ReusesSoundly (disk : Disk sha256 parse) : Prop :=
  ∀ reused ∈ (build.run platform disk).reused, ∃ written, reused.2 = some written ∧
    written.build.inputs platform written.unit = build.inputs platform reused.1

end SourceBuild

/-- The cache after some builds, the last one first. -/
def cacheAfter (platform : TargetPlatform) : List (SourceBuild sha256 parse) → Disk sha256 parse
  | [] => ⟨∅, ∅⟩
  | build :: earlier => build.leaves platform (cacheAfter platform earlier)

end Sigil
