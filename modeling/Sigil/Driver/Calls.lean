import Sigil.Codegen.Callees
import Sigil.Driver.Symbols

/-!
# Calls of compiled behaviors

The loader and the graph follow REQUIRES. Nothing compares the CALLs of a body with it: the
generator takes a CALL when its symbol is a function of the module, and does not look at one
it generates no code for.
-/

namespace Sigil

open Flow Gen Relation

variable {sha256 : List UInt8 → List UInt8} {platform : TargetPlatform} {build : Build}
  {units : List CodeUnit}

namespace CodeUnit

variable (platform : TargetPlatform)

/-- The statements of a behavior that are compiled. -/
def compiledNodes : CodeUnit → List Node
  | .behavior _ source =>
      if source.isNative then [] else (compiledBody platform source).getD []
  | .pattern _ _ | .entry _ => []

/-- The names in the REQUIRES clause of a unit. -/
def requires : CodeUnit → List String
  | .behavior _ source => source.contract.requires.behaviors.map BehaviorRef.name
  | .pattern _ _ | .entry _ => []

/-- A compiled behavior CALLs a name, at any depth of its statements and operands. -/
def Calls (unit : CodeUnit) (callee : String) : Prop :=
    callee ∈ bodyCalls (unit.compiledNodes platform)

instance (unit : CodeUnit) (callee : String) : Decidable (unit.Calls platform callee) := by
  unfold Calls
  infer_instance

/-- The generator has no code for a CALL, or its symbol is a function of the module anyway:
the behavior itself, one it requires, or one of the runtime. -/
def PassesUnlisted (unit : CodeUnit) (callee : String) : Prop :=
  callee ∉ generatedBodyCalls (unit.compiledNodes platform) ∨ symbolOf callee = symbolOf unit.name ∨
    (∃ req ∈ unit.requires, symbolOf callee = symbolOf req) ∨ symbolOf callee ∈ runtimeSymbols

end CodeUnit

/-- A unit of a name CALLs another name. -/
def CallEdge (platform : TargetPlatform) (units : List CodeUnit) (name callee : String) : Prop :=
  ∃ unit ∈ units, unit.name = name ∧ unit.Calls platform callee

/-- A unit of a name has another name in REQUIRES. -/
def RequiresEdge (units : List CodeUnit) (name required : String) : Prop :=
  ∃ unit ∈ units, unit.name = name ∧ required ∈ unit.requires

/-- REQUIRES covers the CALLs of the units: what they CALL, directly or through others, is
what they require, and no behavior CALLs itself. -/
structure CallsCovered (platform : TargetPlatform) (units : List CodeUnit) : Prop where
  listed : ∀ unit ∈ units, ∀ callee, unit.Calls platform callee → callee ∈ unit.requires
  seen : ∀ name callee, TransGen (CallEdge platform units) name callee →
    TransGen (RequiresEdge units) name callee
  acyclic : ∀ name, ¬ TransGen (CallEdge platform units) name name

/-- The files of a library have no cycle of behaviors that each require and CALL the next.
The graph of a library is not checked. -/
def Program.LoopFree (platform : TargetPlatform) : Program → Prop
  | library _ files => ∀ name, ¬ TransGen (fun name callee => ∃ file ∈ files,
      let unit := CodeUnit.behavior file.behavior.name file.behavior
      unit.name = name ∧ unit.Calls platform callee ∧ callee ∈ unit.requires) name name
  | executable _ => True

section Symbols

/-- No behavior has the symbol of a C function. -/
theorem symbolOf_not_crt (name : String) : symbolOf name ∉ crtSymbols platform := by
  have first : (symbolOf name).toList.head? = some 's' := by simp [symbolOf]
  intro member
  have other : ∀ symbol ∈ crtSymbols platform, symbol.toList.head? ≠ some 's' := by
    cases platform <;> decide
  exact other _ member first

variable {contracts : Contracts} {name : String} {behavior : Behavior} {function : EmittedFunction}
  {cg : CodeGen}

/-- The functions in the module of a behavior. -/
def moduleSymbols (platform : TargetPlatform) (name : String) (behavior : Behavior) : Set String :=
  fun symbol => symbol ∈ runtimeSymbols ∨ symbol ∈ crtSymbols platform ∨ symbol = symbolOf name ∨
    ∃ req ∈ behavior.contract.requires.behaviors, symbol = symbolOf req.name

instance : HasRuntime (moduleSymbols platform name behavior) := ⟨fun _ known => .inl known⟩

/-- Only required behaviors are declared in a module. -/
theorem stays_declareRequired {symbols : Set String} {reqs : List BehaviorRef}
    (known : ∀ req ∈ reqs, symbolOf req.name ∈ symbols) :
    Stays platform symbols (declareRequired contracts reqs) := by
  induction reqs with
  | nil => exact stays_pure _
  | cons req rest ih =>
      obtain ⟨here, later⟩ := List.forall_mem_cons.mp known
      have tail := ih later
      unfold declareRequired
      split
      · next contract _ =>
          have declared : Stays platform symbols (declareExternalBehavior req.name contract) :=
            stays_declareExternalBehavior here
          infer_instance
      · infer_instance

/-- Every CALL that code is generated for has a symbol of the module. -/
theorem behaviorModule_resolves (notNative : behavior.isNative = false)
    (returned : Returns (behaviorModule contracts name behavior) { platform := platform }
      function cg)
    {nodes : List Node} (compiled : compiledBody platform behavior = some nodes) :
    ∀ callee ∈ generatedBodyCalls nodes,
      symbolOf callee ∈ moduleSymbols platform name behavior := by
  let symbols := moduleSymbols platform name behavior
  have start : Within platform symbols { platform := platform } := ⟨rfl, by simp, rfl⟩
  have required : Stays platform symbols
      (declareRequired contracts behavior.contract.requires.behaviors) :=
    stays_declareRequired fun req listed => .inr (.inr (.inr ⟨req, listed, rfl⟩))
  have externals : Stays platform symbols declareExternals :=
    stays_declareExternals fun _ known => .inr (.inl known)
  have begun : Stays platform symbols (beginFunction (symbolOf name)) :=
    stays_beginFunction (.inr (.inr (.inl rfl)))
  have rooted : Stays platform symbols createRootScope := inferInstance
  have entered : ∀ root : PtrValue, Stays platform symbols (modify fun cg : CodeGen =>
      { cg with currentScope := some root } : Gen PUnit) :=
    fun _ => stays_modify (fun _ => rfl) (fun _ => rfl) fun _ => rfl
  have mapped : ∀ i params, Stays platform symbols (mapParameters i params) := inferInstance
  obtain ⟨_, _, -, within, returned⟩ := required.ensures.peel returned start
  unfold compileFunction at returned
  rw [if_neg (by simp [notNative])] at returned
  dsimp only at returned
  obtain ⟨_, _, -, within, returned⟩ := externals.ensures.peel returned within
  obtain ⟨_, _, -, within, returned⟩ := stays_get.ensures.peel returned within
  obtain ⟨_, _, -, within, returned⟩ := begun.ensures.peel returned within
  obtain ⟨root, _, -, within, returned⟩ := rooted.ensures.peel returned within
  obtain ⟨_, _, -, within, returned⟩ := (entered root).ensures.peel returned within
  obtain ⟨_, _, -, within, returned⟩ := (mapped _ _).ensures.peel returned within
  obtain ⟨_, _, -, within, returned⟩ := (mapped _ _).ensures.peel returned within
  obtain ⟨_, _, resolved, -, -⟩ := resolves_compileBody.peel returned within
  rw [compiled] at resolved
  exact resolved

end Symbols

variable {program : Program}

/-- A CALL of a compiled behavior that is not in REQUIRES is one that passes unlisted. -/
theorem listed_or_passesUnlisted (compiles : program.Compiles sha256 platform build)
    (loaded : program.Units units) {unit : CodeUnit} (member : unit ∈ units) {callee : String}
    (calls : unit.Calls platform callee) :
    callee ∈ unit.requires ∨ unit.PassesUnlisted platform callee := by
  cases unit with
  | pattern name source => cases calls
  | entry executable => cases calls
  | behavior name source =>
      cases native : source.isNative with
      | true => simp [CodeUnit.Calls, CodeUnit.compiledNodes, native, bodyCalls] at calls
      | false =>
          cases compiled : compiledBody platform source with
          | none =>
              simp [CodeUnit.Calls, CodeUnit.compiledNodes, native, compiled, bodyCalls] at calls
          | some nodes =>
              obtain ⟨contracts, function, cg, returned⟩ :=
                compiles.returns_behaviorModule loaded member native
              have resolved := behaviorModule_resolves native returned compiled
              refine .inr ?_
              by_cases generated : callee ∈ generatedBodyCalls nodes
              · obtain runtime | crt | own | ⟨req, listed, same⟩ := resolved callee generated
                · exact .inr (.inr (.inr runtime))
                · exact absurd crt (symbolOf_not_crt callee)
                · exact .inr (.inl own)
                · exact .inr (.inr (.inl ⟨req.name, List.mem_map_of_mem listed, same⟩))
              · refine .inl ?_
                simpa [CodeUnit.compiledNodes, native, compiled] using generated

/-- In an executable the CALLs of listed behaviors follow the order they were loaded in. -/
theorem acyclic_of_listed {project : Project} (loaded : (Program.executable project).Units units)
    (listed : ∀ unit ∈ units, ∀ callee, unit.Calls platform callee → callee ∈ unit.requires)
    (name : String) : ¬ TransGen (CallEdge platform units) name name := by
  obtain ⟨steps, project', load, rfl⟩ := loaded
  have ordered := Project.load_ordered load
  have edge : ∀ name callee, CallEdge platform (project'.units project.executable) name callee →
      name ∈ project'.dependencies.map Prod.fst ∧ Edge BehaviorRef.name
        (openDependency project.files project.librarySymbols) LoadedFile.requires name callee := by
    rintro _ callee ⟨unit, member, rfl, calls⟩
    have required := listed unit member callee calls
    simp only [LoadedProject.units, List.mem_append, List.mem_map, List.mem_singleton] at member
    obtain (⟨dep, known, rfl⟩ | ⟨entry, _, rfl⟩) | rfl := member
    · obtain ⟨r, same, opens⟩ := ordered.opens dep known
      obtain ⟨req, inside, named⟩ := List.mem_map.mp required
      exact ⟨List.mem_map_of_mem known, r, dep.2, same, opens, req, inside, named⟩
    · cases calls
    · cases calls
  intro loop
  obtain ⟨callee, first, _⟩ := TransGen.head'_iff.mp loop
  exact ordered.acyclic consistent_openDependency (edge _ _ first).1
    (TransGen.mono (fun _ _ step => (edge _ _ step).2) _ _ loop)

/-- REQUIRES covers the CALLs of a program that compiles exactly when it lists what the
generator would also take unlisted, and a library has no cycle of required CALLs. -/
theorem callsCovered_iff (compiles : program.Compiles sha256 platform build)
    (loaded : program.Units units) : CallsCovered platform units ↔
      (∀ unit ∈ units, ∀ callee, unit.Calls platform callee → unit.PassesUnlisted platform callee →
        callee ∈ unit.requires) ∧ program.LoopFree platform := by
  constructor
  · intro covered
    refine ⟨fun unit member callee calls _ => covered.listed unit member callee calls, ?_⟩
    cases program with
    | executable project => trivial
    | library directory files =>
        obtain rfl : units = files.map fun file => .behavior file.behavior.name file.behavior :=
          loaded
        intro name loop
        refine covered.acyclic name (TransGen.mono ?_ _ _ loop)
        rintro _ callee ⟨file, known, rfl, calls, -⟩
        exact ⟨_, List.mem_map_of_mem known, rfl, calls⟩
  · rintro ⟨listedIf, loopFree⟩
    have listed : ∀ unit ∈ units, ∀ callee, unit.Calls platform callee →
      callee ∈ unit.requires := by
      intro unit member callee calls
      obtain here | passes := listed_or_passesUnlisted compiles loaded member calls
      · exact here
      · exact listedIf unit member callee calls passes
    refine ⟨listed, fun name callee => TransGen.mono ?_ _ _, ?_⟩
    · rintro _ callee ⟨unit, member, rfl, calls⟩
      exact ⟨unit, member, rfl, listed unit member callee calls⟩
    · cases program with
      | executable project => exact acyclic_of_listed loaded listed
      | library directory files =>
          obtain rfl : units = files.map fun file =>
            .behavior file.behavior.name file.behavior := loaded
          intro name loop
          refine loopFree name (TransGen.mono ?_ _ _ loop)
          rintro _ callee ⟨unit, member, rfl, calls⟩
          obtain ⟨file, known, rfl⟩ := List.mem_map.mp member
          exact ⟨file, known, rfl, calls, listed _ member callee calls⟩

/-- A composition that CALLs itself and requires nothing. -/
def echoBehavior : Behavior where
  name := "echo"
  contract :=
    { inputs := [⟨"a", .int, 8⟩]
      outputs := [⟨"r", .int, 8⟩]
      guarantees := [] }
  hash := ""
  implementations := []
  composition := some ⟨[.assignment 9 "x" (.call "echo" [.var "a"]), .set 10 "r" (.var "x")]⟩

def echoLibrary : Program := .library "echoes" [⟨"echoes/echo.beh", echoBehavior⟩]

/-- The library `echoLibrary` is built. -/
theorem echoLibrary_compiles : ∃ build, echoLibrary.Compiles id .linux build :=
  exists_ok_of_isOk (by decide +kernel)

/-- A unit that calls itself and lists nothing. -/
theorem callsCovered_iff_echo : ∃ build units, echoLibrary.Compiles id .linux build ∧
    echoLibrary.Units units ∧ (CallsCovered .linux units ↔
      (∀ unit ∈ units, ∀ callee, unit.Calls .linux callee → unit.PassesUnlisted .linux callee →
        callee ∈ unit.requires) ∧ echoLibrary.LoopFree .linux) := by
  obtain ⟨build, compiles⟩ := echoLibrary_compiles
  exact ⟨build, _, compiles, rfl, callsCovered_iff compiles rfl⟩

/-- The library compiles with a CALL that REQUIRES does not list. -/
theorem echoLibrary_calls_unlisted : ∃ build units, echoLibrary.Compiles id .linux build ∧
    echoLibrary.Units units ∧ ¬ CallsCovered .linux units := by
  obtain ⟨build, compiles⟩ := echoLibrary_compiles
  refine ⟨build, _, compiles, rfl, fun covered => ?_⟩
  have calls : (CodeUnit.behavior "echo" echoBehavior).Calls .linux "echo" := by decide +kernel
  have listed := covered.listed _ (List.mem_singleton_self _) "echo" calls
  exact absurd listed List.not_mem_nil

end Sigil
