import Sigil.Driver.Compiled
import Sigil.Semantic.Accepted

/-!
# Code that is compiled without being analyzed

The analyzer checks the first IMPLEMENTATION and the COMPOSITION of a behavior, whatever
the platform. The code generator compiles the IMPLEMENTATION of the platform, and the
ON_CREATE block of patterns.
-/

namespace Sigil

open Flow

variable {sha256 : List UInt8 → List UInt8} {platform : TargetPlatform} {build : Build}
  {behavior : Behavior} {impl : PlatformImpl} {nodes : List Node}

/-- The statement list the function of a unit is generated from. -/
def CodeUnit.body (platform : TargetPlatform) : CodeUnit → Option (List Node)
  | .behavior _ source => if source.isNative then none else compiledBody platform source
  | .pattern _ source => some source.onCreate
  | .entry executable => some executable.entry

def CodeUnit.IsEntry : CodeUnit → Prop
  | .entry _ => True
  | .behavior _ _ | .pattern _ _ => False

/-- Every IMPLEMENTATION, COMPOSITION and ON_CREATE block that is compiled was analyzed. -/
def Build.OnlyAnalyzed (platform : TargetPlatform) (build : Build) : Prop :=
  ∀ object ∈ build.objects, ¬ object.source.IsEntry →
    ∀ nodes, object.source.body platform = some nodes → (object.source, nodes) ∈ build.analyzed

/-- An IMPLEMENTATION other than the first that the platform selects: the first for it, or,
if there is none, the first for every platform. -/
def Behavior.SelectsLater (platform : TargetPlatform) (behavior : Behavior) (impl : PlatformImpl) :
    Prop :=
  ∃ first rest, behavior.implementations = first :: rest ∧
    (first.platform ≠ some platform.asStr ∧
        rest.find? (fun later => later.platform = some platform.asStr) = some impl ∨
      (∀ other ∈ first :: rest, other.platform ≠ some platform.asStr) ∧ first.platform ≠ none ∧
        rest.find? (fun later => later.platform.isNone) = some impl)

/-- A unit has no code that the analyzer does not look at: it is no pattern, and an
IMPLEMENTATION other than the first that the platform selects has the statements of an
analyzed body. -/
def CodeUnit.SingleSource (platform : TargetPlatform) : CodeUnit → Prop
  | .behavior _ source => source.isNative ∨ ∀ impl, source.SelectsLater platform impl →
      source.implBody = some impl.nodes ∨ source.compBody = some impl.nodes
  | .pattern _ _ => False
  | .entry _ => True

section Selection

/-- The platform selects the first IMPLEMENTATION or a later one. -/
theorem selected_cases (selected : selectImplementation platform behavior = some impl) :
    behavior.implBody = some impl.nodes ∨ behavior.SelectsLater platform impl := by
  unfold selectImplementation at selected
  unfold Behavior.implBody Behavior.SelectsLater
  cases variants : behavior.implementations with
  | nil => rw [variants] at selected; cases selected
  | cons first rest =>
      rw [variants] at selected
      by_cases own : first.platform = some platform.asStr
      · rw [List.find?_cons_of_pos (by simpa using own)] at selected
        cases selected
        exact .inl rfl
      · rw [List.find?_cons_of_neg (by simpa using own)] at selected
        cases later : rest.find? (fun later => later.platform = some platform.asStr) with
        | some found =>
            rw [later] at selected
            cases selected
            exact .inr ⟨first, rest, rfl, .inl ⟨own, later⟩⟩
        | none =>
            rw [later] at selected
            have absent : ∀ other ∈ first :: rest, other.platform ≠ some platform.asStr := by
              rw [List.forall_mem_cons]
              exact ⟨own, fun other listed => by simpa using List.find?_eq_none.mp later other listed⟩
            by_cases generic : first.platform = none
            · have found : (first :: rest).find? (fun later => later.platform.isNone) = some impl :=
                selected
              rw [List.find?_cons_of_pos (by simp [generic])] at found
              cases found
              exact .inl rfl
            · have found : (first :: rest).find? (fun later => later.platform.isNone) = some impl :=
                selected
              rw [List.find?_cons_of_neg (by simpa using generic)] at found
              exact .inr ⟨first, rest, rfl, .inr ⟨absent, generic, found⟩⟩

/-- The later implementation is the one selected. -/
theorem Behavior.SelectsLater.selected (later : behavior.SelectsLater platform impl) :
    selectImplementation platform behavior = some impl := by
  obtain ⟨first, rest, variants, ⟨other, found⟩ | ⟨absent, qualified, found⟩⟩ := later
  · unfold selectImplementation
    rw [variants, List.find?_cons_of_neg (by simpa using other), found]
  · have none : (first :: rest).find? (fun later => later.platform = some platform.asStr) = none :=
      List.find?_eq_none.mpr fun other listed => by simpa using absent other listed
    unfold selectImplementation
    rw [variants, none]
    dsimp only
    rw [List.find?_cons_of_neg (by simpa using qualified), found]

/-- A behavior is compiled from an analyzed body unless the platform selects an
IMPLEMENTATION with other statements. -/
theorem compiledBody_analyzed_iff : (∀ nodes, compiledBody platform behavior = some nodes →
      behavior.implBody = some nodes ∨ behavior.compBody = some nodes) ↔
    ∀ impl, behavior.SelectsLater platform impl →
      behavior.implBody = some impl.nodes ∨ behavior.compBody = some impl.nodes := by
  unfold compiledBody
  constructor
  · intro analyzed impl later
    exact analyzed impl.nodes (by rw [later.selected])
  · intro same nodes compiled
    cases selected : selectImplementation platform behavior with
    | none =>
        rw [selected] at compiled
        exact .inr compiled
    | some impl =>
        rw [selected] at compiled
        cases compiled
        obtain first | later := selected_cases selected
        · exact .inl first
        · exact same impl later

end Selection

/-- The analyzer accepts the behavior of every body a build lists as analyzed. -/
theorem accepted_of_analyzed {program : Program} {unit : CodeUnit}
    (compiles : program.Compiles sha256 platform build) (analyzed : (unit, nodes) ∈ build.analyzed) :
    ∃ name behavior contracts, unit = .behavior name behavior ∧
      behavior.Accepted sha256 contracts [] ∧ ∃ earlier, behavior.HasBody earlier nodes := by
  have accepted : ∀ {contracts : Contracts} {name : String} {behavior : Behavior},
      validateBehavior sha256 contracts behavior = .ok () →
      (unit, nodes) ∈ analyzedBodies name behavior →
      ∃ name behavior contracts, unit = .behavior name behavior ∧
        behavior.Accepted sha256 contracts [] ∧ ∃ earlier, behavior.HasBody earlier nodes := by
    intro contracts name behavior valid member
    obtain ⟨rfl, body⟩ := mem_analyzedBodies_iff.mp member
    refine ⟨name, behavior, contracts, rfl, ?_, ?_⟩
    · rw [Behavior.accepted_iff_analyze]
      unfold validateBehavior at valid
      split at valid
      · assumption
      · cases valid
    · obtain first | second := List.mem_append.mp body
      · exact ⟨_, .implementation (Option.mem_toList.mp first)⟩
      · exact ⟨_, .composition (Option.mem_toList.mp second)⟩
  cases program with
  | library directory files =>
      obtain ⟨valid, _, _, listed⟩ := compileLibrary_ok compiles
      rw [listed] at analyzed
      obtain ⟨behavior, member, inside⟩ := List.mem_flatMap.mp analyzed
      exact accepted (valid behavior member) inside
  | executable project =>
      obtain ⟨steps, done⟩ := compiles
      obtain ⟨_, loaded, _, compiled⟩ := compileExecutable_done.mp done
      obtain ⟨valid, _, _, listed⟩ := LoadedProject.compile_ok compiled
      rw [listed] at analyzed
      obtain ⟨dep, member, inside⟩ := List.mem_flatMap.mp analyzed
      exact accepted (valid _ (List.mem_map_of_mem member)) inside

/-- The object files of a program are compiled from analyzed code exactly when no pattern is
compiled and no platform variant has statements of its own. -/
theorem onlyAnalyzed_iff {program : Program} (compiles : program.Compiles sha256 platform build) :
    build.OnlyAnalyzed platform ↔
      ∀ units, program.Units units → ∀ unit ∈ units, unit.SingleSource platform := by
  have single : ∀ unit : CodeUnit, ¬ unit.IsEntry →
      ((∀ nodes, unit.body platform = some nodes → nodes ∈ unit.analyzedBodies) ↔
        unit.SingleSource platform) := by
    intro unit notEntry
    cases unit with
    | behavior name source =>
        cases native : source.isNative with
        | true => simp [CodeUnit.body, CodeUnit.SingleSource, native]
        | false =>
            simp only [CodeUnit.body, CodeUnit.SingleSource, native, Bool.false_eq_true, if_false,
              false_or, CodeUnit.analyzedBodies, List.mem_append, Option.mem_toList]
            exact compiledBody_analyzed_iff
    | pattern name source => simp [CodeUnit.body, CodeUnit.SingleSource, CodeUnit.analyzedBodies]
    | entry executable => exact absurd trivial notEntry
  constructor
  · intro analyzed units loaded unit member
    have covers := compiles.covers loaded
    by_cases entry : unit.IsEntry
    · cases unit with
      | entry executable => trivial
      | behavior name source => cases entry
      | pattern name source => cases entry
    by_cases native : unit.IsNative
    · cases unit with
      | behavior name source => exact .inl native
      | pattern name source => cases native
      | entry executable => cases native
    obtain ⟨object, listed, rfl⟩ := covers.compiled unit member native
    exact (single _ entry).mp fun nodes body =>
      (covers.analyzed object listed nodes).mp (analyzed object listed entry nodes body)
  · intro sources object listed notEntry nodes body
    obtain ⟨units, loaded⟩ := compiles.exists_units
    have covers := compiles.covers loaded
    rw [covers.analyzed object listed]
    exact (single _ notEntry).mpr (sources units loaded _ (covers.sources object listed)) nodes body

/-- A behavior whose `linux` variant stores past its OUTPUT. -/
def markBehavior : Behavior where
  name := "mark"
  contract := { inputs := [], outputs := [⟨"r", .int, 8⟩], guarantees := [] }
  hash := ""
  implementations :=
    [⟨some "windows", [.set 5 "r" (.intLit 0)]⟩,
      ⟨some "linux", [.store 8 "r" (.intLit 1) 8 (some (.intLit 64))]⟩]
  composition := none

def markLibrary : Program := .library "marks" [⟨"marks/mark.beh", markBehavior⟩]

/-- The library `markLibrary` is built. -/
theorem markLibrary_compiles : ∃ build, markLibrary.Compiles id .linux build :=
  exists_ok_of_isOk (by decide +kernel)

/-- A library of one unit with a source. -/
theorem onlyAnalyzed_iff_markLibrary : ∃ build, markLibrary.Compiles id .linux build ∧
    (build.OnlyAnalyzed .linux ↔
      ∀ units, markLibrary.Units units → ∀ unit ∈ units, unit.SingleSource .linux) := by
  obtain ⟨build, compiles⟩ := markLibrary_compiles
  exact ⟨build, compiles, onlyAnalyzed_iff compiles⟩

/-- The library compiles with code the analyzer has not seen. -/
theorem markLibrary_not_analyzed : ∃ build, markLibrary.Compiles id .linux build ∧
    ¬ build.OnlyAnalyzed .linux := by
  obtain ⟨build, compiles⟩ := markLibrary_compiles
  refine ⟨build, compiles, fun analyzed => ?_⟩
  have covers := @Program.Compiles.covers _ _ _ _ [.behavior "mark" markBehavior] compiles rfl
  obtain ⟨object, listed, same⟩ := covers.compiled _ (List.mem_singleton_self _) Bool.false_ne_true
  have body : object.source.body .linux = some [.store 8 "r" (.intLit 1) 8 (some (.intLit 64))] := by
    rw [same]
    rfl
  have inside := (covers.analyzed object listed _).mp
    (analyzed object listed (by rw [same]; exact id) _ body)
  rw [same] at inside
  obtain other | none := List.mem_cons.mp inside
  · cases other
  · cases none

end Sigil
