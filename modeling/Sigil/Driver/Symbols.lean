import Sigil.Driver.Compiled

/-!
# Linker symbols

Behaviors and patterns become functions of one namespace, together with the functions of
the runtime. A symbol is the name with `-` and `/` replaced by `_`.
-/

namespace Sigil

open Flow Gen

variable {sha256 : List UInt8 → List UInt8} {platform : TargetPlatform} {build : Build}

/-- The functions of the runtime that are not the code of a NATIVE behavior, without their
prefix. -/
def runtimeApi : List String :=
  ["runtime_init", "runtime_shutdown", "spawn", "wait", "wait_all", "wait_any",
    "channel_create", "channel_send", "channel_receive", "channel_close", "channel_destroy",
    "scope_create", "scope_alloc", "scope_free", "scope_destroy", "net_init", "net_shutdown"]

/-- Names of one length whose characters differ at most in `-` against `_`. -/
def SameUpToDash (a b : String) : Prop :=
  List.Forall₂ (fun c d => c = d ∨ (c ∈ ['-', '_'] ∧ d ∈ ['-', '_'])) a.toList b.toList

instance (a b : String) : Decidable (SameUpToDash a b) := by
  unfold SameUpToDash
  infer_instance

/-- A character as it is in a symbol. -/
def mangle (c : Char) : Char := if c = '-' || c = '/' then '_' else c

section Mangling

variable {a b : String}

/-- An identifier character is no slash. -/
theorem isIdentChar_ne_slash {c : Char} (identifier : isIdentChar c = true) : c ≠ '/' := by
  rintro rfl
  revert identifier
  decide

/-- What begins an identifier may stand in it. -/
theorem isIdentStart_isIdentChar {c : Char} (start : isIdentStart c = true) :
    isIdentChar c = true := by
  unfold isIdentStart at start
  unfold isIdentChar
  simp only [Bool.or_eq_true, beq_iff_eq] at start ⊢
  obtain letter | underscore := start
  · exact .inl (.inl (by simp [Char.isAlphanum, letter]))
  · exact .inl (.inr underscore)

/-- An identifier has no `/`. -/
theorem IsIdentifier.ne_slash (identifier : IsIdentifier a) {c : Char} (inside : c ∈ a.toList) :
    c ≠ '/' := by
  obtain ⟨⟨first, rest, spelled, start, all⟩, _⟩ := identifier
  rw [spelled] at inside
  obtain rfl | later := List.mem_cons.mp inside
  · exact isIdentChar_ne_slash (isIdentStart_isIdentChar start)
  · exact isIdentChar_ne_slash (List.all_eq_true.mp all c later)

/-- Two characters other than the slash are mangled alike when they are equal or dash and
underscore. -/
theorem mangle_eq_iff {c d : Char} (left : c ≠ '/') (right : d ≠ '/') :
    mangle c = mangle d ↔ c = d ∨ (c ∈ ['-', '_'] ∧ d ∈ ['-', '_']) := by
  unfold mangle
  by_cases dashLeft : c = '-' <;> by_cases dashRight : d = '-' <;>
    simp [dashLeft, dashRight, left, right]
  · have other : '-' ≠ d := fun same => dashRight same.symm
    simp [other, eq_comm]
  · rintro rfl rfl
    rfl

/-- Two names without a slash are mangled alike when their characters are, one by one. -/
theorem map_mangle_eq_iff {l l' : List Char} (left : ∀ c ∈ l, c ≠ '/') (right : ∀ c ∈ l', c ≠ '/') :
    l.map mangle = l'.map mangle ↔
      List.Forall₂ (fun c d => c = d ∨ (c ∈ ['-', '_'] ∧ d ∈ ['-', '_'])) l l' := by
  induction l generalizing l' with
  | nil => simp [eq_comm]
  | cons c rest ih =>
      cases l' with
      | nil => simp
      | cons d rest' =>
          obtain ⟨slash, left⟩ := List.forall_mem_cons.mp left
          obtain ⟨slash', right⟩ := List.forall_mem_cons.mp right
          rw [List.map_cons, List.map_cons, List.cons.injEq, mangle_eq_iff slash slash',
            ih left right,
            List.forall₂_cons]

/-- A symbol is the prefix and the mangled name. -/
theorem symbolOf_eq (a : String) : symbolOf a =
    "sigil_" ++ String.ofList (a.toList.map mangle) := rfl

/-- Two identifiers have one symbol exactly when they differ at most in `-` against `_`. -/
theorem symbolOf_eq_iff (left : ∀ c ∈ a.toList, c ≠ '/') (right : ∀ c ∈ b.toList, c ≠ '/') :
    symbolOf a = symbolOf b ↔ SameUpToDash a b := by
  rw [SameUpToDash, ← map_mangle_eq_iff left right, symbolOf_eq, symbolOf_eq]
  constructor
  · intro same
    have chars := congrArg String.toList same
    simpa only [String.toList_append, String.toList_ofList, List.append_cancel_left_eq] using chars
  · intro same
    rw [same]

/-- The names of the runtime have no character that is replaced. -/
theorem runtimeApi_plain : ∀ name ∈ runtimeApi, name.toList.map mangle = name.toList ∧
    ∀ c ∈ name.toList, c ≠ '/' := by
  simp [runtimeApi, mangle]

end Mangling

section Emitted

/-- A behavior is emitted under the symbol of the name it is built as. -/
theorem behaviorModule_symbol {contracts : Contracts} {name : String} {behavior : Behavior} :
    Ensures (fun _ => True) (fun function => function.symbol = symbolOf name)
      (behaviorModule contracts name behavior) := by
  unfold behaviorModule compileFunction
  refine .last fun _ => .ite (fun _ => ?_) fun _ => ?_
  · exact .last fun _ => .last fun _ => .pure rfl
  · refine .last fun _ => .last fun _ => .last fun _ => .last fun _ => .last fun _ => ?_
    refine .last fun _ => .last fun _ => .last fun _ => .last fun _ => ?_
    dsimp only
    refine .ite (fun _ => .last fun _ => .last fun _ => ?_) fun _ => ?_
    all_goals exact .last fun _ => .last fun _ => .last fun _ => .pure rfl

/-- A pattern is emitted under the symbol of its own name. -/
theorem patternModule_symbol {contracts : Contracts} {pattern : Pattern}
    (identifier : ∀ c ∈ pattern.name.toList, c ≠ '/') :
    Ensures (fun _ => True) (fun function => function.symbol = symbolOf pattern.name)
      (patternModule contracts pattern) := by
  have plain : (pattern.name.toList.map fun c => if c = '-' then '_' else c) =
      pattern.name.toList.map mangle := by
    refine List.map_congr_left fun c inside => ?_
    simp [mangle, identifier c inside]
  unfold patternModule compilePattern
  refine .last fun _ => .last fun _ => .last fun _ => .last fun _ => ?_
  refine .last fun _ => .last fun _ => .last fun _ => ?_
  dsimp only
  rw [plain]
  refine .ite (fun _ => .last fun _ => ?_) fun _ => ?_
  all_goals exact .last fun _ => .last fun _ => .last fun _ => .pure rfl

end Emitted

/-- A unit that is compiled, or a behavior of a linked library. -/
inductive Member where
  | unit (source : CodeUnit)
  | library (name : String)

/-- The names a member is emitted and called under. A pattern is emitted under the name it
declares and spawned under the name of its file. -/
def Member.names : Member → List String
  | .unit (.behavior name _) | .library name => [name]
  | .unit (.pattern name source) => [name, source.name]
  | .unit (.entry _) => []

def Program.libraries : Program → List Library
  | .library _ _ => []
  | .executable project => project.libraries

/-- The units of a program and the behaviors of the libraries it is linked with. -/
def Program.Members (program : Program) (members : List Member) : Prop :=
  ∃ units, program.Units units ∧ members = units.map .unit ++
    (program.libraries.flatMap Library.symbols).map .library

/-- A symbol a member is emitted or called under. -/
inductive Build.Uses (build : Build) : Member → String → Prop
  | emitted {object : ObjectFile} (listed : object ∈ build.objects)
      (named : (Member.unit object.source).names ≠ []) :
        build.Uses (.unit object.source) object.function.symbol
  | called {name : String} {source : Behavior} :
    build.Uses (.unit (.behavior name source)) (symbolOf name)
  | spawned {name : String} {source : Pattern} :
    build.Uses (.unit (.pattern name source)) (symbolOf name)
  | linked {name : String} : build.Uses (.library name) (symbolOf name)

/-- No two members share a symbol, and none has one of the runtime. -/
structure Build.SymbolsInjective (build : Build) (members : List Member) : Prop where
  distinct : members.Pairwise fun member other => ∀ symbol, build.Uses member symbol →
    ¬ build.Uses other symbol
  runtime : ∀ member ∈ members, ∀ symbol, build.Uses member symbol →
    symbol ∉ runtimeApi.map fun name => "sigil_" ++ name

/-- Names of two members differ in more than `-` against `_`, from each other and from the
functions of the runtime. -/
structure NamesApart (members : List Member) : Prop where
  distinct : members.Pairwise fun member other => ∀ a ∈ member.names, ∀ b ∈ other.names,
    ¬ SameUpToDash a b
  runtime : ∀ member ∈ members, ∀ a ∈ member.names, ∀ b ∈ runtimeApi, ¬ SameUpToDash a b

section Uses

variable {program : Program} {members : List Member}

/-- The symbol of the function in an object file. -/
theorem object_symbol (compiles : program.Compiles sha256 platform build) {object : ObjectFile}
    (listed : object ∈ build.objects) : match object.source with
      | .behavior name _ => object.function.symbol = symbolOf name
      | .pattern _ source => (∀ c ∈ source.name.toList, c ≠ '/') →
          object.function.symbol = symbolOf source.name
      | .entry _ => True := by
  cases program with
  | library directory files =>
      obtain ⟨_, _, objects, _⟩ := compileLibrary_ok compiles
      obtain ⟨behavior, _, compiled⟩ := exists_mem_of_forall₂_right objects listed
      obtain ⟨same, cg, returned⟩ := compileBehavior_ok compiled
      rw [same]
      exact (behaviorModule_symbol _ _ _ returned trivial).1
  | executable project =>
      obtain ⟨steps, done⟩ := compiles
      obtain ⟨_, loaded, _, compiled⟩ := compileExecutable_done.mp done
      obtain ⟨_, _, objects, _⟩ := LoadedProject.compile_ok compiled
      obtain ⟨unit, _, compiled⟩ := exists_mem_of_forall₂_right objects listed
      obtain ⟨same, cg, returned⟩ := compileModule_ok compiled
      rw [same]
      cases unit with
      | behavior name source => exact (behaviorModule_symbol _ _ _ returned trivial).1
      | pattern name source =>
          exact fun identifier => (patternModule_symbol identifier _ _ _ returned trivial).1
      | entry executable => trivial

/-- A member uses the symbols of its names. -/
theorem uses_iff (compiles : program.Compiles sha256 platform build)
    (known : program.Members members) {member : Member} (listed : member ∈ members)
    (identifiers : ∀ name ∈ member.names, IsIdentifier name) {symbol : String} :
    build.Uses member symbol ↔ ∃ name ∈ member.names, symbol = symbolOf name := by
  constructor
  · intro uses
    cases uses with
    | @emitted object inside named =>
        have emitted := object_symbol compiles inside
        cases source : object.source with
        | behavior name behavior =>
            rw [source] at emitted
            exact ⟨name, List.mem_singleton_self _, emitted⟩
        | pattern name pattern =>
            rw [source] at emitted identifiers
            have declared : pattern.name ∈ (Member.unit (.pattern name pattern)).names := by
              simp [Member.names]
            exact ⟨pattern.name, declared, emitted fun c => (identifiers _ declared).ne_slash⟩
        | entry executable =>
            rw [source] at named
            exact absurd rfl named
    | called => exact ⟨_, List.mem_singleton_self _, rfl⟩
    | spawned => exact ⟨_, List.mem_cons_self, rfl⟩
    | linked => exact ⟨_, List.mem_singleton_self _, rfl⟩
  · rintro ⟨name, named, rfl⟩
    match member with
    | .library _ =>
        obtain rfl := List.mem_singleton.mp named
        exact .linked
    | .unit (.behavior _ source) =>
        obtain rfl := List.mem_singleton.mp named
        exact .called
    | .unit (.entry executable) => cases named
    | .unit (.pattern loaded source) =>
        obtain rfl | named := List.mem_cons.mp named
        · exact .spawned
        · obtain rfl := List.mem_singleton.mp named
          obtain ⟨units, isUnits, rfl⟩ := known
          have inside : CodeUnit.pattern loaded source ∈ units := by simpa using listed
          obtain ⟨object, compiled, same⟩ := (compiles.covers isUnits).compiled _ inside id
          have emitted := object_symbol compiles compiled
          rw [same] at emitted
          have declared : source.name ∈ (Member.unit (.pattern loaded source)).names := by
            simp [Member.names]
          rw [← emitted fun c => (identifiers _ declared).ne_slash, ← same]
          exact .emitted compiled (by rw [same]; exact List.cons_ne_nil _ _)

end Uses

/-- The symbols of a program are distinct, and none is one of the runtime, exactly when the
names are still distinct after `-` is read as `_`. -/
theorem symbolsInjective_iff {program : Program} {members : List Member}
    (compiles : program.Compiles sha256 platform build) (known : program.Members members)
    (identifiers : ∀ member ∈ members, ∀ name ∈ member.names, IsIdentifier name) :
    build.SymbolsInjective members ↔ NamesApart members := by
  have plain : ∀ name ∈ runtimeApi, symbolOf name = "sigil_" ++ name ∧ ∀ c ∈ name.toList,
    c ≠ '/' := by
    intro name api
    obtain ⟨kept, slash⟩ := runtimeApi_plain name api
    rw [symbolOf_eq, kept, String.ofList_toList]
    exact ⟨rfl, slash⟩
  have uses : ∀ member ∈ members, ∀ symbol,
      build.Uses member symbol ↔ ∃ name ∈ member.names, symbol = symbolOf name :=
    fun member listed symbol => uses_iff compiles known listed (identifiers member listed)
  have apart : ∀ member ∈ members, ∀ other ∈ members,
      ((∀ symbol, build.Uses member symbol → ¬ build.Uses other symbol) ↔
        ∀ a ∈ member.names, ∀ b ∈ other.names, ¬ SameUpToDash a b) := by
    intro member listed other listed'
    constructor
    · intro distinct a named b named' same
      rw [← symbolOf_eq_iff (fun c => (identifiers member listed a named).ne_slash)
        (fun c => (identifiers other listed' b named').ne_slash)] at same
      exact distinct (symbolOf a) ((uses member listed _).mpr ⟨a, named, rfl⟩)
        ((uses other listed' _).mpr ⟨b, named', same⟩)
    · intro distinct symbol one two
      obtain ⟨a, named, rfl⟩ := (uses member listed _).mp one
      obtain ⟨b, named', same⟩ := (uses other listed' _).mp two
      exact distinct a named b named' ((symbolOf_eq_iff
        (fun c => (identifiers member listed a named).ne_slash)
        (fun c => (identifiers other listed' b named').ne_slash)).mp same)
  have outside : ∀ member ∈ members, ((∀ symbol, build.Uses member symbol →
      symbol ∉ runtimeApi.map fun name => "sigil_" ++ name) ↔
        ∀ a ∈ member.names, ∀ b ∈ runtimeApi, ¬ SameUpToDash a b) := by
    intro member listed
    constructor
    · intro free a named b api same
      rw [← symbolOf_eq_iff (fun c => (identifiers member listed a named).ne_slash) (plain b api).2]
        at same
      exact free (symbolOf a) ((uses member listed _).mpr ⟨a, named, rfl⟩)
        (List.mem_map.mpr ⟨b, api, ((plain b api).1.symm.trans same.symm)⟩)
    · intro free symbol one api
      obtain ⟨a, named, rfl⟩ := (uses member listed _).mp one
      obtain ⟨b, inside, same⟩ := List.mem_map.mp api
      exact free a named b inside ((symbolOf_eq_iff
        (fun c => (identifiers member listed a named).ne_slash) (plain b inside).2).mp
          (same.symm.trans (plain b inside).1.symm))
  constructor
  · intro injective
    exact ⟨(List.Pairwise.iff_of_mem fun listed listed' => apart _ listed _ listed').mp
        injective.distinct,
      fun member listed => (outside member listed).mp (injective.runtime member listed)⟩
  · intro names
    exact ⟨(List.Pairwise.iff_of_mem fun listed listed' => apart _ listed _ listed').mpr
        names.distinct,
      fun member listed => (outside member listed).mpr (names.runtime member listed)⟩

/-- A behavior that sets its OUTPUT to a constant. -/
def constBehavior (name : String) (value : BitVec 64) : Behavior where
  name := name
  contract := { inputs := [], outputs := [⟨"r", .int, 8⟩], guarantees := [] }
  hash := ""
  implementations := [⟨none, [.set 5 "r" (.intLit value)]⟩]
  composition := none

/-- Two behaviors of one symbol. -/
def dashLibrary : Program :=
  .library "dash" [⟨"dash/a-b.beh", constBehavior "a-b" 1⟩, ⟨"dash/a_b.beh", constBehavior "a_b" 2⟩]

def dashMembers : List Member :=
  [.unit (.behavior "a-b" (constBehavior "a-b" 1)), .unit (.behavior "a_b" (constBehavior "a_b" 2))]

/-- The library `dashLibrary` is built. -/
theorem dashLibrary_compiles : ∃ build, dashLibrary.Compiles id .linux build :=
  exists_ok_of_isOk (by decide +kernel)

/-- The names of the members are identifiers. -/
theorem dashMembers_identifiers :
    ∀ member ∈ dashMembers, ∀ name ∈ member.names, IsIdentifier name := by
  have dash : IsIdentifier "a-b" := ⟨⟨'a', ['-', 'b'], rfl, rfl, rfl⟩, by decide +kernel⟩
  have underscore : IsIdentifier "a_b" := ⟨⟨'a', ['_', 'b'], rfl, rfl, rfl⟩, by decide +kernel⟩
  simp [dashMembers, Member.names, dash, underscore]

/-- A name with a dash beside one with an underscore. -/
theorem symbolsInjective_iff_dash : ∃ build, dashLibrary.Compiles id .linux build ∧
    (build.SymbolsInjective dashMembers ↔ NamesApart dashMembers) := by
  obtain ⟨build, compiles⟩ := dashLibrary_compiles
  exact ⟨build, compiles, symbolsInjective_iff compiles ⟨_, rfl, rfl⟩ dashMembers_identifiers⟩

/-- The two behaviors are compiled to one symbol without an error. -/
theorem dashLibrary_collides : ∃ build, dashLibrary.Compiles id .linux build ∧
    dashLibrary.Members dashMembers ∧ ¬ build.SymbolsInjective dashMembers := by
  obtain ⟨build, compiles⟩ := dashLibrary_compiles
  have known : dashLibrary.Members dashMembers := ⟨_, rfl, rfl⟩
  refine ⟨build, compiles, known, fun injective => ?_⟩
  have uses : ∀ member ∈ dashMembers, ∀ name ∈ member.names, build.Uses member (symbolOf name) :=
    fun member listed name named => (uses_iff compiles known listed
      (dashMembers_identifiers member listed)).mpr ⟨name, named, rfl⟩
  have clash := (List.pairwise_cons.mp injective.distinct).1 _ (List.mem_singleton_self _) _
    (uses _ List.mem_cons_self "a-b" (List.mem_singleton_self _))
  have same : symbolOf "a-b" = symbolOf "a_b" := by decide +kernel
  rw [same] at clash
  exact clash (uses _ (List.mem_cons_of_mem _ List.mem_cons_self) "a_b" (List.mem_singleton_self _))

end Sigil
