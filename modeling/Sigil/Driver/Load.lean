import Sigil.Flow.PostOrder
import Sigil.Lexer

/-!
# Loading of dependencies

`load_behavior_by_name` loads a behavior file and, before it lists the behavior, what its
REQUIRES clause names. A name counts as loaded only when everything below it is.
-/

namespace Sigil

open Flow Relation

/-- The phases a compiler error comes from. -/
inductive CompilerErrorKind where
  | lex
  | parse
  | semantic
  | codeGen
  | load
  | io
  | cli
  | link
  deriving DecidableEq, Repr

/-- An error with the place it is reported at. -/
structure CompilerError where
  kind : CompilerErrorKind
  span : Option Span := none
  message : String
  deriving DecidableEq, Repr

/-- The file a name is looked up to, and the outcome of parsing it. -/
structure BehaviorFile where
  path : String
  parsed : Except CompilerError Behavior

/-- The behavior files, by the names they are found under. -/
abbrev BehaviorFiles := AList fun _ : String => BehaviorFile

/-- A parsed behavior file. -/
structure LoadedFile where
  path : String
  behavior : Behavior

/-- The names loaded so far and the behaviors listed so far. -/
abbrev Loader := Visited String LoadedFile

section Load

variable (files : BehaviorFiles) (librarySymbols : List String)

/-- Find and parse the behavior a reference names, unless a linked library has it. -/
def openDependency (req : BehaviorRef) : Except CompilerError (Option LoadedFile) :=
  let name := req.name
  if name ∈ librarySymbols then .ok none
  else match files.lookup name with
    | none => .error { kind := .load, message := s!"Could not find behavior: {name}" }
    | some file =>
        match file.parsed with
        | .error e => .error e
        | .ok dep =>
            if req.hash ≠ "" ∧ dep.hash ≠ "" ∧ req.hash ≠ dep.hash then
              .error
                { kind := .semantic
                  message := s!"dependency '{name}' hash mismatch: REQUIRES expects {req.hash}, " ++
                    s!"but found {dep.hash}. Update the REQUIRES clause to use the correct hash." }
            else .ok (some ⟨file.path, dep⟩)

def LoadedFile.requires (file : LoadedFile) : List BehaviorRef :=
  file.behavior.contract.requires.behaviors

/-- Load what a REQUIRES clause names and does not find loaded. The steps bound the
depth of the recursion. -/
def loadDependencies (steps : Nat) (behavior : Behavior) (loader : Loader) :
    Outcome CompilerError Loader :=
  each (visit BehaviorRef.name (openDependency files librarySymbols) LoadedFile.requires steps)
    behavior.contract.requires.behaviors loader

/-- Load a behavior and what it requires. A CALL has no pin to compare. -/
def loadBehaviorByName (steps : Nat) (name : String) (loader : Loader) :
    Outcome CompilerError Loader :=
  visit BehaviorRef.name (openDependency files librarySymbols) LoadedFile.requires steps
    ⟨name, ""⟩ loader

/-- The behavior of a name that is loaded from its file. -/
def localBehavior (name : String) : Option Behavior :=
  if name ∈ librarySymbols then none
  else match files.lookup name with
    | none => none
    | some file => file.parsed.toOption

/-- A behavior loaded from its file names another in REQUIRES. -/
def LocalRequires (name dep : String) : Prop :=
  ∃ behavior, localBehavior files librarySymbols name = some behavior ∧
    ∃ req ∈ behavior.contract.requires.behaviors, req.name = dep

/-- What a name requires, directly or through others, contains a cycle. -/
def Cyclic (name : String) : Prop :=
  ∃ dep, ReflTransGen (LocalRequires files librarySymbols) name dep ∧
    TransGen (LocalRequires files librarySymbols) dep dep

/-- Everything a name requires is found, parses and has the hash it is pinned to. -/
structure Resolves (name : String) : Prop where
  found : ∀ dep, ReflTransGen (LocalRequires files librarySymbols) name dep →
    dep ∈ librarySymbols ∨ (localBehavior files librarySymbols dep).isSome
  pinned : ∀ user, ReflTransGen (LocalRequires files librarySymbols) name user → ∀ behavior,
    localBehavior files librarySymbols user = some behavior →
      ∀ req ∈ behavior.contract.requires.behaviors, ∀ dep,
        localBehavior files librarySymbols req.name = some dep →
          req.hash = "" ∨ dep.hash = "" ∨ req.hash = dep.hash

/-- Every local behavior a name requires, itself included, is listed once and after all of
its dependencies; nothing else is listed. -/
structure CompleteLoad (name : String) (loaded : List (String × LoadedFile)) : Prop where
  distinct : (loaded.map Prod.fst).Nodup
  opened : ∀ entry ∈ loaded, localBehavior files librarySymbols entry.1 = some entry.2.behavior
  required : ∀ dep, dep ∈ loaded.map Prod.fst ↔
    ReflTransGen (LocalRequires files librarySymbols) name dep ∧
      (localBehavior files librarySymbols dep).isSome
  ordered : ∀ before entry rest, loaded = before ++ entry :: rest →
    ∀ req ∈ entry.2.behavior.contract.requires.behaviors,
      req.name ∈ before.map Prod.fst ∨ req.name ∈ librarySymbols

/-- What loading a name is to do: end, with a complete list, or with an error if there is a
cycle; and without error if there is none and everything resolves. -/
structure LoadsSoundly (name : String) : Prop where
  ends : ∃ steps, loadBehaviorByName files librarySymbols steps name {} ≠ .unfinished
  complete : ∀ steps loader, loadBehaviorByName files librarySymbols steps name {} = .done loader →
    CompleteLoad files librarySymbols name loader.items
  reports : Cyclic files librarySymbols name →
    ∃ steps e, loadBehaviorByName files librarySymbols steps name {} = .failed e
  returns : ¬ Cyclic files librarySymbols name → Resolves files librarySymbols name →
    ∃ steps loader, loadBehaviorByName files librarySymbols steps name {} = .done loader

/-- Loading comes back to a name it is in the middle of, before it meets a name that is not
found, does not parse or has another hash. -/
def ComesBack (name : String) : Prop :=
  walk BehaviorRef.name (openDependency files librarySymbols) LoadedFile.requires
    files.entries.length [] ⟨name, ""⟩ {} = .failed none

variable {files librarySymbols}

section Opened

variable {req : BehaviorRef} {file : LoadedFile} {name dep : String}

/-- Only a library's name opens no file. -/
theorem openDependency_none_iff :
    openDependency files librarySymbols req = .ok none ↔ req.name ∈ librarySymbols := by
  unfold openDependency
  by_cases library : req.name ∈ librarySymbols
  · simp [library]
  · simp only [library, if_false, iff_false]
    split
    · simp
    · split
      · simp
      · split <;> simp

/-- What opening a reference takes: a file outside the libraries that parses to a behavior
with the hash of the pin. -/
theorem openDependency_some_iff :
    openDependency files librarySymbols req = .ok (some file) ↔ req.name ∉ librarySymbols ∧
      (∃ found, files.lookup req.name = some found ∧ found.path = file.path ∧
        found.parsed = .ok file.behavior) ∧
      (req.hash = "" ∨ file.behavior.hash = "" ∨ req.hash = file.behavior.hash) := by
  unfold openDependency
  by_cases library : req.name ∈ librarySymbols
  · simp [library]
  · simp only [library, if_false, not_false_eq_true, true_and]
    cases found : files.lookup req.name with
    | none => simp
    | some found' =>
        cases parsed : found'.parsed with
        | error e => simp [parsed]
        | ok dep =>
            by_cases stale : req.hash ≠ "" ∧ dep.hash ≠ "" ∧ req.hash ≠ dep.hash
            · simp only [parsed, if_pos stale, reduceCtorEq, Option.some.injEq, exists_eq_left',
                Except.ok.injEq, false_iff]
              rintro ⟨⟨_, rfl⟩, agrees⟩
              tauto
            · simp only [parsed, if_neg stale, Except.ok.injEq, Option.some.injEq, exists_eq_left']
              constructor
              · rintro rfl
                exact ⟨⟨rfl, rfl⟩, by tauto⟩
              · rintro ⟨⟨path, rfl⟩, _⟩
                rw [path]

/-- A local behavior is one of a file that no library provides. -/
theorem localBehavior_eq_some_iff {behavior : Behavior} :
    localBehavior files librarySymbols name = some behavior ↔ name ∉ librarySymbols ∧
      ∃ found, files.lookup name = some found ∧ found.parsed = .ok behavior := by
  unfold localBehavior
  by_cases library : name ∈ librarySymbols
  · simp [library]
  · cases found : files.lookup name with
    | none => simp [library]
    | some found' => cases parsed : found'.parsed <;> simp [library, parsed, Except.toOption]

/-- A reference that opens stands for the local behavior of its name. -/
theorem localBehavior_of_openDependency
    (inside : openDependency files librarySymbols req = .ok (some file)) :
    localBehavior files librarySymbols req.name = some file.behavior := by
  obtain ⟨outside, ⟨found, known, _, parsed⟩, _⟩ := openDependency_some_iff.mp inside
  exact localBehavior_eq_some_iff.mpr ⟨outside, found, known, parsed⟩

/-- The local behavior of a name is opened by a reference with its hash or without a
pin. -/
theorem openDependency_of_localBehavior {behavior : Behavior}
    (known : localBehavior files librarySymbols req.name = some behavior)
    (pinned : req.hash = "" ∨ behavior.hash = "" ∨ req.hash = behavior.hash) :
    ∃ file, openDependency files librarySymbols req = .ok (some file) ∧ file.behavior = behavior := by
  obtain ⟨outside, found, known, parsed⟩ := localBehavior_eq_some_iff.mp known
  exact ⟨⟨found.path, behavior⟩,
    openDependency_some_iff.mpr ⟨outside, ⟨found, known, rfl, parsed⟩, pinned⟩, rfl⟩

/-- What a reference opens depends on its name only. -/
theorem consistent_openDependency :
    Consistent BehaviorRef.name (openDependency files librarySymbols) := by
  intro r q x y same first second
  cases x with
  | none =>
      have library := openDependency_none_iff.mp first
      rw [← same] at library
      rw [openDependency_none_iff.mpr library] at second
      exact Except.ok.inj second
  | some file =>
      obtain ⟨outside, ⟨found, known, path, parsed⟩, _⟩ := openDependency_some_iff.mp first
      cases y with
      | none => exact absurd (same ▸ openDependency_none_iff.mp second) outside
      | some file' =>
          obtain ⟨_, ⟨found', known', path', parsed'⟩, _⟩ := openDependency_some_iff.mp second
          rw [same, known] at known'
          cases known'
          rw [parsed] at parsed'
          cases file
          cases file'
          exact congrArg some (LoadedFile.mk.injEq _ _ _ _ ▸
            ⟨path.symm.trans path', Except.ok.inj parsed'⟩)

/-- The search follows the local requirements. -/
theorem edge_iff : Edge BehaviorRef.name (openDependency files librarySymbols) LoadedFile.requires
    name dep ↔ LocalRequires files librarySymbols name dep := by
  constructor
  · rintro ⟨req, file, rfl, inside, q, listed, rfl⟩
    exact ⟨file.behavior, localBehavior_of_openDependency inside, q, listed, rfl⟩
  · rintro ⟨behavior, known, q, listed, rfl⟩
    obtain ⟨file, inside, rfl⟩ := @openDependency_of_localBehavior _ _ ⟨name, ""⟩ _ known (.inl rfl)
    exact ⟨⟨name, ""⟩, file, rfl, inside, q, listed, rfl⟩

/-- The search leaves out what libraries provide. -/
theorem outside_iff : Outside BehaviorRef.name (openDependency files librarySymbols) name ↔
    name ∈ librarySymbols := by
  constructor
  · rintro ⟨req, rfl, outside⟩
    exact openDependency_none_iff.mp outside
  · exact fun library => ⟨⟨name, ""⟩, rfl, openDependency_none_iff.mpr library⟩

/-- The search opens only files there are. -/
theorem bounded_openDependency :
    Bounded BehaviorRef.name (openDependency files librarySymbols) files.keys := by
  intro req file inside
  obtain ⟨_, ⟨found, known, _⟩, _⟩ := openDependency_some_iff.mp inside
  exact AList.mem_keys.mp (AList.lookup_isSome.mp (by rw [known]; rfl))

end Opened

variable {name : String}

/-- What the search reaches is reached over local requirements. -/
theorem reflTransGen_edge_iff {dep : String} :
    ReflTransGen (Edge BehaviorRef.name (openDependency files librarySymbols) LoadedFile.requires)
      name dep ↔ ReflTransGen (LocalRequires files librarySymbols) name dep := by
  have same : Edge BehaviorRef.name (openDependency files librarySymbols) LoadedFile.requires =
      LocalRequires files librarySymbols := by
    ext
    exact edge_iff
  rw [same]

/-- What the search reaches in a step or more is reached so over local requirements. -/
theorem transGen_edge_iff {dep : String} :
    TransGen (Edge BehaviorRef.name (openDependency files librarySymbols) LoadedFile.requires)
      name dep ↔ TransGen (LocalRequires files librarySymbols) name dep := by
  have same : Edge BehaviorRef.name (openDependency files librarySymbols) LoadedFile.requires =
      LocalRequires files librarySymbols := by
    ext
    exact edge_iff
  rw [same]

/-- A walk with a step for every file ends. -/
theorem load_walk_ends :
    walk BehaviorRef.name (openDependency files librarySymbols) LoadedFile.requires
      files.entries.length [] ⟨name, ""⟩ {} ≠ .unfinished := by
  refine walk_ends bounded_openDependency List.nodup_nil (List.nil_subset _) ?_
  simp [AList.keys, List.keys]

/-- A walk that is done has listed what the name requires. -/
theorem completeLoad_of_walk {steps : Nat} {loader : Loader}
    (done : walk BehaviorRef.name (openDependency files librarySymbols) LoadedFile.requires steps []
      ⟨name, ""⟩ {} = .done loader) :
    CompleteLoad files librarySymbols name loader.items ∧ ¬ Cyclic files librarySymbols name := by
  obtain ⟨settled, finished, reached⟩ := walk_settles consistent_openDependency done
  have start := settled.finished name finished
  have closed : ∀ dep, ReflTransGen (LocalRequires files librarySymbols) name dep →
      dep ∈ loader.items.map Prod.fst ∨ dep ∈ librarySymbols := by
    intro dep required
    rw [← @outside_iff files librarySymbols]
    exact settled.ordered.reaches consistent_openDependency start (reflTransGen_edge_iff.mpr required)
  have opened : ∀ entry ∈ loader.items,
      localBehavior files librarySymbols entry.1 = some entry.2.behavior := by
    intro entry member
    obtain ⟨req, same, inside⟩ := settled.ordered.opens entry member
    exact same ▸ localBehavior_of_openDependency inside
  refine ⟨⟨settled.ordered.distinct, opened, ?_, ?_⟩, ?_⟩
  · intro dep
    constructor
    · intro listed
      obtain ⟨entry, member, rfl⟩ := List.mem_map.mp listed
      exact ⟨reflTransGen_edge_iff.mp (reached _ listed), by rw [opened entry member]; rfl⟩
    · rintro ⟨required, isLocal⟩
      obtain listed | library := closed dep required
      · exact listed
      · rw [localBehavior, if_pos library] at isLocal
        cases isLocal
  · intro before entry rest split req listed
    rw [← @outside_iff files librarySymbols]
    exact settled.ordered.after before entry rest split req listed
  · rintro ⟨dep, required, cycle⟩
    have inside : ¬ dep ∈ librarySymbols := by
      intro library
      obtain ⟨_, ⟨behavior, known, _⟩, _⟩ := TransGen.head'_iff.mp cycle
      exact (localBehavior_eq_some_iff.mp known).1 library
    have listed := (closed dep required).resolve_right inside
    exact settled.ordered.acyclic consistent_openDependency listed (transGen_edge_iff.mpr cycle)

/-- Loading a name does not depend on the steps it is given, once they suffice. -/
theorem loadBehaviorByName_unique {steps steps' : Nat} {loader one other : Loader}
    (first : loadBehaviorByName files librarySymbols steps name loader = .done one)
    (second : loadBehaviorByName files librarySymbols steps' name loader = .done other) :
    one = other := by
  have walked := walk_of_visit consistent_openDependency bounded_openDependency first
  rw [walk_of_visit consistent_openDependency bounded_openDependency second] at walked
  cases walked
  rfl

/-- Where everything resolves a walk meets no error. -/
theorem Resolves.no_error (resolves : Resolves files librarySymbols name) (e : CompilerError)
    {steps : Nat} : walk BehaviorRef.name (openDependency files librarySymbols) LoadedFile.requires
      steps [] ⟨name, ""⟩ {} ≠ .failed (some e) := by
  intro failed
  obtain ⟨req, from', error⟩ := error_of_walk
    (Q := fun req => ReflTransGen (LocalRequires files librarySymbols) name req.name ∧
      ∀ dep, localBehavior files librarySymbols req.name = some dep →
        req.hash = "" ∨ dep.hash = "" ∨ req.hash = dep.hash)
    (by
      intro user file required inside req listed
      have known := localBehavior_of_openDependency inside
      exact ⟨required.1.tail ⟨file.behavior, known, req, listed, rfl⟩,
        resolves.pinned user.name required.1 file.behavior known req listed⟩)
    ⟨.refl, fun _ _ => .inl rfl⟩ failed
  obtain library | isLocal := resolves.found req.name from'.1
  · rw [openDependency_none_iff.mpr library] at error
    cases error
  · obtain ⟨dep, known⟩ := Option.isSome_iff_exists.mp isLocal
    obtain ⟨file, inside, _⟩ := openDependency_of_localBehavior known (from'.2 dep known)
    rw [inside] at error
    cases error

/-- Without a cycle loading does not come back. -/
theorem not_comesBack (acyclic : ¬ Cyclic files librarySymbols name) :
    ¬ ComesBack files librarySymbols name := by
  intro back
  obtain ⟨dep, required, cycle⟩ := cycle_of_walk_back (fun p onPath => by cases onPath) back
  exact acyclic ⟨dep, reflTransGen_edge_iff.mp required, transGen_edge_iff.mp cycle⟩

/-- A behavior that is found is listed behind what its REQUIRES clause has loaded. -/
theorem loadBehaviorByName_found {steps : Nat} {loader : Loader} {file : LoadedFile}
    (fresh : name ∉ loader.finished)
    (found : openDependency files librarySymbols ⟨name, ""⟩ = .ok (some file)) :
    loadBehaviorByName files librarySymbols (steps + 1) name loader =
      (loadDependencies files librarySymbols steps file.behavior loader).bind fun loader =>
        .done (loader.close name file) := by
  rw [loadBehaviorByName, visit, if_neg fresh, found]
  rfl

/-- Loading a name does what it is to do exactly when it does not come back to a name it is
in the middle of. -/
theorem loadsSoundly_iff : LoadsSoundly files librarySymbols name ↔
    ¬ ComesBack files librarySymbols name := by
  constructor
  · intro sound back
    obtain ⟨steps, ended⟩ := sound.ends
    exact ended (visit_of_back consistent_openDependency back steps)
  · intro ahead
    have mirrored : Mirrors (walk BehaviorRef.name (openDependency files librarySymbols)
        LoadedFile.requires files.entries.length [] ⟨name, ""⟩ {})
        (loadBehaviorByName files librarySymbols files.entries.length name {}) :=
      walk_mirrors _ _ _ _
    have steps_keys : files.keys.length = files.entries.length := by simp [AList.keys, List.keys]
    have walked : ∀ steps loader, loadBehaviorByName files librarySymbols steps name {} =
        .done loader → walk BehaviorRef.name (openDependency files librarySymbols)
          LoadedFile.requires files.entries.length [] ⟨name, ""⟩ {} = .done loader :=
      fun steps loader done => steps_keys ▸
        walk_of_visit consistent_openDependency bounded_openDependency done
    cases outcome : walk BehaviorRef.name (openDependency files librarySymbols) LoadedFile.requires
      files.entries.length [] ⟨name, ""⟩ {} with
    | unfinished => exact absurd outcome load_walk_ends
    | done loader =>
        have done := mirrored.1 loader outcome
        obtain ⟨complete, acyclic⟩ := completeLoad_of_walk outcome
        refine ⟨⟨_, by rw [done]; simp⟩, fun steps loader' done' => ?_,
          fun cyclic => absurd cyclic acyclic, fun _ _ => ⟨_, loader, done⟩⟩
        exact (completeLoad_of_walk (walked steps loader' done')).1
    | failed e =>
        cases e with
        | none => exact absurd outcome ahead
        | some e =>
            have failed := mirrored.2 e outcome
            refine ⟨⟨_, by rw [failed]; simp⟩, fun steps loader done => ?_,
              fun _ => ⟨_, e, failed⟩, fun _ resolves => absurd outcome (resolves.no_error e)⟩
            rw [walked steps loader done] at outcome
            cases outcome

end Load

/-- Two behavior files that require each other. -/
def pingPong : BehaviorFiles :=
  let file (name dep : String) : BehaviorFile :=
    { path := name ++ ".beh"
      parsed := .ok
        { name := name
          contract :=
            { inputs := [], outputs := [], requires := { behaviors := [⟨dep, ""⟩] }, guarantees := [] }
          hash := ""
          implementations := []
          composition := none } }
  (AList.insert "ping" (file "ping" "pong") ∅).insert "pong" (file "pong" "ping")

/-- Loading one of two files that require each other does not end. -/
theorem pingPong_does_not_load : ∃ files librarySymbols name,
    ¬ LoadsSoundly files librarySymbols name ∧
      ∀ steps, loadBehaviorByName files librarySymbols steps name {} = .unfinished := by
  have back : ComesBack pingPong [] "ping" := rfl
  have endless : ∀ steps, loadBehaviorByName pingPong [] steps "ping" {} = .unfinished :=
    visit_of_back consistent_openDependency back
  refine ⟨pingPong, [], "ping", fun sound => ?_, endless⟩
  obtain ⟨steps, ended⟩ := sound.ends
  exact ended (endless steps)

end Sigil
