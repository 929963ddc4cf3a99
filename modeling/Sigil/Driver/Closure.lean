import Sigil.Driver.Declared

/-!
# Dependency closure

What an executable refers to, at any depth of its statements and through the sources behind
each name, and what the driver loads and declares for it. The driver looks for CALLs among
the statements of ENTRY and of patterns, for SPAWNs in ENTRY, and follows REQUIRES.
-/

namespace Sigil

open Flow Gen Relation

/-- What a source refers to by name. -/
inductive Reference where
  | behavior (name : String)
  | pattern (name : String)
  deriving DecidableEq, Repr

/-- What statements CALL and SPAWN, in SCOPE and in operands too. -/
def occurrences (nodes : List Node) : List Reference :=
  (bodyCalls nodes).map .behavior ++ (bodySpawns nodes).map .pattern

/-- What the bodies of a behavior CALL and SPAWN, whatever platform they are for. -/
def Behavior.occurrences (behavior : Behavior) : List Reference :=
  (behavior.implementations.map PlatformImpl.nodes ++
    behavior.composition.toList.map Composition.nodes).flatMap Sigil.occurrences

/-- What a behavior has in REQUIRES. -/
def Behavior.required (behavior : Behavior) : List Reference :=
  behavior.contract.requires.behaviors.map fun req => .behavior req.name

/-- What the bodies of a pattern CALL and SPAWN. -/
def PatternFile.occurrences (file : PatternFile) : List Reference :=
  Sigil.occurrences file.pattern.onCreate ++ Sigil.occurrences file.onDestroy

/-- The behaviors that are loaded for a pattern. -/
def PatternFile.called (file : PatternFile) : List Reference :=
  (collectCallBehaviors file.onDestroy (collectCallBehaviors file.pattern.onCreate [])).map
    .behavior

/-- Some references lead to another one through the references behind each. -/
def LeadsTo (behind : Reference → List Reference) (start : List Reference) (ref : Reference) :
    Prop :=
  ∃ first ∈ start, ReflTransGen (fun one next => next ∈ behind one) first ref

namespace Project

variable (project : Project)

/-- What the source of a reference refers to. That of a linked library is not there. -/
def mentions : Reference → List Reference
  | .behavior name =>
      match localBehavior project.files project.librarySymbols name with
      | some behavior => behavior.occurrences ++ behavior.required
      | none => []
  | .pattern name =>
      match project.patternFiles.lookup name with
      | some (.ok file) => file.occurrences
      | _ => []

/-- What is loaded for the source of a reference. -/
def follows : Reference → List Reference
  | .behavior name =>
      match localBehavior project.files project.librarySymbols name with
      | some behavior => behavior.required
      | none => []
  | .pattern name =>
      match project.patternFiles.lookup name with
      | some (.ok file) => file.called
      | _ => []

/-- ENTRY leads to a reference through CALL, SPAWN, REQUIRES and USES. -/
def Reaches (ref : Reference) : Prop :=
  LeadsTo project.mentions
    (occurrences project.executable.entry ++ project.uses.map .pattern) ref

/-- ENTRY leads to a reference through the places the loader looks at. -/
def Followed (ref : Reference) : Prop :=
  LeadsTo project.follows
    ((collectCallBehaviors project.executable.entry []).map .behavior ++
      (project.uses ++ collectSpawnPatterns project.executable.entry []).map .pattern) ref

/-- A reference the loader gets to, or to a library behavior with a contract. -/
def Available : Reference → Prop
  | .behavior name =>
      if name ∈ project.librarySymbols then name ∈ project.libraryContracts
      else project.Followed (.behavior name)
  | .pattern name => project.Followed (.pattern name)

/-- Wherever a CALL or SPAWN stands, it names something that is available. A behavior CALLs
itself and what it requires and SPAWNs nothing; a pattern SPAWNs at most itself. -/
structure Covered : Prop where
  entry : ∀ ref ∈ occurrences project.executable.entry, project.Available ref
  behavior : ∀ name behavior, project.Followed (.behavior name) →
    localBehavior project.files project.librarySymbols name = some behavior →
      ∀ ref ∈ behavior.occurrences,
        ref = .behavior name ∨ ref ∈ behavior.required ∧ project.Available ref
  pattern : ∀ name file, project.Followed (.pattern name) →
    project.patternFiles.lookup name = some (.ok file) →
      ∀ ref ∈ file.occurrences, project.Available ref ∧
        ∀ other, ref = .pattern other → other = file.pattern.name ∧ '/' ∉ other.toList

end Project

namespace LoadedProject

variable (loaded : LoadedProject) (libraries : Contracts)

/-- A reference is to something that is loaded or linked. -/
def Has (librarySymbols : List String) : Reference → Prop
  | .behavior name => name ∈ loaded.dependencies.map Prod.fst ∨ name ∈ librarySymbols
  | .pattern name => name ∈ loaded.patterns.map Prod.fst

/-- What the module of a behavior declares, the behavior itself included. -/
def declaredForBehavior (dep : String × LoadedFile) : List Reference :=
  .behavior dep.1 ::
    ((dep.2.requires.filter fun req => req.name ∈ loaded.allContracts libraries).map
      fun req => .behavior req.name)

/-- What the module of a pattern declares, with the pattern itself unless its name has a
slash in it. -/
def declaredForPattern (entry : String × PatternFile) : List Reference :=
  (if '/' ∈ entry.2.pattern.name.toList then [] else [.pattern entry.2.pattern.name]) ++
    (loaded.allContracts libraries).keys.map .behavior

/-- What the module of ENTRY declares. -/
def declaredForEntry : List Reference :=
  (loaded.dependencies.map Prod.fst ++ libraries.keys).map .behavior ++
    (loaded.patterns.map Prod.fst).map .pattern

end LoadedProject

/-- Everything an executable reaches is loaded, and what a source CALLs and SPAWNs is
declared in its module; so no module is refused for an undefined behavior or pattern. -/
structure DependenciesClosed (project : Project) (loaded : LoadedProject) : Prop where
  present : ∀ ref, project.Reaches ref → loaded.Has project.librarySymbols ref
  behaviors : ∀ dep ∈ loaded.dependencies, ∀ ref ∈ dep.2.behavior.occurrences,
    ref ∈ loaded.declaredForBehavior project.libraryContracts dep
  patterns : ∀ entry ∈ loaded.patterns, ∀ ref ∈ entry.2.occurrences,
    ref ∈ loaded.declaredForPattern project.libraryContracts entry
  entry : ∀ ref ∈ occurrences project.executable.entry,
    ref ∈ loaded.declaredForEntry project.libraryContracts
  defined : ∀ sha256 platform unit name,
    loaded.compile sha256 platform project.libraryContracts project.executable ≠
      .error (.codegen unit (.undefinedBehavior name))

namespace LeadsTo

variable {behind behind' : Reference → List Reference} {start start' : List Reference}
  {ref next : Reference}

/-- A start leads to itself. -/
theorem of_mem (member : ref ∈ start) : LeadsTo behind start ref := ⟨ref, member, .refl⟩

/-- What is reached leads on to what is behind it. -/
theorem step (leads : LeadsTo behind start ref) (member : next ∈ behind ref) :
    LeadsTo behind start next := by
  obtain ⟨first, begins, path⟩ := leads
  exact ⟨first, begins, path.tail member⟩

/-- What holds at the start and of everything behind holds wherever one gets. -/
theorem closed {P : Reference → Prop} (leads : LeadsTo behind start ref)
    (begins : ∀ ref ∈ start, P ref) (kept : ∀ ref, P ref → ∀ next ∈ behind ref, P next) :
      P ref := by
  obtain ⟨first, member, path⟩ := leads
  induction path with
  | refl => exact begins first member
  | tail _ edge ih => exact kept _ ih _ edge

/-- More behind each reference leads further. -/
theorem mono (leads : LeadsTo behind start ref) (begins : ∀ ref ∈ start, ref ∈ start')
    (more : ∀ ref, ∀ next ∈ behind ref, next ∈ behind' ref) : LeadsTo behind' start' ref :=
  leads.closed (fun _ member => .of_mem (begins _ member)) fun ref leads next member =>
    leads.step (more ref next member)

end LeadsTo

section Collected

variable {nodes : List Node} {names : List String} {name : String}

/-- A CALL calls its behavior. -/
theorem Expr.mem_calls {args : List Expr} : name ∈ (Expr.call name args).calls :=
  List.mem_filterMap.mpr ⟨_, Expr.self_mem_subexprs _, rfl⟩

/-- A SPAWN spawns its pattern. -/
theorem Expr.mem_spawned {args : List Expr} : name ∈ (Expr.spawn name args).spawned :=
  List.mem_filterMap.mpr ⟨_, Expr.self_mem_subexprs _, rfl⟩

/-- The CALLs of statements are collected whatever was collected before. -/
theorem mem_collectCallBehaviors : name ∈ collectCallBehaviors nodes names ↔
    name ∈ names ∨ name ∈ collectCallBehaviors nodes [] := by
  unfold collectCallBehaviors
  induction nodes generalizing names with
  | nil => simp
  | cons node rest ih =>
      rw [List.foldl_cons, List.foldl_cons, ih]
      conv_rhs => rw [ih]
      rw [← or_assoc]
      refine or_congr_left ?_
      split
      · split <;> simp_all
      · split <;> simp_all
      · simp

/-- A body collects what its first statement and the others do. -/
theorem collectCallBehaviors_cons {node : Node} {rest : List Node} :
    name ∈ collectCallBehaviors (node :: rest) [] ↔
      name ∈ collectCallBehaviors [node] [] ∨ name ∈ collectCallBehaviors rest [] := by
  change name ∈ collectCallBehaviors rest (collectCallBehaviors [node] []) ↔ _
  exact mem_collectCallBehaviors

/-- What is collected is CALLed. -/
theorem bodyCalls_of_collected (collected : name ∈ collectCallBehaviors nodes []) :
    name ∈ bodyCalls nodes := by
  induction nodes with
  | nil => cases collected
  | cons node rest ih =>
      rw [bodyCalls, List.mem_append]
      obtain here | later := collectCallBehaviors_cons.mp collected
      · left
        unfold collectCallBehaviors at here
        rw [List.foldl_cons, List.foldl_nil] at here
        split at here
        · rw [if_neg List.not_mem_nil, List.nil_append, List.mem_singleton] at here
          rw [here, Node.calls]
          exact Expr.mem_calls
        · rw [if_neg List.not_mem_nil, List.nil_append, List.mem_singleton] at here
          rw [here]
          exact List.mem_flatMap.mpr ⟨_, List.mem_singleton_self _, Expr.mem_calls⟩
        · cases here
      · exact .inr (ih later)

mutual

/-- What is collected is SPAWNed. -/
theorem spawns_of_collected (node : Node) {before : List String}
    (collected : name ∈ collectSpawnPattern node before) : name ∈ before ∨ name ∈ node.spawns := by
  cases node with
  | assignment line target e =>
      cases e with
      | spawn pattern args =>
          rw [collectSpawnPattern] at collected
          split at collected
          · exact .inl collected
          · obtain old | rfl := by simpa using collected
            · exact .inl old
            · exact .inr (List.mem_flatMap.mpr ⟨_, List.mem_singleton_self _, Expr.mem_spawned⟩)
      | _ => exact .inl collected
  | scope line nodes => exact bodySpawns_of_collected nodes collected
  | _ => exact .inl collected

/-- What is collected as spawned was there before or is spawned in the body. -/
theorem bodySpawns_of_collected (nodes : List Node) {before : List String}
    (collected : name ∈ collectSpawnPatterns nodes before) :
    name ∈ before ∨ name ∈ bodySpawns nodes := by
  cases nodes with
  | nil => exact .inl collected
  | cons node rest =>
      rw [bodySpawns, List.mem_append]
      rw [collectSpawnPatterns] at collected
      obtain old | later := bodySpawns_of_collected rest collected
      · exact (spawns_of_collected node old).imp_right .inl
      · exact .inr (.inr later)

end

/-- The behaviors that are loaded for patterns. -/
theorem mem_patternCalls {patterns : List (String × PatternFile)} :
    name ∈ patterns.foldl (fun names entry => collectCallBehaviors entry.2.onDestroy
      (collectCallBehaviors entry.2.pattern.onCreate names)) names ↔
      name ∈ names ∨ ∃ entry ∈ patterns, .behavior name ∈ entry.2.called := by
  induction patterns generalizing names with
  | nil => simp
  | cons entry rest ih =>
      have here : .behavior name ∈ entry.2.called ↔
          name ∈ collectCallBehaviors entry.2.pattern.onCreate [] ∨
            name ∈ collectCallBehaviors entry.2.onDestroy [] := by
        rw [PatternFile.called, List.mem_map_of_injective fun _ _ => Reference.behavior.inj]
        exact mem_collectCallBehaviors
      rw [List.foldl_cons, ih, mem_collectCallBehaviors, mem_collectCallBehaviors]
      simp only [List.mem_cons, exists_eq_or_imp, here]
      tauto

/-- Loading patterns by name adds the names to those loaded, each with its file. -/
theorem loadPatterns_ok {missing : String → String}
    {files : AList fun _ : String => Except CompilerError PatternFile}
    {patterns after : List (String × PatternFile)}
    (loads : loadPatterns missing files names patterns = .ok after) :
    (∀ name, name ∈ after.map Prod.fst ↔ name ∈ patterns.map Prod.fst ∨ name ∈ names) ∧
      ((∀ entry ∈ patterns, files.lookup entry.1 = some (.ok entry.2)) →
        ∀ entry ∈ after, files.lookup entry.1 = some (.ok entry.2)) := by
  induction names generalizing patterns with
  | nil =>
      cases loads
      simp
  | cons first rest ih =>
      unfold loadPatterns at loads
      split at loads
      next known =>
        obtain ⟨names, opened⟩ := ih loads
        refine ⟨fun name => ?_, opened⟩
        rw [names, List.mem_cons]
        constructor
        · tauto
        · rintro (old | rfl | later)
          · exact .inl old
          · exact .inl known
          · exact .inr later
      next fresh =>
        split at loads
        · cases loads
        · cases loads
        next file found =>
          obtain ⟨names, opened⟩ := ih loads
          refine ⟨fun name => ?_, fun earlier => opened fun entry member => ?_⟩
          · rw [names, List.map_append, List.mem_append, List.map_singleton, List.mem_singleton,
              List.mem_cons, or_assoc]
          · obtain old | rfl := by simpa using member
            · exact earlier entry old
            · exact found

end Collected

namespace Project

variable {project : Project} {loaded : LoadedProject} {steps : Nat}

/-- Loading by name loads the names, and stays in a set that REQUIRES does not leave. -/
theorem loadBehaviors_finished {P : String → Prop} {names : List String} {loader after : Loader}
    (below : ∀ name dep, P name →
      LocalRequires project.files project.librarySymbols name dep → P dep)
    (start : ∀ name ∈ names, P name) (holds : ∀ name ∈ loader.finished, P name)
    (loads : project.loadBehaviors steps names loader = .done after) :
    (∀ name ∈ loader.finished, name ∈ after.finished) ∧ (∀ name ∈ names, name ∈ after.finished) ∧
      ∀ name ∈ after.finished, P name := by
  induction names generalizing loader with
  | nil =>
      cases loads
      exact ⟨fun _ known => known, by simp, holds⟩
  | cons name rest ih =>
      obtain ⟨next, here, later⟩ := Outcome.bind_eq_done_iff.mp loads
      obtain ⟨begins, starts⟩ := List.forall_mem_cons.mp start
      have walked := walk_of_visit consistent_openDependency bounded_openDependency
        (Outcome.mapError_eq_done_iff.mp here)
      have solid : PathInside BehaviorRef.name
          (openDependency project.files project.librarySymbols) [] :=
        fun _ onPath => by simp at onPath
      obtain ⟨grown, finished⟩ := walk_extends consistent_openDependency solid walked
      have inside : ∀ name ∈ next.finished, P name := by
        refine walk_preserves (I := fun s => ∀ name ∈ s.finished, P name) (Q := fun r => P r.name)
          consistent_openDependency solid ?_ ?_ ?_ begins holds walked
        · intro r file reached opens q listed
          exact below _ _ reached (edge_iff.mp ⟨r, file, rfl, opens, q, listed, rfl⟩)
        · exact fun r s reached _ _ holds => List.forall_mem_cons.mpr ⟨reached, holds⟩
        · exact fun r file s reached _ _ _ holds => List.forall_mem_cons.mpr ⟨reached, holds⟩
      obtain ⟨kept, loadedRest, closed⟩ := ih starts inside later
      exact ⟨fun name known => kept name (grown.kept name known),
        List.forall_mem_cons.mpr ⟨kept name finished, loadedRest⟩, closed⟩

/-- What a project loads: the references the loader follows, each from its own source. -/
theorem load_followed (loads : project.load steps = .done loaded) :
    (∀ ref, project.Followed ref → loaded.Has project.librarySymbols ref) ∧
    (∀ dep ∈ loaded.dependencies, project.Followed (.behavior dep.1) ∧
      localBehavior project.files project.librarySymbols dep.1 = some dep.2.behavior) ∧
    ∀ entry ∈ loaded.patterns, project.Followed (.pattern entry.1) ∧
      project.patternFiles.lookup entry.1 = some (.ok entry.2) := by
  have ordered := load_ordered loads
  obtain ⟨called, entryLoaded, loads⟩ := Outcome.bind_eq_done_iff.mp loads
  split at loads
  · cases loads
  next patterns found =>
    obtain ⟨loader, patternsLoaded, loads⟩ := Outcome.bind_eq_done_iff.mp loads
    cases loads
    obtain ⟨used, usesLoaded, spawnsLoaded⟩ := bind_eq_ok_iff.mp found
    obtain ⟨usedNames, usedFiles⟩ := loadPatterns_ok usesLoaded
    obtain ⟨patternNames, patternFiles⟩ := loadPatterns_ok spawnsLoaded
    have files := patternFiles (usedFiles (by simp))
    have named : ∀ name, name ∈ patterns.map Prod.fst ↔
        name ∈ project.uses ++ collectSpawnPatterns project.executable.entry [] := by
      intro name
      rw [patternNames, usedNames, List.mem_append]
      simp
    have patternFollowed : ∀ entry ∈ patterns, project.Followed (.pattern entry.1) :=
      fun entry member => .of_mem (List.mem_append_right _ (List.mem_map_of_mem
        ((named entry.1).mp (List.mem_map_of_mem member))))
    have below : ∀ name dep, project.Followed (.behavior name) →
        LocalRequires project.files project.librarySymbols name dep →
          project.Followed (.behavior dep) := by
      rintro name dep followed ⟨behavior, known, req, listed, rfl⟩
      refine followed.step ?_
      rw [follows, known]
      exact List.mem_map_of_mem listed
    obtain ⟨-, entryCalls, entryInside⟩ := loadBehaviors_finished
      (P := fun name => project.Followed (.behavior name)) below
      (fun name member => .of_mem (List.mem_append_left _ (List.mem_map_of_mem member)))
      (by simp) entryLoaded
    obtain ⟨kept, patternCalls, inside⟩ := loadBehaviors_finished
      (P := fun name => project.Followed (.behavior name)) below
      (by
        intro name member
        obtain old | ⟨entry, listed, calls⟩ := mem_patternCalls.mp member
        · cases old
        · refine (patternFollowed entry listed).step ?_
          rw [follows, files entry listed]
          exact calls)
      entryInside patternsLoaded
    have settled := loadBehaviors_settled patternsLoaded (loadBehaviors_settled entryLoaded .start)
    have here : ∀ name ∈ loader.finished,
        name ∈ loader.items.map Prod.fst ∨ name ∈ project.librarySymbols :=
      fun name finished => (settled.finished name finished).imp_right outside_iff.mp
    have opens : ∀ dep ∈ loader.items,
        localBehavior project.files project.librarySymbols dep.1 = some dep.2.behavior := by
      intro dep member
      obtain ⟨req, same, opened⟩ := ordered.opens dep member
      exact same ▸ localBehavior_of_openDependency opened
    refine ⟨fun ref followed => followed.closed ?_ ?_, fun dep member =>
      ⟨inside _ (settled.listed _ (List.mem_map_of_mem member)), opens dep member⟩,
      fun entry member => ⟨patternFollowed entry member, files entry member⟩⟩
    · intro ref member
      obtain calls | spawns := List.mem_append.mp member
      · obtain ⟨name, collected, rfl⟩ := List.mem_map.mp calls
        exact here name (kept name (entryCalls name collected))
      · obtain ⟨name, collected, rfl⟩ := List.mem_map.mp spawns
        exact (named name).mpr collected
    · intro ref has next member
      cases ref with
      | behavior name =>
          rw [follows] at member
          split at member
          next behavior known =>
            obtain ⟨req, listed, rfl⟩ := List.mem_map.mp member
            have requires : LocalRequires project.files project.librarySymbols name req.name :=
              ⟨behavior, known, req, listed, rfl⟩
            obtain library | inside := has.symm
            · rw [localBehavior, if_pos library] at known
              cases known
            · exact (ordered.closed consistent_openDependency inside
                (edge_iff.mpr requires)).imp_right
                outside_iff.mp
          · cases member
      | pattern name =>
          obtain ⟨entry, listed, rfl⟩ := List.mem_map.mp has
          rw [follows, files entry listed] at member
          obtain ⟨callee, collected, rfl⟩ := List.mem_map.mp member
          exact here callee (patternCalls callee (mem_patternCalls.mpr
            (.inr ⟨entry, listed, List.mem_map_of_mem collected⟩)))

end Project

section Modules

variable {loaded : LoadedProject} {libraries : Contracts} {symbols : Set String} {nodes : List Node}

/-- The name a reference is to. -/
def Reference.name : Reference → String
  | .behavior name | .pattern name => name

/-- A body is named when every occurrence in it has a symbol. -/
theorem bodyNamed_iff :
    BodyNamed symbols nodes ↔ ∀ ref ∈ occurrences nodes, symbolOf ref.name ∈ symbols := by
  unfold BodyNamed occurrences
  rw [List.forall_mem_append, List.forall_mem_map, List.forall_mem_map]
  rfl

/-- The body a behavior is compiled from is one of its bodies. -/
theorem occurrences_of_compiledBody {platform : TargetPlatform} {behavior : Behavior}
    (compiled : compiledBody platform behavior = some nodes) :
    ∀ ref ∈ occurrences nodes, ref ∈ behavior.occurrences := by
  intro ref member
  refine List.mem_flatMap.mpr ⟨nodes, ?_, member⟩
  unfold compiledBody at compiled
  split at compiled
  next impl selected =>
    cases compiled
    refine List.mem_append_left _ (List.mem_map_of_mem ?_)
    unfold selectImplementation at selected
    split at selected
    next named =>
      cases selected
      exact List.mem_of_find?_eq_some named
    · exact List.mem_of_find?_eq_some selected
  · obtain ⟨composition, there, rfl⟩ := Option.map_eq_some_iff.mp compiled
    exact List.mem_append_right _ (by simp [there])

/-- The module of a behavior finds what its declarations cover. -/
theorem finds_behaviorModule {dep : String × LoadedFile}
    (declared : ∀ ref ∈ dep.2.behavior.occurrences,
      ref ∈ loaded.declaredForBehavior libraries dep) :
    Finds ∅ (behaviorModule (loaded.allContracts libraries) dep.1 dep.2.behavior) := by
  refine finds_bind_adds (fun symbol => ∃ req ∈ dep.2.requires,
    req.name ∈ loaded.allContracts libraries ∧ symbol = symbolOf req.name) ?_ fun _ =>
      finds_compileFunction fun platform nodes compiled => bodyNamed_iff.mpr fun ref occurs => ?_
  · rintro s u t returned _ ⟨req, listed, known, rfl⟩
    exact declareRequired_adds returned req listed known
  · obtain rfl | required := List.mem_cons.mp
      (declared ref (occurrences_of_compiledBody compiled ref occurs))
    · exact .inr rfl
    · obtain ⟨req, listed, rfl⟩ := List.mem_map.mp required
      obtain ⟨member, known⟩ := List.mem_filter.mp listed
      exact .inl (.inr ⟨req, member, of_decide_eq_true known, rfl⟩)

/-- The module of a pattern finds what its declarations cover. -/
theorem finds_patternModule {entry : String × PatternFile}
    (declared : ∀ ref ∈ entry.2.occurrences, ref ∈ loaded.declaredForPattern libraries entry) :
    Finds ∅ (patternModule (loaded.allContracts libraries) entry.2.pattern) := by
  refine finds_bind_adds (fun symbol => ∃ contract ∈ (loaded.allContracts libraries).entries,
    symbol = symbolOf contract.1) ?_ fun _ => finds_compilePattern
      (fun symbol => symbol = symbolOf entry.2.pattern.name ∧ '/' ∉ entry.2.pattern.name.toList)
      (fun _ own => own) (bodyNamed_iff.mpr fun ref occurs => ?_)
  · rintro s u t returned _ ⟨contract, listed, rfl⟩
    exact declareBehaviors_adds returned contract listed
  · obtain own | known := List.mem_append.mp (declared ref (List.mem_append_left _ occurs))
    · split at own
      · cases own
      next plain =>
        obtain rfl := List.mem_singleton.mp own
        exact .inr ⟨rfl, plain⟩
    · obtain ⟨name, listed, rfl⟩ := List.mem_map.mp known
      obtain ⟨contract, member, rfl⟩ := List.mem_map.mp listed
      exact .inl (.inr ⟨contract, member, rfl⟩)

/-- The module of the ENTRY finds what its declarations cover. -/
theorem finds_entryModule {executable : Executable}
    (declared : ∀ ref ∈ occurrences executable.entry, ref ∈ loaded.declaredForEntry libraries) :
    Finds ∅ (entryModule loaded.dependencies libraries loaded.patterns executable) := by
  refine finds_bind_adds (fun symbol => ∃ dep ∈ loaded.dependencies, symbol = symbolOf dep.1)
    ?_ fun _ => finds_bind_adds
      (fun symbol => ∃ contract ∈ libraries.entries, symbol = symbolOf contract.1)
      ?_ fun _ => finds_bind_adds
        (fun symbol => ∃ entry ∈ loaded.patterns, symbol = symbolOf entry.1)
        ?_ fun _ => finds_compileExecutableMain (bodyNamed_iff.mpr fun ref occurs => ?_)
  · rintro s u t returned _ ⟨dep, listed, rfl⟩
    exact declareBehaviors_adds returned ⟨dep.1, dep.2.behavior.contract⟩
      (List.mem_map.mpr ⟨dep, listed, rfl⟩)
  · rintro s u t returned _ ⟨contract, listed, rfl⟩
    exact declareBehaviors_adds returned contract listed
  · rintro s u t returned _ ⟨entry, listed, rfl⟩
    exact declarePatterns_adds returned entry listed
  · obtain behaviors | patterns := List.mem_append.mp (declared ref occurs)
    · obtain ⟨name, listed, rfl⟩ := List.mem_map.mp behaviors
      obtain loaded | linked := List.mem_append.mp listed
      · obtain ⟨dep, member, rfl⟩ := List.mem_map.mp loaded
        exact .inl (.inl (.inr ⟨dep, member, rfl⟩))
      · obtain ⟨contract, member, rfl⟩ := List.mem_map.mp linked
        exact .inl (.inr ⟨contract, member, rfl⟩)
    · obtain ⟨name, listed, rfl⟩ := List.mem_map.mp patterns
      obtain ⟨entry, member, rfl⟩ := List.mem_map.mp listed
      exact .inr ⟨entry, member, rfl⟩

/-- A sequence fails where its first part does or the second on its result. -/
theorem bind_eq_error_iff {ε α β : Type} {x : Except ε α} {f : α → Except ε β} {e : ε} :
    (x >>= f) = .error e ↔ x = .error e ∨ ∃ a, x = .ok a ∧ f a = .error e := by
  cases x with
  | error e' => simp [bind, Except.bind]
  | ok a =>
      change f a = .error e ↔ _
      simp

/-- A list of computations fails where one of them does. -/
theorem exists_of_mapM_error {ε α β : Type} {f : α → Except ε β} {l : List α} {e : ε}
    (failed : l.mapM f = .error e) : ∃ a ∈ l, f a = .error e := by
  induction l with
  | nil => cases failed
  | cons a rest ih =>
      rw [List.mapM_cons] at failed
      obtain here | ⟨b, _, failed⟩ := bind_eq_error_iff.mp failed
      · exact ⟨a, List.mem_cons_self, here⟩
      · obtain later | ⟨_, _, failed⟩ := bind_eq_error_iff.mp failed
        · obtain ⟨x, member, error⟩ := ih later
          exact ⟨x, List.mem_cons_of_mem _ member, error⟩
        · cases failed

/-- A loop fails on one of its elements. -/
theorem exists_of_forM_error {ε α : Type} {f : α → Except ε Unit} {l : List α} {e : ε}
    (failed : l.forM f = .error e) : ∃ a ∈ l, f a = .error e := by
  induction l with
  | nil => cases failed
  | cons a rest ih =>
      obtain here | ⟨_, _, later⟩ := bind_eq_error_iff.mp failed
      · exact ⟨a, List.mem_cons_self, here⟩
      · obtain ⟨x, member, error⟩ := ih later
        exact ⟨x, List.mem_cons_of_mem _ member, error⟩

/-- Where every module declares what its source names, none is refused for an undefined
behavior or pattern. -/
theorem LoadedProject.compile_finds {executable : Executable}
    (behaviors : ∀ dep ∈ loaded.dependencies, ∀ ref ∈ dep.2.behavior.occurrences,
      ref ∈ loaded.declaredForBehavior libraries dep)
    (patterns : ∀ entry ∈ loaded.patterns, ∀ ref ∈ entry.2.occurrences,
      ref ∈ loaded.declaredForPattern libraries entry)
    (entry : ∀ ref ∈ Sigil.occurrences executable.entry, ref ∈ loaded.declaredForEntry libraries)
    (sha256 : List UInt8 → List UInt8) (platform : TargetPlatform) (unit name : String) :
    loaded.compile sha256 platform libraries executable ≠
      .error (.codegen unit (.undefinedBehavior name)) := by
  intro failed
  obtain rejected | ⟨_, _, failed⟩ := bind_eq_error_iff.mp failed
  · obtain ⟨behavior, _, rejected⟩ := exists_of_forM_error rejected
    unfold validateBehavior at rejected
    split at rejected <;> cases rejected
  obtain unsound | ⟨_, _, failed⟩ := bind_eq_error_iff.mp failed
  · unfold checkGraph at unsound
    dsimp only at unsound
    split at unsound <;> cases unsound
  obtain refused | ⟨_, _, failed⟩ := bind_eq_error_iff.mp failed
  · obtain ⟨dep, member, refused⟩ := exists_of_mapM_error refused
    exact compileModule_finds (finds_behaviorModule (behaviors dep member)) refused
  obtain refused | ⟨_, _, failed⟩ := bind_eq_error_iff.mp failed
  · obtain ⟨source, member, refused⟩ := exists_of_mapM_error refused
    exact compileModule_finds (finds_patternModule (patterns source member)) refused
  obtain refused | ⟨_, _, failed⟩ := bind_eq_error_iff.mp failed
  · exact compileModule_finds (finds_entryModule entry) refused
  · cases failed

end Modules

section Closed

variable {project : Project} {loaded : LoadedProject} {steps : Nat} {name : String}
  {ref : Reference}

/-- The contracts known to the modules are those of what is loaded and of the libraries. -/
theorem LoadedProject.mem_allContracts {libraries : Contracts} (distinct : loaded.Distinct) :
    name ∈ loaded.allContracts libraries ↔
      name ∈ loaded.dependencies.map Prod.fst ∨ name ∈ libraries := by
  rw [← AList.lookup_isSome, lookup_allContracts, lookup_dependencyContracts distinct,
    Option.isSome_or, Option.isSome_or, Option.isSome_map, ← AList.lookup_isSome (s := libraries)]
  have listed : (loaded.dependencies.find? fun dep => dep.1 = name).isSome ↔
      name ∈ loaded.dependencies.map Prod.fst := by
    simp [List.find?_isSome]
  rw [← listed]
  cases (libraries.lookup name).isSome <;> simp

namespace Project

/-- The loader follows what the sources mention. -/
theorem Followed.reaches (followed : project.Followed ref) : project.Reaches ref := by
  refine followed.mono (fun ref member => ?_) fun ref next member => ?_
  · obtain calls | patterns := List.mem_append.mp member
    · obtain ⟨name, collected, rfl⟩ := List.mem_map.mp calls
      exact List.mem_append_left _ (List.mem_append_left _
        (List.mem_map_of_mem (bodyCalls_of_collected collected)))
    · obtain ⟨name, collected, rfl⟩ := List.mem_map.mp patterns
      obtain used | spawned := List.mem_append.mp collected
      · exact List.mem_append_right _ (List.mem_map_of_mem used)
      · obtain none | spawns := bodySpawns_of_collected _ spawned
        · cases none
        · exact List.mem_append_left _ (List.mem_append_right _ (List.mem_map_of_mem spawns))
  · cases ref with
    | behavior name =>
        rw [follows] at member
        rw [mentions]
        split at member
        · exact List.mem_append_right _ member
        · cases member
    | pattern name =>
        rw [follows] at member
        rw [mentions]
        split at member
        next file found =>
          obtain ⟨callee, collected, rfl⟩ := List.mem_map.mp member
          obtain create | destroy := mem_collectCallBehaviors.mp collected |>.symm
          · exact List.mem_append_right _ (List.mem_append_left _
              (List.mem_map_of_mem (bodyCalls_of_collected create)))
          · exact List.mem_append_left _ (List.mem_append_left _
              (List.mem_map_of_mem (bodyCalls_of_collected destroy)))
        · cases member

/-- What is available is loaded. -/
theorem Available.has (loads : project.load steps = .done loaded)
    (available : project.Available ref) : loaded.Has project.librarySymbols ref := by
  cases ref with
  | pattern name => exact (load_followed loads).1 _ available
  | behavior name =>
      by_cases library : name ∈ project.librarySymbols
      · exact .inr library
      · rw [Available, if_neg library] at available
        exact (load_followed loads).1 _ available

/-- A behavior is available when it is loaded and has a contract where it is CALLed. -/
theorem available_behavior_iff (loads : project.load steps = .done loaded) :
    project.Available (.behavior name) ↔ loaded.Has project.librarySymbols (.behavior name) ∧
      (name ∈ loaded.dependencies.map Prod.fst ∨ name ∈ project.libraryContracts) := by
  obtain ⟨followed, opens, -⟩ := load_followed loads
  have isLocal : name ∈ loaded.dependencies.map Prod.fst →
      project.Followed (.behavior name) ∧ name ∉ project.librarySymbols := by
    intro listed
    obtain ⟨dep, member, rfl⟩ := List.mem_map.mp listed
    obtain ⟨reached, known⟩ := opens dep member
    exact ⟨reached, (localBehavior_eq_some_iff.mp known).1⟩
  by_cases library : name ∈ project.librarySymbols
  · rw [Available, if_pos library]
    constructor
    · exact fun contract => ⟨.inr library, .inr contract⟩
    · rintro ⟨-, listed | contract⟩
      · exact absurd library (isLocal listed).2
      · exact contract
  · rw [Available, if_neg library]
    constructor
    · intro reached
      have has := followed _ reached
      exact ⟨has, .inl (has.resolve_right library)⟩
    · rintro ⟨has, -⟩
      exact (isLocal (has.resolve_right library)).1

/-- A pattern is available exactly when the loaded project has it. -/
theorem available_pattern_iff (loads : project.load steps = .done loaded) :
    project.Available (.pattern name) ↔ loaded.Has project.librarySymbols (.pattern name) := by
  obtain ⟨followed, -, opens⟩ := load_followed loads
  constructor
  · exact followed _
  · intro listed
    obtain ⟨entry, member, rfl⟩ := List.mem_map.mp listed
    exact (opens entry member).1

/-- Where the sources are covered, what they reach is available or in a library. -/
theorem Covered.reached (covered : project.Covered) (reaches : project.Reaches ref) :
    project.Followed ref ∨ ∃ name ∈ project.librarySymbols, ref = .behavior name := by
  have reached : ∀ ref, project.Available ref →
      project.Followed ref ∨ ∃ name ∈ project.librarySymbols, ref = .behavior name := by
    intro ref available
    cases ref with
    | pattern name => exact .inl available
    | behavior name =>
        by_cases library : name ∈ project.librarySymbols
        · exact .inr ⟨name, library, rfl⟩
        · rw [Available, if_neg library] at available
          exact .inl available
  refine reaches.closed (P := fun ref => project.Followed ref ∨
      ∃ name ∈ project.librarySymbols, ref = .behavior name)
    (fun ref member => ?_) fun ref here next member => ?_
  · obtain occurs | used := List.mem_append.mp member
    · exact reached ref (covered.entry ref occurs)
    · obtain ⟨name, listed, rfl⟩ := List.mem_map.mp used
      exact .inl (.of_mem (List.mem_append_right _
        (List.mem_map_of_mem (List.mem_append_left _ listed))))
  · cases ref with
    | behavior name =>
        rw [mentions] at member
        split at member
        next behavior known =>
          have followed : project.Followed (.behavior name) := by
            obtain followed | ⟨_, library, same⟩ := here
            · exact followed
            · cases same
              exact absurd library (localBehavior_eq_some_iff.mp known).1
          obtain occurs | required := List.mem_append.mp member
          · obtain rfl | ⟨-, available⟩ := covered.behavior name behavior followed known next occurs
            · exact .inl followed
            · exact reached next available
          · refine .inl (followed.step ?_)
            rw [follows, known]
            exact required
        · cases member
    | pattern name =>
        rw [mentions] at member
        split at member
        next file found =>
          have followed : project.Followed (.pattern name) := by
            obtain followed | ⟨_, _, same⟩ := here
            · exact followed
            · cases same
          exact reached next (covered.pattern name file followed found next member).1
        · cases member

end Project

/-- Everything an executable reaches is loaded and declared exactly when each CALL and SPAWN
names something the loader gets to by the places it looks at. -/
theorem dependenciesClosed_iff (loads : project.load steps = .done loaded) :
    DependenciesClosed project loaded ↔ project.Covered := by
  have distinct := Project.load_distinct loads
  obtain ⟨followed, behaviorsOpen, patternsOpen⟩ := Project.load_followed loads
  constructor
  · intro closed
    refine ⟨fun ref occurs => ?_, fun name behavior reached known ref occurs => ?_,
      fun name file reached known ref occurs => ?_⟩
    · have has := closed.present ref (.of_mem (List.mem_append_left _ occurs))
      have declared := closed.entry ref occurs
      cases ref with
      | pattern name => exact (Project.available_pattern_iff loads).mpr has
      | behavior name =>
          refine (Project.available_behavior_iff loads).mpr ⟨has, ?_⟩
          simpa [LoadedProject.declaredForEntry, AList.mem_keys] using declared
    · have reaches : project.Reaches ref := by
        refine reached.reaches.step ?_
        rw [Project.mentions, known]
        exact List.mem_append_left _ occurs
      have has := closed.present ref reaches
      obtain listed | library := followed _ reached
      · obtain ⟨dep, member, rfl⟩ := List.mem_map.mp listed
        have same := (behaviorsOpen dep member).2
        rw [known] at same
        cases same
        obtain rfl | declared := List.mem_cons.mp (closed.behaviors dep member ref occurs)
        · exact .inl rfl
        · obtain ⟨req, listed, rfl⟩ := List.mem_map.mp declared
          obtain ⟨required, contract⟩ := List.mem_filter.mp listed
          refine .inr ⟨List.mem_map_of_mem required, ?_⟩
          exact (Project.available_behavior_iff loads).mpr
            ⟨has, (LoadedProject.mem_allContracts distinct).mp (of_decide_eq_true contract)⟩
      · exact absurd library (localBehavior_eq_some_iff.mp known).1
    · have reaches : project.Reaches ref := by
        refine reached.reaches.step ?_
        rw [Project.mentions, known]
        exact occurs
      have has := closed.present ref reaches
      obtain ⟨entry, member, rfl⟩ := List.mem_map.mp (followed _ reached)
      have same := (patternsOpen entry member).2
      rw [known] at same
      cases same
      have declared := closed.patterns entry member ref occurs
      cases ref with
      | pattern name =>
          refine ⟨(Project.available_pattern_iff loads).mpr has, fun other same => ?_⟩
          cases same
          obtain own | known := List.mem_append.mp declared
          · split at own
            · cases own
            next plain =>
              cases List.mem_singleton.mp own
              exact ⟨rfl, plain⟩
          · obtain ⟨_, _, same⟩ := List.mem_map.mp known
            cases same
      | behavior name =>
          refine ⟨(Project.available_behavior_iff loads).mpr ⟨has, ?_⟩, by simp⟩
          rw [← LoadedProject.mem_allContracts distinct]
          obtain own | known := List.mem_append.mp declared
          · split at own
            · cases own
            · cases List.mem_singleton.mp own
          · obtain ⟨_, listed, same⟩ := List.mem_map.mp known
            cases same
            exact AList.mem_keys.mpr listed
  · intro covered
    have behaviors : ∀ dep ∈ loaded.dependencies, ∀ ref ∈ dep.2.behavior.occurrences,
        ref ∈ loaded.declaredForBehavior project.libraryContracts dep := by
      intro dep member ref occurs
      obtain ⟨reached, known⟩ := behaviorsOpen dep member
      obtain rfl | ⟨required, available⟩ := covered.behavior _ _ reached known ref occurs
      · exact List.mem_cons_self
      · obtain ⟨req, listed, rfl⟩ := List.mem_map.mp required
        have contract := ((Project.available_behavior_iff loads).mp available).2
        rw [← LoadedProject.mem_allContracts distinct] at contract
        exact List.mem_cons_of_mem _ (List.mem_map.mpr
          ⟨req, List.mem_filter.mpr ⟨listed, decide_eq_true contract⟩, rfl⟩)
    have patterns : ∀ entry ∈ loaded.patterns, ∀ ref ∈ entry.2.occurrences,
        ref ∈ loaded.declaredForPattern project.libraryContracts entry := by
      intro entry member ref occurs
      obtain ⟨reached, known⟩ := patternsOpen entry member
      obtain ⟨available, own⟩ := covered.pattern _ _ reached known ref occurs
      cases ref with
      | pattern name =>
          obtain ⟨rfl, plain⟩ := own name rfl
          rw [LoadedProject.declaredForPattern, if_neg plain]
          exact List.mem_append_left _ (List.mem_singleton_self _)
      | behavior name =>
          have contract := ((Project.available_behavior_iff loads).mp available).2
          rw [← LoadedProject.mem_allContracts distinct] at contract
          exact List.mem_append_right _ (List.mem_map_of_mem (AList.mem_keys.mp contract))
    have entry : ∀ ref ∈ occurrences project.executable.entry,
        ref ∈ loaded.declaredForEntry project.libraryContracts := by
      intro ref occurs
      have available := covered.entry ref occurs
      cases ref with
      | pattern name =>
          exact List.mem_append_right _ (List.mem_map_of_mem
            ((Project.available_pattern_iff loads).mp available))
      | behavior name =>
          have contract := ((Project.available_behavior_iff loads).mp available).2
          simpa [LoadedProject.declaredForEntry, AList.mem_keys] using contract
    refine ⟨fun ref reaches => ?_, behaviors, patterns, entry,
      LoadedProject.compile_finds behaviors patterns entry⟩
    obtain reached | ⟨name, library, rfl⟩ := covered.reached reaches
    · exact followed ref reached
    · exact .inr library

end Closed

/-- The source of a reference is there: a file that parses, or a linked library. -/
def Project.Exists (project : Project) : Reference → Prop
  | .behavior name => name ∈ project.librarySymbols ∨
      (localBehavior project.files project.librarySymbols name).isSome
  | .pattern name => ∃ file, project.patternFiles.lookup name = some (.ok file)

/-- A pattern without MEMORY. -/
def plainPattern (name : String) (onCreate : List Node) : PatternFile :=
  ⟨{ name := name, memory := [], onCreate := onCreate }, []⟩

/-- A pattern that SPAWNs another. -/
def relayPattern : PatternFile := plainPattern "relay" [.assignment 3 "h" (.spawn "worker" [])]

/-- An ENTRY that SPAWNs a pattern that SPAWNs another. -/
def relayProject : Project where
  executable :=
    { name := "hello", entry := [.assignment 4 "h" (.spawn "relay" []), .waitAll 5 [] ["h"]] }
  uses := []
  files := ∅
  patternFiles := (AList.insert "relay" (.ok relayPattern) ∅).insert "worker"
    (.ok (plainPattern "worker" []))
  libraries := []

/-- The project `relayProject` loads its pattern. -/
theorem relayProject_loads : relayProject.load 0 = .done ⟨[], [("relay", relayPattern)]⟩ := rfl

/-- A pattern that another pattern SPAWNs. -/
theorem dependenciesClosed_iff_relayProject :
    DependenciesClosed relayProject ⟨[], [("relay", relayPattern)]⟩ ↔ relayProject.Covered :=
  dependenciesClosed_iff relayProject_loads

/-- The files of both patterns are there, and the first is refused for the second. -/
theorem relayProject_undefined : ∃ project loaded, project.load 0 = .done loaded ∧
    (∀ ref, project.Reaches ref → project.Exists ref) ∧
    checkEntryIsComposite project.executable.entry = [] ∧
    loaded.compile id .linux project.libraryContracts project.executable =
      .error (.codegen "relay" (.undefinedBehavior "worker")) ∧
    ¬ DependenciesClosed project loaded := by
  have refused : (⟨[], [("relay", relayPattern)]⟩ : LoadedProject).compile id .linux
      relayProject.libraryContracts relayProject.executable =
        .error (.codegen "relay" (.undefinedBehavior "worker")) := rfl
  refine ⟨relayProject, _, relayProject_loads, fun ref reaches => ?_,
    List.isEmpty_iff.mp (by decide +kernel), refused, fun closed =>
      closed.defined id .linux _ _ refused⟩
  have known : ref = .pattern "relay" ∨ ref = .pattern "worker" := by
    refine reaches.closed (P := fun ref => ref = .pattern "relay" ∨ ref = .pattern "worker") ?_ ?_
    · decide
    · rintro _ (rfl | rfl) <;> decide
  obtain rfl | rfl := known
  · exact ⟨relayPattern, rfl⟩
  · exact ⟨plainPattern "worker" [], rfl⟩

end Sigil
