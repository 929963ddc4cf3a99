import Sigil.Driver.Cache

/-!
# Objects that are taken again

The manifest covers a behavior with the contract hashes of what it requires, ENTRY with the
HASH lines of the loaded behaviors and a pattern with nothing else than its file. An edit of
what a unit reads goes unnoticed when it changes none of these.
-/

namespace Sigil

open Flow

variable {sha256 : List UInt8 → List UInt8} {parse : List UInt8 → Option UnitAst}
  {platform : TargetPlatform}

namespace SourceBuild

variable (platform : TargetPlatform) (before after : SourceBuild sha256 parse)

/-- What a unit reads besides its own file has been edited between two builds. -/
inductive Edited (unit : CodeUnit) : Prop where
  | contract {callee : String} (calls : callee ∈ unit.callees platform)
      (differs : before.contractOf unit callee ≠ after.contractOf unit callee)
  | memory {pattern : String} (spawns : pattern ∈ unit.spawnedPatterns platform)
      (differs : before.layoutOf pattern ≠ after.layoutOf pattern)

/-- An edit that the cache sees: for a behavior, one in the hashed part of the contract of
something it requires; for ENTRY, one of the loaded behaviors or of their HASH lines. -/
def Noticed : CodeUnit → Prop
  | unit@(.behavior _ source) => ∃ req ∈ source.contract.requires.behaviors,
      (before.contractOf unit req.name).map Contract.hashInput ≠
        (after.contractOf unit req.name).map Contract.hashInput
  | .pattern _ _ => False
  | .entry _ => sortedDeps before.declaredHashes ≠ sortedDeps after.declaredHashes

/-- The digests do not mistake what two builds feed to them for a unit. -/
structure Apart (unit unit' : CodeUnit) : Prop where
  files : (computeSourceHash sha256 (before.text unit)).toList.take 16 =
      (computeSourceHash sha256 (after.text unit')).toList.take 16 →
    before.text unit = after.text unit'
  contracts : ∀ name contract contract', before.contractOf unit name = some contract →
    after.contractOf unit' name = some contract' →
      computeContractHash sha256 contract = computeContractHash sha256 contract' →
        contract.hashInput = contract'.hashInput
  dependencies : computeDepsHash sha256 (before.depHashes unit) =
      computeDepsHash sha256 (after.depHashes unit') →
    sortedDeps (before.depHashes unit) = sortedDeps (after.depHashes unit')

end SourceBuild

/-- The object the manifest has for a unit. -/
def Disk.CachedFor (disk : Disk sha256 parse) (unit : CodeUnit) (written : Written sha256 parse)
    : Prop :=
  ∃ entry, disk.manifest.lookup unit.name = some entry ∧
    disk.objects.lookup entry.objectPath = some written

/-- What a build may find in the cache, for the units whose file is as it was when their
object was written: every edit is noticed, and there is none if the build stops with an
error, for then the objects are written and the manifest is not. -/
structure SourceBuild.Tracked (platform : TargetPlatform) (build : SourceBuild sha256 parse)
    (disk : Disk sha256 parse) : Prop where
  noticed : ∀ unit ∈ build.units, ∀ written, disk.CachedFor unit written →
    written.build.text written.unit = build.text unit →
      written.build.Edited platform build unit → written.build.Noticed build unit
  stopped : (build.run platform disk).error.isSome → ∀ unit ∈ build.units, ∀ written,
    disk.CachedFor unit written → written.build.text written.unit = build.text unit →
      ¬ written.build.Noticed build unit
  apart : ∀ unit ∈ build.units, ∀ written, disk.CachedFor unit written →
    written.build.Apart build written.unit unit
  files : ∀ unit ∈ build.units, ∀ unit' ∈ build.units, build.Apart build unit unit'

namespace SourceBuild

section Digests

variable {before after : SourceBuild sha256 parse} {unit unit' : CodeUnit}

/-- A unit that was not edited has the same inputs. -/
theorem inputs_eq_of_not_edited (unedited : ¬ before.Edited platform after unit) :
    before.inputs platform unit = after.inputs platform unit := by
  have contracts : ∀ callee ∈ unit.callees platform,
      before.contractOf unit callee = after.contractOf unit callee := fun callee calls => by
    by_contra differs
    exact unedited (.contract calls differs)
  have layouts : ∀ pattern ∈ unit.spawnedPatterns platform,
      before.layoutOf pattern = after.layoutOf pattern := fun pattern spawns => by
    by_contra differs
    exact unedited (.memory spawns differs)
  unfold inputs
  congr 1
  · exact List.map_congr_left fun callee calls => by rw [contracts callee calls]
  · exact List.map_congr_left fun pattern spawns => by rw [layouts pattern spawns]

/-- Sorting keeps the dependencies. -/
theorem mem_sortedDeps {deps : List (String × String)} {dep : String × String} :
    dep ∈ sortedDeps deps ↔ dep ∈ deps := List.mem_mergeSort

/-- The digest depends on the sorted dependencies. -/
theorem computeDepsHash_congr {deps deps' : List (String × String)}
    (same : sortedDeps deps = sortedDeps deps') :
      computeDepsHash sha256 deps = computeDepsHash sha256 deps' := by
  have length : deps.length = deps'.length := by
    simpa [sortedDeps] using congrArg List.length same
  unfold computeDepsHash
  rw [same]
  cases deps <;> cases deps' <;> simp_all

/-- The dependencies hashed for a behavior are those it names and the build has. -/
theorem mem_depHashes_iff {name : String} {source : Behavior} {build : SourceBuild sha256 parse}
    {dep : String × String} : dep ∈ build.depHashes (.behavior name source) ↔
      ∃ req ∈ source.contract.requires.behaviors, ∃ contract,
        build.contractOf (.behavior name source) req.name = some contract ∧
          dep = (req.name, computeContractHash sha256 contract) := by
  simp only [depHashes, List.mem_filterMap, Option.map_eq_some_iff]
  refine exists_congr fun req => and_congr_right fun _ => exists_congr fun contract =>
    and_congr_right fun _ => eq_comm

/-- A unit without noticed edits has the digest it had. -/
theorem depsHash_eq_of_not_noticed (unnoticed : ¬ before.Noticed after unit) :
    computeDepsHash sha256 (before.depHashes unit) =
      computeDepsHash sha256 (after.depHashes unit) := by
  cases unit with
  | pattern name source => rfl
  | entry executable => exact computeDepsHash_congr (not_not.mp unnoticed)
  | behavior name source =>
      have lists : before.depHashes (.behavior name source) =
        after.depHashes (.behavior name source) := by
        refine List.filterMap_congr fun req listed => ?_
        have same : (before.contractOf (.behavior name source) req.name).map Contract.hashInput =
            (after.contractOf (.behavior name source) req.name).map Contract.hashInput := by
          by_contra differs
          exact unnoticed ⟨req, listed, differs⟩
        cases first : before.contractOf (.behavior name source) req.name <;>
          cases second : after.contractOf (.behavior name source) req.name <;>
            simp_all [computeContractHash]
      rw [lists]

/-- A unit with the digest it had has no noticed edits. -/
theorem not_noticed_of_depsHash_eq (apart : before.Apart after unit unit)
    (same : computeDepsHash sha256 (before.depHashes unit) =
      computeDepsHash sha256 (after.depHashes unit)) : ¬ before.Noticed after unit := by
  have sorted := apart.dependencies same
  cases unit with
  | pattern name source => exact id
  | entry executable => exact not_not.mpr sorted
  | behavior name source =>
      rintro ⟨req, listed, differs⟩
      refine differs ?_
      have members : ∀ dep, dep ∈ before.depHashes (.behavior name source) ↔
          dep ∈ after.depHashes (.behavior name source) := fun dep => by
        rw [← mem_sortedDeps, sorted, mem_sortedDeps]
      -- A contract of one build has one with the same hash in the other.
      have found : ∀ {one other : SourceBuild sha256 parse} {contract : Contract},
          (∀ dep, dep ∈ one.depHashes (.behavior name source) →
            dep ∈ other.depHashes (.behavior name source)) →
          one.contractOf (.behavior name source) req.name = some contract →
          ∃ contract', other.contractOf (.behavior name source) req.name = some contract' ∧
            computeContractHash sha256 contract = computeContractHash sha256 contract' := by
        intro one other contract kept known
        have member := kept _ (mem_depHashes_iff.mpr ⟨req, listed, contract, known, rfl⟩)
        obtain ⟨req', _, contract', known', pair⟩ := mem_depHashes_iff.mp member
        obtain ⟨named, hashed⟩ := Prod.ext_iff.mp pair
        exact ⟨contract', by rw [show req.name = req'.name from named]; exact known', hashed⟩
      cases first : before.contractOf (.behavior name source) req.name with
      | some contract =>
          obtain ⟨contract', second, hashed⟩ := found (fun dep => (members dep).mp) first
          rw [second, Option.map_some, Option.map_some,
            apart.contracts _ _ _ first second hashed]
      | none =>
          cases second : after.contractOf (.behavior name source) req.name with
          | none => rfl
          | some contract =>
              obtain ⟨contract', known, _⟩ := found (fun dep => (members dep).mpr) second
              rw [first] at known
              cases known

end Digests

end SourceBuild

section Paths

/-- A SHA-256 digest has 32 bytes. -/
theorem length_computeSourceHash (digest : ∀ bytes, (sha256 bytes).length = 32)
    (contents : List UInt8) :
    (computeSourceHash sha256 contents).toList.length = 64 := by
  have lengths : ∀ bytes : List UInt8, (hexEncode bytes).toList.length = 2 * bytes.length := by
    intro bytes
    induction bytes with
    | nil => rfl
    | cons b rest ih =>
        simp only [hexEncode, String.toList_ofList, List.flatMap_cons, List.length_append,
          List.length_cons, List.length_nil] at ih ⊢
        omega
  unfold computeSourceHash
  rw [lengths, digest]

/-- An object path has the name and the first sixteen digits in it. -/
theorem objectPath_inj {name name' hash hash' : String} (long : 16 ≤ hash.toList.length)
    (long' : 16 ≤ hash'.toList.length) (same : objectPath name hash = objectPath name' hash') :
    name = name' ∧ hash.toList.take 16 = hash'.toList.take 16 := by
  have lists := congrArg String.toList same
  simp only [objectPath, String.toList_append, String.toList_ofList, List.append_assoc] at lists
  have tails : ("_".toList ++ (hash.toList.take 16 ++ ".o".toList)).length =
      ("_".toList ++ (hash'.toList.take 16 ++ ".o".toList)).length := by
    simp [List.length_take, long, long']
  obtain ⟨names, rest⟩ := List.append_inj' lists tails
  refine ⟨String.toList_inj.mp names, ?_⟩
  exact List.append_cancel_right (List.append_cancel_left rest)

end Paths

/-- A unit is its name and its AST. -/
theorem CodeUnit.eq_of_ast {unit unit' : CodeUnit} (named : unit.name = unit'.name)
    (parsed : unit.ast = unit'.ast) : unit = unit' := by
  cases unit <;> cases unit' <;> simp_all [CodeUnit.ast, CodeUnit.name]

/-- Files with one text are parsed to one unit. -/
theorem SourceBuild.unit_eq {before after : SourceBuild sha256 parse} {unit unit' : CodeUnit}
    (member : unit ∈ before.units) (member' : unit' ∈ after.units) (named : unit.name = unit'.name)
    (same : before.text unit = after.text unit') : unit = unit' := by
  have parsed := (before.parsed unit member).symm.trans (same ▸ after.parsed unit' member')
  exact CodeUnit.eq_of_ast named (Option.some.inj parsed)

/-- Every entry of the manifest is that of the unit its object was written from. -/
def Disk.Consistent (disk : Disk sha256 parse) : Prop :=
  ∀ name entry, disk.manifest.lookup name = some entry → ∃ written : Written sha256 parse,
    disk.objects.lookup entry.objectPath = some written ∧ written.unit ∈ written.build.units ∧
      written.unit.name = name ∧ entry = written.build.entryOf written.unit

/-- What a build has changed of the cache it started from. -/
structure Progress.Follows (platform : TargetPlatform) (build : SourceBuild sha256 parse)
    (disk : Disk sha256 parse) (progress : Progress sha256 parse) : Prop where
  manifest : ∀ name,
    (progress.disk.manifest.lookup name = disk.manifest.lookup name ∧
      ∀ entry, disk.manifest.lookup name = some entry →
        progress.disk.objects.lookup entry.objectPath = disk.objects.lookup entry.objectPath) ∨
    ∃ unit ∈ build.units, unit.name = name ∧
      progress.disk.manifest.lookup name = some (build.entryOf unit) ∧
        progress.disk.objects.lookup (build.entryOf unit).objectPath = some ⟨build, unit⟩
  objects : ∀ path, progress.disk.objects.lookup path = disk.objects.lookup path ∨
    ∃ unit ∈ build.units, path = (build.entryOf unit).objectPath ∧
      progress.disk.objects.lookup path = some ⟨build, unit⟩
  reused : ∀ reused ∈ progress.reused, ∃ written, reused.2 = some written ∧
    written.build.inputs platform written.unit = build.inputs platform reused.1

section Runs

variable {build : SourceBuild sha256 parse} {disk : Disk sha256 parse}
  {progress : Progress sha256 parse} {unit : CodeUnit}

/-- The entry that spares a unit. -/
theorem needsRecompile_eq_false_iff {name sourceHash contractHash depsHash : String} :
    disk.needsRecompile name sourceHash contractHash depsHash = false ↔
      ∃ entry, disk.manifest.lookup name = some entry ∧ entry.sourceHash = sourceHash ∧
        entry.contractHash = contractHash ∧ entry.depsHash = depsHash ∧
          entry.objectPath ∈ disk.objects := by
  unfold Disk.needsRecompile
  cases found : disk.manifest.lookup name with
  | none => simp
  | some entry =>
      dsimp only
      split_ifs <;> simp_all

/-- Objects of units with other names are other files. -/
theorem objectPath_ne_of_name (digest : ∀ bytes, (sha256 bytes).length = 32)
    {before after : SourceBuild sha256 parse} {unit unit' : CodeUnit}
      (other : unit.name ≠ unit'.name) :
    (before.entryOf unit).objectPath ≠ (after.entryOf unit').objectPath := by
  intro same
  have long : ∀ contents, 16 ≤ (computeSourceHash sha256 contents).toList.length :=
    fun contents => by
    rw [length_computeSourceHash digest]
    decide
  exact other (objectPath_inj (long _) (long _) same).1

/-- A unit is spared when its object was written with the same inputs. -/
theorem reused_soundly (tracked : build.Tracked platform disk) (consistent : disk.Consistent)
    (follows : progress.Follows platform build disk) (member : unit ∈ build.units)
    (spared : progress.disk.needsRecompile unit.name (build.entryOf unit).sourceHash
      (build.entryOf unit).contractHash (build.entryOf unit).depsHash = false) :
    ∃ written, progress.disk.objects.lookup (build.entryOf unit).objectPath = some written ∧
      written.build.inputs platform written.unit = build.inputs platform unit := by
  obtain ⟨entry, known, source, _, deps, _⟩ := needsRecompile_eq_false_iff.mp spared
  obtain ⟨sameManifest, sameObjects⟩ | ⟨unit', member', named, entered, wrote⟩ :=
    follows.manifest unit.name
  · -- The object was there before the build.
    have onDisk : disk.manifest.lookup unit.name = some entry := sameManifest ▸ known
    obtain ⟨written, object, inside, named, rfl⟩ := consistent unit.name entry onDisk
    have cached : disk.CachedFor unit written := ⟨_, onDisk, object⟩
    have apart := tracked.apart unit member written cached
    have text := apart.files (congrArg (fun hash : String => hash.toList.take 16) source)
    obtain rfl := SourceBuild.unit_eq inside member named text
    have unnoticed := SourceBuild.not_noticed_of_depsHash_eq apart deps
    have unedited : ¬ written.build.Edited platform build written.unit := fun edited =>
      unnoticed (tracked.noticed _ member written cached text edited)
    refine ⟨written, ?_, SourceBuild.inputs_eq_of_not_edited unedited⟩
    have path : (build.entryOf written.unit).objectPath =
        (written.build.entryOf written.unit).objectPath := by
      simp only [SourceBuild.entryOf, text]
    rw [path, sameObjects _ onDisk, object]
  · -- The build has written it itself.
    rw [entered] at known
    cases known
    have text := (tracked.files unit' member' unit member).files
      (congrArg (fun hash : String => hash.toList.take 16) source)
    obtain rfl := SourceBuild.unit_eq member' member named text
    exact ⟨_, wrote, rfl⟩

/-- One unit of a build. -/
theorem compileUnit_follows (digest : ∀ bytes, (sha256 bytes).length = 32)
    (tracked : build.Tracked platform disk) (consistent : disk.Consistent)
    (follows : progress.Follows platform build disk) (member : unit ∈ build.units) :
    (build.compileUnit platform progress unit).Follows platform build disk := by
  unfold SourceBuild.compileUnit
  dsimp only
  split
  · exact follows
  · split
    · split
      · exact ⟨follows.manifest, follows.objects, follows.reused⟩
      · refine ⟨fun name => ?_, fun path => ?_, follows.reused⟩
        · by_cases here : name = unit.name
          · subst here
            exact .inr ⟨unit, member, rfl, AList.lookup_insert _, AList.lookup_insert _⟩
          · simp only [AList.lookup_insert_ne here]
            obtain ⟨sameManifest, sameObjects⟩ | ⟨unit', member', rfl, entered, wrote⟩ :=
              follows.manifest name
            · refine .inl ⟨sameManifest, fun entry known => ?_⟩
              obtain ⟨written, _, _, rfl, rfl⟩ := consistent name entry known
              rw [AList.lookup_insert_ne (objectPath_ne_of_name digest here), sameObjects _ known]
            · refine .inr ⟨unit', member', rfl, entered, ?_⟩
              rw [AList.lookup_insert_ne (objectPath_ne_of_name digest here), wrote]
        · by_cases here : path = (build.entryOf unit).objectPath
          · subst here
            exact .inr ⟨unit, member, rfl, AList.lookup_insert _⟩
          · simp only [AList.lookup_insert_ne here]
            exact follows.objects path
    · next spared =>
        refine ⟨follows.manifest, follows.objects, fun reused taken => ?_⟩
        obtain old | new := List.mem_append.mp taken
        · exact follows.reused reused old
        · obtain rfl := List.mem_singleton.mp new
          exact reused_soundly tracked consistent follows member (by simpa using spared)

/-- A whole build. -/
theorem run_follows (digest : ∀ bytes, (sha256 bytes).length = 32)
    (tracked : build.Tracked platform disk) (consistent : disk.Consistent) :
    (build.run platform disk).Follows platform build disk := by
  have each : ∀ (units : List CodeUnit) (progress : Progress sha256 parse),
      (∀ unit ∈ units, unit ∈ build.units) → progress.Follows platform build disk →
        (units.foldl (build.compileUnit platform) progress).Follows platform build disk := by
    intro units
    induction units with
    | nil => exact fun _ _ follows => follows
    | cons unit rest ih =>
        intro progress members follows
        obtain ⟨here, later⟩ := List.forall_mem_cons.mp members
        exact ih _ later (compileUnit_follows digest tracked consistent follows here)
  exact each build.units { disk } (fun _ member => member)
    ⟨fun _ => .inl ⟨rfl, fun _ _ => rfl⟩, fun _ => .inl rfl, by simp⟩

/-- The cache a build leaves is consistent, whether or not an error has stopped it. -/
theorem leaves_consistent (digest : ∀ bytes, (sha256 bytes).length = 32)
    (tracked : build.Tracked platform disk) (consistent : disk.Consistent) :
    (build.leaves platform disk).Consistent := by
  have follows := run_follows digest tracked consistent
  unfold SourceBuild.leaves
  dsimp only
  split
  · intro name entry known
    obtain ⟨sameManifest, sameObjects⟩ | ⟨unit, member, named, entered, wrote⟩ :=
      follows.manifest name
    · rw [sameManifest] at known
      rw [sameObjects entry known]
      exact consistent name entry known
    · rw [entered] at known
      cases known
      exact ⟨_, wrote, member, named, rfl⟩
  · next e stopped =>
      intro name entry known
      obtain ⟨written, object, inside, rfl, rfl⟩ := consistent name entry known
      obtain same | ⟨unit, member, path, wrote⟩ :=
        follows.objects (written.build.entryOf written.unit).objectPath
      · exact ⟨written, same.trans object, inside, rfl, rfl⟩
      · -- Only an object of the same name and file is overwritten.
        have long : ∀ contents, 16 ≤ (computeSourceHash sha256 contents).toList.length :=
          fun contents => by
            rw [length_computeSourceHash digest]
            decide
        obtain ⟨named, digits⟩ := objectPath_inj (long _) (long _) path
        have cached : disk.CachedFor unit written := ⟨_, named ▸ known, object⟩
        have text := (tracked.apart unit member written cached).files digits
        obtain rfl := SourceBuild.unit_eq inside member named text
        have deps := SourceBuild.depsHash_eq_of_not_noticed
          (tracked.stopped (by rw [stopped]; rfl) _ member written cached text)
        refine ⟨_, wrote, member, rfl, ?_⟩
        simp only [SourceBuild.entryOf, text, deps]

end Runs

/-- As long as every build finds the cache tracked, no build takes an object again whose
inputs have changed. -/
theorem reusesSoundly_of_tracked (digest : ∀ bytes, (sha256 bytes).length = 32)
    {history : List (SourceBuild sha256 parse)}
    (tracked : ∀ build earlier, build :: earlier <:+ history →
      build.Tracked platform (cacheAfter platform earlier)) :
    ∀ build earlier, build :: earlier <:+ history →
      build.ReusesSoundly platform (cacheAfter platform earlier) := by
  have consistent : ∀ earlier, earlier <:+ history → (cacheAfter platform earlier).Consistent := by
    intro earlier
    induction earlier with
    | nil => exact fun _ name entry known => absurd known (by simp [cacheAfter])
    | cons build rest ih =>
        intro part
        exact leaves_consistent digest (tracked build rest part)
          (ih ((List.suffix_cons build rest).trans part))
  intro build earlier part
  exact (run_follows digest (tracked build earlier part)
    (consistent earlier ((List.suffix_cons build earlier).trans part))).reused

/-- A contract with outputs and nothing else. -/
def yielding (names : List String) : Contract where
  inputs := []
  outputs := names.map fun name => ⟨name, .int, 8⟩
  guarantees := []

/-- An executable that calls `scale` of a library. -/
def scalingText : List UInt8 := utf8Bytes
    "EXECUTABLE app\nENTRY\n  x = CALL scale\nEND_EXECUTABLE\n"

def scalingExecutable : Executable where
  name := "app"
  entry := [.assignment 3 "x" (.call "scale" [])]

def scalingParse (text : List UInt8) : Option UnitAst :=
  if text = scalingText then some (.entry scalingExecutable) else none

/-- SHA-256 of the file and of two contracts of `scale`. -/
def scalingDigest (bytes : List UInt8) : List UInt8 :=
  if bytes = scalingText then
    [98, 219, 114, 11, 94, 98, 41, 94, 180, 251, 110, 235, 215, 136, 124, 18, 118, 118, 77, 27, 1,
      223, 105, 82, 39, 31, 65, 251, 231, 99, 127, 35]
  else if bytes = (yielding ["r"]).hashInput then
    [239, 124, 224, 70, 223, 215, 220, 20, 119, 172, 212, 29, 145, 102, 172, 43, 227, 109, 115, 36,
      174, 120, 202, 146, 163, 12, 87, 185, 235, 171, 182, 68]
  else if bytes = (yielding ["r", "s"]).hashInput then
    [252, 189, 74, 120, 25, 200, 112, 128, 11, 59, 194, 194, 121, 196, 29, 130, 234, 106, 204, 153,
      133, 238, 40, 168, 234, 161, 220, 220, 228, 157, 118, 32]
  else List.replicate 32 0

/-- The digest has 32 bytes. -/
theorem length_scalingDigest (bytes : List UInt8) : (scalingDigest bytes).length = 32 := by
  unfold scalingDigest
  split_ifs <;> rfl

/-- The executable, linked with a library whose `scale` has some outputs. -/
def scalingProject (outputs : List String) : Project where
  executable := scalingExecutable
  uses := []
  files := ∅
  patternFiles := ∅
  libraries := [⟨["scale"], (∅ : Contracts).insert "scale" (yielding outputs)⟩]

def scalingBuild (outputs : List String) : SourceBuild scalingDigest scalingParse where
  project := scalingProject outputs
  loaded := ⟨[], []⟩
  text := fun _ => scalingText
  composite := rfl
  loads := ⟨1, rfl⟩
  valid := by simp [LoadedProject.behaviors]
  sound := rfl
  parsed := by
    intro unit member
    obtain rfl := List.mem_singleton.mp member
    rfl

/-- After the library is edited the object of ENTRY is taken again, which was compiled with
the contract from before. -/
theorem scaling_reuses_stale : ¬ (scalingBuild ["r", "s"]).ReusesSoundly .linux
    (cacheAfter .linux [scalingBuild ["r"]]) := by
  intro sound
  have taken :
    ((scalingBuild ["r", "s"]).run .linux (cacheAfter .linux [scalingBuild ["r"]])).reused =
      [(.entry scalingExecutable, some ⟨scalingBuild ["r"], .entry scalingExecutable⟩)] := by
    rfl
  obtain ⟨written, object, same⟩ := sound _ (by rw [taken]; exact List.mem_singleton_self _)
  cases object
  have contracts := congrArg CodegenInputs.contracts same
  revert contracts
  decide +kernel

/-- An executable that calls `shift`, a behavior of its own. -/
def shiftingText : List UInt8 := utf8Bytes
    "EXECUTABLE app\nENTRY\n  x = CALL shift\nEND_EXECUTABLE\n"

def shiftingExecutable : Executable where
  name := "app"
  entry := [.assignment 3 "x" (.call "shift" [])]

/-- The file of `shift`, which sets its OUTPUT to 1, and to 2 after an edit. -/
def shiftText (edited : Bool) : List UInt8 :=
  utf8Bytes
    ("BEHAVIOR shift\nCONTRACT\n  OUTPUT r int 8\nHASH ef7ce046\nIMPLEMENTATION\n  SET r " ++
    (if edited then "2" else "1") ++ "\nEND\n")

def shiftBehavior (edited : Bool) : Behavior where
  name := "shift"
  contract := yielding ["r"]
  hash := "ef7ce046"
  implementations := [⟨none, [.set 6 "r" (.intLit (if edited then 2 else 1))]⟩]
  composition := none

def shiftingParse (text : List UInt8) : Option UnitAst :=
  if text = shiftingText then some (.entry shiftingExecutable)
  else if text = shiftText false then some (.behavior (shiftBehavior false))
  else if text = shiftText true then some (.behavior (shiftBehavior true))
  else none

/-- SHA-256 of the file of ENTRY, of the two versions of `shift`, and of `shift@ef7ce046`. -/
def shiftingDigests : List UInt8 × List UInt8 × List UInt8 × List UInt8 :=
  ([181, 166, 181, 78, 67, 77, 147, 166, 87, 218, 66, 93, 81, 77, 47, 10, 108, 181, 85, 83, 8, 134,
    208, 161, 10, 9, 40, 176, 140, 126, 93, 50],
    [218, 241, 151, 84, 120, 235, 249, 254, 13, 50, 78, 46, 218, 220, 175, 51, 191, 96, 181,
      243, 22, 203,
    88, 161, 68, 35, 179, 33, 64, 41, 143, 78],
    [199, 27, 100, 211, 33, 236, 220, 115, 165, 16, 111, 10, 7, 205, 21, 153, 16, 28, 105, 59,
      104, 106,
    145, 96, 180, 217, 154, 110, 113, 26, 184, 23],
    [58, 130, 205, 84, 57, 192, 213, 194, 197, 50, 24, 197, 122, 30, 239, 159, 1, 145, 59, 127,
      192, 239,
    211, 97, 231, 1, 70, 44, 114, 58, 254, 200])

def shiftingDigest (bytes : List UInt8) : List UInt8 :=
  if bytes = shiftingText then shiftingDigests.1
  else if bytes = shiftText false then shiftingDigests.2.1
  else if bytes = shiftText true then shiftingDigests.2.2.1
  else if bytes = utf8Bytes "shift@ef7ce046\n" then shiftingDigests.2.2.2
  else scalingDigest bytes

/-- The digest has 32 bytes. -/
theorem length_shiftingDigest (bytes : List UInt8) : (shiftingDigest bytes).length = 32 := by
  unfold shiftingDigest
  split_ifs <;> first | rfl | exact length_scalingDigest bytes

def shiftingProject (edited : Bool) : Project where
  executable := shiftingExecutable
  uses := []
  files := (∅ : BehaviorFiles).insert "shift" ⟨"shift.beh", .ok (shiftBehavior edited)⟩
  patternFiles := ∅
  libraries := []

def shiftUnit (edited : Bool) : CodeUnit := .behavior "shift" (shiftBehavior edited)

def shiftingTextOf (edited : Bool) : CodeUnit → List UInt8
  | .behavior _ _ => shiftText edited
  | .pattern _ _ | .entry _ => shiftingText

def shiftingLoaded (edited : Bool) : LoadedProject where
  dependencies := [("shift", ⟨"shift.beh", shiftBehavior edited⟩)]
  patterns := []

/-- The project loads in both versions. -/
theorem shiftingLoads (edited : Bool) :
    (shiftingProject edited).load 2 = .done (shiftingLoaded edited) := by
  cases edited <;> rfl

/-- The behaviors are valid in both versions. -/
theorem shiftingValid (edited : Bool) : ∀ behavior ∈ (shiftingLoaded edited).behaviors,
    validateBehavior shiftingDigest ((shiftingLoaded edited).dependencyContracts
      (shiftingProject edited).libraryContracts) behavior = .ok () := by
  intro behavior member
  obtain rfl := List.mem_singleton.mp member
  obtain ⟨⟨⟩, valid⟩ : ∃ done, validateBehavior shiftingDigest
    ((shiftingLoaded edited).dependencyContracts
      (shiftingProject edited).libraryContracts) (shiftBehavior edited) = .ok done :=
    exists_ok_of_isOk (by clear member; revert edited; decide +kernel)
  exact valid

/-- The graph has no error in either version. -/
theorem shiftingSound (edited : Bool) :
    (projectGraph shiftingDigest (shiftingLoaded edited).behaviors
    (shiftingProject edited).libraryContracts).validateGraph = [] := by
  cases edited <;> rfl

/-- The texts are parsed as their units in both versions. -/
theorem shiftingParsed (edited : Bool) : ∀ unit ∈ (shiftingLoaded edited).units shiftingExecutable,
    shiftingParse (shiftingTextOf edited unit) = some unit.ast := by
  intro unit member
  change unit ∈ [shiftUnit edited, .entry shiftingExecutable] at member
  fin_cases member <;> cases edited <;> rfl

/-- A build of the two files. -/
def shiftingBuild (edited : Bool) : SourceBuild shiftingDigest shiftingParse where
  project := shiftingProject edited
  loaded := shiftingLoaded edited
  text := shiftingTextOf edited
  composite := rfl
  loads := ⟨2, shiftingLoads edited⟩
  valid := shiftingValid edited
  sound := shiftingSound edited
  parsed := shiftingParsed edited

/-- The texts of the files, and their digests. -/
def shiftingFile : Option Bool → List UInt8 × List UInt8
  | none => (shiftingText, shiftingDigests.1)
  | some false => (shiftText false, shiftingDigests.2.1)
  | some true => (shiftText true, shiftingDigests.2.2.1)

/-- The digest of a file is the one in the table. -/
theorem shiftingDigest_file (file : Option Bool) :
    shiftingDigest (shiftingFile file).1 = (shiftingFile file).2 := by
  have first : shiftText false ≠ shiftingText := by decide +kernel
  have second : shiftText true ≠ shiftingText := by decide +kernel
  have differs : shiftText true ≠ shiftText false := by decide +kernel
  unfold shiftingFile
  split
  · rw [shiftingDigest, if_pos rfl]
  · rw [shiftingDigest, if_neg first, if_pos rfl]
  · rw [shiftingDigest, if_neg second, if_neg differs, if_pos rfl]

/-- Sixteen digits tell the files apart. -/
theorem shiftingFile_inj : ∀ file file' : Option Bool,
    (hexEncode (shiftingFile file).2).toList.take 16 =
      (hexEncode (shiftingFile file').2).toList.take 16 →
      file = file' := by decide +kernel

/-- The units of the build in both versions. -/
theorem units_shiftingBuild (edited : Bool) :
    (shiftingBuild edited).units = [shiftUnit edited, .entry shiftingExecutable] := rfl

/-- The text of every unit is a file of the table. -/
theorem exists_shiftingFile {edited : Bool} {unit : CodeUnit}
    (member : unit ∈ (shiftingBuild edited).units) :
    ∃ file, (shiftingBuild edited).text unit = (shiftingFile file).1 := by
  rw [units_shiftingBuild] at member
  fin_cases member
  · exact ⟨some edited, by cases edited <;> rfl⟩
  · exact ⟨none, rfl⟩

/-- Different texts have different digests. -/
theorem shifting_apart {before after : Bool} {unit unit' : CodeUnit}
    (member : unit ∈ (shiftingBuild before).units) (member' : unit' ∈ (shiftingBuild after).units) :
    (shiftingBuild before).Apart (shiftingBuild after) unit unit' := by
  refine ⟨fun same => ?_, fun name contract contract' known known' _ => ?_, fun same => ?_⟩
  · obtain ⟨file, text⟩ := exists_shiftingFile member
    obtain ⟨file', text'⟩ := exists_shiftingFile member'
    rw [text, text', computeSourceHash, computeSourceHash, shiftingDigest_file,
      shiftingDigest_file] at same
    rw [text, text', shiftingFile_inj file file' same]
  · have only (edited : Bool) {unit : CodeUnit} (member : unit ∈ (shiftingBuild edited).units)
        {contract : Contract} (known : (shiftingBuild edited).contractOf unit name =
          some contract) :
        contract = yielding ["r"] := by
      have table : (shiftingBuild edited).contractOf unit name =
          ((∅ : Contracts).insert "shift" (yielding ["r"])).lookup name := by
        rw [units_shiftingBuild] at member
        fin_cases member <;> rfl
      rw [table] at known
      by_cases here : name = "shift"
      · subst here
        rw [AList.lookup_insert] at known
        exact (Option.some.inj known).symm
      · rw [AList.lookup_insert_ne here] at known
        cases known
    rw [only before member known, only after member' known']
  · have dependent : ∀ edited edited' :
      Bool, computeDepsHash shiftingDigest ((shiftingBuild edited).depHashes
        (shiftUnit edited)) ≠ computeDepsHash shiftingDigest ((shiftingBuild edited').depHashes
          (.entry shiftingExecutable)) := by decide +kernel
    rw [units_shiftingBuild] at member member'
    fin_cases member <;> fin_cases member'
    · rfl
    · exact absurd same (dependent before after)
    · exact absurd same.symm (dependent after before)
    · rfl

/-- Every build finds the cache tracked, when the first version of `shift` or nothing has been
built before. -/
theorem shifting_tracked : ∀ build earlier,
    build :: earlier <:+ [shiftingBuild true, shiftingBuild false] →
      build.Tracked .linux (cacheAfter .linux earlier) := by
  have first : (shiftingBuild false).Tracked .linux (cacheAfter .linux []) := by
    have empty :
      ∀ unit written,
        ¬ (cacheAfter .linux ([] : List (SourceBuild shiftingDigest shiftingParse))).CachedFor
        unit written := by
      rintro unit written ⟨entry, known, -⟩
      cases known
    exact ⟨fun unit _ written cached => absurd cached (empty unit written),
      fun _ unit _ written cached => absurd cached (empty unit written),
      fun unit _ written cached => absurd cached (empty unit written),
      fun unit member unit' member' => shifting_apart member member'⟩
  have second : (shiftingBuild true).Tracked .linux (cacheAfter .linux [shiftingBuild false]) := by
    have own : ∀ unit ∈ (shiftingBuild true).units, ∀ written,
        (cacheAfter .linux [shiftingBuild false]).CachedFor unit written →
          (unit = shiftUnit true ∧ written = ⟨shiftingBuild false, shiftUnit false⟩) ∨
            unit = .entry shiftingExecutable ∧ written =
              ⟨shiftingBuild false, .entry shiftingExecutable⟩ := by
      rintro unit member written ⟨entry, known, object⟩
      rw [units_shiftingBuild] at member
      fin_cases member
      · have entered : (cacheAfter .linux [shiftingBuild false]).manifest.lookup "shift" =
            some ((shiftingBuild false).entryOf (shiftUnit false)) := rfl
        obtain rfl := Option.some.inj (entered.symm.trans known)
        exact .inl ⟨rfl, (Option.some.inj object).symm⟩
      · have entered : (cacheAfter .linux [shiftingBuild false]).manifest.lookup "app" =
            some ((shiftingBuild false).entryOf (.entry shiftingExecutable)) := rfl
        obtain rfl := Option.some.inj (entered.symm.trans known)
        exact .inr ⟨rfl, (Option.some.inj object).symm⟩
    have runs :
      ((shiftingBuild true).run .linux (cacheAfter .linux [shiftingBuild false])).error = none :=
      Option.isNone_iff_eq_none.mp (by decide +kernel)
    refine ⟨fun unit member written cached same edited => ?_, fun stopped => ?_,
      fun unit member written cached => ?_, fun unit member unit' member' =>
        shifting_apart member member'⟩
    · obtain ⟨rfl, rfl⟩ | ⟨rfl, rfl⟩ := own unit member written cached
      · have differs : shiftText false ≠ shiftText true := by decide +kernel
        exact absurd same differs
      · cases edited with
        | contract _ differs => exact absurd rfl differs
        | memory _ differs => exact absurd rfl differs
    · rw [runs] at stopped
      cases stopped
    · obtain ⟨rfl, rfl⟩ | ⟨rfl, rfl⟩ := own unit member written cached
      · exact shifting_apart (List.mem_cons_self) member
      · exact shifting_apart (List.mem_cons_of_mem _ List.mem_cons_self) member
  intro build earlier part
  obtain same | part := List.suffix_cons_iff.mp part
  · obtain ⟨rfl, rfl⟩ := List.cons.inj same
    exact second
  · obtain same | part := List.suffix_cons_iff.mp part
    · obtain ⟨rfl, rfl⟩ := List.cons.inj same
      exact first
    · cases List.suffix_nil.mp part

/-- After an edit of `shift` only the object of ENTRY is taken again. -/
theorem reusesSoundly_of_tracked_shifting :
    (shiftingBuild true).ReusesSoundly .linux (cacheAfter .linux [shiftingBuild false]) :=
  reusesSoundly_of_tracked length_shiftingDigest shifting_tracked _ _ (List.suffix_refl _)

end Sigil
