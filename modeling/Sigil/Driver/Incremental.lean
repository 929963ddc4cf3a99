import Sigil.Driver.Reuse

/-!
# Builds over the cache of an earlier build

A build that succeeds leaves a manifest entry for each of its units, and the object of the entry.
What a later build over this cache compiles again is a matter of the hashes in these entries.
-/

namespace Sigil

open Flow

variable {sha256 : List UInt8 → List UInt8} {parse : List UInt8 → Option UnitAst}

/-- The hashes by which an entry is taken for another one. -/
structure CacheEntry.Matches (kept entry : CacheEntry) : Prop where
  sourceHash : kept.sourceHash = entry.sourceHash
  contractHash : kept.contractHash = entry.contractHash
  depsHash : kept.depsHash = entry.depsHash

/-- The entry of a name is in the manifest, and its object is there. -/
structure Disk.Keeps (disk : Disk sha256 parse) (name : String) (kept : CacheEntry) : Prop where
  entry : disk.manifest.lookup name = some kept
  object : kept.objectPath ∈ disk.objects

section Entries

variable {disk : Disk sha256 parse} {name : String} {kept entry : CacheEntry}

/-- An entry matches itself. -/
theorem CacheEntry.Matches.refl (entry : CacheEntry) : entry.Matches entry := ⟨rfl, rfl, rfl⟩

/-- What spares a unit is an entry that is kept and has the same hashes. -/
theorem Disk.spares_iff :
    disk.needsRecompile name entry.sourceHash entry.contractHash entry.depsHash = false ↔
      ∃ kept, disk.Keeps name kept ∧ kept.Matches entry := by
  rw [needsRecompile_eq_false_iff]
  constructor
  · rintro ⟨kept, known, source, contract, deps, object⟩
    exact ⟨kept, ⟨known, object⟩, source, contract, deps⟩
  · rintro ⟨kept, keeps, same⟩
    exact ⟨kept, keeps.entry, same.sourceHash, same.contractHash, same.depsHash, keeps.object⟩

/-- A unit is fresh exactly when the entry kept for it matches. -/
theorem Disk.Keeps.fresh_iff (keeps : disk.Keeps name kept) :
    disk.needsRecompile name entry.sourceHash entry.contractHash entry.depsHash = false ↔
      kept.Matches entry := by
  rw [Disk.spares_iff]
  constructor
  · rintro ⟨other, keeps', same⟩
    obtain rfl := Option.some.inj (keeps.entry.symm.trans keeps'.entry)
    exact same
  · exact fun same => ⟨kept, keeps, same⟩

end Entries

namespace SourceBuild

variable {platform : TargetPlatform} {build before after : SourceBuild sha256 parse}
  {progress : Progress sha256 parse} {unit : CodeUnit} {units : List CodeUnit}
    {disk : Disk sha256 parse}

/-- What happens to a unit unless an error has stopped the build. -/
theorem compileUnit_cases (goes : (build.compileUnit platform progress unit).error = none) :
    progress.error = none ∧
      ((progress.disk.needsRecompile unit.name (build.entryOf unit).sourceHash
        (build.entryOf unit).contractHash
            (build.entryOf unit).depsHash = true ∧
          build.compileUnit platform progress unit = { progress with disk :=
            { manifest := progress.disk.manifest.insert unit.name (build.entryOf unit)
              objects := progress.disk.objects.insert (build.entryOf unit).objectPath
                ⟨build, unit⟩ } }) ∨
        (progress.disk.needsRecompile unit.name (build.entryOf unit).sourceHash
          (build.entryOf unit).contractHash
            (build.entryOf unit).depsHash = false ∧
          build.compileUnit platform progress unit = { progress with reused :=
            progress.reused ++
              [(unit, progress.disk.objects.lookup (build.entryOf unit).objectPath)] })) := by
  unfold compileUnit at goes ⊢
  dsimp only at goes ⊢
  cases stopped : progress.error with
  | some e =>
      rw [stopped] at goes
      dsimp only at goes
      rw [stopped] at goes
      cases goes
  | none =>
      rw [stopped] at goes
      dsimp only at goes ⊢
      split_ifs at goes ⊢ with stale
      · split at goes
        next failed => cases goes
        next compiled => exact ⟨rfl, .inl ⟨stale, rfl⟩⟩
      · exact ⟨rfl, .inr ⟨by simpa using stale, rfl⟩⟩

/-- A step leaves the entries of other names alone. -/
theorem keeps_compileUnit (goes : (build.compileUnit platform progress unit).error = none)
    {name : String}
    {kept : CacheEntry} (other : name ≠ unit.name) (keeps : progress.disk.Keeps name kept) :
    (build.compileUnit platform progress unit).disk.Keeps name kept := by
  obtain ⟨-, ⟨-, same⟩ | ⟨-, same⟩⟩ := compileUnit_cases goes
  · rw [same]
    exact ⟨(AList.lookup_insert_ne other).trans keeps.entry,
      (AList.mem_insert _).mpr (.inr keeps.object)⟩
  · rw [same]
    exact keeps

/-- After its step a unit has an entry that matches. -/
theorem keeps_unit (goes : (build.compileUnit platform progress unit).error = none) :
    ∃ kept, (build.compileUnit platform progress unit).disk.Keeps unit.name kept ∧
      kept.Matches (build.entryOf unit) := by
  obtain ⟨-, ⟨-, same⟩ | ⟨fresh, same⟩⟩ := compileUnit_cases goes
  · rw [same]
    exact ⟨build.entryOf unit, ⟨AList.lookup_insert _, (AList.mem_insert _).mpr (.inl rfl)⟩,
      .refl _⟩
  · rw [same]
    exact Disk.spares_iff.mp fresh

/-- A unit is taken again when the entry that is kept for it matches. -/
theorem reused_compileUnit (goes : (build.compileUnit platform progress unit).error = none) :
    (∃ object, (build.compileUnit platform progress unit).reused =
      progress.reused ++ [(unit, object)] ∧
        progress.disk.needsRecompile unit.name (build.entryOf unit).sourceHash
          (build.entryOf unit).contractHash
          (build.entryOf unit).depsHash = false) ∨
      ((build.compileUnit platform progress unit).reused = progress.reused ∧
        progress.disk.needsRecompile unit.name (build.entryOf unit).sourceHash
          (build.entryOf unit).contractHash
          (build.entryOf unit).depsHash = true) := by
  obtain ⟨-, ⟨stale, same⟩ | ⟨fresh, same⟩⟩ := compileUnit_cases goes
  · exact .inr ⟨by rw [same], stale⟩
  · exact .inl ⟨_, by rw [same], fresh⟩

/-- An error stays. -/
theorem error_foldl (goes : (units.foldl (build.compileUnit platform) progress).error = none) :
    progress.error = none := by
  induction units generalizing progress with
  | nil => exact goes
  | cons unit units ih => exact (compileUnit_cases (ih goes)).1

/-- Compiling other units keeps an entry. -/
theorem keeps_foldl (goes : (units.foldl (build.compileUnit platform) progress).error = none)
    {name : String}
    {kept : CacheEntry} (other : name ∉ units.map CodeUnit.name)
      (keeps : progress.disk.Keeps name kept) :
    (units.foldl (build.compileUnit platform) progress).disk.Keeps name kept := by
  induction units generalizing progress with
  | nil => exact keeps
  | cons unit units ih =>
      obtain ⟨here, later⟩ := not_or.mp (List.mem_cons.not.mp other)
      exact ih goes later (keeps_compileUnit (error_foldl goes) here keeps)

/-- After a build each unit has an entry that matches. -/
theorem keeps_units (goes : (units.foldl (build.compileUnit platform) progress).error = none)
    (names : (units.map CodeUnit.name).Nodup) : ∀ unit ∈ units, ∃ kept,
      (units.foldl (build.compileUnit platform) progress).disk.Keeps unit.name kept ∧
        kept.Matches (build.entryOf unit) := by
  induction units generalizing progress with
  | nil => simp
  | cons unit units ih =>
      rw [List.foldl_cons] at goes ⊢
      obtain ⟨fresh, names⟩ := List.nodup_cons.mp names
      refine List.forall_mem_cons.mpr ⟨?_, ih goes names⟩
      obtain ⟨kept, keeps, same⟩ := keeps_unit (error_foldl goes)
      exact ⟨kept, keeps_foldl goes fresh keeps, same⟩

/-- Only a unit that is met is taken again. -/
theorem mem_reused_foldl (goes : (units.foldl (build.compileUnit platform) progress).error =
    none) (other : unit ∉ units) :
    unit ∈ (units.foldl (build.compileUnit platform) progress).reused.map Prod.fst ↔
      unit ∈ progress.reused.map Prod.fst := by
  induction units generalizing progress with
  | nil => exact Iff.rfl
  | cons first units ih =>
      obtain ⟨here, later⟩ := not_or.mp (List.mem_cons.not.mp other)
      rw [List.foldl_cons, ih goes later]
      obtain ⟨object, same, -⟩ | ⟨same, -⟩ := reused_compileUnit (error_foldl goes)
      · rw [same, List.map_append, List.mem_append]
        simp [here]
      · rw [same]

/-- A unit is taken again exactly when the entry kept for it when the build begins matches. -/
theorem mem_reused_iff (goes : (units.foldl (build.compileUnit platform) progress).error = none)
    (names : (units.map CodeUnit.name).Nodup)
      (new : ∀ unit ∈ units, unit ∉ progress.reused.map Prod.fst)
    (member : unit ∈ units) {kept : CacheEntry} (keeps : progress.disk.Keeps unit.name kept) :
    unit ∈ (units.foldl (build.compileUnit platform) progress).reused.map Prod.fst ↔
      kept.Matches (build.entryOf unit) := by
  induction units generalizing progress with
  | nil => cases member
  | cons first units ih =>
      rw [List.foldl_cons] at goes ⊢
      obtain ⟨fresh, names⟩ := List.nodup_cons.mp names
      obtain ⟨unmet, new⟩ := List.forall_mem_cons.mp new
      have step := reused_compileUnit (error_foldl goes)
      obtain rfl | inside := List.mem_cons.mp member
      · have gone : unit ∉ units := fun again => fresh (List.mem_map_of_mem again)
        rw [mem_reused_foldl goes gone, ← keeps.fresh_iff]
        obtain ⟨object, same, taken⟩ | ⟨same, stale⟩ := step
        · rw [same, taken]
          simp
        · rw [same, stale]
          simpa using unmet
      · have apart : unit.name ≠ first.name := fun same => fresh (same ▸ List.mem_map_of_mem inside)
        refine ih goes names (fun other listed => ?_) inside
          (keeps_compileUnit (error_foldl goes) apart keeps)
        obtain ⟨object, same, -⟩ | ⟨same, -⟩ := step
        · rw [same, List.map_append, List.mem_append, not_or]
          refine ⟨new other listed, fun met => fresh ?_⟩
          obtain rfl : other = first := by simpa using met
          exact List.mem_map_of_mem listed
        · rw [same]
          exact new other listed

/-- Over a cache with entries that match nothing is compiled. -/
theorem foldl_fresh (fine : progress.error = none)
    (kept : ∀ unit ∈ units, ∃ kept, progress.disk.Keeps unit.name kept ∧
      kept.Matches (build.entryOf unit)) : units.foldl (build.compileUnit platform) progress =
    { progress with
      reused := progress.reused ++
        units.map fun unit =>
          (unit, progress.disk.objects.lookup (build.entryOf unit).objectPath) } := by
  induction units generalizing progress with
  | nil => simp
  | cons unit units ih =>
      obtain ⟨here, kept⟩ := List.forall_mem_cons.mp kept
      have step : build.compileUnit platform progress unit = { progress with reused :=
          progress.reused ++
            [(unit, progress.disk.objects.lookup (build.entryOf unit).objectPath)] } := by
        unfold compileUnit
        dsimp only
        rw [fine, if_neg (by simp [Disk.spares_iff.mpr here])]
      rw [List.foldl_cons, step, ih]
      · simp
      · exact fine
      · exact kept

/-- A build that goes through leaves the disk of its run. -/
theorem leaves_of_goes (goes : (build.run platform disk).error = none) :
    build.leaves platform disk = (build.run platform disk).disk := by
  unfold leaves
  dsimp only
  rw [goes]

/-- A build over the cache that another one has left compiles a unit again exactly when the file,
the declared hash or the digest of the dependencies is another one than in that build. -/
theorem recompiled_iff (platform : TargetPlatform) (before after : SourceBuild sha256 parse)
    (disk : Disk sha256 parse)
    (succeeded : (before.run platform disk).error = none)
      (names : (before.units.map CodeUnit.name).Nodup)
    (succeeds : (after.run platform (before.leaves platform disk)).error = none)
    (names' : (after.units.map CodeUnit.name).Nodup) {unit unit' : CodeUnit}
      (member : unit ∈ before.units)
    (member' : unit' ∈ after.units) (same : unit.name = unit'.name) :
    unit' ∉ (after.run platform (before.leaves platform disk)).reused.map Prod.fst ↔
      ¬ (before.entryOf unit).Matches (after.entryOf unit') := by
  have left := leaves_of_goes succeeded
  obtain ⟨kept, keeps, matching⟩ := keeps_units succeeded names unit member
  have keeps : (before.leaves platform disk).Keeps unit'.name kept := by
    rw [left, ← same]
    exact keeps
  refine not_congr ((mem_reused_iff succeeds names' (by simp) member' keeps).trans ?_)
  constructor
  · rintro ⟨source, contract, deps⟩
    exact ⟨matching.sourceHash.symm.trans source, matching.contractHash.symm.trans contract,
      matching.depsHash.symm.trans deps⟩
  · rintro ⟨source, contract, deps⟩
    exact ⟨matching.sourceHash.trans source, matching.contractHash.trans contract,
      matching.depsHash.trans deps⟩

/-- A build that has succeeded and is run again compiles nothing and leaves the cache as it is. -/
theorem run_again (platform : TargetPlatform) (build : SourceBuild sha256 parse)
    (disk : Disk sha256 parse)
    (succeeded : (build.run platform disk).error = none)
      (names : (build.units.map CodeUnit.name).Nodup) :
    (build.run platform (build.leaves platform disk)).error = none ∧
      (build.run platform (build.leaves platform disk)).reused.map Prod.fst = build.units ∧
      build.leaves platform (build.leaves platform disk) = build.leaves platform disk := by
  have left := leaves_of_goes succeeded
  have kept : ∀ unit ∈ build.units, ∃ kept, (build.leaves platform disk).Keeps unit.name kept ∧
      kept.Matches (build.entryOf unit) := by
    rw [left]
    exact keeps_units succeeded names
  have again : build.run platform (build.leaves platform disk) =
      { disk := build.leaves platform disk
        reused := build.units.map fun unit =>
          (unit, (build.leaves platform disk).objects.lookup (build.entryOf unit).objectPath) } :=
    foldl_fresh rfl kept
  have goes : (build.run platform (build.leaves platform disk)).error = none := by rw [again]
  refine ⟨goes, ?_, ?_⟩
  · rw [again]
    simp [Function.comp_def]
  · rw [leaves_of_goes goes, again]

end SourceBuild

/-- The build of the two files goes through. -/
theorem shifting_succeeds : ∀ edited, ((shiftingBuild edited).run .linux ⟨∅, ∅⟩).error = none := by
  have each : ∀ edited, ((shiftingBuild edited).run .linux ⟨∅, ∅⟩).error.isNone := by decide +kernel
  exact fun edited => Option.isNone_iff_eq_none.mp (each edited)

/-- The units of both builds have distinct names. -/
theorem shifting_names : ∀ edited, ((shiftingBuild edited).units.map CodeUnit.name).Nodup := by
  decide +kernel

/-- `shift` is compiled again after an edit of its file. -/
theorem recompiled_iff_shifting :
    shiftUnit true ∉ ((shiftingBuild true).run .linux
        ((shiftingBuild false).leaves .linux ⟨∅, ∅⟩)).reused.map Prod.fst ↔
      ¬ ((shiftingBuild false).entryOf (shiftUnit false)).Matches
        ((shiftingBuild true).entryOf (shiftUnit true)) := by
  have succeeds : ((shiftingBuild true).run .linux
      ((shiftingBuild false).leaves .linux ⟨∅, ∅⟩)).error = none :=
    Option.isNone_iff_eq_none.mp (by decide +kernel)
  exact SourceBuild.recompiled_iff .linux (shiftingBuild false) (shiftingBuild true) ⟨∅, ∅⟩
    (shifting_succeeds false) (shifting_names false) succeeds (shifting_names true)
      List.mem_cons_self
    List.mem_cons_self rfl

/-- A second run of two units recompiles none of them. -/
theorem run_again_shifting :
    ((shiftingBuild false).run .linux ((shiftingBuild false).leaves .linux ⟨∅, ∅⟩)).error = none ∧
      ((shiftingBuild false).run .linux ((shiftingBuild false).leaves .linux ⟨∅, ∅⟩)).reused.map
        Prod.fst =
        (shiftingBuild false).units ∧
      (shiftingBuild false).leaves .linux ((shiftingBuild false).leaves .linux ⟨∅, ∅⟩) =
        (shiftingBuild false).leaves .linux ⟨∅, ∅⟩ :=
  SourceBuild.run_again .linux (shiftingBuild false) ⟨∅, ∅⟩ (shifting_succeeds false)
    (shifting_names false)

end Sigil
