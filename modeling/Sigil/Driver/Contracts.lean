import Sigil.Driver.Compiled

/-!
# Contracts of a build

What the tables of contracts hold that behaviors are analyzed and compiled against.
-/

namespace Sigil

open Flow

section Tables

variable {α β : Type} (key : α → String) (value : α → β) (name : String)

/-- Entries with distinct keys, inserted one after another. -/
theorem lookup_foldl_insert {l : List α} (distinct : (l.map key).Nodup)
    (table : AList fun _ : String => β) :
    (l.foldl (fun table a => table.insert (key a) (value a)) table).lookup name =
      ((l.find? fun a => key a = name).map value).or (table.lookup name) := by
  induction l generalizing table with
  | nil => rfl
  | cons a rest ih =>
      obtain ⟨absent, distinct⟩ := List.nodup_cons.mp distinct
      rw [List.foldl_cons, ih distinct]
      by_cases here : key a = name
      · have none : rest.find? (fun a => key a = name) = none := by
          refine List.find?_eq_none.mpr fun b member same => absent ?_
          rw [here, ← of_decide_eq_true same]
          exact List.mem_map_of_mem member
        rw [none, List.find?_cons_of_pos (by simpa using here), here, AList.lookup_insert]
        rfl
      · rw [List.find?_cons_of_neg (by simpa using here), AList.lookup_insert_ne (Ne.symm here)]

/-- Entries inserted where the table has none. -/
theorem lookup_foldl_missing (l : List α) (table : AList fun _ : String => β) :
    (l.foldl (fun table a => if key a ∈ table then table else table.insert (key a) (value a))
        table).lookup name =
      (table.lookup name).or ((l.find? fun a => key a = name).map value) := by
  induction l generalizing table with
  | nil => simp
  | cons a rest ih =>
      rw [List.foldl_cons, ih]
      by_cases known : key a ∈ table
      · rw [if_pos known]
        by_cases here : key a = name
        · obtain ⟨b, found⟩ := Option.isSome_iff_exists.mp (AList.lookup_isSome.mpr known)
          rw [← here, found]
          rfl
        · rw [List.find?_cons_of_neg (by simpa using here)]
      · rw [if_neg known]
        by_cases here : key a = name
        · have absent : table.lookup name = none := AList.lookup_eq_none.mpr (here ▸ known)
          rw [absent, here, AList.lookup_insert, List.find?_cons_of_pos (by simpa using here)]
          rfl
        · rw [AList.lookup_insert_ne (Ne.symm here), List.find?_cons_of_neg (by simpa using here)]

/-- The first entry of a key is the entry of the table. -/
theorem find?_entries (table : AList fun _ : String => β) :
    (table.entries.find? fun entry => entry.1 = name).map Sigma.snd = table.lookup name := by
  unfold AList.lookup
  induction table.entries with
  | nil => rfl
  | cons entry rest ih =>
      obtain ⟨key, b⟩ := entry
      by_cases here : key = name
      · subst here
        rw [List.find?_cons_of_pos (by simp), List.dlookup_cons_eq]
        rfl
      · rw [List.find?_cons_of_neg (by simpa using here),
          List.dlookup_cons_ne _ _ (Ne.symm here), ih]

end Tables

namespace LoadedProject

variable {loaded : LoadedProject} {libraries : Contracts} {name : String}

/-- Every name was loaded once. -/
def Distinct (loaded : LoadedProject) : Prop := (loaded.dependencies.map Prod.fst).Nodup

/-- The contract found for a dependency is that of its file. -/
theorem lookup_dependencyContracts (distinct : loaded.Distinct) :
    (loaded.dependencyContracts libraries).lookup name =
      ((loaded.dependencies.find? fun dep => dep.1 = name).map
        fun dep => dep.2.behavior.contract).or (libraries.lookup name) := by
  unfold dependencyContracts
  have inserted := lookup_foldl_insert Prod.fst (fun dep => dep.2.behavior.contract) name distinct ∅
  have added := lookup_foldl_missing (fun entry => entry.1) (fun entry => entry.2) name
    libraries.entries (loaded.dependencies.foldl
      (fun contracts dep => contracts.insert dep.1 dep.2.behavior.contract) ∅)
  rw [added, inserted, find?_entries]
  simp

/-- A library's contract is found before a dependency's. -/
theorem lookup_allContracts :
    (loaded.allContracts libraries).lookup name =
      (libraries.lookup name).or ((loaded.dependencyContracts libraries).lookup name) := by
  unfold allContracts
  have inserted := lookup_foldl_insert (fun entry : Sigma fun _ : String => Contract => entry.1)
    (fun entry => entry.2) name libraries.nodupKeys (loaded.dependencyContracts libraries)
  rw [inserted, find?_entries]

/-- The contract of a name is that of the loaded behavior, else that of a library. -/
theorem lookup_dependencyContracts_iff (distinct : loaded.Distinct) {contract : Contract} :
    (loaded.dependencyContracts libraries).lookup name = some contract ↔
      (∃ dep ∈ loaded.dependencies, dep.1 = name ∧ dep.2.behavior.contract = contract) ∨
        name ∉ loaded.dependencies.map Prod.fst ∧ libraries.lookup name = some contract := by
  rw [lookup_dependencyContracts distinct]
  cases found : loaded.dependencies.find? fun dep => dep.1 = name with
  | none =>
      have absent : ∀ dep ∈ loaded.dependencies, dep.1 ≠ name := by
        simpa using List.find?_eq_none.mp found
      simp only [Option.map_none, Option.none_or]
      constructor
      · intro library
        refine .inr ⟨fun member => ?_, library⟩
        obtain ⟨dep, listed, same⟩ := List.mem_map.mp member
        exact absent dep listed same
      · rintro (⟨dep, listed, same, _⟩ | ⟨_, library⟩)
        · exact absurd same (absent dep listed)
        · exact library
  | some dep =>
      have listed := List.mem_of_find?_eq_some found
      have same : dep.1 = name := by simpa using List.find?_some found
      simp only [Option.map_some, Option.some_or, Option.some.injEq]
      constructor
      · intro contract
        exact .inl ⟨dep, listed, same, contract⟩
      · rintro (⟨dep', listed', same', rfl⟩ | ⟨absent, _⟩)
        · rw [List.inj_on_of_nodup_map distinct listed listed' (same.trans same'.symm)]
        · exact absurd (same ▸ List.mem_map_of_mem listed) absent

end LoadedProject

/-- A project loads no two dependencies of one name. -/
theorem Project.load_distinct {project : Project} {steps : Nat} {loaded : LoadedProject}
    (loads : project.load steps = .done loaded) : loaded.Distinct :=
  (load_ordered loads).distinct

end Sigil
