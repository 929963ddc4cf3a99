import Mathlib

/-!
# Search through everything reachable

`firstBad` pops vertices off a stack, looks at each once and stops at the first bad
one. It stops with none exactly when nothing reachable from the stack is bad.
-/

namespace Flow

open Relation

variable {V : Type*} [DecidableEq V]

/-- Look at the vertices on the stack and at what they lead to, until one is bad. -/
def firstBad (succ : V → List V) (bad : V → Bool) : Nat → List V → List V → Option (Option V)
  | 0, _, _ => none
  | _ + 1, [], _ => some none
  | fuel + 1, v :: stack, visited =>
      if v ∈ visited then firstBad succ bad fuel stack visited
      else if bad v then some (some v)
      else firstBad succ bad fuel ((succ v).reverse ++ stack) (v :: visited)

section Search

variable {succ : V → List V} {bad : V → Bool} {fuel : Nat} {stack visited : List V}

/-- A search that meets nothing bad leaves a set without bad vertices that no edge
leaves. -/
theorem closed_of_firstBad (finished : firstBad succ bad fuel stack visited = some none)
    (clean : ∀ v ∈ visited, bad v = false)
    (followed : ∀ v ∈ visited, ∀ w ∈ succ v, w ∈ visited ∨ w ∈ stack) :
    ∃ seen : Set V, (∀ v ∈ visited, v ∈ seen) ∧ (∀ v ∈ stack, v ∈ seen) ∧
      (∀ v ∈ seen, bad v = false) ∧ ∀ v ∈ seen, ∀ w ∈ succ v, w ∈ seen := by
  induction fuel generalizing stack visited with
  | zero => simp [firstBad] at finished
  | succ fuel ih =>
      cases stack with
      | nil => exact ⟨{v | v ∈ visited}, fun _ known => known, by simp, clean,
          fun v known w edge => (followed v known w edge).resolve_right (by simp)⟩
      | cons v stack =>
          unfold firstBad at finished
          split at finished
          next again =>
            obtain ⟨seen, old, waiting, good, closed⟩ := ih finished clean (by
              intro u known w edge
              obtain there | here | later := by simpa using followed u known w edge
              · exact .inl there
              · exact .inl (here ▸ again)
              · exact .inr later)
            exact ⟨seen, old, List.forall_mem_cons.mpr ⟨old v again, waiting⟩, good, closed⟩
          next =>
            split at finished
            next => simp at finished
            next good =>
              obtain ⟨seen, old, waiting, good, closed⟩ := ih finished (by
                  simpa [good] using clean) (by
                intro u known w edge
                obtain rfl | known := List.mem_cons.mp known
                · exact .inr (by simp [edge])
                · obtain there | here | later := by simpa using followed u known w edge
                  · exact .inl (List.mem_cons_of_mem _ there)
                  · exact .inl (here ▸ List.mem_cons_self)
                  · exact .inr (List.mem_append_right _ later))
              refine ⟨seen, fun u known => old u (List.mem_cons_of_mem _ known), ?_, good, closed⟩
              exact List.forall_mem_cons.mpr ⟨old v List.mem_cons_self,
                fun u later => waiting u (List.mem_append_right _ later)⟩

/-- A bad vertex that is met is reachable from the stack. -/
theorem reachable_of_firstBad {v : V}
    (finished : firstBad succ bad fuel stack visited = some (some v)) :
    bad v = true ∧ ∃ start ∈ stack, ReflTransGen (fun u w => w ∈ succ u) start v := by
  induction fuel generalizing stack visited with
  | zero => simp [firstBad] at finished
  | succ fuel ih =>
      cases stack with
      | nil => simp [firstBad] at finished
      | cons u stack =>
          unfold firstBad at finished
          split at finished
          next =>
            obtain ⟨isBad, start, member, path⟩ := ih finished
            exact ⟨isBad, start, List.mem_cons_of_mem _ member, path⟩
          next =>
            split at finished
            next isBad =>
              obtain rfl : u = v := by simpa using finished
              exact ⟨isBad, u, List.mem_cons_self, .refl⟩
            next =>
              obtain ⟨isBad, start, member, path⟩ := ih finished
              refine ⟨isBad, ?_⟩
              obtain next | later := List.mem_append.mp member
              · exact ⟨u, List.mem_cons_self, .head (List.mem_reverse.mp next) path⟩
              · exact ⟨start, List.mem_cons_of_mem _ later, path⟩

/-- A finished search meets nothing bad exactly when nothing bad is reachable. -/
theorem firstBad_eq_none_iff {result : Option V}
    (finished : firstBad succ bad fuel stack [] = some result) :
    result = none ↔
      ∀ start ∈ stack, ∀ v, ReflTransGen (fun u w => w ∈ succ u) start v → bad v = false := by
  cases result with
  | none =>
      refine iff_of_true rfl fun start member v path => ?_
      obtain ⟨seen, _, waiting, good, closed⟩ := closed_of_firstBad finished (by simp) (by simp)
      have inside : v ∈ seen := by
        induction path with
        | refl => exact waiting start member
        | tail _ edge ih => exact closed _ ih _ edge
      exact good v inside
  | some v =>
      refine iff_of_false (by simp) fun clean => ?_
      obtain ⟨isBad, start, member, path⟩ := reachable_of_firstBad finished
      exact Bool.false_ne_true ((clean start member v path).symm.trans isBad)

/-- The edges out of vertices that have not been looked at. -/
def unexplored (succ : V → List V) (sources visited : List V) : Nat :=
  ((sources.filter (· ∉ visited)).map fun v => (succ v).length).sum

/-- Visiting a source uses up its edges. -/
theorem unexplored_cons {sources : List V} (distinct : sources.Nodup) {v : V} (source : v ∈ sources)
    (fresh : v ∉ visited) :
    unexplored succ sources visited = (succ v).length + unexplored succ sources (v :: visited) := by
  have member : v ∈ sources.filter (· ∉ visited) :=
    List.mem_filter.mpr ⟨source, by simpa using fresh⟩
  have rest : (sources.filter (· ∉ visited)).erase v = sources.filter (· ∉ v :: visited) := by
    rw [(distinct.filter _).erase_eq_filter, List.filter_filter]
    apply List.filter_congr
    intro u _
    by_cases here : u = v <;> simp [here]
  unfold unexplored
  rw [← rest, ((List.perm_cons_erase member).map _).sum_eq, List.map_cons, List.sum_cons]

/-- One step for every vertex on the stack and every edge to follow suffices. -/
theorem firstBad_isSome {sources : List V} (distinct : sources.Nodup)
    (outside : ∀ v, v ∉ sources → succ v = [])
    (enough : stack.length + unexplored succ sources visited < fuel) :
    (firstBad succ bad fuel stack visited).isSome := by
  induction fuel generalizing stack visited with
  | zero => omega
  | succ fuel ih =>
      cases stack with
      | nil => rfl
      | cons v stack =>
          rw [List.length_cons] at enough
          unfold firstBad
          split
          next => exact ih (by omega)
          next fresh =>
            split
            next => rfl
            next =>
              apply ih
              rw [List.length_append, List.length_reverse]
              by_cases source : v ∈ sources
              · rw [unexplored_cons distinct source fresh] at enough
                omega
              · have same : unexplored succ sources (v :: visited) =
                    unexplored succ sources visited := by
                  unfold unexplored
                  congr 2
                  apply List.filter_congr
                  intro u member
                  have other : u ≠ v := fun here => source (here ▸ member)
                  simp [other]
                rw [outside v source, same, List.length_nil]
                omega

end Search

end Flow
