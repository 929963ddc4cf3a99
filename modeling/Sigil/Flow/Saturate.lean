import Mathlib

/-!
# Backward saturation

A set of vertices grows, round by round, by the vertices with an edge into it. Each round goes
through the vertices in a fixed order; when one adds nothing, the set holds exactly the vertices
from which the first set can be reached.
-/

namespace Flow

open Relation

variable {V : Type*} [DecidableEq V]

/-- One round: add, in order, every vertex with an edge into the set. -/
def saturateRound (succ : V → List V) (vertices set : List V) : List V :=
  vertices.foldl (fun set v =>
    if v ∈ set then set
    else if (succ v).any (· ∈ set) then v :: set
    else set) set

/-- Rounds until one adds nothing. -/
def saturate (succ : V → List V) (vertices : List V) : Nat → List V → List V
  | 0, set => set
  | fuel + 1, set =>
      let next := saturateRound succ vertices set
      if next.length = set.length then set else saturate succ vertices fuel next

section Saturate

variable {succ : V → List V} {vertices set goal : List V} {fuel : Nat} {v : V}

/-- A round only adds in front. -/
theorem suffix_saturateRound : set <:+ saturateRound succ vertices set := by
  induction vertices generalizing set with
  | nil => exact List.suffix_refl set
  | cons u vertices ih =>
      unfold saturateRound
      rw [List.foldl_cons]
      split_ifs
      · exact ih
      · exact (List.suffix_cons u set).trans ih
      · exact ih

/-- A round adds no vertex twice. -/
theorem nodup_saturateRound (distinct : set.Nodup) : (saturateRound succ vertices set).Nodup := by
  induction vertices generalizing set with
  | nil => exact distinct
  | cons u vertices ih =>
      unfold saturateRound
      rw [List.foldl_cons]
      split_ifs with known leads
      · exact ih distinct
      · exact ih (List.nodup_cons.mpr ⟨known, distinct⟩)
      · exact ih distinct

/-- What a round adds is one of the vertices, and leads into the first set. -/
theorem mem_of_mem_saturateRound (member : v ∈ saturateRound succ vertices set) :
    v ∈ set ∨ v ∈ vertices := by
  induction vertices generalizing set with
  | nil => exact .inl member
  | cons u vertices ih =>
      unfold saturateRound at member
      rw [List.foldl_cons] at member
      split_ifs at member
      · exact (ih member).imp_right (List.mem_cons_of_mem u)
      · rcases ih member with old | later
        · rcases List.mem_cons.mp old with rfl | known
          · exact .inr List.mem_cons_self
          · exact .inl known
        · exact .inr (List.mem_cons_of_mem u later)
      · exact (ih member).imp_right (List.mem_cons_of_mem u)

/-- Everything in the set can reach a goal. -/
def Leads (succ : V → List V) (goal set : List V) : Prop :=
  ∀ v ∈ set, ∃ w ∈ goal, ReflTransGen (fun a b => b ∈ succ a) v w

/-- A round adds vertices that lead to the goal. -/
theorem leads_saturateRound (leads : Leads succ goal set) : Leads succ goal (saturateRound succ vertices set) := by
  induction vertices generalizing set with
  | nil => exact leads
  | cons u vertices ih =>
      unfold saturateRound
      rw [List.foldl_cons]
      split_ifs with known edge
      · exact ih leads
      · refine ih (List.forall_mem_cons.mpr ⟨?_, leads⟩)
        obtain ⟨x, step, member⟩ := List.any_eq_true.mp edge
        obtain ⟨w, isGoal, path⟩ := leads x (by simpa using member)
        exact ⟨w, isGoal, .head step path⟩
      · exact ih leads

/-- A round that adds nothing has met no edge into the set. -/
theorem closed_of_saturateRound (same : (saturateRound succ vertices set).length = set.length)
    (vertex : v ∈ vertices) {w : V} (edge : w ∈ succ v) (member : w ∈ set) : v ∈ set := by
  induction vertices generalizing set with
  | nil => cases vertex
  | cons u vertices ih =>
      unfold saturateRound at same
      rw [List.foldl_cons] at same
      split_ifs at same with known leads
      · rcases List.mem_cons.mp vertex with rfl | later
        · exact known
        · exact ih same later member
      · have longer : (u :: set).length ≤ (saturateRound succ vertices (u :: set)).length :=
          suffix_saturateRound.length_le
        rw [List.length_cons] at longer
        unfold saturateRound at longer
        omega
      · rcases List.mem_cons.mp vertex with rfl | later
        · exact absurd (List.any_eq_true.mpr ⟨w, edge, by simpa using member⟩) leads
        · exact ih same later member

/-- The set is exactly what leads to a goal, when a round is left for every vertex that is missing. -/
theorem mem_saturate_iff (distinct : set.Nodup) (leads : Leads succ goal set) (goals : ∀ w ∈ goal, w ∈ set)
    (inside : ∀ v ∈ set, v ∈ vertices) (enough : vertices.length < fuel + set.length)
    (closed : ∀ v, succ v ≠ [] → v ∈ vertices) :
    v ∈ saturate succ vertices fuel set ↔ ∃ w ∈ goal, ReflTransGen (fun a b => b ∈ succ a) v w := by
  induction fuel generalizing set with
  | zero =>
      have few := (List.subperm_of_subset distinct inside).length_le
      omega
  | succ fuel ih =>
      unfold saturate
      dsimp only
      split_ifs with same
      · constructor
        · exact leads v
        · rintro ⟨w, isGoal, path⟩
          clear ih
          induction path using ReflTransGen.head_induction_on with
          | refl => exact goals w isGoal
          | head edge _ member =>
              exact closed_of_saturateRound same (closed _ (List.ne_nil_of_mem edge)) edge member
      · have grown : set.length < (saturateRound succ vertices set).length :=
          lt_of_le_of_ne suffix_saturateRound.length_le (Ne.symm same)
        refine ih (nodup_saturateRound distinct) (leads_saturateRound leads)
          (fun w isGoal => suffix_saturateRound.subset (goals w isGoal)) ?_ (by omega)
        intro u member
        exact (mem_of_mem_saturateRound member).elim (inside u) id

end Saturate

end Flow
