import Mathlib

/-!
# Elimination by in-degree

Vertices whose in-degree has come down to zero wait in a queue; taking one out of the
queue releases its successors. `eliminate_sorts_iff` says that every vertex is taken
out exactly when no vertex lies on a cycle, whatever order the queue starts in.
Successors are lists, so an edge may be there several times.
-/

namespace Flow

open Relation

variable {V : Type*} [DecidableEq V]

/-- Take one edge to `w` away; with the last one `w` joins the queue. -/
def release (s : List V × (V → Nat)) (w : V) : List V × (V → Nat) :=
  let remaining := s.2 w - 1
  (if remaining = 0 then s.1 ++ [w] else s.1, Function.update s.2 w remaining)

/-- Take vertices out of the queue until it is empty. The result has the vertices taken
out and the degrees that are left. -/
def eliminate (succ : V → List V) :
    Nat → List V → (V → Nat) → List V → Option (List V × (V → Nat))
  | 0, _, _, _ => none
  | _ + 1, [], degree, sorted => some (sorted, degree)
  | fuel + 1, v :: queue, degree, sorted =>
      let released := (succ v).foldl release (queue, degree)
      eliminate succ fuel released.1 released.2 (sorted ++ [v])

section Release

variable {queue targets : List V} {degree : V → Nat}

/-- Releasing targets takes away one edge for each occurrence. -/
theorem foldl_release_degree (w : V) :
    (targets.foldl release (queue, degree)).2 w = degree w - targets.count w := by
  induction targets generalizing queue degree with
  | nil => simp
  | cons v targets ih =>
      rw [List.foldl_cons, release, ih]
      by_cases here : v = w
      · subst here
        simp
        omega
      · simp [Function.update_of_ne (Ne.symm here), List.count_cons_of_ne here]

/-- What joins the queue, each vertex once, are the targets that lose their last
edge. -/
theorem foldl_release_queue (enough : ∀ w, targets.count w ≤ degree w) :
    ∃ joined, (targets.foldl release (queue, degree)).1 = queue ++ joined ∧ joined.Nodup ∧
      ∀ w, w ∈ joined ↔ w ∈ targets ∧ degree w = targets.count w := by
  induction targets generalizing queue degree with
  | nil => exact ⟨[], by simp⟩
  | cons v targets ih =>
      have present := enough v
      rw [List.count_cons_self] at present
      have enough' : ∀ w, targets.count w ≤ Function.update degree v (degree v - 1) w := by
        intro w
        by_cases here : w = v
        · subst here
          rw [Function.update_self]
          omega
        · have bound := enough w
          rwa [List.count_cons_of_ne (Ne.symm here), ← Function.update_of_ne here (degree v - 1)
            degree] at bound
      rw [List.foldl_cons, release]
      by_cases last : degree v - 1 = 0
      · obtain ⟨joined, same, nodup, members⟩ := @ih (queue ++ [v]) _ enough'
        -- no edge to `v` is left, so the rest does not release it again
        have gone : targets.count v = 0 := by
          have bound := enough' v
          rw [Function.update_self] at bound
          omega
        have absent : v ∉ joined := fun again =>
          List.count_eq_zero.mp gone ((members v).mp again).1
        refine ⟨v :: joined, by rw [if_pos last, same, List.append_assoc]; rfl,
          List.nodup_cons.mpr ⟨absent, nodup⟩, ?_⟩
        intro w
        by_cases here : w = v
        · subst here
          simp only [List.mem_cons_self, List.count_cons_self, true_and, true_iff]
          omega
        · rw [List.mem_cons, members, Function.update_of_ne here, List.mem_cons,
            List.count_cons_of_ne (Ne.symm here)]
          simp [here]
      · obtain ⟨joined, same, nodup, members⟩ := @ih queue _ enough'
        refine ⟨joined, by rw [if_neg last, same], nodup, ?_⟩
        intro w
        rw [members]
        by_cases here : w = v
        · subst here
          simp only [Function.update_self, List.mem_cons_self, List.count_cons_self, true_and]
          constructor
          · rintro ⟨_, all⟩
            omega
          · intro all
            refine ⟨List.count_pos_iff.mp ?_, by omega⟩
            omega
        · rw [Function.update_of_ne here, List.mem_cons, List.count_cons_of_ne (Ne.symm here)]
          simp [here]

end Release

/-- The edges to `w` from vertices that have not been taken out. -/
def inDegree (succ : V → List V) (vertices sorted : List V) (w : V) : Nat :=
  ((vertices.filter (· ∉ sorted)).map fun u => (succ u).count w).sum

/-- A state of the elimination of `vertices`. -/
structure Eliminating (succ : V → List V) (vertices queue : List V) (degree : V → Nat)
    (sorted : List V) : Prop where
  nodup : (sorted ++ queue).Nodup
  inside : ∀ v ∈ sorted ++ queue, v ∈ vertices
  counts : ∀ w ∈ vertices, degree w = inDegree succ vertices sorted w
  waiting : ∀ w ∈ vertices, degree w = 0 ↔ w ∈ sorted ++ queue
  ordered : ∀ before v after, sorted = before ++ v :: after → ∀ u ∈ vertices, v ∈ succ u →
    u ∈ before

namespace Eliminating

variable {succ : V → List V} {vertices queue sorted : List V} {degree : V → Nat} {v w : V}

/-- What is left of the edges to `w` when `v` is taken out. -/
theorem inDegree_snoc (distinct : vertices.Nodup) (vertex : v ∈ vertices) (fresh : v ∉ sorted) :
    inDegree succ vertices sorted w =
      (succ v).count w + inDegree succ vertices (sorted ++ [v]) w := by
  have member : v ∈ vertices.filter (· ∉ sorted) :=
    List.mem_filter.mpr ⟨vertex, by simpa using fresh⟩
  have rest : (vertices.filter (· ∉ sorted)).erase v = vertices.filter (· ∉ sorted ++ [v]) := by
    rw [(distinct.filter _).erase_eq_filter, List.filter_filter]
    apply List.filter_congr
    intro u _
    by_cases here : u = v <;> simp [here]
  unfold inDegree
  rw [← rest, ((List.perm_cons_erase member).map _).sum_eq, List.map_cons, List.sum_cons]

/-- A vertex in the queue has no edge from a vertex that is left. -/
theorem released (state : Eliminating succ vertices queue degree sorted) (waits : v ∈ queue)
    {u : V} (vertex : u ∈ vertices) (edge : v ∈ succ u) : u ∈ sorted := by
  have known : v ∈ sorted ++ queue := List.mem_append_right _ waits
  have inside := state.inside v known
  have none := ((state.waiting v inside).mpr known).symm.trans (state.counts v inside)
  by_contra left
  have counted : (succ u).count v ∈ (vertices.filter (· ∉ sorted)).map fun u => (succ u).count v :=
    List.mem_map_of_mem (List.mem_filter.mpr ⟨vertex, by simpa using left⟩)
  have zero : (succ u).count v = 0 := List.sum_eq_zero_iff.mp none.symm _ counted
  exact List.count_eq_zero.mp zero edge

/-- Taking the first vertex out of the queue leads to the next state. -/
theorem step (distinct : vertices.Nodup) (closed : ∀ u ∈ vertices, ∀ w ∈ succ u, w ∈ vertices)
    (state : Eliminating succ vertices (v :: queue) degree sorted) :
    Eliminating succ vertices ((succ v).foldl release (queue, degree)).1
      ((succ v).foldl release (queue, degree)).2 (sorted ++ [v]) := by
  have same : sorted ++ [v] ++ queue = sorted ++ v :: queue := by simp
  have vertex : v ∈ vertices := state.inside v (by simp)
  have fresh : v ∉ sorted := fun early =>
    (List.disjoint_of_nodup_append state.nodup) early List.mem_cons_self
  have split : ∀ w ∈ vertices, degree w = (succ v).count w +
      inDegree succ vertices (sorted ++ [v]) w := fun w inside =>
    (state.counts w inside).trans (inDegree_snoc distinct vertex fresh)
  have enough : ∀ w, (succ v).count w ≤ degree w := by
    intro w
    by_cases edge : w ∈ succ v
    · have := split w (closed v vertex w edge)
      omega
    · simp [List.count_eq_zero.mpr edge]
  obtain ⟨joined, queued, nodup, members⟩ := @foldl_release_queue _ _ queue _ _ enough
  have new : ∀ w ∈ joined, w ∉ sorted ++ v :: queue := by
    intro w member known
    obtain ⟨edge, last⟩ := (members w).mp member
    have zero := (state.waiting w (closed v vertex w edge)).mpr known
    have positive := List.count_pos_iff.mpr edge
    omega
  rw [queued]
  constructor
  · rw [← List.append_assoc, same]
    exact state.nodup.append nodup fun w known member => new w member known
  · intro w member
    rw [← List.append_assoc, same] at member
    obtain known | joins := List.mem_append.mp member
    · exact state.inside w known
    · exact closed v vertex w ((members w).mp joins).1
  · intro w inside
    rw [foldl_release_degree]
    have := split w inside
    omega
  · intro w inside
    rw [foldl_release_degree, ← List.append_assoc, same, List.mem_append, members,
      ← state.waiting w inside]
    have bound := enough w
    by_cases edge : w ∈ succ v
    · simp only [edge, true_and]
      omega
    · simp only [edge, false_and, or_false, List.count_eq_zero.mpr edge, Nat.sub_zero]
  · intro before x after split u inside edge
    rcases List.eq_nil_or_concat after with rfl | ⟨after, last, rfl⟩
    · obtain ⟨rfl, single⟩ := List.append_inj' split rfl
      obtain rfl : v = x := List.head_eq_of_cons_eq single
      exact state.released List.mem_cons_self inside edge
    · have cut : sorted ++ [v] = (before ++ x :: after) ++ [last] := by simpa using split
      obtain ⟨rfl, _⟩ := List.append_inj' cut rfl
      exact state.ordered before x after rfl u inside edge

/-- With a step for every vertex that is left, elimination empties the queue. -/
theorem finishes (distinct : vertices.Nodup)
    (closed : ∀ u ∈ vertices, ∀ w ∈ succ u, w ∈ vertices) {fuel : Nat}
    (state : Eliminating succ vertices queue degree sorted)
    (enough : vertices.length < fuel + sorted.length) :
    ∃ sorted' degree', eliminate succ fuel queue degree sorted = some (sorted', degree') ∧
      Eliminating succ vertices [] degree' sorted' := by
  induction fuel generalizing queue degree sorted with
  | zero =>
      have bound := (state.nodup.of_append_left.subperm fun v member =>
        state.inside v (List.mem_append_left _ member)).length_le
      omega
  | succ fuel ih =>
      cases queue with
      | nil => exact ⟨sorted, degree, rfl, state⟩
      | cons v queue =>
          apply ih (state.step distinct closed)
          rw [List.length_append, List.length_singleton]
          omega

end Eliminating

/-- No vertex reaches itself. -/
def Acyclic (succ : V → List V) : Prop :=
  ∀ v, ¬ TransGen (fun u w => w ∈ succ u) v v

variable {succ : V → List V} {vertices : List V}

/-- Elimination starts from the vertices without edges to them. -/
theorem eliminating_start (distinct : vertices.Nodup) {degree : V → Nat}
    (counts : ∀ w ∈ vertices, degree w = inDegree succ vertices [] w) :
    Eliminating succ vertices (vertices.filter fun w => degree w = 0) degree [] where
  nodup := distinct.filter _
  inside v member := (List.mem_filter.mp member).1
  counts := counts
  waiting w inside := by simp [inside]
  ordered before v after none := by simp at none

/-- A finished elimination has taken every vertex out exactly when there is no
cycle. -/
theorem Eliminating.all_sorted_iff (closed : ∀ u ∈ vertices, ∀ w ∈ succ u, w ∈ vertices)
    (outside : ∀ u, u ∉ vertices → succ u = []) {sorted : List V} {degree : V → Nat}
    (state : Eliminating succ vertices [] degree sorted) :
    (∀ v ∈ vertices, v ∈ sorted) ↔ Acyclic succ := by
  constructor
  · -- along an edge the position in the order goes up
    intro all v cycle
    have sources : ∀ {u w : V}, w ∈ succ u → u ∈ vertices := by
      intro u w edge
      by_contra absent
      simp [outside u absent] at edge
    have rises : ∀ {u w : V}, w ∈ succ u → sorted.idxOf u < sorted.idxOf w := by
      intro u w edge
      have inside := sources edge
      obtain ⟨before, after, split⟩ := List.append_of_mem (all w (closed u inside w edge))
      have early := state.ordered before w after split u inside edge
      have nodup := state.nodup.of_append_left
      rw [split] at nodup
      have absent : w ∉ before := fun twice =>
        List.disjoint_of_nodup_append nodup twice List.mem_cons_self
      rw [split, List.idxOf_append_of_mem early, List.idxOf_append_of_notMem absent]
      have := List.idxOf_lt_length_of_mem early
      omega
    have further : ∀ {u w : V}, TransGen (fun u w => w ∈ succ u) u w →
        sorted.idxOf u < sorted.idxOf w := by
      intro u w path
      induction path with
      | single edge => exact rises edge
      | tail _ edge ih => exact ih.trans (rises edge)
    exact lt_irrefl _ (further cycle)
  · -- a vertex that is left has an edge from another one, and so on
    intro acyclic v vertex
    let Edge (u w : {u // u ∈ vertices}) : Prop := TransGen (fun u w => w ∈ succ u) u.1 w.1
    have finite : Finite {u // u ∈ vertices} := List.finite_toSet vertices
    have transitive : IsTrans _ Edge := ⟨fun _ _ _ first second => first.trans second⟩
    have irreflexive : Std.Irrefl Edge := ⟨fun u cycle => acyclic u.1 cycle⟩
    have wellFounded : WellFounded Edge := Finite.wellFounded_of_trans_of_irrefl Edge
    have every : ∀ u : {u // u ∈ vertices}, u.1 ∈ sorted := by
      intro u
      induction u using wellFounded.induction with
      | h u ih =>
        have known : u.1 ∈ sorted ++ [] := by
          rw [← state.waiting u.1 u.2, state.counts u.1 u.2]
          apply List.sum_eq_zero_iff.mpr
          intro count member
          obtain ⟨w, left, rfl⟩ := List.mem_map.mp member
          obtain ⟨inside, unsorted⟩ := List.mem_filter.mp left
          apply List.count_eq_zero.mpr
          intro edge
          exact (by simpa using unsorted : w ∉ sorted) (ih ⟨w, inside⟩ (.single edge))
        simpa using known
    exact every ⟨v, vertex⟩

/-- Elimination takes every vertex out exactly when no vertex lies on a cycle. -/
theorem eliminate_sorts_iff (distinct : vertices.Nodup)
    (closed : ∀ u ∈ vertices, ∀ w ∈ succ u, w ∈ vertices)
    (outside : ∀ u, u ∉ vertices → succ u = []) {degree : V → Nat}
    (counts : ∀ w ∈ vertices, degree w = inDegree succ vertices [] w) :
    ∃ sorted degree', eliminate succ (vertices.length + 1) (vertices.filter fun w => degree w = 0)
        degree [] = some (sorted, degree') ∧
      (vertices.length ≤ sorted.length ↔ Acyclic succ) := by
  obtain ⟨sorted, degree', finished, state⟩ := (eliminating_start distinct counts).finishes
    distinct closed (Nat.lt_succ_self vertices.length)
  refine ⟨sorted, degree', finished, ?_⟩
  rw [← state.all_sorted_iff closed outside]
  have nodup := state.nodup.of_append_left
  have inside : sorted ⊆ vertices := fun v member =>
    state.inside v (List.mem_append_left _ member)
  constructor
  · intro long v vertex
    exact ((nodup.subperm inside).perm_of_length_le long).mem_iff.mpr vertex
  · intro all
    exact (distinct.subperm all).length_le

end Flow
