import Mathlib

/-!
# Walks and loop erasure

A walk follows the edges of a relation and lists every vertex it visits, both
ends included. `Walk.exists_simple` erases its loops: the simple walk it
returns visits only vertices of the original, so a walk that avoids a set can
always be replaced by a simple one that avoids it too.
-/

namespace Flow

variable {V : Type*} {R : V → V → Prop}

/-- `Walk R a b vs`: following `R`-edges from `a` to `b` visits exactly `vs`. -/
inductive Walk (R : V → V → Prop) : V → V → List V → Prop where
  | single (a : V) : Walk R a a [a]
  | cons {a b c : V} {vs : List V} (edge : R a b) (rest : Walk R b c vs) :
      Walk R a c (a :: vs)

namespace Walk

/-- A walk is never empty. -/
theorem ne_nil {a b : V} {vs : List V} (walk : Walk R a b vs) : vs ≠ [] := by
  cases walk <;> simp

/-- A walk lists its source first. -/
theorem head {a b : V} {vs : List V} (walk : Walk R a b vs) : ∃ rest, vs = a :: rest := by
  cases walk with
  | single => exact ⟨[], rfl⟩
  | cons _ _ => exact ⟨_, rfl⟩

/-- A walk lists its target last. -/
theorem last {a b : V} {vs : List V} (walk : Walk R a b vs) : ∃ front, vs = front ++ [b] := by
  induction walk with
  | single a => exact ⟨[], rfl⟩
  | cons edge rest ih =>
      obtain ⟨front, rfl⟩ := ih
      exact ⟨_ :: front, rfl⟩

/-- The source of a walk is the first vertex it lists. -/
theorem source_eq {a b c : V} {vs : List V} (walk : Walk R a b (c :: vs)) : a = c := by
  cases walk <;> rfl

/-- The target of a walk is the last vertex it lists. -/
theorem target_eq {a b c : V} {vs : List V} (walk : Walk R a b (vs ++ [c])) : b = c := by
  obtain ⟨front, same⟩ := walk.last
  have lasts := congrArg List.getLast? same
  simpa using lasts.symm

/-- A walk that lists more than its source takes an edge to what follows. -/
theorem tail {a b c : V} {vs : List V} (walk : Walk R a b (c :: vs)) (more : vs ≠ []) :
    ∃ d, R a d ∧ Walk R d b vs := by
  cases walk with
  | single => exact absurd rfl more
  | cons edge rest => exact ⟨_, edge, rest⟩

/-- A walk that moves away from its source lists its target after it. -/
theorem target_after {a b : V} {vs : List V} (walk : Walk R a b (a :: vs)) (moves : a ≠ b) :
    ∃ ws, vs = ws ++ [b] := by
  obtain ⟨front, same⟩ := walk.last
  cases front with
  | nil =>
      obtain ⟨rfl, _⟩ := List.cons.inj same
      exact absurd rfl moves
  | cons v front => exact ⟨front, (List.cons.inj same).2⟩

/-- Walks that meet at a vertex concatenate; the shared vertex is listed once. -/
theorem append {a b c : V} {front back : List V}
    (first : Walk R a b (front ++ [b])) (second : Walk R b c (b :: back)) :
    Walk R a c (front ++ b :: back) := by
  induction front generalizing a with
  | nil =>
      obtain rfl : a = b := first.source_eq
      exact second
  | cons v front ih =>
      obtain rfl := first.source_eq
      obtain ⟨d, edge, rest⟩ := first.tail (by simp)
      exact .cons edge (ih rest)

/-- Add one edge at the end of a walk. -/
theorem snoc {a b c : V} {vs : List V} (walk : Walk R a b vs) (edge : R b c) :
    Walk R a c (vs ++ [c]) := by
  induction walk with
  | single a => exact .cons edge (.single c)
  | cons first rest ih => exact .cons first (ih edge)

/-- Cut a walk at any vertex it lists. -/
theorem split {a c v : V} {front back : List V}
    (walk : Walk R a c (front ++ v :: back)) :
    Walk R a v (front ++ [v]) ∧ Walk R v c (v :: back) := by
  induction front generalizing a with
  | nil =>
      obtain rfl : a = v := walk.source_eq
      exact ⟨.single a, walk⟩
  | cons u front ih =>
      obtain rfl := walk.source_eq
      obtain ⟨d, edge, rest⟩ := walk.tail (by simp)
      exact ⟨.cons edge (ih rest).1, (ih rest).2⟩

/-- The edge between two neighbouring vertices of a walk. -/
theorem edge {a c u v : V} {front back : List V}
    (walk : Walk R a c (front ++ u :: v :: back)) : R u v := by
  cases walk.split.2 with
  | cons edge rest =>
      obtain rfl := rest.source_eq
      exact edge

/-- Walks transport along a map that preserves edges. -/
theorem map {W : Type*} {S : W → W → Prop} (f : V → W)
    (preserves : ∀ {a b}, R a b → S (f a) (f b)) {a b : V} {vs : List V}
    (walk : Walk R a b vs) : Walk S (f a) (f b) (vs.map f) := by
  induction walk with
  | single a => exact .single (f a)
  | cons edge rest ih => exact .cons (preserves edge) ih

/-- What a walk leads to is what the edges reach. -/
theorem exists_iff_reflTransGen {a b : V} : (∃ vs, Walk R a b vs) ↔ Relation.ReflTransGen R a b := by
  constructor
  · rintro ⟨vs, walk⟩
    induction walk with
    | single a => exact .refl
    | cons edge rest ih => exact .head edge ih
  · intro reaches
    induction reaches with
    | refl => exact ⟨[a], .single a⟩
    | tail _ edge ih =>
        obtain ⟨vs, walk⟩ := ih
        exact ⟨_, walk.snoc edge⟩

/-- Loop erasure: between the ends of a walk there is a walk through some of the
same vertices that visits none of them twice. -/
theorem exists_simple {a b : V} {vs : List V} (walk : Walk R a b vs) :
    ∃ ws, Walk R a b ws ∧ ws.Nodup ∧ ws ⊆ vs := by
  induction walk with
  | single a => exact ⟨[a], .single a, by simp, by simp⟩
  | @cons a b c vs edge rest ih =>
      obtain ⟨ws, simple, nodup, subset⟩ := ih
      by_cases seen : a ∈ ws
      · -- the erased rest returns to `a`: keep only what follows that return
        obtain ⟨front, back, rfl⟩ := List.append_of_mem seen
        refine ⟨a :: back, simple.split.2, nodup.of_append_right, ?_⟩
        intro v member
        exact List.mem_cons_of_mem _ (subset (List.mem_append_right front member))
      · refine ⟨a :: ws, .cons edge simple, List.nodup_cons.mpr ⟨seen, nodup⟩, ?_⟩
        exact List.cons_subset_cons a subset

/-- Loop erasure on both sides of a chosen vertex. When the part after it never
returns to the part before it, the two erased parts still concatenate to a
simple walk. -/
theorem exists_simple_through {a b c : V} {front back : List V}
    (walk : Walk R a c (front ++ b :: back))
    (apart : ∀ v ∈ front ++ [b], v ∉ back) :
    ∃ front' back', Walk R a c (front' ++ b :: back') ∧ (front' ++ b :: back').Nodup ∧
      front' ⊆ front ++ [b] ∧ back' ⊆ back := by
  obtain ⟨before, after⟩ := walk.split
  obtain ⟨ws, simpleBefore, nodupBefore, subsetBefore⟩ := before.exists_simple
  obtain ⟨us, simpleAfter, nodupAfter, subsetAfter⟩ := after.exists_simple
  obtain ⟨front', rfl⟩ := simpleBefore.last
  obtain ⟨back', rfl⟩ := simpleAfter.head
  have fresh : b ∉ back' := (List.nodup_cons.mp nodupAfter).1
  have subsetBack : back' ⊆ back := by
    intro v member
    rcases List.mem_cons.mp (subsetAfter (List.mem_cons_of_mem b member)) with rfl | inBack
    · exact absurd member fresh
    · exact inBack
  refine ⟨front', back', simpleBefore.append simpleAfter, ?_, ?_, subsetBack⟩
  · have disjoint : List.Disjoint (front' ++ [b]) back' := by
      intro v inFront inBack
      exact apart v (subsetBefore inFront) (subsetBack inBack)
    have joined := nodupBefore.append (List.nodup_cons.mp nodupAfter).2 disjoint
    simpa using joined
  · intro v member
    exact subsetBefore (List.mem_append_left [b] member)

/-- Loop erasure around two chosen vertices. -/
theorem exists_simple_through_two {a b c d : V} {front mid back : List V}
    (walk : Walk R a d (front ++ b :: (mid ++ c :: back)))
    (apart : ∀ v ∈ front ++ [b], v ∉ mid ++ [c])
    (fresh : ∀ v ∈ front ++ b :: (mid ++ [c]), v ∉ back) :
    ∃ front' mid' back', Walk R a d (front' ++ b :: (mid' ++ c :: back')) ∧
      (front' ++ b :: (mid' ++ c :: back')).Nodup ∧ mid' ⊆ mid := by
  obtain ⟨before, after⟩ := walk.split
  obtain ⟨ws, simpleBefore, nodupBefore, subsetBefore⟩ := before.exists_simple
  obtain ⟨front', rfl⟩ := simpleBefore.last
  have after : Walk R b d ((b :: mid) ++ c :: back) := after
  obtain ⟨us, back', simpleAfter, nodupAfter, subsetMid, subsetBack⟩ :=
    after.exists_simple_through fun v member =>
      fresh v (List.mem_append_right front (by simpa using member))
  have differ : b ≠ c := by
    rintro rfl
    exact apart b (by simp) (by simp)
  obtain ⟨mid', rfl⟩ : ∃ mid', us = b :: mid' := by
    cases us with
    | nil => exact absurd simpleAfter.source_eq differ
    | cons u mid' => exact ⟨mid', by rw [simpleAfter.source_eq]⟩
  have erasedMid : mid' ⊆ mid := by
    intro v member
    rcases List.mem_append.mp (subsetMid (List.mem_cons_of_mem b member)) with inside | isEnd
    · rcases List.mem_cons.mp inside with rfl | inMid
      · exact absurd (List.mem_append_left _ member) (List.nodup_cons.mp nodupAfter).1
      · exact inMid
    · obtain rfl := List.mem_singleton.mp isEnd
      have disjoint := (List.nodup_append'.mp nodupAfter).2.2
      exact absurd List.mem_cons_self (disjoint (List.mem_cons_of_mem b member))
  refine ⟨front', mid', back', simpleBefore.append simpleAfter, ?_, erasedMid⟩
  have disjoint : List.Disjoint (front' ++ [b]) (mid' ++ c :: back') := by
    intro v inFront later
    have early := subsetBefore inFront
    rcases List.mem_append.mp later with inMid | inBack
    · exact apart v early (List.mem_append_left _ (erasedMid inMid))
    · rcases List.mem_cons.mp inBack with rfl | inBack
      · exact apart v early (by simp)
      · refine fresh v ?_ (subsetBack inBack)
        rcases List.mem_append.mp early with inside | isMark
        · exact List.mem_append_left _ inside
        · exact List.mem_append_right _ (by simp [List.mem_singleton.mp isMark])
  simpa using nodupBefore.append (List.nodup_cons.mp nodupAfter).2 disjoint

end Walk

end Flow
