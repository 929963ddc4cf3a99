import Sigil.Flow.Walk

/-!
# Depth-first enumeration of simple walks

`enumerate` pops a frame at a time from an explicit stack and records the path
of every frame that stands on an exit. A frame carries the vertices its own path
has entered, so a path is abandoned as soon as it would enter one of them again.
`mem_enumerate_iff` says exactly which paths are recorded, and
`enumerate_isSome` gives an amount of fuel that always suffices.
-/

namespace Flow

variable {V : Type*}

/-- A vertex about to be entered, the path that led to it (itself included), and
the vertices entered on the way. -/
structure Frame (V : Type*) where
  current : V
  path : List V
  visited : List V

/-- The frames that continue a frame, one for each successor of its vertex. -/
def Frame.expand (succ : V → List V) (frame : Frame V) : List (Frame V) :=
  (succ frame.current).map fun next =>
    ⟨next, frame.path ++ [next], frame.current :: frame.visited⟩

/-- Pop frames until the stack is empty. The head of the list is the top of the
stack, so the last successor pushed is explored first. -/
def enumerate [DecidableEq V] (succ : V → List V) (isExit : V → Bool) :
    Nat → List (Frame V) → List (List V) → Option (List (List V))
  | 0, _, _ => none
  | _ + 1, [], paths => some paths
  | fuel + 1, frame :: stack, paths =>
      if frame.current ∈ frame.visited then
        enumerate succ isExit fuel stack paths
      else if isExit frame.current then
        enumerate succ isExit fuel stack (paths ++ [frame.path])
      else
        enumerate succ isExit fuel ((frame.expand succ).reverse ++ stack) paths

/-- The vertices after `v` on a path that enters `v` now, enters nothing it has
visited, and stops at the first exit it enters. -/
inductive Completes (succ : V → List V) (isExit : V → Bool) :
    List V → V → List V → Prop where
  | exit {visited : List V} {v : V} (fresh : v ∉ visited) (stops : isExit v = true) :
      Completes succ isExit visited v []
  | step {visited tail : List V} {v next : V} (fresh : v ∉ visited)
      (continues : isExit v = false) (edge : next ∈ succ v)
      (rest : Completes succ isExit (v :: visited) next tail) :
      Completes succ isExit visited v (next :: tail)

section Recorded

variable {succ : V → List V} {isExit : V → Bool}

/-- What a frame records is what its successors' frames record. -/
theorem completes_expand_iff {frame : Frame V} {path : List V}
    (fresh : frame.current ∉ frame.visited) (continues : isExit frame.current = false) :
    (∃ tail, Completes succ isExit frame.visited frame.current tail ∧
        path = frame.path ++ tail) ↔
      ∃ child ∈ frame.expand succ, ∃ tail,
        Completes succ isExit child.visited child.current tail ∧ path = child.path ++ tail := by
  constructor
  · rintro ⟨tail, completes, rfl⟩
    cases completes with
    | exit _ stops => simp [continues] at stops
    | step _ _ edge rest =>
        exact ⟨_, List.mem_map_of_mem edge, _, rest, by simp⟩
  · rintro ⟨child, member, tail, completes, rfl⟩
    obtain ⟨next, edge, rfl⟩ := List.mem_map.mp member
    exact ⟨next :: tail, .step fresh continues edge completes, by simp⟩

/-- The recorded paths are those already recorded and the completions of the
frames on the stack. -/
theorem mem_enumerate_iff [DecidableEq V] {fuel : Nat} {stack : List (Frame V)} {paths result : List (List V)}
    (finished : enumerate succ isExit fuel stack paths = some result) {path : List V} :
    path ∈ result ↔ path ∈ paths ∨ ∃ frame ∈ stack, ∃ tail,
      Completes succ isExit frame.visited frame.current tail ∧ path = frame.path ++ tail := by
  induction fuel generalizing stack paths with
  | zero => simp [enumerate] at finished
  | succ fuel ih =>
      cases stack with
      | nil =>
          simp only [enumerate, Option.some.injEq] at finished
          subst finished
          simp
      | cons frame stack =>
          simp only [enumerate] at finished
          split at finished
          next seen =>
            -- the frame would repeat a vertex: it completes nothing
            have none : ∀ tail, ¬ Completes succ isExit frame.visited frame.current tail := by
              rintro tail (⟨fresh, _⟩ | ⟨fresh, _, _, _⟩) <;> exact fresh seen
            rw [ih finished]
            simp [none]
          next fresh =>
            split at finished
            next stops =>
              have only : ∀ tail, Completes succ isExit frame.visited frame.current tail ↔
                  tail = [] := by
                intro tail
                constructor
                · rintro (_ | ⟨_, continues, _, _⟩)
                  · rfl
                  · simp [stops] at continues
                · rintro rfl
                  exact .exit fresh stops
              rw [ih finished]
              simp [only, or_assoc]
            next continues =>
              have continues : isExit frame.current = false := by simpa using continues
              rw [ih finished]
              simp only [List.mem_append, List.mem_reverse, List.mem_cons, or_and_right,
                exists_or, exists_eq_left]
              rw [completes_expand_iff fresh continues]

end Recorded

section Fuel

/-- Pops needed for one frame whose path may still enter `remaining` vertices,
when no vertex has more than `degree` successors. -/
def popBound (degree : Nat) : Nat → Nat
  | 0 => 1
  | remaining + 1 => 1 + degree * popBound degree remaining

variable [DecidableEq V] {succ : V → List V} {isExit : V → Bool} {bound : List V}
  {degree : Nat}

/-- A search pops at least once. -/
theorem popBound_pos (degree remaining : Nat) : 0 < popBound degree remaining := by
  cases remaining <;> simp [popBound]

/-- Longer paths pop no less. -/
theorem popBound_mono (degree : Nat) {m n : Nat} (le : m ≤ n) :
    popBound degree m ≤ popBound degree n := by
  induction n generalizing m with
  | zero => simp [Nat.le_zero.mp le]
  | succ n ih =>
      cases m with
      | zero => simp [popBound]
      | succ m =>
          have inner := Nat.mul_le_mul_left degree (ih (Nat.le_of_succ_le_succ le))
          simp only [popBound]
          omega

/-- The vertices of `bound` a frame has not entered yet. -/
def Frame.remaining (bound : List V) (frame : Frame V) : Nat :=
  (bound.filter (· ∉ frame.visited)).length

/-- Entering a new vertex of `bound` leaves one vertex fewer. -/
theorem remaining_expand_lt {frame child : Frame V} (inBound : frame.current ∈ bound)
    (fresh : frame.current ∉ frame.visited) (member : child ∈ frame.expand succ) :
    child.remaining bound < frame.remaining bound := by
  obtain ⟨next, _, rfl⟩ := List.mem_map.mp member
  have narrower : bound.filter (· ∉ frame.current :: frame.visited) =
      (bound.filter (· ∉ frame.visited)).filter (· ≠ frame.current) := by
    rw [List.filter_filter]
    apply List.filter_congr
    intro v _
    simp
  simp only [Frame.remaining, narrower]
  apply List.length_filter_lt_length_iff_exists.mpr
  exact ⟨frame.current, List.mem_filter.mpr ⟨inBound, by simpa using fresh⟩, by simp⟩

/-- Replacing a frame by its continuations costs strictly fewer pops than it
was given. -/
theorem popBound_expand_lt (succ : V → List V) (degree : Nat) {frame : Frame V}
    (inBound : frame.current ∈ bound)
    (fresh : frame.current ∉ frame.visited)
    (degreeBound : (succ frame.current).length ≤ degree) :
    ((frame.expand succ).map fun child => popBound degree (child.remaining bound)).sum <
      popBound degree (frame.remaining bound) := by
  obtain ⟨rest, more⟩ : ∃ rest, frame.remaining bound = rest + 1 := by
    have present : frame.current ∈ bound.filter (· ∉ frame.visited) :=
      List.mem_filter.mpr ⟨inBound, by simpa using fresh⟩
    exact Nat.exists_eq_succ_of_ne_zero (List.length_pos_of_mem present).ne'
  have each : ∀ cost ∈ (frame.expand succ).map
      (fun child => popBound degree (child.remaining bound)), cost ≤ popBound degree rest := by
    intro cost member
    obtain ⟨child, childMember, rfl⟩ := List.mem_map.mp member
    apply popBound_mono
    have less : child.remaining bound < frame.remaining bound :=
      remaining_expand_lt inBound fresh childMember
    omega
  have total := List.sum_le_card_nsmul _ _ each
  have count : (frame.expand succ).length ≤ degree := by simpa [Frame.expand] using degreeBound
  have scaled := Nat.mul_le_mul_right (popBound degree rest) count
  simp only [List.length_map, smul_eq_mul] at total
  rw [more, popBound]
  omega

/-- With more fuel than the frames on the stack can cost, the enumeration
finishes. -/
theorem enumerate_isSome (bound : List V) (degree : Nat)
    (closed : ∀ v ∈ bound, ∀ next ∈ succ v, next ∈ bound)
    (degreeBound : ∀ v ∈ bound, (succ v).length ≤ degree) {fuel : Nat}
    {stack : List (Frame V)} {paths : List (List V)}
    (inBound : ∀ frame ∈ stack, frame.current ∈ bound)
    (enough : (stack.map fun frame => popBound degree (frame.remaining bound)).sum < fuel) :
    (enumerate succ isExit fuel stack paths).isSome := by
  induction fuel generalizing stack paths with
  | zero => omega
  | succ fuel ih =>
      cases stack with
      | nil => simp [enumerate]
      | cons frame stack =>
          have positive := popBound_pos degree (frame.remaining bound)
          have frameIn := inBound frame List.mem_cons_self
          have stackIn : ∀ other ∈ stack, other.current ∈ bound := fun other member =>
            inBound other (List.mem_cons_of_mem _ member)
          simp only [List.map_cons, List.sum_cons] at enough
          simp only [enumerate]
          split
          next => exact ih stackIn (by omega)
          next fresh =>
            split
            next => exact ih stackIn (by omega)
            next =>
              have less := popBound_expand_lt succ degree frameIn fresh
                (degreeBound _ frameIn)
              refine ih ?_ ?_
              · intro other member
                rcases List.mem_append.mp member with fromExpand | fromStack
                · obtain ⟨next, edge, rfl⟩ := List.mem_map.mp (List.mem_reverse.mp fromExpand)
                  exact closed _ frameIn next edge
                · exact stackIn other fromStack
              · simp only [List.map_append, List.map_reverse, List.sum_append, List.sum_reverse]
                omega

end Fuel

section Walks

variable {succ : V → List V} {isExit : V → Bool}

/-- A completion is a simple walk to an exit, through unvisited vertices. -/
theorem Completes.walk {visited tail : List V} {v : V}
    (completes : Completes succ isExit visited v tail) :
    ∃ exit, Walk (fun a b => b ∈ succ a) v exit (v :: tail) ∧ isExit exit = true ∧
      (v :: tail).Nodup ∧ ∀ u ∈ v :: tail, u ∉ visited := by
  induction completes with
  | exit fresh stops => exact ⟨_, .single _, stops, by simp, by simpa using fresh⟩
  | step fresh continues edge _ ih =>
      obtain ⟨exit, walk, stops, nodup, apart⟩ := ih
      refine ⟨exit, .cons edge walk, stops, List.nodup_cons.mpr ⟨?_, nodup⟩, ?_⟩
      · intro again
        exact apart _ again List.mem_cons_self
      · intro u member
        rcases List.mem_cons.mp member with rfl | later
        · exact fresh
        · exact fun seen => apart u later (List.mem_cons_of_mem _ seen)

/-- A completion enters no exit before its last vertex. -/
theorem Completes.continues {visited tail : List V} {v : V}
    (completes : Completes succ isExit visited v tail) :
    ∀ u ∈ (v :: tail).dropLast, isExit u = false := by
  induction completes with
  | exit => simp
  | step _ continues _ _ ih =>
      intro u member
      rw [List.dropLast_cons_cons] at member
      rcases List.mem_cons.mp member with rfl | later
      · exact continues
      · exact ih u later

/-- A simple walk to the first exit on it is a completion. -/
theorem Completes.of_walk {visited tail : List V} {v exit : V}
    (walk : Walk (fun a b => b ∈ succ a) v exit (v :: tail)) (stops : isExit exit = true)
    (first : ∀ u ∈ (v :: tail).dropLast, isExit u = false) (nodup : (v :: tail).Nodup)
    (apart : ∀ u ∈ v :: tail, u ∉ visited) : Completes succ isExit visited v tail := by
  induction tail generalizing v visited with
  | nil =>
      obtain rfl : exit = v := Walk.target_eq (show Walk _ v exit ([] ++ [v]) from walk)
      exact .exit (apart _ List.mem_cons_self) stops
  | cons next tail ih =>
      obtain ⟨_, edge, rest⟩ := walk.tail (by simp)
      obtain rfl := rest.source_eq
      rw [List.dropLast_cons_cons] at first
      obtain ⟨continues, firstRest⟩ := List.forall_mem_cons.mp first
      obtain ⟨absent, nodupRest⟩ := List.nodup_cons.mp nodup
      refine .step (apart v List.mem_cons_self) continues edge (ih rest firstRest nodupRest ?_)
      intro u member seen
      rcases List.mem_cons.mp seen with rfl | earlier
      · exact absent member
      · exact apart u (List.mem_cons_of_mem _ member) earlier

/-- When exits have no successors, no walk enters one before its target. -/
theorem Walk.continues (stuck : ∀ v, isExit v = true → succ v = []) {v exit : V} {vs : List V}
    (walk : Walk (fun a b => b ∈ succ a) v exit vs) : ∀ u ∈ vs.dropLast, isExit u = false := by
  induction walk with
  | single => simp
  | cons edge rest ih =>
      obtain ⟨_, rfl⟩ := rest.head
      intro u member
      rw [List.dropLast_cons_cons] at member
      rcases List.mem_cons.mp member with rfl | later
      · by_contra stopped
        simp [stuck u (by simpa using stopped)] at edge
      · exact ih u later

end Walks

section Once

variable {succ : V → List V} {isExit : V → Bool}

/-- Neither path begins with the other. -/
def Diverge (p q : List V) : Prop := ¬ p <+: q ∧ ¬ q <+: p

/-- Paths diverge from each other. -/
theorem Diverge.symm {p q : List V} (diverge : Diverge p q) : Diverge q p := ⟨diverge.2, diverge.1⟩

/-- Paths that diverge are two. -/
theorem Diverge.ne {p q : List V} (diverge : Diverge p q) : p ≠ q := by
  rintro rfl
  exact diverge.1 (List.prefix_refl p)

/-- What continues a path diverges from everything the path diverges from. -/
theorem Diverge.append {p q : List V} (diverge : Diverge p q) (r : List V) : Diverge (p ++ r) q := by
  constructor
  · exact fun begins => diverge.1 ((List.prefix_append p r).trans begins)
  · intro begins
    rcases List.prefix_or_prefix_of_prefix begins (List.prefix_append p r) with short | long
    · exact diverge.2 short
    · exact diverge.1 long

/-- Frames that continue one frame diverge when it has no successor twice. -/
theorem pairwise_expand {frame : Frame V} (distinct : (succ frame.current).Nodup) :
    ((frame.expand succ).map Frame.path).Pairwise Diverge := by
  rw [Frame.expand, List.map_map, List.pairwise_map]
  refine distinct.imp fun {next other} differ => ?_
  constructor <;>
    · intro begins
      have last := List.prefix_append_right_inj frame.path |>.mp begins
      have same := last.eq_of_length rfl
      simp_all

/-- The paths recorded and those on the stack keep apart. -/
theorem enumerate_pairwise [DecidableEq V] (distinct : ∀ v, (succ v).Nodup) {fuel : Nat}
    {stack : List (Frame V)} {paths result : List (List V)}
    (finished : enumerate succ isExit fuel stack paths = some result)
    (apart : (paths ++ stack.map Frame.path).Pairwise Diverge) : result.Pairwise Diverge := by
  induction fuel generalizing stack paths with
  | zero => simp [enumerate] at finished
  | succ fuel ih =>
      cases stack with
      | nil =>
          simp only [enumerate, Option.some.injEq] at finished
          subst finished
          simpa using apart
      | cons frame stack =>
          simp only [List.map_cons, List.pairwise_append, List.pairwise_cons] at apart
          obtain ⟨before, ⟨here, after⟩, across⟩ := apart
          simp only [enumerate] at finished
          split at finished
          next =>
            refine ih finished (List.pairwise_append.mpr ⟨before, after, ?_⟩)
            exact fun p recorded q later => across p recorded q (List.mem_cons_of_mem _ later)
          next =>
            split at finished
            next =>
              refine ih finished ?_
              simp only [List.append_assoc, List.singleton_append, List.pairwise_append,
                List.pairwise_cons]
              exact ⟨before, ⟨here, after⟩, across⟩
            next =>
              have child : ∀ p ∈ (frame.expand succ).reverse.map Frame.path,
                  ∃ next, p = frame.path ++ [next] := by
                intro p member
                obtain ⟨child, one, rfl⟩ := List.mem_map.mp member
                obtain ⟨next, _, rfl⟩ := List.mem_map.mp (List.mem_reverse.mp one)
                exact ⟨next, rfl⟩
              refine ih finished ?_
              rw [List.map_append, List.pairwise_append, List.pairwise_append]
              refine ⟨before, ⟨?_, after, ?_⟩, ?_⟩
              · rw [List.map_reverse, List.pairwise_reverse]
                exact (pairwise_expand (distinct _)).imp Diverge.symm
              · intro p member q later
                obtain ⟨next, rfl⟩ := child p member
                exact (here q later).append [next]
              · intro p recorded q member
                rcases List.mem_append.mp member with fromExpand | fromStack
                · obtain ⟨next, rfl⟩ := child q fromExpand
                  exact ((across p recorded _ List.mem_cons_self).symm.append [next]).symm
                · exact across p recorded q (List.mem_cons_of_mem _ fromStack)

end Once

end Flow
