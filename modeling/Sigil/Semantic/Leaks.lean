import Sigil.Semantic.Lifetime

/-!
# Leak freedom

The checker asks of every loop-free path only whether an allocated variable is
freed at its end, so an allocation that is overwritten is not missed, and an
iteration that allocates anew is not looked at.
-/

namespace Sigil

open OwnershipState

variable {nodes : List Node} {ctx : AnalysisContext} {before after : List Nat} {i : Nat}
  {name : String}

/-- The checker reports no leak. -/
def LeakAccepted (nodes : List Node) (ctx : AnalysisContext) : Prop :=
  ∀ handle, ¬ Reports (validateOwnershipCfg nodes ctx) (.memoryLeak handle)

/-- On the rest of a walk a variable is freed before it is assigned again. -/
def FreedNext (nodes : List Node) (after : List Nat) (name : String) : Prop :=
  ∃ front f rest, after = front ++ f :: rest ∧ Holds nodes (·.freed? = some name) f ∧
    ∀ j ∈ front, ¬ Holds nodes (name ∈ ·.assigned) j

/-- Every ALLOC of a walk is freed before its variable is assigned again and
before the walk ends. -/
def LeakFree (nodes : List Node) (executed : List Nat) : Prop :=
  ∀ before i after name, executed = before ++ i :: after →
    Holds nodes (·.allocTarget? = some name) i → FreedNext nodes after name

/-- The ALLOCs of a walk are in reach of the checker: one that nothing frees later
is on a stretch the walk does not come back to, and a variable that is assigned
again before it is freed is not freed later either. -/
structure AllocsInReach (nodes : List Node) (executed : List Nat) : Prop where
  unlooped : ∀ before i after name, executed = before ++ i :: after →
    Holds nodes (·.allocTarget? = some name) i →
    (∀ f ∈ after, ¬ Holds nodes (·.freed? = some name) f) → ∀ j ∈ before ++ [i], j ∉ after
  notOverwritten : ∀ before i after name, executed = before ++ i :: after →
    Holds nodes (·.allocTarget? = some name) i →
    ∀ front a rest, after = front ++ a :: rest → Holds nodes (name ∈ ·.assigned) a →
    (∀ f ∈ front, ¬ Holds nodes (·.freed? = some name) f) →
    ∀ f ∈ rest, ¬ Holds nodes (·.freed? = some name) f

/-- A statement that allocates frees nothing. -/
theorem not_frees_of_allocates (allocates : Holds nodes (·.allocTarget? = some name) i) :
    ¬ Holds nodes (·.freed? = some name) i := by
  obtain ⟨node, at_, target⟩ := allocates
  rw [holds_iff at_]
  cases node <;> simp_all [Node.freed?, Node.allocTarget?]

/-- A statement that frees a name does not assign it. -/
theorem not_assigns_of_frees (frees : Holds nodes (·.freed? = some name) i) :
    ¬ Holds nodes (name ∈ ·.assigned) i := by
  obtain ⟨node, at_, target⟩ := frees
  rw [holds_iff at_]
  cases node <;> simp_all [Node.freed?, Node.assigned]

/-- A statement that allocates into a name assigns it. -/
theorem assigns_of_allocates (allocates : Holds nodes (·.allocTarget? = some name) i) :
    Holds nodes (·.assignTarget? = some name) i := by
  obtain ⟨node, at_, target⟩ := allocates
  rw [holds_iff at_]
  cases node with
  | assignment line other e => cases e <;> simp_all [Node.assignTarget?, Node.allocTarget?]
  | _ => simp [Node.allocTarget?] at target

/-- In an accepted body, an ALLOC on a stretch the walk does not come back to is
freed later on the walk. -/
theorem freed_of_unlooped (body : FlatBody nodes) (accepted : LeakAccepted nodes ctx)
    (walk : ControlWalk nodes 0 nodes.length (before ++ i :: after ++ [nodes.length]))
    (allocates : Holds nodes (·.allocTarget? = some name) i)
    (unlooped : ∀ j ∈ before ++ [i], j ∉ after) :
    ∃ f ∈ after, Holds nodes (·.freed? = some name) f := by
  by_contra unfreed
  have never : ∀ f ∈ after, ¬ Holds nodes (·.freed? = some name) f :=
    fun f member frees => unfreed ⟨f, member, frees⟩
  have inBody := executed_lt walk i (by simp)
  have pieces : ControlWalk nodes 0 nodes.length (before ++ i :: (after ++ [nodes.length])) := by
    simpa using walk
  have fresh : ∀ j ∈ before ++ [i], j ∉ after ++ [nodes.length] := by
    intro j member later
    rcases List.mem_append.mp later with inAfter | isEnd
    · exact unlooped j member inAfter
    · have inRange := executed_lt walk j (by
        rcases List.mem_append.mp member with early | isMark
        · simp [early]
        · simp [List.mem_singleton.mp isMark])
      exact inRange.ne (List.mem_singleton.mp isEnd)
  obtain ⟨before', after', execution, nodup, _, subset⟩ :=
    exists_simple_execution_through pieces.split.1 pieces.split.2 inBody fresh
  have kept : after' ⊆ after := fun j member => by
    rcases List.mem_append.mp (subset member) with inAfter | isEnd
    · exact inAfter
    · exact absurd (List.mem_singleton.mp isEnd) (executed_lt execution j (by simp [member])).ne
  refine accepted name (reports_leak body execution nodup ⟨i, by simp, allocates⟩ ?_)
  exact Flow.not_since_of_cancel (assigns_of_allocates allocates)
    (not_frees_of_allocates allocates) fun f member => never f (kept member)

/-- What is freed in time is in reach. -/
theorem leakFree_inReach {executed : List Nat} (leakFree : LeakFree nodes executed) :
    AllocsInReach nodes executed := by
  refine ⟨fun before i after name split allocates never => ?_,
    fun before i after name split allocates front a rest inner assigns unfreed f later frees => ?_⟩
  · obtain ⟨front, f, rest, rfl, frees, _⟩ := leakFree before i after name split allocates
    exact absurd frees (never f (by simp))
  · obtain ⟨start, g, tail, rfl, freesFirst, kept⟩ := leakFree before i after name split allocates
    -- the first FREE comes before the assignment, so the stretch before it has one
    rcases List.append_eq_append_iff.mp inner with ⟨mid, rfl, same⟩ | ⟨mid, rfl, same⟩
    · rcases List.cons_eq_append_iff.mp same with ⟨rfl, same⟩ | ⟨mid', rfl, rfl⟩
      · obtain ⟨rfl, _⟩ := List.cons.inj same
        exact absurd assigns (not_assigns_of_frees freesFirst)
      · exact unfreed g (by simp) freesFirst
    · rcases List.cons_eq_append_iff.mp same with ⟨rfl, same⟩ | ⟨mid', rfl, rfl⟩
      · obtain ⟨rfl, _⟩ := List.cons.inj same
        exact absurd assigns (not_assigns_of_frees freesFirst)
      · exact kept a (by simp) assigns

/-- In an accepted body every ALLOC of a walk to the end is freed in time exactly
when the ALLOCs of the walk are in reach. -/
theorem leakFree_iff_inReach (body : FlatBody nodes) (accepted : LeakAccepted nodes ctx)
    {executed : List Nat}
    (walk : ControlWalk nodes 0 nodes.length (executed ++ [nodes.length])) :
    LeakFree nodes executed ↔ AllocsInReach nodes executed := by
  refine ⟨leakFree_inReach, ?_⟩
  rintro inReach before i after name rfl allocates
  have happens : ∃ f ∈ after, Holds nodes (·.freed? = some name) f := by
    by_contra never
    refine never (freed_of_unlooped body accepted walk allocates ?_)
    exact inReach.unlooped before i after name rfl allocates
      fun f member frees => never ⟨f, member, frees⟩
  obtain ⟨front, f, rest, rfl, frees, first⟩ := Flow.exists_first happens
  refine ⟨front, f, rest, rfl, frees, fun a member assigns => ?_⟩
  obtain ⟨start, tail, rfl⟩ := List.append_of_mem member
  exact inReach.notOverwritten before i _ name rfl allocates start a (tail ++ f :: rest) (by simp)
    assigns (fun g early => first g (by simp [early])) f (by simp) frees

/-- `h = ALLOC 8 bytes`, `h = ALLOC 16 bytes`, `FREE h`. -/
def overwritten : List Node :=
  [.assignment 1 "h" (.alloc (.intLit 8) .bytes false),
    .assignment 2 "h" (.alloc (.intLit 16) .bytes false), .free 3 "h"]

/-- The walk through `overwritten` from its first statement to its last. -/
theorem walk_overwritten : ControlWalk overwritten 0 3 [0, 1, 2, 3] :=
  .cons (by decide) (.cons (by decide) (.cons (by decide) (.single 3)))

/-- The checker accepts `overwritten`. -/
theorem overwritten_accepted : LeakAccepted overwritten .bare := by
  have quiet : (validateOwnershipCfg overwritten .bare).isEmpty = true := by decide
  exact fun handle => not_reports_of_isEmpty quiet

/-- A handle whose name is bound again. -/
theorem leakFree_iff_inReach_overwritten :
    LeakFree overwritten [0, 1, 2] ↔ AllocsInReach overwritten [0, 1, 2] :=
  leakFree_iff_inReach (by decide) overwritten_accepted walk_overwritten

/-- The checker accepts a body that overwrites the only handle of an allocation. -/
theorem overwritten_accepted_and_leaks :
    FlatBody overwritten ∧ LeakAccepted overwritten .bare ∧
      ControlWalk overwritten 0 overwritten.length ([0, 1, 2] ++ [overwritten.length]) ∧
      ¬ LeakFree overwritten [0, 1, 2] := by
  refine ⟨by decide, overwritten_accepted, walk_overwritten, fun leakFree => ?_⟩
  have inReach := leakFree_inReach leakFree
  exact inReach.notOverwritten [] 0 [1, 2] "h" rfl ⟨_, rfl, rfl⟩ [] 1 [2] rfl
    ⟨_, rfl, by decide⟩ (by simp) 2 (by simp) ⟨_, rfl, rfl⟩

end Sigil
