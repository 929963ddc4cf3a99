import Sigil.Cfg.Paths

/-!
# The executions the path enumeration covers

`CFG.allPaths` finishes and lists exactly the simple walks over blocks from the
entry to an exit. Over statements, these are the walks from the first statement
to the end that execute no statement twice.
-/

namespace Sigil

namespace CFG

variable {nodes : List Node} {b c : BlockId} {path : List BlockId}

/-- An exit of the built graph leads nowhere. -/
theorem succ_of_isExit (stops : (build nodes).isExit b = true) : (build nodes).succ b = [] := by
  unfold succ
  split
  next block at_ =>
    rw [isExit_eq at_, BasicBlock.isExit, Bool.or_eq_true, decide_eq_true_eq] at stops
    rcases stops with empty | returns
    · exact List.isEmpty_iff.mp empty
    · exact (successors_of_return at_ returns).1
  next => rfl

/-- The entry and all edges lead to blocks. -/
theorem build_inRange (nodes : List Node) : (build nodes).InRange where
  entry := build_nonempty
  successors := by
    intro block member next edge
    obtain ⟨b, at_⟩ := List.getElem?_of_mem member
    exact succ_lt (succ_eq at_ ▸ edge)

/-- The enumerated paths are the walks from the entry to an exit that repeat no
block. -/
theorem mem_allPaths_iff : path ∈ (build nodes).allPaths ↔
    ∃ exit, Flow.Walk (fun a b => b ∈ (build nodes).succ a) 0 exit path ∧
      (build nodes).isExit exit = true ∧ path.Nodup := by
  rw [(build_inRange nodes).mem_allPaths_iff]
  refine and_iff_left_of_imp ?_
  rintro ⟨exit, walk, -, -⟩
  exact walk.continues fun v => succ_of_isExit

/-- Different blocks share no statement. -/
theorem blocks_disjoint {left right : BasicBlock} (leftAt : (build nodes).blocks[b]? = some left)
    (rightAt : (build nodes).blocks[c]? = some right) (differ : b ≠ c) :
    List.Disjoint left.statements right.statements := by
  have nodup : ((build nodes).blocks.flatMap BasicBlock.statements).Nodup := by
    rw [build_tiles]
    exact List.nodup_range
  have apart := (List.nodup_flatMap.mp nodup).2
  rw [List.pairwise_iff_getElem] at apart
  obtain ⟨leftIn, rfl⟩ := List.getElem?_eq_some_iff.mp leftAt
  obtain ⟨rightIn, rfl⟩ := List.getElem?_eq_some_iff.mp rightAt
  rcases Nat.lt_or_gt_of_ne differ with before | after
  · exact apart b c leftIn rightIn before
  · exact (apart c b rightIn leftIn after).symm

/-- A path repeats a block exactly when it repeats a statement. -/
theorem nodup_statementsOnPath_iff (someNodes : nodes ≠ [])
    (inRange : ∀ b ∈ path, b < (build nodes).blocks.length) :
    ((build nodes).statementsOnPath path).Nodup ↔ path.Nodup := by
  induction path with
  | nil => simp [statementsOnPath]
  | cons b path ih =>
      have here := inRange b List.mem_cons_self
      have at_ := List.getElem?_eq_getElem here
      have rest := ih fun c member => inRange c (List.mem_cons_of_mem b member)
      rw [statementsOnPath_cons at_, List.nodup_append', rest, List.nodup_cons]
      have own : (build nodes).blocks[b].statements.Nodup := by
        rw [statements_eq at_]
        exact List.nodup_range'
      constructor
      · rintro ⟨_, nodup, disjoint⟩
        refine ⟨fun again => ?_, nodup⟩
        obtain ⟨i, member⟩ := List.exists_mem_of_ne_nil _ (filled someNodes at_)
        refine disjoint member (List.mem_flatMap.mpr ⟨b, again, ?_⟩)
        rw [at_]
        exact member
      · rintro ⟨fresh, nodup⟩
        refine ⟨own, nodup, ?_⟩
        intro i first later
        obtain ⟨c, onPath, there⟩ := List.mem_flatMap.mp later
        have otherAt := List.getElem?_eq_getElem (inRange c (List.mem_cons_of_mem b onPath))
        rw [otherAt] at there
        exact blocks_disjoint at_ otherAt (by rintro rfl; exact fresh onPath) first there

/-- The statements of the enumerated paths are the walks from the first
statement to the end that execute no statement twice. -/
theorem statementsOnPath_iff (body : FlatBody nodes) {executed : List Nat} :
    (∃ path ∈ (build nodes).allPaths, (build nodes).statementsOnPath path = executed) ↔
      ControlWalk nodes 0 nodes.length (executed ++ [nodes.length]) ∧ executed.Nodup := by
  rcases eq_or_ne nodes [] with rfl | someNodes
  · have paths : (build []).allPaths = [[0]] := by decide
    have none : (build []).statementsOnPath [0] = [] := by decide
    simp only [paths, List.mem_singleton, exists_eq_left, none]
    constructor
    · rintro rfl
      exact ⟨.single 0, List.nodup_nil⟩
    · rintro ⟨walk, _⟩
      simpa using (walk_from_end walk).symm
  constructor
  · rintro ⟨path, listed, rfl⟩
    obtain ⟨exit, walk, stops, nodup⟩ := mem_allPaths_iff.mp listed
    have inRange := walk_lt walk build_nonempty
    have run := controlWalk_of_walk body someNodes walk build_nonempty stops
    rw [start_zero] at run
    exact ⟨run, (nodup_statementsOnPath_iff someNodes inRange).mpr nodup⟩
  · rintro ⟨run, nodup⟩
    rw [← start_zero (build nodes)] at run
    obtain ⟨exit, path, walk, stops, same⟩ := walk_of_controlWalk body someNodes run build_nonempty
    have inRange := walk_lt walk build_nonempty
    obtain rfl := List.append_cancel_right same
    exact ⟨path, mem_allPaths_iff.mpr
      ⟨exit, walk, stops, (nodup_statementsOnPath_iff someNodes inRange).mp nodup⟩, rfl⟩

/-- The exits of the graph are the blocks where paths end. -/
theorem mem_exits_iff : b ∈ (build nodes).exits ↔
    b < (build nodes).blocks.length ∧ (build nodes).isExit b = true := by
  have listed : b ∈ (build nodes).exits ↔ ∃ block ∈ (build nodes).blocks, block.isExit = true ∧
    block.id = b := by
    simp [build, and_assoc]
  rw [listed]
  constructor
  · rintro ⟨block, member, stops, rfl⟩
    obtain ⟨i, at_⟩ := List.getElem?_of_mem member
    rw [build_id at_, isExit_eq at_]
    exact ⟨(List.getElem?_eq_some_iff.mp at_).1, stops⟩
  · rintro ⟨inRange, stops⟩
    have at_ := List.getElem?_eq_getElem inRange
    exact ⟨_, List.getElem_mem inRange, (isExit_eq at_).symm.trans stops, build_id at_⟩

/-- The statements that walks over the blocks run, from the entry to an exit, are those that a
program counter runs from the first statement until it is past the last. -/
theorem statements_of_walk_iff (body : FlatBody nodes) {executed : List Nat} :
    (∃ exit ∈ (build nodes).exits, ∃ path,
      Flow.Walk (fun a b => b ∈ (build nodes).succ a) (build nodes).entry exit path ∧
        (build nodes).statementsOnPath path = executed) ↔
      ControlWalk nodes 0 nodes.length (executed ++ [nodes.length]) := by
  rcases eq_or_ne nodes [] with rfl | someNodes
  · have leaf : (build []).succ 0 = [] := by decide
    have nothing : (build []).statementsOnPath [0] = [] := by decide
    constructor
    · rintro ⟨exit, -, path, walk, rfl⟩
      have alone : path = [0] := by
        cases walk with
        | single => rfl
        | cons edge rest => exact absurd (leaf ▸ edge) (List.not_mem_nil)
      rw [alone, nothing]
      exact .single 0
    · intro walk
      have run := walk_from_end walk
      obtain rfl : executed = [] := by simpa using run
      exact ⟨0, by decide, [0], .single 0, nothing⟩
  constructor
  · rintro ⟨exit, isExit, path, walk, rfl⟩
    have run := controlWalk_of_walk body someNodes walk build_nonempty (mem_exits_iff.mp isExit).2
    have first : (build nodes).start (build nodes).entry = 0 := start_zero _
    rwa [first] at run
  · intro run
    rw [← start_zero (build nodes)] at run
    obtain ⟨exit, path, walk, stops, same⟩ := walk_of_controlWalk body someNodes run build_nonempty
    obtain rfl := List.append_cancel_right same
    obtain ⟨front, visited⟩ := walk.last
    have inRange : exit < (build nodes).blocks.length :=
      walk_lt walk build_nonempty exit (by simp [visited])
    exact ⟨exit, mem_exits_iff.mpr ⟨inRange, stops⟩, path, walk, rfl⟩

/-- A loop that is left or run again. -/
def loopBody : List Node :=
  [.label 1 "again", .branch 2 (.var "c") "again" "out", .label 3 "out"]

/-- The walk that goes through the loop body twice. -/
theorem statements_of_walk_loopBody : ∃ exit ∈ (build loopBody).exits, ∃ path,
    Flow.Walk (fun a b => b ∈ (build loopBody).succ a) (build loopBody).entry exit path ∧
      (build loopBody).statementsOnPath path = [0, 1, 0, 1, 2] := by
  have body : FlatBody loopBody := by decide
  refine (statements_of_walk_iff body).mpr ?_
  exact .cons (by decide) (.cons (by decide)
    (.cons (by decide) (.cons (by decide) (.cons (by decide) (.single 3)))))

end CFG

section Erasure

variable {nodes : List Node} {executed before after mid : List Nat} {i f : Nat}

/-- What a walk has executed are statements of the body. -/
theorem executed_lt {source target : Nat}
    (walk : ControlWalk nodes source target (executed ++ [i])) :
    ∀ j ∈ executed, j < nodes.length := by
  intro j member
  obtain ⟨front, back, rfl⟩ := List.append_of_mem member
  have walk : ControlWalk nodes source target (front ++ j :: (back ++ [i])) := by simpa using walk
  obtain ⟨k, step, _⟩ := walk.split.2.tail (by simp)
  by_contra beyond
  have none : nodes[j]? = none := List.getElem?_eq_none (Nat.le_of_not_lt beyond)
  simp [next, none] at step

/-- Erase the loops of a walk to the end of the body. -/
theorem exists_simple_execution
    (walk : ControlWalk nodes 0 nodes.length (executed ++ [nodes.length])) :
    ∃ erased, ControlWalk nodes 0 nodes.length (erased ++ [nodes.length]) ∧ erased.Nodup ∧
      erased ⊆ executed := by
  obtain ⟨visited, simple, nodup, subset⟩ := walk.exists_simple
  obtain ⟨erased, rfl⟩ := simple.last
  obtain ⟨nodupErased, _, disjoint⟩ := List.nodup_append'.mp nodup
  refine ⟨erased, simple, nodupErased, ?_⟩
  intro j member
  rcases List.mem_append.mp (subset (List.mem_append_left _ member)) with inside | isEnd
  · exact inside
  · exact absurd isEnd (disjoint member)

/-- Erase the loops before and after a statement, when the walk does not come
back after it. -/
theorem exists_simple_execution_through (walk : ControlWalk nodes 0 i (before ++ [i]))
    (finish : ControlWalk nodes i nodes.length (i :: after)) (inBody : i < nodes.length)
    (fresh : ∀ j ∈ before ++ [i], j ∉ after) :
    ∃ before' after', ControlWalk nodes 0 nodes.length (before' ++ i :: after' ++ [nodes.length]) ∧
      (before' ++ i :: after').Nodup ∧ before' ⊆ before ∧ after' ⊆ after := by
  obtain ⟨before', rest, simple, nodup, subset, subsetAfter⟩ :=
    Flow.Walk.exists_simple_through (walk.append finish) fresh
  obtain ⟨after', rfl⟩ := simple.split.2.target_after inBody.ne
  have listed : (before' ++ i :: after' ++ [nodes.length]).Nodup := by simpa using nodup
  refine ⟨before', after', by simpa using simple, listed.of_append_left, ?_,
    fun j member => subsetAfter (List.mem_append_left _ member)⟩
  intro j member
  rcases List.mem_append.mp (subset member) with inside | isMark
  · exact inside
  · have disjoint := (List.nodup_append'.mp nodup).2.2
    exact absurd (List.mem_singleton.mp isMark ▸ List.mem_cons_self) (disjoint member)

/-- Erase the loops around two statements, when the walk comes back to nothing
it ran up to the first one or up to the second one. -/
theorem exists_simple_execution_through_two
    (walk : ControlWalk nodes 0 i (before ++ f :: mid ++ [i]))
    (finish : ControlWalk nodes i nodes.length (i :: after)) (inBody : i < nodes.length)
    (apart : ∀ j ∈ before ++ [f], j ∉ mid ++ [i])
    (fresh : ∀ j ∈ before ++ f :: mid ++ [i], j ∉ after) :
    ∃ before' mid' after', ControlWalk nodes 0 nodes.length
        (before' ++ f :: mid' ++ i :: after' ++ [nodes.length]) ∧
      (before' ++ f :: mid' ++ i :: after').Nodup ∧ mid' ⊆ mid := by
  have joined : ControlWalk nodes 0 nodes.length (before ++ f :: mid ++ i :: after) :=
    walk.append finish
  have whole : ControlWalk nodes 0 nodes.length (before ++ f :: (mid ++ i :: after)) := by
    simpa using joined
  obtain ⟨before', mid', rest, simple, nodup, subset⟩ :=
    whole.exists_simple_through_two apart fun j member => fresh j (by simpa using member)
  have erased : ControlWalk nodes 0 nodes.length (before' ++ f :: mid' ++ i :: rest) := by
    simpa using simple
  obtain ⟨after', rfl⟩ := erased.split.2.target_after inBody.ne
  have listed : (before' ++ f :: mid' ++ i :: after' ++ [nodes.length]).Nodup := by
    simpa using nodup
  exact ⟨before', mid', after', by simpa using simple, listed.of_append_left, subset⟩

end Erasure

end Sigil
