import Sigil.Cfg.Paths

/-!
# Both ends of an edge

The second pass records an edge at the block it leaves and at the block it enters: the
predecessors of a block of `CFG.build` are the blocks that have it as a successor.
-/

namespace Sigil

namespace CFGBuilder

section FirstPass

variable {builder : CFGBuilder}

/-- No block has a predecessor yet. -/
def Unentered (builder : CFGBuilder) : Prop :=
  (∀ block ∈ builder.blocks, block.predecessors = []) ∧ builder.currentBlock.predecessors = []

/-- A finished block has no predecessor yet. -/
theorem unentered_finishBlock (unentered : Unentered builder) (terminator : Terminator) :
    Unentered (builder.finishBlock terminator) := by
  refine ⟨fun block member => ?_, rfl⟩
  rcases List.mem_append.mp member with old | new
  · exact unentered.1 block old
  · rw [List.mem_singleton.mp new]
    exact unentered.2

/-- A statement adds no predecessor. -/
theorem unentered_push (unentered : Unentered builder) (idx : Nat) :
    Unentered (builder.push idx) := unentered

/-- A label adds no predecessor. -/
theorem unentered_startLabel (unentered : Unentered builder) (name : String) :
    Unentered (builder.startLabel name) := by
  unfold startLabel
  split
  · exact unentered
  · exact unentered_finishBlock unentered .fallthrough

/-- The first pass adds no predecessor. -/
theorem unentered_visitFrom (unentered : Unentered builder) (idx : Nat) (nodes : List Node) :
    Unentered (builder.visitFrom idx nodes) := by
  induction nodes generalizing builder idx with
  | nil => exact unentered
  | cons node rest ih =>
      refine ih ?_ (idx + 1)
      cases node with
      | label line name => exact unentered_push (unentered_startLabel unentered name) idx
      | jump line target => exact unentered_finishBlock (unentered_push unentered idx) _
      | branch line condition trueLabel falseLabel =>
          exact unentered_finishBlock (unentered_push unentered idx) _
      | _ => exact unentered_push unentered idx

/-- Behind the first pass no block has a predecessor. -/
theorem predecessors_firstPass {nodes : List Node} {block : BasicBlock}
    (member : block ∈ (firstPass nodes).blocks) :
    block.predecessors = [] := by
  have fresh : Unentered {} := ⟨by simp, rfl⟩
  have unentered := unentered_visitFrom fresh 0 nodes
  unfold firstPass at member
  dsimp only at member
  split at member
  · exact (unentered_finishBlock unentered .return).1 block member
  · exact unentered.1 block member

end FirstPass

section Edges

variable {blocks : List BasicBlock} {labelToBlock : AList fun _ : String => BlockId}
  {block : BasicBlock} {i j : Nat} {source target p : BlockId}

/-- One edge adds its source to the predecessors of its target and to nothing else. -/
theorem mem_predecessors_connect (at_ : blocks[j]? = some block) :
    ∃ after, (connect i source blocks target)[j]? = some after ∧
      (p ∈ after.predecessors ↔ p ∈ block.predecessors ∨ (p = source ∧ target = j)) := by
  unfold connect
  simp only [List.getElem?_modify, at_]
  by_cases isSource : i = j <;> by_cases isTarget : target = j <;> simp [isSource, isTarget]

/-- A block gets the predecessors that lead to it. -/
theorem mem_predecessors_foldl_connect (targets : List BlockId) (at_ : blocks[j]? = some block) :
    ∃ after, (targets.foldl (connect i source) blocks)[j]? = some after ∧
      (p ∈ after.predecessors ↔ p ∈ block.predecessors ∨ (p = source ∧ j ∈ targets)) := by
  induction targets generalizing blocks block with
  | nil => exact ⟨block, at_, by simp⟩
  | cons target targets ih =>
      obtain ⟨mid, midAt, first⟩ := mem_predecessors_connect at_
      obtain ⟨after, afterAt, rest⟩ := ih midAt
      refine ⟨after, afterAt, ?_⟩
      rw [rest, first, List.mem_cons]
      tauto

/-- After `count` rounds the edges of the first `count` blocks have been entered. -/
theorem mem_predecessors_after (builder : CFGBuilder) (count : Nat)
    (at_ : builder.blocks[j]? = some block) :
    ∃ after, ((List.range count).foldl (connectBlock builder.labelToBlock) builder.blocks)[j]? =
      some after ∧
      (p ∈ after.predecessors ↔ p ∈ block.predecessors ∨ ∃ i < count, ∃ other,
        builder.blocks[i]? = some other ∧
        p = other.id ∧ j ∈ targets builder.labelToBlock builder.blocks i other.terminator) := by
  induction count with
  | zero => exact ⟨block, at_, by simp⟩
  | succ count ih =>
      obtain ⟨mid, midAt, earlier⟩ := ih
      obtain ⟨length, all⟩ := connected_after builder count
      rw [List.range_succ, List.foldl_append, List.foldl_cons, List.foldl_nil]
      generalize (List.range count).foldl (connectBlock builder.labelToBlock) builder.blocks =
        now at *
      unfold connectBlock
      cases here : builder.blocks[count]? with
      | none =>
          have beyond : now[count]? = none := by
            rw [List.getElem?_eq_none_iff] at here ⊢
            omega
          rw [beyond]
          refine ⟨mid, midAt, earlier.trans (or_congr_right ?_)⟩
          grind
      | some other =>
          obtain ⟨connected, connectedAt, same, -⟩ := all count other here
          have unchanged := targets_congr builder.labelToBlock count length
            (fun i block found => by
              obtain ⟨mid, midAt, same, _⟩ := all i block found
              exact ⟨mid, midAt, same.id⟩) connected.terminator
          rw [connectedAt]
          obtain ⟨after, afterAt, entered⟩ := mem_predecessors_foldl_connect
            (targets builder.labelToBlock now count connected.terminator) midAt
          refine ⟨after, afterAt, entered.trans ?_⟩
          rw [earlier, unchanged, same.terminator, same.id]
          grind

end Edges

end CFGBuilder

namespace CFG

variable {nodes : List Node} {b p : BlockId} {block : BasicBlock}

/-- The predecessors of a block are the blocks that lead to it. -/
theorem mem_predecessors_iff (at_ : (build nodes).blocks[b]? = some block) :
    p ∈ block.predecessors ↔ b ∈ (build nodes).succ p := by
  obtain ⟨plain, plainAt, -, -⟩ := build_blocks_getElem? at_
  have none := CFGBuilder.predecessors_firstPass (List.mem_of_getElem? plainAt)
  obtain ⟨after, afterAt, entered⟩ :=
    CFGBuilder.mem_predecessors_after (p := p) (CFGBuilder.firstPass nodes)
    (CFGBuilder.firstPass nodes).blocks.length plainAt
  obtain rfl : block = after := Option.some.inj (at_.symm.trans afterAt)
  rw [entered, none]
  simp only [List.not_mem_nil, false_or]
  constructor
  · rintro ⟨i, -, other, otherAt, rfl, leads⟩
    obtain ⟨built, builtAt, same⟩ := build_blocks_of_firstPass otherAt
    obtain ⟨plain', plainAt', same', successors⟩ := build_blocks_getElem? builtAt
    obtain rfl : other = plain' := Option.some.inj (otherAt.symm.trans plainAt')
    rw [← same.id, build_id builtAt, succ_eq builtAt, successors]
    exact leads
  · intro edge
    unfold succ at edge
    split at edge
    next source sourceAt =>
      obtain ⟨other, otherAt, same, successors⟩ := build_blocks_getElem? sourceAt
      refine ⟨p, (List.getElem?_eq_some_iff.mp otherAt).1, other, otherAt, ?_, successors ▸ edge⟩
      rw [← same.id, build_id sourceAt]
    next => cases edge

end CFG

end Sigil
