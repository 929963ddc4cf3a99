import Sigil.Cfg.Blocks

/-!
# What the second pass connects

`secondPass` changes successors and predecessors only. The successors of a block
of `CFG.build` are the blocks its terminator leads to, and for a flat body they
mirror the statement-level control flow at the block's last statement.
-/

namespace Sigil

namespace CFGBuilder

/-- Two blocks that differ in their edges only. -/
structure SameStatements (left right : BasicBlock) : Prop where
  id : right.id = left.id
  statements : right.statements = left.statements
  terminator : right.terminator = left.terminator

section Edges

variable {blocks : List BasicBlock} {labelToBlock : AList fun _ : String => BlockId}
  {block : BasicBlock} {i j : Nat} {source target : BlockId}

@[simp] theorem length_connect (i : Nat) (source : BlockId) (blocks : List BasicBlock)
    (target : BlockId) : (connect i source blocks target).length = blocks.length := by
  simp [connect]

/-- One edge adds its target to the successors of block `i` and to nothing else. -/
theorem connect_getElem? (i : Nat) (source target : BlockId) (at_ : blocks[j]? = some block) :
    ∃ after, (connect i source blocks target)[j]? = some after ∧ SameStatements block after ∧
      after.successors = block.successors ++ if i = j then [target] else [] := by
  unfold connect
  simp only [List.getElem?_modify, at_]
  by_cases isSource : i = j <;> by_cases isTarget : target = j <;>
    simp [isSource, isTarget] <;> constructor <;> rfl

/-- All edges of one block. -/
theorem foldl_connect_getElem? (i : Nat) (source : BlockId) (targets : List BlockId)
    (at_ : blocks[j]? = some block) :
    ∃ after, (targets.foldl (connect i source) blocks)[j]? = some after ∧
      SameStatements block after ∧
      after.successors = block.successors ++ if i = j then targets else [] := by
  induction targets generalizing blocks block with
  | nil => exact ⟨block, by simpa using at_, ⟨rfl, rfl, rfl⟩, by simp⟩
  | cons target targets ih =>
      obtain ⟨mid, midAt, same, successors⟩ :=
        connect_getElem? i source target at_
      obtain ⟨after, afterAt, sameAfter, successorsAfter⟩ := ih midAt
      refine ⟨after, afterAt, ⟨sameAfter.id.trans same.id,
        sameAfter.statements.trans same.statements,
        sameAfter.terminator.trans same.terminator⟩, ?_⟩
      rw [successorsAfter, successors]
      split <;> simp

/-- Connecting adds no block. -/
theorem length_foldl_connect (targets : List BlockId) :
    (targets.foldl (connect i source) blocks).length = blocks.length := by
  induction targets generalizing blocks with
  | nil => rfl
  | cons target targets ih => simp [ih]

/-- Connecting a block adds none. -/
theorem length_connectBlock (labelToBlock : AList fun _ : String => BlockId)
    (blocks : List BasicBlock) (i : Nat) :
    (connectBlock labelToBlock blocks i).length = blocks.length := by
  unfold connectBlock
  cases blocks[i]? with
  | none => rfl
  | some block => exact length_foldl_connect _

/-- Connecting block `i` adds the blocks it leads to and nothing else. -/
theorem connectBlock_getElem? (labelToBlock : AList fun _ : String => BlockId) (i : Nat)
    (at_ : blocks[j]? = some block) :
    ∃ after, (connectBlock labelToBlock blocks i)[j]? = some after ∧
      SameStatements block after ∧ after.successors = block.successors ++
        if i = j then targets labelToBlock blocks j block.terminator else [] := by
  unfold connectBlock
  cases here : blocks[i]? with
  | none =>
      have differ : i ≠ j := by
        rintro rfl
        simp [here] at at_
      exact ⟨block, at_, ⟨rfl, rfl, rfl⟩, by simp [differ]⟩
  | some other =>
      obtain ⟨after, afterAt, same, successors⟩ := foldl_connect_getElem? i
        other.id (targets labelToBlock blocks i other.terminator) at_
      refine ⟨after, afterAt, same, ?_⟩
      rw [successors]
      split
      next equal =>
        subst equal
        obtain rfl : other = block := by simpa [at_] using here.symm
        rfl
      next => rfl

/-- The blocks a terminator leads to do not depend on edges added earlier. -/
theorem targets_congr (labelToBlock : AList fun _ : String => BlockId) (i : Nat)
    {left right : List BasicBlock} (length : right.length = left.length)
    (ids : ∀ (i : Nat) block, left[i]? = some block →
      ∃ after, right[i]? = some after ∧ after.id = block.id) (terminator : Terminator) :
    targets labelToBlock right i terminator = targets labelToBlock left i terminator := by
  cases terminator with
  | fallthrough =>
      simp only [targets, length]
      split
      next inRange =>
        have here := List.getElem?_eq_getElem inRange
        obtain ⟨after, afterAt, sameId⟩ := ids _ _ here
        simp [here, afterAt, sameId]
      next => rfl
  | _ => rfl

/-- After `count` rounds the first `count` blocks are connected. -/
theorem connected_after (builder : CFGBuilder) (count : Nat) :
    let after := (List.range count).foldl (connectBlock builder.labelToBlock) builder.blocks
    after.length = builder.blocks.length ∧ ∀ (j : Nat) block, builder.blocks[j]? = some block →
      ∃ connected, after[j]? = some connected ∧ SameStatements block connected ∧
        connected.successors = block.successors ++ if j < count then
          targets builder.labelToBlock builder.blocks j block.terminator else [] := by
  induction count with
  | zero =>
      refine ⟨rfl, fun j block at_ => ⟨block, by simpa using at_, ⟨rfl, rfl, rfl⟩, by simp⟩⟩
  | succ count ih =>
      obtain ⟨length, earlier⟩ := ih
      simp only [List.range_succ, List.foldl_append, List.foldl_cons, List.foldl_nil]
      refine ⟨by rw [length_connectBlock, length], ?_⟩
      intro j block at_
      obtain ⟨mid, midAt, same, successors⟩ := earlier j block at_
      obtain ⟨after, afterAt, sameAfter, successorsAfter⟩ :=
        connectBlock_getElem? builder.labelToBlock count midAt
      refine ⟨after, afterAt, ⟨sameAfter.id.trans same.id,
        sameAfter.statements.trans same.statements,
        sameAfter.terminator.trans same.terminator⟩, ?_⟩
      have unchanged := targets_congr builder.labelToBlock j length
        (fun i block here => by
          obtain ⟨mid, midAt, same, _⟩ := earlier i block here
          exact ⟨mid, midAt, same.id⟩) mid.terminator
      rw [successorsAfter, successors, unchanged, same.terminator]
      rcases Nat.lt_trichotomy j count with before | rfl | beyond
      · simp [before, Nat.lt_succ_of_lt before, before.ne']
      · simp
      · simp [beyond.not_gt, beyond.ne, show ¬ j < count + 1 by omega]

/-- What `secondPass` leaves of a block. -/
theorem secondPass_getElem? {builder : CFGBuilder} (at_ : builder.blocks[j]? = some block) :
    ∃ connected, builder.secondPass[j]? = some connected ∧ SameStatements block connected ∧
      connected.successors = block.successors ++
        targets builder.labelToBlock builder.blocks j block.terminator := by
  obtain ⟨_, all⟩ := connected_after builder builder.blocks.length
  obtain ⟨connected, connectedAt, same, successors⟩ := all j block at_
  have inRange := (List.getElem?_eq_some_iff.mp at_).1
  exact ⟨connected, connectedAt, same, by rw [successors, if_pos inRange]⟩

@[simp] theorem length_secondPass (builder : CFGBuilder) :
    builder.secondPass.length = builder.blocks.length :=
  (connected_after builder builder.blocks.length).1

end Edges

end CFGBuilder

/-- A block of the built graph: a laid-out block with the successors its
terminator leads to. -/
theorem CFG.build_blocks_getElem? {nodes : List Node} {j : Nat} {block : BasicBlock} :
    (CFG.build nodes).blocks[j]? = some block → ∃ plain,
      (CFGBuilder.firstPass nodes).blocks[j]? = some plain ∧
        CFGBuilder.SameStatements plain block ∧
        block.successors = CFGBuilder.targets (CFGBuilder.firstPass nodes).labelToBlock
          (CFGBuilder.firstPass nodes).blocks j plain.terminator := by
  intro at_
  have inRange := (List.getElem?_eq_some_iff.mp at_).1
  simp only [CFG.build, CFGBuilder.length_secondPass] at inRange
  have here := List.getElem?_eq_getElem inRange
  obtain ⟨connected, connectedAt, same, successors⟩ := CFGBuilder.secondPass_getElem? here
  have equal : (CFG.build nodes).blocks[j]? = some connected := connectedAt
  obtain rfl : block = connected := by simpa [at_] using equal
  refine ⟨_, here, same, ?_⟩
  rw [successors, (CFGBuilder.layout_firstPass nodes).unconnected _ (List.getElem_mem inRange)]
  rfl

end Sigil
