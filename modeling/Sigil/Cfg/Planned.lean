import Sigil.Cfg.DataFlow
import Sigil.Cfg.Executions

/-!
# The planned pass and the enumeration of paths

What the planned pass says of an output depends on the order of the blocks: it is a walk to an
exit without a write, that starts where the sweeps start and does not go back too often.
-/

namespace Sigil

open Flow

namespace CFG

/-- The predecessors of a block id. -/
def preds (cfg : CFG) (b : BlockId) : List BlockId :=
  match cfg.blocks[b]? with
  | some block => block.predecessors
  | none => []

end CFG

section States

variable {nodes : List Node} {states : BlockStates} {output : String} {block : BasicBlock}
  {b : BlockId}

/-- Whether an output is written, where a state is known. -/
def writtenBits (output : String) (states : BlockStates) : Bits :=
  fun b => (states b).map fun state => decide (output ∈ state.writtenOutputs)

/-- What is written in all merged states. -/
theorem mem_foldl_merge (state : DataFlowState) (others : List DataFlowState) :
    output ∈ (others.foldl DataFlowState.merge state).writtenOutputs ↔
      output ∈ state.writtenOutputs ∧ ∀ other ∈ others, output ∈ other.writtenOutputs := by
  induction others generalizing state with
  | nil => simp
  | cons other others ih => simp [ih, DataFlowState.merge, and_assoc]

/-- What is written when a block is entered. -/
theorem mem_inputState : decide (output ∈ (inputState states block).writtenOutputs) =
    arriving (fun _ => block.predecessors) (writtenBits output states) block.id := by
  have bits : block.predecessors.filterMap (writtenBits output states) =
      (block.predecessors.filterMap states).map fun state =>
        decide (output ∈ state.writtenOutputs) := by
    rw [List.map_filterMap]
    rfl
  unfold inputState arriving
  rw [bits]
  split
  next empty =>
    rw [List.isEmpty_iff.mp empty]
    rfl
  next =>
    cases block.predecessors.filterMap states with
    | nil => rfl
    | cons state others =>
        rw [Bool.eq_iff_iff]
        simp [mem_foldl_merge]

/-- A statement writes what it assigns. -/
theorem mem_applyNode (state : DataFlowState) (node : Node) :
    output ∈ (state.applyNode node).writtenOutputs ↔ output ∈ state.writtenOutputs ∨
      node.writesTo output = true := by
  cases node <;> simp [DataFlowState.applyNode, Node.writesTo, or_comm, eq_comm]

/-- Statements write what one of them assigns. -/
theorem mem_applyStatements (statements : List Nat) (state : DataFlowState) :
    output ∈ (applyStatements nodes statements state).writtenOutputs ↔
      output ∈ state.writtenOutputs ∨
      (statements.any fun idx => (nodes[idx]?).any (Node.writesTo output)) = true := by
  induction statements generalizing state with
  | nil => simp [applyStatements]
  | cons idx statements ih =>
      unfold applyStatements at ih ⊢
      rw [List.foldl_cons, ih, List.any_cons, Bool.or_eq_true]
      cases nodes[idx]? with
      | none => simp
      | some node => simp [mem_applyNode, or_assoc]

end States

section Sweeps

variable {nodes : List Node} {states : BlockStates} {output : String} {b : BlockId} {t : Nat}

/-- A block is visited as the vertex of its id. -/
theorem writtenBits_visitBlock {block : BasicBlock}
    (at_ : (CFG.build nodes).blocks[b]? = some block)
    (states : BlockStates × Bool) :
    writtenBits output (visitBlock nodes states block).1 =
      inspect (CFG.build nodes).preds ((CFG.build nodes).blockWrites nodes output)
        (writtenBits output states.1) block.id := by
  have here := CFG.build_id at_
  have preds : arriving (fun _ => block.predecessors) (writtenBits output states.1) block.id =
      arriving (CFG.build nodes).preds (writtenBits output states.1) block.id := by
    unfold arriving CFG.preds
    rw [here, at_]
  funext c
  unfold visitBlock inspect writtenBits
  by_cases same : c = block.id
  · subst same
    simp only [Function.update_self, Option.map_some, Option.some.injEq]
    have writes : (CFG.build nodes).blockWrites nodes output block.id =
        block.statements.any fun idx => (nodes[idx]?).any (Node.writesTo output) := by
      unfold CFG.blockWrites
      rw [here, at_]
    rw [writes]
    change _ = (_ || arriving (CFG.build nodes).preds (writtenBits output states.1) block.id)
    rw [← preds, ← mem_inputState, Bool.eq_iff_iff, decide_eq_true_iff, mem_applyStatements]
    simp [or_comm]
  · simp [same]

/-- A sweep over the blocks is a sweep over their bits. -/
theorem writtenBits_sweepBlocks : writtenBits output
    (sweepBlocks (CFG.build nodes) nodes states).1 =
    sweep (CFG.build nodes).preds ((CFG.build nodes).blockWrites nodes output)
      (CFG.build nodes).blocks.length
      (writtenBits output states) := by
  unfold sweepBlocks sweep
  rw [← CFG.build_ids, List.foldl_map]
  have folded : ∀ (blocks : List BasicBlock) (states : BlockStates × Bool),
      (∀ block ∈ blocks, block ∈ (CFG.build nodes).blocks) →
      writtenBits output (blocks.foldl (visitBlock nodes) states).1 =
        blocks.foldl (fun bits block => inspect (CFG.build nodes).preds
          ((CFG.build nodes).blockWrites nodes output)
          bits block.id) (writtenBits output states.1) := by
    intro blocks
    induction blocks with
    | nil => exact fun _ _ => rfl
    | cons block blocks ih =>
        intro states inside
        obtain ⟨i, at_⟩ := List.getElem?_of_mem (inside block List.mem_cons_self)
        rw [List.foldl_cons, List.foldl_cons, ih _ fun other member =>
          inside other (List.mem_cons_of_mem _ member),
          writtenBits_visitBlock at_]
  exact folded _ (states, false) fun _ member => member

/-- A sweep that changes nothing leaves every state. -/
theorem sweepBlocks_unchanged {cfg : CFG} (unchanged : (sweepBlocks cfg nodes states).2 = false) :
    (sweepBlocks cfg nodes states).1 = states := by
  have folded : ∀ (blocks : List BasicBlock) (states : BlockStates × Bool),
      (blocks.foldl (visitBlock nodes) states).2 = false →
        states.2 = false ∧ (blocks.foldl (visitBlock nodes) states).1 = states.1 := by
    intro blocks
    induction blocks with
    | nil => exact fun states same => ⟨same, rfl⟩
    | cons block blocks ih =>
        intro states same
        rw [List.foldl_cons] at same ⊢
        obtain ⟨quiet, rest⟩ := ih _ same
        rw [rest]
        simp only [visitBlock, Bool.or_eq_false_iff, decide_eq_false_iff_not, not_not] at quiet
        exact ⟨quiet.1, Function.update_eq_self_iff.mpr quiet.2.symm⟩
  exact (folded cfg.blocks (states, false) unchanged).2

/-- The sweeps that are left out change nothing. -/
theorem fixedPoint_eq (cfg : CFG) (iterations : Nat) :
    fixedPoint cfg nodes iterations states =
      (fun states => (sweepBlocks cfg nodes states).1)^[iterations] states := by
  induction iterations generalizing states with
  | zero => rfl
  | succ iterations ih =>
      rw [Function.iterate_succ_apply]
      unfold fixedPoint
      dsimp only
      split
      next => exact ih
      next unchanged =>
        have same := sweepBlocks_unchanged (by simpa using unchanged)
        rw [same, Function.iterate_fixed same]

/-- The sweeps of the code are the sweeps over bits. -/
theorem writtenBits_iterate : writtenBits output
    ((fun states => (sweepBlocks (CFG.build nodes) nodes states).1)^[t]
      fun b => if b = (CFG.build nodes).entry then some {} else none) =
    sweeps (CFG.build nodes).preds ((CFG.build nodes).blockWrites nodes output)
      (CFG.build nodes).blocks.length t := by
  induction t with
  | zero =>
      funext b
      unfold writtenBits sweeps
      by_cases first : b = 0 <;> simp [first, CFG.build]
  | succ t ih => rw [Function.iterate_succ_apply', writtenBits_sweepBlocks, ih, sweeps]

end Sweeps

section Reports

variable {nodes : List Node} {output : String} {outputs : Finset String} {states : BlockStates}
  {b p : BlockId}

/-- The report names what is not written at an exit. -/
theorem foldl_exitReport (exits : List BlockId) (result : DataFlowAnalysisResult) :
    (exits.foldl (exitReport outputs states) result).Reports output ↔ result.Reports output ∨
      output ∈ outputs ∧ ∃ exit ∈ exits, writtenBits output states exit = some false := by
  induction exits generalizing result with
  | nil => simp
  | cons exit exits ih =>
      have step : (exitReport outputs states result exit).Reports output ↔ result.Reports output ∨
          output ∈ outputs ∧ writtenBits output states exit = some false := by
        unfold exitReport writtenBits
        cases states exit with
        | none => simp
        | some state =>
            dsimp only [DataFlowAnalysisResult.Reports]
            split
            next => simp [or_and_right, exists_or]
            next empty =>
              have all : ∀ name ∈ outputs, name ∈ state.writtenOutputs := by
                simpa [Finset.not_nonempty_iff_eq_empty, Finset.sdiff_eq_empty_iff_subset,
                  Finset.subset_iff] using empty
              simp only [Option.map_some, Option.some.injEq, decide_eq_false_iff_not, iff_self_or]
              exact fun ⟨declared, missing⟩ => absurd (all output declared) missing
      rw [List.foldl_cons, ih, step, or_assoc, ← and_or_left]
      simp

/-- Predecessors are successors turned around. -/
theorem mem_preds_iff : p ∈ (CFG.build nodes).preds b ↔
    b < (CFG.build nodes).blocks.length ∧ b ∈ (CFG.build nodes).succ p := by
  unfold CFG.preds
  cases at_ : (CFG.build nodes).blocks[b]? with
  | none =>
      have beyond : (CFG.build nodes).blocks.length ≤ b := List.getElem?_eq_none_iff.mp at_
      simp [beyond.not_gt]
  | some block =>
      have inside := (List.getElem?_eq_some_iff.mp at_).1
      simp [CFG.mem_predecessors_iff at_, inside]

/-- The edges, seen from either end. -/
theorem mem_preds_iff_succ : p ∈ (CFG.build nodes).preds b ↔ b ∈ (CFG.build nodes).succ p := by
  rw [mem_preds_iff, and_iff_right_of_imp CFG.succ_lt]

/-- The pass reports an output when a clear bit reaches an exit in the last sweep. -/
theorem reports_iff_stale : (analyzeDataFlow (CFG.build nodes) nodes outputs).Reports output ↔
    output ∈ outputs ∧ ∃ exit ∈ (CFG.build nodes).exits,
      Stale (CFG.build nodes).preds ((CFG.build nodes).blockWrites nodes output) maxIterations
        exit := by
  unfold analyzeDataFlow
  dsimp only
  rw [foldl_exitReport, fixedPoint_eq, writtenBits_iterate]
  have silent : ¬ DataFlowAnalysisResult.Reports {} output := by
    simp [DataFlowAnalysisResult.Reports]
  rw [or_iff_right silent]
  refine and_congr_right fun _ => exists_congr fun exit => and_congr_right fun isExit => ?_
  refine sweeps_eq_false_iff (fun v p edge => ?_) (CFG.mem_exits_iff.mp isExit).1
  exact CFG.lt_of_succ (List.ne_nil_of_mem (mem_preds_iff_succ.mp edge))

/-- A walk over blocks that do not write the output. -/
def SilentWalk (nodes : List Node) (output : String) (source exit : BlockId)
    (path : List BlockId) : Prop :=
  Walk (fun a b => b ∈ (CFG.build nodes).succ a) source exit path ∧
    ∀ b ∈ path, (CFG.build nodes).blockWrites nodes output b = false

/-- What the sweeps follow to an exit: a walk that begins where no edge comes in and goes back
fewer than a thousand times, or one that begins at the entry, or where no edge comes in from an
earlier block, and goes back in all but the first of the thousand sweeps. -/
def Followed (nodes : List Node) (output : String) : Prop :=
  ∃ exit ∈ (CFG.build nodes).exits, ∃ source path, SilentWalk nodes output source exit path ∧
    Origin (CFG.build nodes).preds maxIterations source (retreats path)

/-- The pass reports the outputs that its sweeps leave unwritten. -/
theorem reports_iff_followed :
    (analyzeDataFlow (CFG.build nodes) nodes outputs).Reports output ↔
      output ∈ outputs ∧ Followed nodes output := by
  rw [reports_iff_stale]
  simp only [stale_iff, mem_preds_iff_succ, Followed, SilentWalk, and_assoc]

/-- A block writes what one of its statements writes. -/
theorem blockWrites_eq_false_iff {block : BasicBlock}
    (at_ : (CFG.build nodes).blocks[b]? = some block) :
    (CFG.build nodes).blockWrites nodes output b = false ↔
      ∀ idx ∈ block.statements, (nodes[idx]?).any (Node.writesTo output) = false := by
  unfold CFG.blockWrites
  rw [at_]
  simp

/-- Some enumerated path has no write to the output. -/
def PathWithout (nodes : List Node) (output : String) : Prop :=
  ∃ path ∈ (CFG.build nodes).allPaths, ∀ idx ∈ (CFG.build nodes).statementsOnPath path,
    (nodes[idx]?).any (Node.writesTo output) = false

/-- Blocks that do not write have no statement that does. -/
theorem silent_iff {path : List BlockId}
    (inside : ∀ b ∈ path, b < (CFG.build nodes).blocks.length) :
    (∀ b ∈ path, (CFG.build nodes).blockWrites nodes output b = false) ↔
      ∀ idx ∈ (CFG.build nodes).statementsOnPath path,
        (nodes[idx]?).any (Node.writesTo output) = false := by
  unfold CFG.statementsOnPath
  simp only [List.mem_flatMap, forall_exists_index, and_imp]
  constructor
  · intro quiet idx b member statement
    have at_ := List.getElem?_eq_getElem (inside b member)
    rw [at_] at statement
    exact (blockWrites_eq_false_iff at_).mp (quiet b member) idx statement
  · intro quiet b member
    have at_ := List.getElem?_eq_getElem (inside b member)
    refine (blockWrites_eq_false_iff at_).mpr fun idx statement => quiet idx b member ?_
    rwa [at_]

/-- The enumeration finds a path without a write when a walk from the entry has none. -/
theorem pathWithout_iff : PathWithout nodes output ↔ ∃ exit ∈ (CFG.build nodes).exits, ∃ path,
    SilentWalk nodes output (CFG.build nodes).entry exit path := by
  constructor
  · rintro ⟨path, listed, quiet⟩
    obtain ⟨exit, walk, stops, -⟩ := CFG.mem_allPaths_iff.mp listed
    have inside := CFG.walk_lt walk CFG.build_nonempty
    obtain ⟨front, visited⟩ := walk.last
    exact ⟨exit, CFG.mem_exits_iff.mpr ⟨inside exit (by simp [visited]), stops⟩, path, walk,
      (silent_iff inside).mpr quiet⟩
  · rintro ⟨exit, isExit, path, walk, quiet⟩
    obtain ⟨simple, walk, nodup, subset⟩ := walk.exists_simple
    have inside := CFG.walk_lt walk CFG.build_nonempty
    refine ⟨simple, CFG.mem_allPaths_iff.mpr
      ⟨exit, walk, (CFG.mem_exits_iff.mp isExit).2, nodup⟩, ?_⟩
    exact (silent_iff inside).mp fun b member => quiet b (subset member)

/-- The pass agrees with the enumeration on the outputs for which the walks from the entry without
a write lead to an exit just when the ones that the sweeps follow do. -/
theorem analyzeDataFlow_agrees_iff (nodes : List Node) (outputs : Finset String) :
    (∀ output ∈ outputs, ((analyzeDataFlow (CFG.build nodes) nodes outputs).Reports output ↔
      PathWithout nodes output)) ↔
      ∀ output ∈ outputs, (Followed nodes output ↔
        ∃ exit ∈ (CFG.build nodes).exits, ∃ path,
          SilentWalk nodes output (CFG.build nodes).entry exit path) := by
  refine forall₂_congr fun output declared => ?_
  rw [reports_iff_followed, pathWithout_iff, and_iff_right declared]

/-- The entry is a loop that is left before its write. -/
def loopedEntry : List Node :=
  [.label 1 "top", .branch 2 (.var "c") "done" "more", .label 3 "more", .set 4 "o" (.intLit 1),
    .jump 5 "top",
    .label 6 "done"]

/-- The pass over the blocks does not report an OUTPUT that one path leaves unassigned. -/
theorem analyzeDataFlow_misses :
    ¬ (analyzeDataFlow (CFG.build loopedEntry) loopedEntry {"o"}).Reports "o" ∧
    PathWithout loopedEntry "o" := by
  refine ⟨by decide +kernel, [0, 2], by decide +kernel, by decide +kernel⟩

/-- Blocks in an order that serves the sweeps: nothing leads back to the entry, every other block
has an edge from an earlier one, and the blocks are no more than the sweeps. -/
structure InSweepOrder (nodes : List Node) : Prop where
  entry : (CFG.build nodes).preds (CFG.build nodes).entry = []
  earlier : ∀ b < (CFG.build nodes).blocks.length, b ≠ (CFG.build nodes).entry →
    ∃ p ∈ (CFG.build nodes).preds b, p < b
  few : (CFG.build nodes).blocks.length ≤ maxIterations

/-- In such an order the pass and the enumeration agree. -/
theorem analyzeDataFlow_agrees (order : InSweepOrder nodes) {output : String}
    (declared : output ∈ outputs) :
    (analyzeDataFlow (CFG.build nodes) nodes outputs).Reports output ↔
      PathWithout nodes output := by
  rw [reports_iff_followed, pathWithout_iff, and_iff_right declared]
  constructor
  · rintro ⟨exit, isExit, source, path, ⟨walk, quiet⟩, origin⟩
    obtain ⟨later, rfl⟩ := walk.head
    have inside : source < (CFG.build nodes).blocks.length := by
      cases walk with
      | single => exact (CFG.mem_exits_iff.mp isExit).1
      | cons edge rest => exact CFG.lt_of_succ (List.ne_nil_of_mem edge)
    have first : source = (CFG.build nodes).entry := by
      by_contra other
      obtain ⟨p, edge, before⟩ := order.earlier source inside other
      rcases origin with ⟨none, -⟩ | ⟨rfl | late, -⟩
      · simp [none] at edge
      · exact other rfl
      · exact absurd (late p edge) (Nat.not_le.mpr before)
    exact ⟨exit, isExit, _, first ▸ walk, quiet⟩
  · rintro ⟨exit, isExit, path, walk, quiet⟩
    obtain ⟨simple, walk, nodup, subset⟩ := walk.exists_simple
    have inside := CFG.walk_lt walk CFG.build_nonempty
    refine ⟨exit, isExit, _, simple, ⟨walk, fun b member => quiet b (subset member)⟩,
      .inl ⟨order.entry, ?_⟩⟩
    have short : simple.length ≤ (CFG.build nodes).blocks.length := by
      have bounded := (List.subperm_of_subset nodup fun b member =>
        List.mem_range.mpr (inside b member)).length_le
      rwa [List.length_range] at bounded
    have most := retreats_le simple
    have some_ := List.length_pos_iff.mpr walk.ne_nil
    have few := order.few
    omega

end Reports

end Sigil
