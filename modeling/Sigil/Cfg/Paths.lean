import Sigil.Cfg.Connect
import Sigil.Cfg.Enumeration

/-!
# Paths of the graph and walks of the body

For a flat body, the paths `CFG.allPaths` enumerates are exactly the walks from
the first statement to the end that execute no statement twice.
-/

namespace Sigil

namespace CFG

/-- Index of the first statement of a block. -/
def start (cfg : CFG) (b : BlockId) : Nat :=
  ((cfg.blocks.take b).flatMap BasicBlock.statements).length

variable {nodes : List Node} {b c : BlockId} {block : BasicBlock}

section Layout

/-- The ids of the built blocks are their positions. -/
theorem build_id (at_ : (build nodes).blocks[b]? = some block) : block.id = b := by
  obtain ⟨plain, plainAt, same, _⟩ := build_blocks_getElem? at_
  have ids := (CFGBuilder.layout_firstPass nodes).ids
  have here := congrArg (fun xs => xs[b]?) ids
  have inRange := (List.getElem?_eq_some_iff.mp plainAt).1
  simp only [List.getElem?_map, plainAt, Option.map_some, List.getElem?_range inRange,
    Option.some.injEq] at here
  exact same.id.trans here

/-- A block is known by its position. -/
theorem build_ids : (build nodes).blocks.map BasicBlock.id = List.range (build nodes).blocks.length := by
  apply List.ext_getElem?
  intro i
  rw [List.getElem?_map]
  cases at_ : (build nodes).blocks[i]? with
  | none => simpa using at_
  | some block =>
      have inRange := (List.getElem?_eq_some_iff.mp at_).1
      rw [List.getElem?_range inRange, Option.map_some, build_id at_]

/-- Blocks of the first pass, seen through the built graph. -/
theorem build_blocks_of_firstPass {plain : BasicBlock}
    (at_ : (CFGBuilder.firstPass nodes).blocks[b]? = some plain) :
    ∃ block, (build nodes).blocks[b]? = some block ∧
      CFGBuilder.SameStatements plain block := by
  obtain ⟨connected, connectedAt, same, _⟩ := CFGBuilder.secondPass_getElem? at_
  exact ⟨connected, connectedAt, same⟩

/-- The second pass adds no block. -/
theorem build_length : (build nodes).blocks.length =
    (CFGBuilder.firstPass nodes).blocks.length := by
  simp [build]

/-- There is at least one block. -/
theorem build_nonempty : 0 < (build nodes).blocks.length := by
  rw [build_length]
  exact List.length_pos_iff.mpr (CFGBuilder.layout_firstPass nodes).nonempty

/-- The built blocks have the statements of the first pass. -/
theorem build_statements : (build nodes).blocks.map BasicBlock.statements =
    (CFGBuilder.firstPass nodes).blocks.map BasicBlock.statements := by
  apply List.ext_getElem?
  intro i
  simp only [List.getElem?_map]
  cases at_ : (build nodes).blocks[i]? with
  | none =>
      have beyond : (CFGBuilder.firstPass nodes).blocks[i]? = none := by
        rw [List.getElem?_eq_none_iff] at at_ ⊢
        rwa [← build_length]
      rw [beyond]
  | some block =>
      obtain ⟨plain, plainAt, same, _⟩ := build_blocks_getElem? at_
      simp [plainAt, same.statements]

/-- The built blocks tile the statement list. -/
theorem build_tiles (nodes : List Node) : (build nodes).blocks.flatMap BasicBlock.statements =
    List.range nodes.length := by
  rw [← (CFGBuilder.layout_firstPass nodes).tiles, List.flatMap_def, List.flatMap_def,
    build_statements]

/-- A piece of an initial segment of the naturals is an interval. -/
theorem eq_range'_of_append {front piece back : List Nat} {n : Nat}
    (split : front ++ (piece ++ back) = List.range n) :
    piece = List.range' front.length piece.length := by
  have total := congrArg List.length split
  simp only [List.length_append, List.length_range] at total
  have taken := congrArg (fun xs => (xs.drop front.length).take piece.length) split
  rw [List.range_eq_range'] at taken
  simp only [List.drop_left, List.take_left, List.drop_range', Nat.mul_one, Nat.zero_add] at taken
  rwa [List.take_range'_of_length_ge (by omega)] at taken

/-- The statements of a block are consecutive. -/
theorem statements_eq (at_ : (build nodes).blocks[b]? = some block) :
    block.statements = List.range' ((build nodes).start b) block.statements.length := by
  obtain ⟨inRange, rfl⟩ := List.getElem?_eq_some_iff.mp at_
  have pieces := List.take_append_drop b (build nodes).blocks
  rw [List.drop_eq_getElem_cons inRange] at pieces
  have tiles := build_tiles nodes
  rw [← pieces, List.flatMap_append, List.flatMap_cons] at tiles
  exact eq_range'_of_append tiles

/-- The block after a block starts where it ends. -/
theorem start_succ (at_ : (build nodes).blocks[b]? = some block) :
    (build nodes).start (b + 1) = (build nodes).start b + block.statements.length := by
  simp [start, List.take_add_one, at_]

@[simp] theorem start_zero (cfg : CFG) : cfg.start 0 = 0 := by simp [start]

/-- The last block ends where the body ends. -/
theorem start_length (nodes : List Node) : (build nodes).start (build nodes).blocks.length = nodes.length := by
  simp [start, build_tiles]

/-- Every block starts in the body. -/
theorem start_le_length (nodes : List Node) (b : BlockId) : (build nodes).start b ≤ nodes.length := by
  have whole := congrArg List.length (build_tiles nodes)
  rw [← List.take_append_drop b (build nodes).blocks, List.flatMap_append, List.length_append,
    List.length_range] at whole
  rw [start]
  omega

end Layout

section Edges

/-- A label leads to the start of the block it is mapped to. -/
theorem labelIndex_of_lookup (body : FlatBody nodes) {name : String}
    (found : (CFGBuilder.firstPass nodes).labelToBlock.lookup name = some b) :
    labelIndex nodes name = some ((build nodes).start b) := by
  obtain ⟨plain, idx, node, plainAt, first, at_, isLabel⟩ :=
    (CFGBuilder.layout_firstPass nodes).labelled name b found
  obtain ⟨block, blockAt, same⟩ := build_blocks_of_firstPass plainAt
  rw [← same.statements, statements_eq blockAt, List.head?_range'] at first
  have startsHere : (build nodes).start b = idx := by
    split at first <;> simp_all
  rw [startsHere]
  exact body.labelIndex_eq_some_iff.mpr ⟨node, at_, isLabel⟩

/-- The target of a JUMP or BRANCH is mapped to a block. -/
theorem lookup_target (body : FlatBody nodes) {node : Node} {name : String} {i : Nat}
    (at_ : nodes[i]? = some node) (target : name ∈ node.jumpTargets) :
    ∃ id, (CFGBuilder.firstPass nodes).labelToBlock.lookup name = some id ∧
      labelIndex nodes name = some ((build nodes).start id) := by
  obtain ⟨j, found⟩ := body.target_defined at_ target
  obtain ⟨label, labelAt, isLabel⟩ := body.labelIndex_eq_some_iff.mp found
  obtain ⟨id, lookup⟩ := (CFGBuilder.layout_firstPass nodes).complete j label labelAt name isLabel
  exact ⟨id, lookup, labelIndex_of_lookup body lookup⟩

/-- Index of the last statement of a block. -/
def last (cfg : CFG) (b : BlockId) : Nat := cfg.start (b + 1) - 1

/-- The last statement of a block ends it the way its terminator says. -/
theorem last_ends (at_ : (build nodes).blocks[b]? = some block) (filled : block.statements ≠ []) :
    ∃ node, nodes[(build nodes).last b]? = some node ∧ node.endsAs block.terminator := by
  have layout := CFGBuilder.layout_firstPass nodes
  obtain ⟨plain, plainAt, same, _⟩ := build_blocks_getElem? at_
  have positive := List.length_pos_iff.mpr filled
  have isLast : plain.statements.getLast? = some ((build nodes).last b) := by
    rw [← same.statements, statements_eq at_, List.getLast?_range']
    simp only [last, start_succ at_]
    rw [if_neg (by omega)]
  have inBody : (build nodes).last b ∈ List.range nodes.length := by
    rw [← layout.tiles]
    exact List.mem_flatMap.mpr ⟨plain, List.mem_of_getElem? plainAt,
      List.mem_of_getLast? isLast⟩
  refine ⟨_, List.getElem?_eq_getElem (List.mem_range.mp inBody), ?_⟩
  rw [same.terminator]
  exact (layout.shapes plain (List.mem_of_getElem? plainAt)).ends _ isLast _
    (List.getElem?_eq_getElem (List.mem_range.mp inBody))

/-- A block that falls through leads to the block after it. -/
theorem successors_of_fallthrough (at_ : (build nodes).blocks[b]? = some block)
    (falls : block.terminator = .fallthrough) : block.successors = [b + 1] := by
  obtain ⟨plain, plainAt, same, successors⟩ := build_blocks_getElem? at_
  rw [same.terminator] at falls
  have next := (CFGBuilder.layout_firstPass nodes).fallsThrough b plain plainAt falls
  have followingAt := List.getElem?_eq_getElem next
  obtain ⟨built, builtAt, builtSame⟩ := build_blocks_of_firstPass followingAt
  have id := builtSame.id.symm.trans (build_id builtAt)
  rw [successors, falls, CFGBuilder.targets, if_pos next, followingAt]
  simp [id]

/-- A block that returns is the last block, and leads nowhere. -/
theorem successors_of_return (at_ : (build nodes).blocks[b]? = some block)
    (returns : block.terminator = .return) :
    block.successors = [] ∧ (build nodes).start (b + 1) = nodes.length := by
  obtain ⟨plain, plainAt, same, successors⟩ := build_blocks_getElem? at_
  rw [same.terminator] at returns
  have atEnd := (CFGBuilder.layout_firstPass nodes).returns b plain plainAt returns
  refine ⟨by rw [successors, returns, CFGBuilder.targets], ?_⟩
  rw [atEnd, ← build_length, start_length]

/-- A block that jumps or branches leads to the blocks of its labels. -/
theorem successors_of_transfer (body : FlatBody nodes)
    (at_ : (build nodes).blocks[b]? = some block) {node : Node} {i : Nat}
    (nodeAt : nodes[i]? = some node) (transfers : node.transfers = true)
    (ends : node.endsAs block.terminator) :
    next nodes i = block.successors.map (build nodes).start ∧ block.isExit = false := by
  obtain ⟨plain, plainAt, same, successors⟩ := build_blocks_getElem? at_
  cases node with
  | jump line target =>
      obtain ⟨id, lookup, leads⟩ := lookup_target body nodeAt
        (show target ∈ Node.jumpTargets (.jump line target) by simp [Node.jumpTargets])
      rw [Node.endsAs] at ends
      have successors : block.successors = [id] := by
        rw [successors, ← same.terminator, ends, CFGBuilder.targets, lookup, Option.toList]
      simp [next, nodeAt, leads, successors, BasicBlock.isExit, ends]
  | branch line condition trueLabel falseLabel =>
      obtain ⟨trueId, trueLookup, trueLeads⟩ := lookup_target body nodeAt
        (show trueLabel ∈ Node.jumpTargets (.branch line condition trueLabel falseLabel) by
          simp [Node.jumpTargets])
      obtain ⟨falseId, falseLookup, falseLeads⟩ :=
        lookup_target body nodeAt
        (show falseLabel ∈ Node.jumpTargets (.branch line condition trueLabel falseLabel) by
          simp [Node.jumpTargets])
      rw [Node.endsAs] at ends
      have successors : block.successors = [trueId, falseId] := by
        rw [successors, ← same.terminator, ends, CFGBuilder.targets, trueLookup, falseLookup]
        rfl
      simp [next, nodeAt, trueLeads, falseLeads, successors, BasicBlock.isExit, ends]
  | _ => simp [Node.transfers] at transfers

/-- Control leaves a block to the starts of its successors, or to the end when
the block is an exit. -/
theorem mem_next_last_iff (body : FlatBody nodes)
    (at_ : (build nodes).blocks[b]? = some block) (filled : block.statements ≠ []) {j : Nat} :
    j ∈ next nodes ((build nodes).last b) ↔
      (∃ c ∈ block.successors, (build nodes).start c = j) ∨
        (block.isExit = true ∧ j = nodes.length) := by
  obtain ⟨node, nodeAt, ends⟩ := last_ends at_ filled
  have positive := List.length_pos_iff.mpr filled
  have following : (build nodes).last b + 1 = (build nodes).start (b + 1) := by
    rw [last, start_succ at_]
    omega
  cases transfers : node.transfers with
  | true =>
      obtain ⟨leads, noExit⟩ := successors_of_transfer body at_ nodeAt transfers ends
      simp [leads, noExit]
  | false =>
      rw [FlatBody.next_of_not_transfers nodeAt transfers, List.mem_singleton, following]
      rcases Node.ends_of_not_transfers transfers ends with falls | returns
      · have leads := successors_of_fallthrough at_ falls
        simp [BasicBlock.isExit, leads, falls, eq_comm]
      · obtain ⟨leads, atEnd⟩ := successors_of_return at_ returns
        simp [BasicBlock.isExit, leads, atEnd]

/-- Inside a block control falls from statement to statement. -/
theorem next_inner (at_ : (build nodes).blocks[b]? = some block) {i : Nat}
    (from_ : (build nodes).start b ≤ i) (before : i < (build nodes).last b) :
    next nodes i = [i + 1] := by
  have layout := CFGBuilder.layout_firstPass nodes
  obtain ⟨plain, plainAt, same, _⟩ := build_blocks_getElem? at_
  have member := List.mem_of_getElem? plainAt
  have inner : i ∈ plain.statements.dropLast := by
    rw [last, start_succ at_] at before
    rw [← same.statements, statements_eq at_, List.dropLast_eq_take,
      List.take_range'_of_length_ge (by simp), List.mem_range'_1, List.length_range']
    omega
  have inBody : i ∈ List.range nodes.length := by
    rw [← layout.tiles]
    exact List.mem_flatMap.mpr ⟨plain, member, List.mem_of_mem_dropLast inner⟩
  have nodeAt := List.getElem?_eq_getElem (List.mem_range.mp inBody)
  exact FlatBody.next_of_not_transfers nodeAt ((layout.shapes plain member).inner i inner _ nodeAt)

end Edges

section Straight

variable {s m t : Nat} {visited : List Nat}

/-- Straight-line control is a walk. -/
theorem walk_straight (nodes : List Node) (s m : Nat)
    (straight : ∀ i, s ≤ i → i < s + m → next nodes i = [i + 1]) :
    ControlWalk nodes s (s + m) (List.range' s (m + 1)) := by
  induction m generalizing s with
  | zero => exact .single s
  | succ m ih =>
      have step : s + 1 ∈ next nodes s := by simp [straight s le_rfl (by omega)]
      have rest := ih (s + 1) fun i from_ before => straight i (by omega) (by omega)
      rw [List.range'_succ, show s + (m + 1) = s + 1 + m by omega]
      exact .cons step rest

/-- A walk that leaves straight-line control has run through it. -/
theorem straight_of_walk (straight : ∀ i, s ≤ i → i < s + m → next nodes i = [i + 1])
    (walk : ControlWalk nodes s t visited) (beyond : s + m < t) :
    ∃ rest, visited = List.range' s (m + 1) ++ rest ∧
      ∃ j ∈ next nodes (s + m), ControlWalk nodes j t rest := by
  induction m generalizing s visited with
  | zero =>
      cases walk with
      | single => omega
      | cons step rest => exact ⟨_, rfl, _, step, rest⟩
  | succ m ih =>
      cases walk with
      | single => omega
      | cons step rest =>
          rw [straight s le_rfl (by omega), List.mem_singleton] at step
          subst step
          obtain ⟨later, rfl, j, leaves, follows⟩ := ih
            (fun i from_ before => straight i (by omega) (by omega)) rest (by omega)
          refine ⟨later, by rw [List.range'_succ]; rfl, j, ?_, follows⟩
          rwa [Nat.add_assoc, Nat.add_comm 1] at leaves

/-- Nothing follows the end of the body. -/
theorem walk_from_end (walk : ControlWalk nodes nodes.length t visited) :
    visited = [nodes.length] := by
  cases walk with
  | single => rfl
  | cons step _ => simp [next] at step

end Straight

section Simulation

/-- Every block of a body with statements has statements. -/
theorem filled (someNodes : nodes ≠ []) (at_ : (build nodes).blocks[b]? = some block) :
    block.statements ≠ [] := by
  obtain ⟨plain, plainAt, same, _⟩ := build_blocks_getElem? at_
  rw [same.statements]
  exact (CFGBuilder.layout_firstPass nodes).filled someNodes plain (List.mem_of_getElem? plainAt)

/-- A block runs from its start to its last statement. -/
theorem walk_block (someNodes : nodes ≠ []) (at_ : (build nodes).blocks[b]? = some block) :
    ControlWalk nodes ((build nodes).start b) ((build nodes).last b) block.statements := by
  have positive := List.length_pos_iff.mpr (filled someNodes at_)
  have ends : (build nodes).last b =
      (build nodes).start b + (block.statements.length - 1) := by
    rw [last, start_succ at_]
    omega
  have walk := walk_straight nodes ((build nodes).start b) (block.statements.length - 1)
    fun i from_ before => next_inner at_ from_ (by omega)
  rw [ends, statements_eq at_, List.length_range']
  rwa [Nat.sub_add_cancel positive] at walk

/-- What has a successor is a block. -/
theorem lt_of_succ (some_ : (build nodes).succ b ≠ []) : b < (build nodes).blocks.length := by
  by_contra beyond
  apply some_
  unfold succ
  rw [List.getElem?_eq_none (Nat.le_of_not_lt beyond)]

/-- The blocks a block leads to exist. -/
theorem succ_lt (edge : c ∈ (build nodes).succ b) : c < (build nodes).blocks.length := by
  unfold succ at edge
  split at edge
  next block at_ =>
    obtain ⟨plain, plainAt, same, successors⟩ := build_blocks_getElem? at_
    have layout := CFGBuilder.layout_firstPass nodes
    have mapped : ∀ name, (CFGBuilder.firstPass nodes).labelToBlock.lookup name = some c →
        c < (CFGBuilder.firstPass nodes).blocks.length := by
      intro name lookup
      obtain ⟨_, _, _, here, _⟩ := layout.labelled name c lookup
      exact (List.getElem?_eq_some_iff.mp here).1
    rw [build_length]
    cases terminator : plain.terminator with
    | fallthrough =>
        have leads := successors_of_fallthrough at_ (same.terminator.trans terminator)
        have next := layout.fallsThrough b plain plainAt terminator
        rw [leads, List.mem_singleton] at edge
        rwa [edge]
    | jump target =>
        rw [successors, terminator, CFGBuilder.targets, Option.mem_toList] at edge
        exact mapped target edge
    | branch trueLabel falseLabel =>
        rw [successors, terminator, CFGBuilder.targets, List.mem_append, Option.mem_toList,
          Option.mem_toList] at edge
        exact edge.elim (mapped trueLabel) (mapped falseLabel)
    | «return» => simp [successors, terminator, CFGBuilder.targets] at edge
  next => simp at edge

/-- A walk from an existing block visits existing blocks. -/
theorem walk_lt {exit : BlockId} {path : List BlockId}
    (walk : Flow.Walk (fun a b => b ∈ (build nodes).succ a) b exit path)
    (inRange : b < (build nodes).blocks.length) :
    ∀ c ∈ path, c < (build nodes).blocks.length := by
  induction walk with
  | single b => simpa using inRange
  | cons edge rest ih => simpa [inRange] using ih (succ_lt edge)

/-- An exit is one by its block. -/
theorem isExit_eq {cfg : CFG} (at_ : cfg.blocks[b]? = some block) :
    cfg.isExit b = block.isExit := by
  simp [isExit, at_]

/-- The statements of a path are those of its blocks. -/
theorem statementsOnPath_cons {cfg : CFG} (at_ : cfg.blocks[b]? = some block)
    (path : List BlockId) :
    cfg.statementsOnPath (b :: path) = block.statements ++ cfg.statementsOnPath path := by
  simp [statementsOnPath, at_]

/-- A walk over blocks is a walk over their statements. -/
theorem controlWalk_of_walk (body : FlatBody nodes) (someNodes : nodes ≠ []) {exit : BlockId}
    {path : List BlockId} (walk : Flow.Walk (fun a b => b ∈ (build nodes).succ a) b exit path)
    (inRange : b < (build nodes).blocks.length) (stops : (build nodes).isExit exit = true) :
    ControlWalk nodes ((build nodes).start b) nodes.length
      ((build nodes).statementsOnPath path ++ [nodes.length]) := by
  induction walk with
  | single b =>
      have at_ := List.getElem?_eq_getElem inRange
      rw [isExit_eq at_] at stops
      have leaves := (mem_next_last_iff body at_ (filled someNodes at_)).mpr
        (.inr ⟨stops, rfl⟩)
      rw [statementsOnPath_cons at_]
      simpa [statementsOnPath] using (walk_block someNodes at_).snoc leaves
  | @cons b c exit path edge rest ih =>
      have at_ := List.getElem?_eq_getElem inRange
      have follows := ih (succ_lt edge) stops
      rw [succ_eq at_] at edge
      have leaves := (mem_next_last_iff body at_ (filled someNodes at_)).mpr
        (.inl ⟨c, edge, rfl⟩)
      have block := (walk_block someNodes at_).snoc leaves
      obtain ⟨later, same⟩ := follows.head
      rw [statementsOnPath_cons at_, List.append_assoc, same]
      exact block.append (same ▸ follows)

/-- A walk over statements to the end is a walk over blocks to an exit. -/
theorem walk_of_controlWalk (body : FlatBody nodes) (someNodes : nodes ≠ [])
    {visited : List Nat}
    (walk : ControlWalk nodes ((build nodes).start b) nodes.length visited)
    (inRange : b < (build nodes).blocks.length) :
    ∃ exit path, Flow.Walk (fun a b => b ∈ (build nodes).succ a) b exit path ∧
      (build nodes).isExit exit = true ∧
      (build nodes).statementsOnPath path ++ [nodes.length] = visited := by
  induction size : visited.length using Nat.strong_induction_on generalizing b visited with
  | _ size ih =>
      subst size
      have at_ := List.getElem?_eq_getElem inRange
      have positive := List.length_pos_iff.mpr (filled someNodes at_)
      have step := start_succ at_
      have ends : (build nodes).last b =
          (build nodes).start b + ((build nodes).blocks[b].statements.length - 1) := by
        rw [last, step]
        omega
      have beyond := start_le_length nodes (b + 1)
      obtain ⟨rest, rfl, j, leaves, follows⟩ := straight_of_walk
        (fun i from_ before => next_inner at_ from_ (ends ▸ before)) walk (by omega)
      rw [← ends] at leaves
      rw [Nat.sub_add_cancel positive, ← statements_eq at_] at ih ⊢
      rcases (mem_next_last_iff body at_ (filled someNodes at_)).mp leaves with
        ⟨c, edge, rfl⟩ | ⟨stops, rfl⟩
      · rw [← succ_eq at_] at edge
        obtain ⟨exit, path, blocks, stops, rfl⟩ := ih _ (by simp; omega) follows (succ_lt edge) rfl
        exact ⟨exit, b :: path, .cons edge blocks, stops, by
          rw [statementsOnPath_cons at_, List.append_assoc]⟩
      · obtain rfl := walk_from_end follows
        exact ⟨b, [b], .single b, by rw [isExit_eq at_, stops], by
          rw [statementsOnPath_cons at_]
          simp [statementsOnPath]⟩

end Simulation

end CFG

end Sigil
