import Sigil.Cfg.Control

/-!
# What the first pass builds

The blocks of `CFGBuilder.firstPass` tile the statement list in order, only the
last statement of a block transfers control, its terminator says how, and every
label is mapped to the block its LABEL statement begins.
-/

namespace Sigil

/-- A statement ends a block the way a terminator says. -/
def Node.endsAs : Node → Terminator → Prop
  | .jump _ target, terminator => terminator = .jump target
  | .branch _ _ trueLabel falseLabel, terminator => terminator = .branch trueLabel falseLabel
  | _, terminator => terminator = .fallthrough ∨ terminator = .return

/-- A statement that goes on to the next ends a block like the end of the body. -/
theorem Node.endsAs_of_not_transfers {node : Node} (plain : node.transfers = false)
    {terminator : Terminator} (ends : terminator = .fallthrough ∨ terminator = .return) :
    node.endsAs terminator := by
  cases node <;> simp_all [Node.endsAs, Node.transfers]

/-- A block behind such a statement falls through or returns. -/
theorem Node.ends_of_not_transfers {node : Node} (plain : node.transfers = false)
    {terminator : Terminator} (ends : node.endsAs terminator) :
    terminator = .fallthrough ∨ terminator = .return := by
  cases node <;> simp_all [Node.endsAs, Node.transfers]

/-- Only the last statement of a block transfers control, as its terminator says. -/
structure BlockShape (nodes : List Node) (block : BasicBlock) : Prop where
  inner : ∀ idx ∈ block.statements.dropLast, ∀ node, nodes[idx]? = some node →
    node.transfers = false
  ends : ∀ idx, block.statements.getLast? = some idx → ∀ node, nodes[idx]? = some node →
    node.endsAs block.terminator

namespace CFGBuilder

/-- The first statement of a block, the one being filled included. -/
def headOf (builder : CFGBuilder) (id : BlockId) : Option Nat :=
  ((builder.blocks ++ [builder.currentBlock])[id]?).bind fun block => block.statements.head?

/-- The head of a block is that of a finished block or of the current one. -/
theorem headOf_eq_some_iff {builder : CFGBuilder} {id : BlockId} {idx : Nat} :
    builder.headOf id = some idx ↔
      (∃ block, builder.blocks[id]? = some block ∧ block.statements.head? = some idx) ∨
        (id = builder.blocks.length ∧ builder.currentBlock.statements.head? = some idx) := by
  rcases Nat.lt_trichotomy id builder.blocks.length with before | rfl | after
  · have same : (builder.blocks ++ [builder.currentBlock])[id]? = builder.blocks[id]? :=
      List.getElem?_append_left before
    simp [headOf, same, Option.bind_eq_some_iff, before.ne]
  · simp [headOf]
  · have pastAll : (builder.blocks ++ [builder.currentBlock])[id]? = none := by simpa using after
    have pastFinished : builder.blocks[id]? = none := by simpa using after.le
    simp [headOf, pastAll, pastFinished, after.ne']

/-- What holds of the builder after `k` statements. -/
structure Inv (nodes : List Node) (k : Nat) (builder : CFGBuilder) : Prop where
  ids : builder.blocks.map BasicBlock.id = List.range builder.blocks.length
  nextId : builder.nextId = builder.blocks.length
  tiles : builder.blocks.flatMap BasicBlock.statements ++ builder.currentBlock.statements =
    List.range k
  filled : ∀ block ∈ builder.blocks, block.statements ≠ []
  shapes : ∀ block ∈ builder.blocks, BlockShape nodes block
  unconnected : ∀ block ∈ builder.blocks ++ [builder.currentBlock], block.successors = []
  noReturn : ∀ block ∈ builder.blocks, block.terminator ≠ .return
  labelled : ∀ name id, builder.labelToBlock.lookup name = some id → ∃ idx node,
    builder.headOf id = some idx ∧ nodes[idx]? = some node ∧ node.labelName? = some name
  complete : ∀ idx < k, ∀ node, nodes[idx]? = some node → ∀ name,
    node.labelName? = some name → ∃ id, builder.labelToBlock.lookup name = some id
  current : ∀ name, builder.currentBlock.label = some name →
    builder.labelToBlock.lookup name = some builder.nextId

/-- No statement of the current block transfers control. -/
def Open (nodes : List Node) (builder : CFGBuilder) : Prop :=
  ∀ idx ∈ builder.currentBlock.statements, ∀ node, nodes[idx]? = some node →
    node.transfers = false

/-- A last block that falls through has a next block to fall into. -/
def Continues (builder : CFGBuilder) : Prop :=
  ∀ block, builder.blocks.getLast? = some block → block.terminator = .fallthrough →
    builder.currentBlock.statements ≠ []

/-- The invariant holds of the empty builder. -/
theorem inv_empty (nodes : List Node) : Inv nodes 0 {} where
  ids := rfl
  nextId := rfl
  tiles := rfl
  filled := by simp
  shapes := by simp
  unconnected := by simp
  noReturn := by simp
  labelled := by simp
  complete := by simp
  current := by simp

section Step

variable {nodes : List Node} {k : Nat} {builder : CFGBuilder} {node : Node} {name : String}

/-- Looking up any label after re-registering the current one changes nothing. -/
theorem lookup_finishBlock (inv : Inv nodes k builder) (terminator : Terminator) :
    (builder.finishBlock terminator).labelToBlock.lookup name =
      builder.labelToBlock.lookup name := by
  unfold finishBlock
  cases label : builder.currentBlock.label with
  | none => simp
  | some current =>
      by_cases same : name = current
      · subst same
        simp [inv.current name label]
      · simp [AList.lookup_insert_ne same]

/-- Closing a well-shaped block keeps the invariant. -/
theorem inv_finishBlock (inv : Inv nodes k builder) {terminator : Terminator}
    (nonempty : builder.currentBlock.statements ≠ [])
    (shape : BlockShape nodes { builder.currentBlock with
      id := builder.nextId, terminator := terminator })
    (notReturn : terminator ≠ .return) : Inv nodes k (builder.finishBlock terminator) where
  ids := by simp [finishBlock, inv.ids, inv.nextId, List.range_succ]
  nextId := by simp [finishBlock, inv.nextId]
  tiles := by simpa [finishBlock] using inv.tiles
  filled := by
    intro block member
    rcases List.mem_append.mp member with old | new
    · exact inv.filled block old
    · obtain rfl := List.mem_singleton.mp new
      exact nonempty
  shapes := by
    intro block member
    rcases List.mem_append.mp member with old | new
    · exact inv.shapes block old
    · obtain rfl := List.mem_singleton.mp new
      exact shape
  unconnected := by
    have currentUnconnected := inv.unconnected builder.currentBlock (by simp)
    intro block member
    simp only [finishBlock, List.append_assoc, List.mem_append, List.mem_cons,
      List.not_mem_nil, or_false] at member
    rcases member with old | rfl | rfl
    · exact inv.unconnected block (by simp [old])
    · exact currentUnconnected
    · rfl
  noReturn := by
    intro block member
    rcases List.mem_append.mp member with old | new
    · exact inv.noReturn block old
    · obtain rfl := List.mem_singleton.mp new
      exact notReturn
  labelled := by
    intro name id found
    rw [lookup_finishBlock inv] at found
    obtain ⟨idx, node, head, at_, isLabel⟩ := inv.labelled name id found
    refine ⟨idx, node, headOf_eq_some_iff.mpr (.inl ?_), at_, isLabel⟩
    rcases headOf_eq_some_iff.mp head with ⟨block, here, first⟩ | ⟨rfl, first⟩
    · have bound := (List.getElem?_eq_some_iff.mp here).1
      exact ⟨block, by simp [finishBlock, List.getElem?_append_left bound, here], first⟩
    · exact ⟨{ builder.currentBlock with id := builder.nextId, terminator := terminator },
        by simp [finishBlock], first⟩
  complete := by
    intro idx before node at_ name isLabel
    rw [lookup_finishBlock inv]
    exact inv.complete idx before node at_ name isLabel
  current := by simp [finishBlock]

/-- Pushing a statement that is no LABEL keeps the invariant. -/
theorem inv_push (inv : Inv nodes k builder) (at_ : nodes[k]? = some node)
    (noLabel : node.labelName? = none) : Inv nodes (k + 1) (builder.push k) where
  ids := inv.ids
  nextId := inv.nextId
  tiles := by simp [push, ← List.append_assoc, inv.tiles, List.range_succ]
  filled := inv.filled
  shapes := inv.shapes
  unconnected := by
    have currentUnconnected := inv.unconnected builder.currentBlock (by simp)
    intro block member
    rcases List.mem_append.mp member with old | new
    · exact inv.unconnected block (List.mem_append_left _ old)
    · obtain rfl := List.mem_singleton.mp new
      exact currentUnconnected
  noReturn := inv.noReturn
  labelled := by
    intro name id found
    obtain ⟨idx, node, head, idxAt, isLabel⟩ := inv.labelled name id found
    refine ⟨idx, node, headOf_eq_some_iff.mpr ?_, idxAt, isLabel⟩
    rcases headOf_eq_some_iff.mp head with finished | ⟨rfl, first⟩
    · exact .inl finished
    · exact .inr ⟨rfl, by simp [push, List.head?_append, first]⟩
  complete := by
    intro idx before other otherAt name isLabel
    rcases Nat.lt_succ_iff_lt_or_eq.mp before with earlier | rfl
    · exact inv.complete idx earlier other otherAt name isLabel
    · obtain rfl : node = other := by simpa [at_] using otherAt
      simp [noLabel] at isLabel
  current := inv.current

/-- Starting an empty block at its LABEL keeps the invariant. -/
theorem inv_label (inv : Inv nodes k builder) (at_ : nodes[k]? = some node)
    (isLabel : node.labelName? = some name) (fresh : builder.currentBlock.statements = []) :
    Inv nodes (k + 1) (push { builder with
      currentBlock := { builder.currentBlock with label := some name }
      labelToBlock := builder.labelToBlock.insert name builder.nextId } k) where
  ids := inv.ids
  nextId := inv.nextId
  tiles := by simp [push, ← List.append_assoc, inv.tiles, List.range_succ]
  filled := inv.filled
  shapes := inv.shapes
  unconnected := by
    have currentUnconnected := inv.unconnected builder.currentBlock (by simp)
    intro block member
    rcases List.mem_append.mp member with old | new
    · exact inv.unconnected block (List.mem_append_left _ old)
    · obtain rfl := List.mem_singleton.mp new
      exact currentUnconnected
  noReturn := inv.noReturn
  labelled := by
    intro other id found
    by_cases same : other = name
    · subst same
      simp only [push, AList.lookup_insert, Option.some.injEq] at found
      subst found
      exact ⟨k, node, by simp [headOf, push, inv.nextId, fresh], at_, isLabel⟩
    · simp only [push, AList.lookup_insert_ne same] at found
      obtain ⟨idx, label, head, idxAt, named⟩ := inv.labelled other id found
      refine ⟨idx, label, headOf_eq_some_iff.mpr ?_, idxAt, named⟩
      rcases headOf_eq_some_iff.mp head with finished | ⟨_, first⟩
      · exact .inl finished
      · -- the current block is empty, so no label can already point at it
        simp [fresh] at first
  complete := by
    intro idx before other otherAt otherName named
    by_cases same : otherName = name
    · subst same
      exact ⟨builder.nextId, by simp [push]⟩
    · rcases Nat.lt_succ_iff_lt_or_eq.mp before with earlier | rfl
      · simpa [push, AList.lookup_insert_ne same] using
          inv.complete idx earlier other otherAt otherName named
      · obtain rfl : node = other := by simpa [at_] using otherAt
        simp_all
  current := by
    intro other labelled
    simp only [push, Option.some.injEq] at labelled ⊢
    simp [labelled]

/-- An open current block can be closed by a fallthrough or a return. -/
theorem shape_of_open (isOpen : Open nodes builder) {terminator : Terminator}
    (ends : terminator = .fallthrough ∨ terminator = .return) :
    BlockShape nodes { builder.currentBlock with
      id := builder.nextId, terminator := terminator } where
  inner := fun idx member => isOpen idx (List.mem_of_mem_dropLast member)
  ends := fun idx last node at_ =>
    node.endsAs_of_not_transfers (isOpen idx (List.mem_of_getLast? last) node at_) ends

/-- An open current block can be closed by pushing the statement that transfers. -/
theorem shape_of_push (isOpen : Open nodes builder) (at_ : nodes[k]? = some node)
    {terminator : Terminator} (ends : node.endsAs terminator) :
    BlockShape nodes { (builder.push k).currentBlock with
      id := builder.nextId, terminator := terminator } where
  inner := by
    intro idx member
    exact isOpen idx (by simpa [push] using member)
  ends := by
    intro idx last other otherAt
    simp only [push, List.getLast?_concat, Option.some.injEq] at last
    subst last
    obtain rfl : node = other := by simpa [at_] using otherAt
    exact ends

/-- A statement that goes on leaves the block open. -/
theorem open_push (isOpen : Open nodes builder) (at_ : nodes[k]? = some node)
    (plain : node.transfers = false) : Open nodes (builder.push k) := by
  intro idx member other otherAt
  simp only [push, List.mem_append, List.mem_singleton] at member
  rcases member with old | rfl
  · exact isOpen idx old other otherAt
  · obtain rfl : node = other := by simpa [at_] using otherAt
    exact plain

/-- Behind a finished block there is a new one. -/
theorem open_finishBlock (terminator : Terminator) :
    Open nodes (builder.finishBlock terminator) := by
  simp [Open, finishBlock]

/-- Starting a label in an empty block only names it. -/
theorem startLabel_of_empty (fresh : builder.currentBlock.statements = []) :
    builder.startLabel name = { builder with
      currentBlock := { builder.currentBlock with label := some name }
      labelToBlock := builder.labelToBlock.insert name builder.nextId } := by
  have isEmpty : builder.currentBlock.statements.isEmpty = true := by simp [fresh]
  unfold startLabel
  rw [if_pos isEmpty]

/-- Starting a label in a filled block closes that block first. -/
theorem startLabel_of_nonempty (filled : builder.currentBlock.statements ≠ []) :
    builder.startLabel name = { builder.finishBlock .fallthrough with
      currentBlock := { (builder.finishBlock .fallthrough).currentBlock with label := some name }
      labelToBlock := (builder.finishBlock .fallthrough).labelToBlock.insert name
        (builder.finishBlock .fallthrough).nextId } := by
  have notEmpty : ¬ builder.currentBlock.statements.isEmpty = true := by simp [filled]
  unfold startLabel
  rw [if_neg notEmpty]

/-- What one statement of the first pass preserves. -/
theorem inv_visit (inv : Inv nodes k builder) (isOpen : Open nodes builder)
    (at_ : nodes[k]? = some node) :
    Inv nodes (k + 1) (builder.visit k node) ∧ Open nodes (builder.visit k node) ∧
      Continues (builder.visit k node) := by
  have pushed : (builder.push k).currentBlock.statements ≠ [] := by simp [push]
  cases node with
  | label line name =>
      rw [visit]
      by_cases fresh : builder.currentBlock.statements = []
      · rw [startLabel_of_empty fresh]
        refine ⟨inv_label inv at_ rfl fresh, ?_, ?_⟩
        · refine open_push ?_ at_ rfl
          simp [Open, fresh]
        · simp [Continues, push]
      · have shape := shape_of_open isOpen (.inl rfl : Terminator.fallthrough = _ ∨ _)
        have closed := inv_finishBlock inv fresh shape (by simp)
        rw [startLabel_of_nonempty fresh]
        refine ⟨inv_label closed at_ rfl rfl, ?_, ?_⟩
        · refine open_push ?_ at_ rfl
          simp [Open, finishBlock]
        · simp [Continues, push]
  | jump line target =>
      refine ⟨inv_finishBlock (inv_push inv at_ rfl) pushed
        (shape_of_push isOpen at_ rfl) (by simp), open_finishBlock _, ?_⟩
      simp [visit, Continues, finishBlock]
  | branch line condition trueLabel falseLabel =>
      refine ⟨inv_finishBlock (inv_push inv at_ rfl) pushed
        (shape_of_push isOpen at_ rfl) (by simp), open_finishBlock _, ?_⟩
      simp [visit, Continues, finishBlock]
  | _ =>
      refine ⟨inv_push inv at_ rfl, open_push isOpen at_ rfl, ?_⟩
      exact fun _ _ _ => pushed

end Step

/-- The invariant holds after any number of statements. -/
theorem inv_visitFrom (done : List Node) {nodes rest : List Node} {builder : CFGBuilder}
    (split : nodes = done ++ rest) (inv : Inv nodes done.length builder)
    (isOpen : Open nodes builder) (continues : Continues builder) :
    Inv nodes nodes.length (builder.visitFrom done.length rest) ∧
      Open nodes (builder.visitFrom done.length rest) ∧
      Continues (builder.visitFrom done.length rest) := by
  induction rest generalizing done builder with
  | nil =>
      obtain rfl : nodes = done := by simpa using split
      exact ⟨inv, isOpen, continues⟩
  | cons node rest ih =>
      have at_ : nodes[done.length]? = some node := by simp [split]
      obtain ⟨invNext, openNext, continuesNext⟩ := inv_visit inv isOpen at_
      have count : (done ++ [node]).length = done.length + 1 := by simp
      have result := ih (done ++ [node]) (by simp [split]) (count ▸ invNext) openNext
        continuesNext
      simpa [visitFrom, count] using result

end CFGBuilder

/-- What the blocks of the first pass look like. -/
structure Layout (nodes : List Node) (builder : CFGBuilder) : Prop where
  ids : builder.blocks.map BasicBlock.id = List.range builder.blocks.length
  nonempty : builder.blocks ≠ []
  tiles : builder.blocks.flatMap BasicBlock.statements = List.range nodes.length
  filled : nodes ≠ [] → ∀ block ∈ builder.blocks, block.statements ≠ []
  shapes : ∀ block ∈ builder.blocks, BlockShape nodes block
  unconnected : ∀ block ∈ builder.blocks, block.successors = []
  fallsThrough : ∀ i block, builder.blocks[i]? = some block →
    block.terminator = .fallthrough → i + 1 < builder.blocks.length
  returns : ∀ i block, builder.blocks[i]? = some block →
    block.terminator = .return → i + 1 = builder.blocks.length
  labelled : ∀ name id, builder.labelToBlock.lookup name = some id → ∃ block idx node,
    builder.blocks[id]? = some block ∧ block.statements.head? = some idx ∧
      nodes[idx]? = some node ∧ node.labelName? = some name
  complete : ∀ (idx : Nat) (node : Node), nodes[idx]? = some node → ∀ name,
    node.labelName? = some name → ∃ id, builder.labelToBlock.lookup name = some id

namespace CFGBuilder

/-- The layout when no statement is left over for a last block. -/
theorem layout_of_closed {nodes : List Node} {builder : CFGBuilder}
    (inv : Inv nodes nodes.length builder) (continues : Continues builder)
    (closed : builder.currentBlock.statements = []) (some_ : builder.blocks ≠ []) :
    Layout nodes builder where
  ids := inv.ids
  nonempty := some_
  tiles := by simpa [closed] using inv.tiles
  filled := fun _ => inv.filled
  shapes := inv.shapes
  unconnected := fun block member => inv.unconnected block (List.mem_append_left _ member)
  fallsThrough := by
    intro i block at_ falls
    have bound := (List.getElem?_eq_some_iff.mp at_).1
    by_contra atEnd
    have last : builder.blocks.getLast? = some block := by
      rw [List.getLast?_eq_getElem?, ← at_]
      congr 1
      omega
    exact continues block last falls closed
  returns := fun i block at_ isReturn =>
    absurd isReturn (inv.noReturn block (List.mem_of_getElem? at_))
  labelled := by
    intro name id found
    obtain ⟨idx, node, head, at_, isLabel⟩ := inv.labelled name id found
    rcases headOf_eq_some_iff.mp head with ⟨block, here, first⟩ | ⟨_, first⟩
    · exact ⟨block, idx, node, here, first, at_, isLabel⟩
    · simp [closed] at first
  complete := fun idx node at_ => inv.complete idx (List.getElem?_eq_some_iff.mp at_).1 node at_

/-- The layout once the leftover statements form a last block that returns. -/
theorem layout_of_return {nodes : List Node} {builder : CFGBuilder}
    (inv : Inv nodes nodes.length builder) (isOpen : Open nodes builder)
    (leftover : builder.currentBlock.statements ≠ [] ∨ builder.blocks = []) :
    Layout nodes (builder.finishBlock .return) where
  ids := by simp [finishBlock, inv.ids, inv.nextId, List.range_succ]
  nonempty := by simp [finishBlock]
  tiles := by simpa [finishBlock] using inv.tiles
  filled := by
    intro someNodes block member
    rcases List.mem_append.mp member with old | new
    · exact inv.filled block old
    · obtain rfl := List.mem_singleton.mp new
      rcases leftover with filled | noBlocks
      · exact filled
      · intro empty
        have tiles := inv.tiles
        simp only [noBlocks, List.flatMap_nil, List.nil_append] at tiles
        rw [show builder.currentBlock.statements = [] from empty] at tiles
        exact someNodes (by simpa using tiles)
  shapes := by
    intro block member
    rcases List.mem_append.mp member with old | new
    · exact inv.shapes block old
    · obtain rfl := List.mem_singleton.mp new
      exact shape_of_open isOpen (.inr rfl)
  unconnected := by
    intro block member
    rcases List.mem_append.mp member with old | new
    · exact inv.unconnected block (List.mem_append_left _ old)
    · obtain rfl := List.mem_singleton.mp new
      exact inv.unconnected builder.currentBlock (by simp)
  fallsThrough := by
    intro i block at_ falls
    have bound := (List.getElem?_eq_some_iff.mp at_).1
    simp only [finishBlock, List.length_append, List.length_singleton] at bound ⊢
    rcases Nat.lt_or_ge i builder.blocks.length with before | last
    · omega
    · obtain rfl : i = builder.blocks.length := by omega
      simp only [finishBlock, List.getElem?_concat_length, Option.some.injEq] at at_
      subst at_
      simp at falls
  returns := by
    intro i block at_ isReturn
    have bound := (List.getElem?_eq_some_iff.mp at_).1
    simp only [finishBlock, List.length_append, List.length_singleton] at bound at_ ⊢
    rcases Nat.lt_or_ge i builder.blocks.length with before | last
    · rw [List.getElem?_append_left before] at at_
      exact absurd isReturn (inv.noReturn block (List.mem_of_getElem? at_))
    · omega
  labelled := by
    intro name id found
    rw [lookup_finishBlock inv] at found
    obtain ⟨idx, node, head, at_, isLabel⟩ := inv.labelled name id found
    rcases headOf_eq_some_iff.mp head with ⟨block, here, first⟩ | ⟨rfl, first⟩
    · have bound := (List.getElem?_eq_some_iff.mp here).1
      exact ⟨block, idx, node, by simp [finishBlock, List.getElem?_append_left bound, here],
        first, at_, isLabel⟩
    · exact ⟨{ builder.currentBlock with id := builder.nextId, terminator := .return }, idx, node,
        by simp [finishBlock], first, at_, isLabel⟩
  complete := by
    intro idx node at_ name isLabel
    rw [lookup_finishBlock inv]
    exact inv.complete idx (List.getElem?_eq_some_iff.mp at_).1 node at_ name isLabel

/-- The first pass lays out every statement list. -/
theorem layout_firstPass (nodes : List Node) : Layout nodes (firstPass nodes) := by
  have start : Open nodes {} ∧ Continues {} := by simp [Open, Continues]
  obtain ⟨inv, isOpen, continues⟩ := inv_visitFrom [] rfl
    (inv_empty nodes) start.1 start.2
  unfold firstPass
  dsimp only
  split
  next leftover =>
    refine layout_of_return inv isOpen ?_
    simpa using leftover
  next closed =>
    simp only [Bool.or_eq_true, Bool.not_eq_true', not_or] at closed
    refine layout_of_closed inv continues ?_ ?_
    · simpa using closed.1
    · simpa using closed.2

end CFGBuilder

end Sigil
