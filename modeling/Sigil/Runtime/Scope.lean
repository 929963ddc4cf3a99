import Mathlib

/-!
# Scopes of the allocator

The records of `sigil_scope_create` and the blocks of `sigil_scope_alloc`, by address. A
function has no result when it would touch a record that was freed or free a block twice.
Scopes that are open form one chain from the root to the innermost, each the open child of
the one before; that invariant is what the functions rely on and keep.
-/

namespace Sigil.Runtime

/-- `SigilScope`. -/
structure Scope where
  allocs : List Nat := []
  parent : Option Nat
  openChild : Option Nat := none

/-- The blocks and the scope records that are allocated, and what the records hold. -/
structure Memory where
  blocks : Finset Nat
  opened : Finset Nat
  scope : Nat → Scope

namespace Memory

def empty : Memory := ⟨∅, ∅, fun _ => { parent := none }⟩

/-- A record changed. -/
def write (m : Memory) (s : Nat) (change : Scope → Scope) : Memory :=
  { m with scope := Function.update m.scope s (change (m.scope s)) }

/-- `free` of a block. -/
def freeBlock (m : Memory) (ptr : Nat) : Option Memory :=
  if ptr ∈ m.blocks then some { m with blocks := m.blocks.erase ptr } else none

/-- `sigil_scope_create`; the record is at an address that is not in use. -/
def scopeCreate (m : Memory) (parent : Option Nat) (s : Nat) : Option Memory :=
  let made : Memory :=
    { m with opened := insert s m.opened, scope := Function.update m.scope s { parent } }
  match parent with
  | none => some made
  | some p =>
      if p ∈ m.opened then some (made.write p fun r => { r with openChild := some s }) else none

/-- `sigil_scope_alloc`; the block is at an address that is not in use. -/
def scopeAlloc (m : Memory) (s ptr : Nat) : Option Memory :=
  if s ∈ m.opened then
    some ({ m with blocks := insert ptr m.blocks }.write s fun r =>
      { r with allocs := r.allocs ++ [ptr] })
  else none

/-- The last entry takes the place of the first that is `ptr`. -/
def swapRemove (allocs : List Nat) (ptr : Nat) : List Nat :=
  match allocs.getLast? with
  | none => allocs
  | some last => (allocs.set (allocs.idxOf ptr) last).dropLast

/-- The search of `sigil_scope_free` from a scope up its parents; the steps bound it. -/
def freeFrom : Nat → Memory → Option Nat → Nat → Option Memory
  | 0, _, _, _ => none
  | _ + 1, m, none, _ => some m
  | steps + 1, m, some s, ptr =>
      if s ∉ m.opened then none
      else if ptr ∈ (m.scope s).allocs then do
        let m ← m.freeBlock ptr
        return m.write s fun r => { r with allocs := swapRemove r.allocs ptr }
      else freeFrom steps m (m.scope s).parent ptr

/-- `sigil_scope_free`. -/
def scopeFree (m : Memory) (s ptr : Nat) : Option Memory :=
  if ptr = 0 then some m else freeFrom (m.opened.card + 1) m (some s) ptr

/-- The parent of a destroyed scope forgets it. -/
def unlink (m : Memory) (s : Nat) : Option Memory :=
  match (m.scope s).parent with
  | none => some m
  | some p =>
      if p ∉ m.opened then none
      else if (m.scope p).openChild = some s then some
        (m.write p fun r => { r with openChild := none })
      else some m

/-- `sigil_scope_destroy`; the steps bound the children it cascades into. -/
def destroyFrom : Nat → Memory → Nat → Option Memory
  | 0, _, _ => none
  | steps + 1, m, s =>
      if s ∉ m.opened then none
      else do
        let m ← match (m.scope s).openChild with
          | none => some m
          | some child => destroyFrom steps m child
        let m ← (m.scope s).allocs.foldlM freeBlock m
        let m ← m.unlink s
        return { m with opened := m.opened.erase s }

def scopeDestroy (m : Memory) (s : Nat) : Option Memory := destroyFrom m.opened.card m s

section Fields

variable {m : Memory} {s t : Nat} {change : Scope → Scope}

/-- Writing a scope opens and closes none. -/
@[simp] theorem blocks_write : (m.write s change).blocks = m.blocks := rfl
@[simp] theorem opened_write : (m.write s change).opened = m.opened := rfl

/-- The scope written is changed. -/
@[simp] theorem scope_write_self : (m.write s change).scope s = change (m.scope s) :=
  Function.update_self ..

/-- Other scopes are as they were. -/
theorem scope_write_of_ne (other : t ≠ s) : (m.write s change).scope t = m.scope t :=
  Function.update_of_ne other ..

end Fields

/-- `swap_remove` removes one pointer, up to order. -/
theorem swapRemove_perm {allocs : List Nat} {ptr : Nat} (member : ptr ∈ allocs) :
    (swapRemove allocs ptr).Perm (allocs.erase ptr) := by
  obtain ⟨front, back, first, rfl, erased⟩ := List.exists_erase_eq member
  have index : (front ++ ptr :: back).idxOf ptr = front.length := by
    rw [List.idxOf_append_of_notMem first, List.idxOf_cons_self, Nat.add_zero]
  rw [erased]
  unfold swapRemove
  cases back using List.reverseRecOn with
  | nil => simp [index]
  | append_singleton back last =>
      have ends : (front ++ ptr :: (back ++ [last])).getLast? = some last := by
        rw [← List.cons_append, ← List.append_assoc, List.getLast?_concat]
      simp only [ends, index]
      rw [List.set_append_right _ _ (Nat.le_refl _), Nat.sub_self, List.set_cons_zero,
        ← List.cons_append, ← List.append_assoc, List.dropLast_concat, ← List.append_assoc]
      refine (List.perm_middle).trans ?_
      exact (List.perm_append_singleton last (front ++ back)).symm

/-- `Linked m parent chain next`: the records of a chain, each the open child of the one
before; `parent` stands before the first and `next` after the last. -/
def Linked (m : Memory) : Option Nat → List Nat → Option Nat → Prop
  | _, [], _ => True
  | parent, s :: rest, next =>
      s ∈ m.opened ∧ (m.scope s).parent = parent ∧ (m.scope s).openChild = rest.head?.or next ∧
        Linked m (some s) rest next

section Linked

variable {m m' : Memory} {parent next : Option Nat} {front rest chain : List Nat} {s p : Nat}

/-- A chain of scopes is linked when its two parts are, to each other. -/
theorem linked_append : Linked m parent (front ++ rest) next ↔
    Linked m parent front (rest.head?.or next) ∧ Linked m (front.getLast?.or parent) rest next := by
  induction front generalizing parent with
  | nil => simp [Linked]
  | cons t front ih =>
      have child : (front ++ rest).head?.or next = front.head?.or (rest.head?.or next) := by
        cases front <;> simp
      have last : (t :: front).getLast?.or parent = front.getLast?.or (some t) := by
        cases ends : front.getLast? <;> simp [List.getLast?_cons, ends]
      simp only [List.cons_append, Linked, child, ih, last, and_assoc]

/-- A chain is linked in any memory with the same links. -/
theorem Linked.congr (linked : Linked m parent chain next)
    (opened : ∀ t ∈ chain, t ∈ m'.opened)
    (parents : ∀ t ∈ chain, (m'.scope t).parent = (m.scope t).parent)
    (children : ∀ t ∈ chain, (m'.scope t).openChild = (m.scope t).openChild) :
    Linked m' parent chain next := by
  induction chain generalizing parent with
  | nil => trivial
  | cons t chain ih =>
      obtain ⟨_, above, below, rest⟩ := linked
      rw [List.forall_mem_cons] at opened parents children
      exact ⟨opened.1, parents.1.trans above, children.1.trans below,
        ih rest opened.2 parents.2 children.2⟩

end Linked

/-- The blocks registered in the scopes of a chain. -/
def owned (m : Memory) (chain : List Nat) : List Nat := chain.flatMap fun s => (m.scope s).allocs

/-- The open scopes are one chain from the root, and own each allocated block once. -/
structure Stack (m : Memory) (chain : List Nat) : Prop where
  linked : Linked m none chain none
  distinct : chain.Nodup
  opened : m.opened = chain.toFinset
  once : (owned m chain).Nodup
  blocks : m.blocks = (owned m chain).toFinset

section Stack

variable {m m' : Memory} {front rest chain : List Nat} {s p ptr : Nat}

/-- Scopes with the same lists own the same blocks. -/
theorem owned_congr (same : ∀ t ∈ chain, (m'.scope t).allocs = (m.scope t).allocs) :
    owned m' chain = owned m chain :=
  List.flatMap_congr same

/-- The blocks of a chain are those of its parts. -/
@[simp] theorem owned_append : owned m (front ++ rest) = owned m front ++ owned m rest :=
  List.flatMap_append ..

/-- The blocks of one scope are its list. -/
@[simp] theorem owned_singleton : owned m [s] = (m.scope s).allocs := by simp [owned]

/-- The open scopes are those of the chain. -/
theorem Stack.mem_opened (stack : Stack m chain) : s ∈ m.opened ↔ s ∈ chain := by
  rw [stack.opened, List.mem_toFinset]

/-- There are as many open scopes as the chain is long. -/
theorem Stack.card_opened (stack : Stack m chain) : m.opened.card = chain.length := by
  rw [stack.opened, List.toFinset_card_of_nodup stack.distinct]

/-- A block registered in an open scope is allocated. -/
theorem Stack.allocated (stack : Stack m chain) (isOpen : s ∈ m.opened)
    (owns : ptr ∈ (m.scope s).allocs) : ptr ∈ m.blocks := by
  rw [stack.blocks, List.mem_toFinset]
  exact List.mem_flatMap.mpr ⟨s, stack.mem_opened.mp isOpen, owns⟩

/-- An open scope without an open child is the innermost. -/
theorem Stack.innermost (stack : Stack m chain) (isOpen : s ∈ m.opened)
    (childless : (m.scope s).openChild = none) : ∃ front, chain = front ++ [s] := by
  obtain ⟨front, rest, rfl⟩ := List.append_of_mem (stack.mem_opened.mp isOpen)
  have child := (linked_append.mp stack.linked).2.2.2.1
  rw [childless, Option.or_none] at child
  obtain rfl := List.head?_eq_none_iff.mp child.symm
  exact ⟨front, rfl⟩

/-- The empty memory is a stack of no scopes. -/
theorem stack_empty : Stack empty [] := ⟨trivial, List.nodup_nil, rfl, List.nodup_nil, rfl⟩

/-- A root scope is created where no scope is open. -/
theorem Stack.createRoot (stack : Stack m []) : ∃ m', m.scopeCreate none s = some m' ∧
    Stack m' [s] := by
  refine ⟨_, rfl, ⟨by simp [Linked], List.nodup_singleton s, by simp [stack.opened], by simp, ?_⟩⟩
  simp [stack.blocks, owned]

/-- A child of the innermost scope becomes the innermost. -/
theorem Stack.create (stack : Stack m (front ++ [p])) (fresh : s ∉ m.opened) :
    ∃ m', m.scopeCreate (some p) s = some m' ∧ Stack m' (front ++ [p, s]) ∧
      ∀ t ∈ front ++ [p], (m'.scope t).allocs = (m.scope t).allocs := by
  have new : ∀ t ∈ front ++ [p], t ≠ s := by
    rintro t member rfl
    exact fresh (stack.mem_opened.mpr member)
  have notFront : p ∉ front := fun member =>
    List.disjoint_of_nodup_append stack.distinct member (List.mem_singleton_self p)
  have parentNew : p ≠ s := new p (by simp)
  obtain ⟨before, isOpen, above, -, -⟩ := linked_append.mp stack.linked
  let m' := ({ m with
    opened := insert s m.opened
    scope := Function.update m.scope s { parent := some p } } : Memory).write p
      fun r => { r with openChild := some s }
  have atParent : m'.scope p = { m.scope p with openChild := some s } := by
    simp [m', Function.update_of_ne parentNew]
  have atChild : m'.scope s = { parent := some p } := by
    simp [m', scope_write_of_ne parentNew.symm]
  have others : ∀ t ∈ front, m'.scope t = m.scope t := fun t member => by
    have notParent : t ≠ p := fun same => notFront (same ▸ member)
    have notChild : t ≠ s := new t (by simp [member])
    simp [m', scope_write_of_ne notParent, Function.update_of_ne notChild]
  have allocs : ∀ t ∈ front ++ [p], (m'.scope t).allocs = (m.scope t).allocs := by
    intro t member
    obtain inFront | last := List.mem_append.mp member
    · rw [others t inFront]
    · rw [List.mem_singleton.mp last, atParent]
  have same : owned m' (front ++ [p, s]) = owned m (front ++ [p]) := by
    rw [List.append_cons, owned_append, owned_congr allocs]
    simp [atChild]
  refine ⟨m', if_pos isOpen, ⟨?_, ?_, ?_, ?_, ?_⟩, allocs⟩
  · refine linked_append.mpr ⟨?_, ?_, ?_, ?_, ?_⟩
    · refine before.congr (fun t member => ?_) (fun t member => ?_) fun t member => ?_
      · exact Finset.mem_insert_of_mem (stack.mem_opened.mpr (by simp [member]))
      · rw [others t member]
      · rw [others t member]
    · exact Finset.mem_insert_of_mem isOpen
    · rw [atParent]
      exact above
    · rw [atParent]
      rfl
    · exact ⟨Finset.mem_insert_self s _, by rw [atChild], by rw [atChild]; rfl, trivial⟩
  · rw [List.append_cons, List.nodup_append]
    refine ⟨stack.distinct, List.nodup_singleton s, fun t member u child => ?_⟩
    rw [List.mem_singleton.mp child]
    exact new t member
  · ext t
    simp [m', stack.opened]
    tauto
  · rw [same]
    exact stack.once
  · rw [same]
    exact stack.blocks

/-- A change of one record's entries leaves the others where they are. -/
theorem owned_write {change : Scope → Scope} (distinct : (front ++ s :: rest).Nodup) :
    owned (m.write s change) (front ++ s :: rest) =
      owned m front ++ ((change (m.scope s)).allocs ++ owned m rest) := by
  rw [List.nodup_append, List.nodup_cons] at distinct
  have before : owned (m.write s change) front = owned m front := owned_congr fun t member => by
    rw [scope_write_of_ne (distinct.2.2 t member s List.mem_cons_self)]
  have after : owned (m.write s change) rest = owned m rest := owned_congr fun t member => by
    rw [scope_write_of_ne (by rintro rfl; exact distinct.2.1.1 member)]
  rw [owned_append, ← List.singleton_append, owned_append, owned_singleton, scope_write_self,
    before,
    after]

/-- A change of entries alone keeps the links. -/
theorem Linked.write {parent next : Option Nat} {change : Scope → Scope}
    (linked : Linked m parent chain next)
    (above : ∀ r, (change r).parent = r.parent) (below : ∀ r, (change r).openChild = r.openChild)
    (opened : ∀ t ∈ chain, t ∈ m.opened) : Linked (m.write s change) parent chain next := by
  refine linked.congr opened (fun t _ => ?_) fun t _ => ?_
  all_goals
    by_cases same : t = s
    · subst same
      simp [above, below]
    · rw [scope_write_of_ne same]

/-- The blocks of a chain around one of its scopes. -/
theorem owned_split : owned m (front ++ s :: rest) =
    owned m front ++ ((m.scope s).allocs ++ owned m rest) := by
  rw [owned_append, ← List.singleton_append, owned_append, owned_singleton]

/-- A block is registered in an open scope. -/
theorem Stack.alloc (stack : Stack m chain) (isOpen : s ∈ chain) (fresh : ptr ∉ m.blocks) :
    ∃ m', m.scopeAlloc s ptr = some m' ∧ Stack m' chain ∧ m.blocks ⊆ m'.blocks := by
  let m' := ({ m with blocks := insert ptr m.blocks } : Memory).write s
    fun r => { r with allocs := r.allocs ++ [ptr] }
  have grown : (owned m' chain).Perm (ptr :: owned m chain) := by
    obtain ⟨front, rest, rfl⟩ := List.append_of_mem isOpen
    rw [owned_write stack.distinct, owned_split]
    have middle : ((owned m front ++ (m.scope s).allocs) ++ ptr :: owned m rest).Perm _ :=
      List.perm_middle
    simpa [owned] using middle
  have links : Linked { m with blocks := insert ptr m.blocks } none chain none :=
    stack.linked.congr (fun t member => stack.mem_opened.mpr member) (fun _ _ => rfl) fun _ _ => rfl
  refine ⟨m', if_pos (stack.mem_opened.mpr isOpen), ⟨?_, stack.distinct, stack.opened, ?_, ?_⟩,
    Finset.subset_insert ptr _⟩
  · exact links.write (fun _ => rfl) (fun _ => rfl) fun t member => stack.mem_opened.mpr member
  · rw [stack.blocks, List.mem_toFinset] at fresh
    exact grown.nodup_iff.mpr (List.nodup_cons.mpr ⟨fresh, stack.once⟩)
  · ext b
    rw [List.mem_toFinset, grown.mem_iff]
    simp [m', stack.blocks]

/-- A block an open scope owns is released and forgotten. -/
theorem Stack.release (stack : Stack m chain) (isOpen : s ∈ chain)
    (member : ptr ∈ (m.scope s).allocs) :
    m.freeBlock ptr = some { m with blocks := m.blocks.erase ptr } ∧
      Stack (({ m with blocks := m.blocks.erase ptr } : Memory).write s
        fun r => { r with allocs := swapRemove r.allocs ptr }) chain := by
  let m' := ({ m with blocks := m.blocks.erase ptr } : Memory).write s
    fun r => { r with allocs := swapRemove r.allocs ptr }
  have shrunk : (owned m chain).Perm (ptr :: owned m' chain) := by
    obtain ⟨front, rest, rfl⟩ := List.append_of_mem isOpen
    rw [owned_write stack.distinct, owned_split]
    have one : (m.scope s).allocs.Perm (ptr :: swapRemove (m.scope s).allocs ptr) :=
      (List.perm_cons_erase member).trans ((swapRemove_perm member).symm.cons ptr)
    exact ((one.append_right _).append_left _).trans List.perm_middle
  have links : Linked { m with blocks := m.blocks.erase ptr } none chain none :=
    stack.linked.congr (fun t member => stack.mem_opened.mpr member) (fun _ _ => rfl) fun _ _ => rfl
  have once := shrunk.nodup_iff.mp stack.once
  rw [List.nodup_cons] at once
  have allocated : ptr ∈ m.blocks := by
    rw [stack.blocks, List.mem_toFinset, shrunk.mem_iff]
    exact List.mem_cons_self
  refine ⟨if_pos allocated, ⟨?_, stack.distinct, stack.opened, once.2, ?_⟩⟩
  · exact links.write (fun _ => rfl) (fun _ => rfl) fun t member => stack.mem_opened.mpr member
  · ext b
    have inside := shrunk.mem_iff (a := b)
    rw [List.mem_cons] at inside
    simp only [blocks_write, stack.blocks, Finset.mem_erase, List.mem_toFinset, inside]
    constructor
    · rintro ⟨other, same | rest⟩
      · exact absurd same other
      · exact rest
    · intro rest
      exact ⟨by rintro rfl; exact once.1 rest, .inr rest⟩

/-- Freeing from an open scope releases the block if that scope or one around it owns it. -/
theorem Stack.freeFrom (stack : Stack m chain) (ptr : Nat) {steps : Nat}
    (isOpen : chain = front ++ rest)
    (enough : front.length < steps) : ∃ m', Memory.freeFrom steps m front.getLast? ptr = some m' ∧
      Stack m' chain ∧ m.blocks.erase ptr ⊆ m'.blocks := by
  induction front using List.reverseRecOn generalizing rest steps with
  | nil =>
      obtain ⟨steps, rfl⟩ := Nat.exists_eq_succ_of_ne_zero (Nat.ne_of_gt enough)
      exact ⟨m, rfl, stack, Finset.erase_subset ptr _⟩
  | append_singleton front s ih =>
      obtain ⟨steps, rfl⟩ := Nat.exists_eq_succ_of_ne_zero (Nat.ne_of_gt (Nat.zero_lt_of_lt enough))
      have member : s ∈ chain := by simp [isOpen]
      have opened := stack.mem_opened.mpr member
      rw [List.getLast?_concat, Memory.freeFrom, if_neg (not_not.mpr opened)]
      by_cases owns : ptr ∈ (m.scope s).allocs
      · rw [if_pos owns]
        obtain ⟨freed, kept⟩ := stack.release member owns
        exact ⟨_, by rw [freed]; rfl, kept, Finset.Subset.refl _⟩
      · rw [if_neg owns]
        have links := stack.linked
        rw [isOpen, List.append_assoc, linked_append] at links
        rw [links.2.2.1, Option.or_none]
        refine ih (by rw [isOpen, List.append_assoc]) ?_
        rw [List.length_append, List.length_singleton] at enough
        omega

/-- Freeing a pointer in an open scope keeps the stack and loses at most that block. -/
theorem Stack.free (stack : Stack m chain) (ptr : Nat) (isOpen : s ∈ chain) :
    ∃ m', m.scopeFree s ptr = some m' ∧ Stack m' chain ∧ m.blocks.erase ptr ⊆ m'.blocks := by
  unfold scopeFree
  by_cases null : ptr = 0
  · rw [if_pos null]
    exact ⟨m, rfl, stack, Finset.erase_subset ptr _⟩
  · rw [if_neg null, stack.card_opened]
    obtain ⟨front, rest, rfl⟩ := List.append_of_mem isOpen
    have whole : front ++ s :: rest = (front ++ [s]) ++ rest := by simp
    have enough : (front ++ [s]).length < (front ++ s :: rest).length + 1 := by simp
    have steps := stack.freeFrom ptr whole enough
    rwa [List.getLast?_concat] at steps

/-- Allocated blocks listed once are all freed. -/
theorem foldlM_freeBlock {allocs : List Nat} (once : allocs.Nodup)
    (allocated : ∀ b ∈ allocs, b ∈ m.blocks) :
    allocs.foldlM freeBlock m = some { m with blocks := m.blocks \ allocs.toFinset } := by
  induction allocs generalizing m with
  | nil => simp
  | cons b allocs ih =>
      rw [List.nodup_cons] at once
      rw [List.forall_mem_cons] at allocated
      have rest : ∀ c ∈ allocs, c ∈ m.blocks.erase b := fun c member =>
        Finset.mem_erase.mpr ⟨by rintro rfl; exact once.1 member, allocated.2 c member⟩
      rw [List.foldlM_cons, freeBlock, if_pos allocated.1]
      dsimp only [bind, Option.bind]
      rw [ih once.2 rest, List.toFinset_cons, Finset.erase_sdiff_comm, Finset.sdiff_insert]

/-- The blocks and the record of the innermost scope are released. -/
theorem Stack.close (stack : Stack m (front ++ [s])) : ∃ m' m'',
    (m.scope s).allocs.foldlM freeBlock m = some m' ∧ m'.unlink s = some m'' ∧
      Stack { m'' with opened := m''.opened.erase s } front ∧
      ∀ t ∈ front, (m''.scope t).allocs = (m.scope t).allocs := by
  have once := stack.once
  have blocks := stack.blocks
  rw [owned_append, owned_singleton] at once blocks
  have apart := List.nodup_append.mp stack.distinct
  have notFront : s ∉ front := fun member => apart.2.2 s member s (List.mem_singleton_self s) rfl
  obtain ⟨before, isOpen, above, -, -⟩ := linked_append.mp stack.linked
  rw [Option.or_none] at above
  let m' : Memory := { m with blocks := m.blocks \ (m.scope s).allocs.toFinset }
  have freed : (m.scope s).allocs.foldlM freeBlock m = some m' :=
    foldlM_freeBlock (List.nodup_append.mp once).2.1 fun b member => by simp [blocks, member]
  have opened : m.opened.erase s = front.toFinset := by
    ext t
    rw [Finset.mem_erase, stack.mem_opened, List.mem_toFinset, List.mem_append, List.mem_singleton]
    constructor
    · rintro ⟨other, member | same⟩
      · exact member
      · exact absurd same other
    · exact fun member => ⟨fun same => notFront (same ▸ member), .inl member⟩
  have left : m'.blocks = (owned m front).toFinset := by
    ext b
    simp only [m', blocks, Finset.mem_sdiff, List.mem_toFinset, List.mem_append]
    constructor
    · rintro ⟨member | member, other⟩
      · exact member
      · exact absurd member other
    · exact fun member =>
        ⟨.inl member, fun own => (List.nodup_append.mp once).2.2 b member b own rfl⟩
  cases front using List.reverseRecOn with
  | nil =>
      refine ⟨m', m', freed, ?_, ⟨trivial, List.nodup_nil, opened, List.nodup_nil, left⟩, by simp⟩
      simp only [unlink, m', above]
      rfl
  | append_singleton front p =>
      have below := linked_append.mp before
      rw [List.getLast?_concat] at above
      have openParent : p ∈ m.opened := below.2.1
      have child : (m.scope p).openChild = some s := below.2.2.2.1
      have changed : ∀ t, ((m'.write p fun r => { r with openChild := none }).scope t).allocs =
          (m.scope t).allocs := by
        intro t
        by_cases same : t = p
        · rw [same, scope_write_self]
        · rw [scope_write_of_ne same]
      have unlinked : m'.unlink s = some (m'.write p fun r => { r with openChild := none }) := by
        simp only [unlink, m', above, openParent, child]
        simp
      have same : owned (m'.write p fun r => { r with openChild := none }) (front ++ [p]) =
          owned m (front ++ [p]) := owned_congr fun t _ => changed t
      refine ⟨m', _, freed, unlinked, ⟨?_, apart.1, opened, ?_, ?_⟩, fun t _ => changed t⟩
      · have stays : ∀ t ∈ front ++ [p], t ∈ m.opened.erase s := fun t member => by
          rw [opened, List.mem_toFinset]
          exact member
        refine linked_append.mpr ⟨below.1.congr (fun t member => ?_) (fun t member => ?_)
          fun t member => ?_, ?_, ?_, ?_, trivial⟩
        · exact stays t (List.mem_append_left _ member)
        · have other : t ≠ p := (List.nodup_append.mp apart.1).2.2 t member p
            (List.mem_singleton_self p)
          simp [scope_write_of_ne other, m']
        · have other : t ≠ p := (List.nodup_append.mp apart.1).2.2 t member p
            (List.mem_singleton_self p)
          simp [scope_write_of_ne other, m']
        · exact stays p (by simp)
        · simpa [m'] using below.2.2.1
        · simp
      · exact same ▸ (List.nodup_append.mp once).1
      · exact same ▸ left

/-- Destroying an open scope releases it with every scope inside it. -/
theorem Stack.destroyFrom {steps : Nat} (stack : Stack m (front ++ s :: rest))
    (enough : rest.length < steps) : ∃ m', Memory.destroyFrom steps m s = some m' ∧ Stack m' front ∧
      ∀ t ∈ front, (m'.scope t).allocs = (m.scope t).allocs := by
  induction rest generalizing front s steps m with
  | nil =>
      obtain ⟨steps, rfl⟩ := Nat.exists_eq_succ_of_ne_zero (Nat.ne_of_gt enough)
      obtain ⟨-, isOpen, -, child, -⟩ := linked_append.mp stack.linked
      obtain ⟨m', m'', freed, unlinked, closed, same⟩ := stack.close
      refine ⟨_, ?_, closed, same⟩
      rw [Memory.destroyFrom, if_neg (not_not.mpr isOpen), child]
      dsimp only [List.head?_nil, Option.or_none, bind, Option.bind]
      rw [freed]
      dsimp only
      rw [unlinked]
      rfl
  | cons c rest ih =>
      obtain ⟨steps, rfl⟩ := Nat.exists_eq_succ_of_ne_zero (Nat.ne_of_gt (Nat.zero_lt_of_lt enough))
      obtain ⟨-, isOpen, -, child, -⟩ := linked_append.mp stack.linked
      rw [List.append_cons] at stack
      have fewer : rest.length < steps := by
        rw [List.length_cons] at enough
        omega
      obtain ⟨m₁, destroyed, inner, kept⟩ := ih stack fewer
      obtain ⟨m', m'', freed, unlinked, closed, same⟩ := inner.close
      refine ⟨_, ?_, closed, fun t member => (same t member).trans (kept t (by simp [member]))⟩
      rw [Memory.destroyFrom, if_neg (not_not.mpr isOpen), child]
      dsimp only [List.head?_cons, Option.some_or, bind, Option.bind]
      rw [destroyed]
      dsimp only
      rw [freed]
      dsimp only
      rw [unlinked]
      rfl

/-- Destroying a scope closes it and those opened in it. -/
theorem Stack.destroy (stack : Stack m (front ++ s :: rest)) : ∃ m', m.scopeDestroy s = some m' ∧
    Stack m' front ∧ ∀ t ∈ front, (m'.scope t).allocs = (m.scope t).allocs := by
  refine stack.destroyFrom ?_
  rw [stack.card_opened]
  simp
  omega

end Stack

end Memory

end Sigil.Runtime
