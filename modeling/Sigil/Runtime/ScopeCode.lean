import Sigil.Ast
import Sigil.Flow.Runs
import Sigil.Runtime.Scope

/-!
# Scopes in generated code

What a compiled body does with the scope allocator: the calls it makes in the order control
runs through it. The register of a SCOPE keeps the record of its last creation, also after a
JUMP has left the SCOPE, and END_SCOPE destroys what the register holds.
-/

namespace Sigil.Runtime

open Flow

/-- A part of a compiled body. The scope it runs in is the root, or a SCOPE by its register. -/
inductive ScopeOp where
  | create (register : Nat) (parent : Option Nat)
  | destroy (register : Nat)
  | evaluate (scope : Option Nat)
  | free (scope : Option Nat)
  | label (name : String)
  | jump (target : String)
  | branch (trueLabel falseLabel : String)
  deriving DecidableEq

mutual

/-- `compile_node`, as far as scopes go; the next free register is passed on. -/
def nodeOps (scope : Option Nat) : Node → Nat → List ScopeOp × Nat
  | .scope _ nodes, next =>
      let (body, next') := bodyOps (some next) nodes (next + 1)
      (.create next scope :: body ++ [.destroy next], next')
  | .free _ _, next => ([.free scope], next)
  | .label _ name, next => ([.label name], next)
  | .jump _ target, next => ([.jump target], next)
  | .branch _ _ trueLabel falseLabel, next =>
      ([.evaluate scope, .branch trueLabel falseLabel], next)
  | _, next => ([.evaluate scope], next)

def bodyOps (scope : Option Nat) : List Node → Nat → List ScopeOp × Nat
  | [], next => ([], next)
  | node :: nodes, next =>
      let (first, next) := nodeOps scope node next
      let (rest, next) := bodyOps scope nodes next
      (first ++ rest, next)

end

/-- The code of a body in the root scope. -/
def scopeCode (nodes : List Node) : List ScopeOp := (bodyOps none nodes 0).1

/-- A call of the allocator, with the address it is about. -/
inductive ScopeEvent where
  | none
  | created (s : Nat)
  | allocated (ptr : Nat)
  | freed (ptr : Nat)
  | destroyed (s : Nat)

/-- A run of the code: the place control is at, the records in the registers and the memory,
which is lost once the allocator has touched what was freed. -/
structure ScopeMachine where
  pc : Nat
  root : Nat
  registers : Nat → Option Nat
  memory : Option Memory
  returned : Bool

namespace ScopeMachine

/-- The root scope has been created. -/
def start (root : Nat) : ScopeMachine where
  pc := 0
  root := root
  registers _ := none
  memory := Memory.empty.scopeCreate none root
  returned := false

/-- The record of a scope. -/
def record (s : ScopeMachine) : Option Nat → Option Nat
  | none => some s.root
  | some register => s.registers register

/-- An address `malloc` can return. -/
def Unused (m : Memory) (a : Nat) : Prop := a ≠ 0 ∧ a ∉ m.blocks ∧ a ∉ m.opened

instance (m : Memory) (a : Nat) : Decidable (Unused m a) :=
  inferInstanceAs (Decidable (a ≠ 0 ∧ a ∉ m.blocks ∧ a ∉ m.opened))

/-- The steps of the code. Evaluating operands allocates any number of blocks, FREE passes
any pointer, and a handle that is none of the allocator's is not freed at all. -/
inductive Step (code : List ScopeOp) : ScopeMachine → ScopeEvent → ScopeMachine → Prop where
  | create {s : ScopeMachine} {m : Memory} {register r a : Nat} {parent : Option Nat}
      (here : code[s.pc]? = some (.create register parent)) (held : s.record parent = some r)
      (memory : s.memory = some m) (running : s.returned = false) (unused : Unused m a) :
      Step code s (.created a) { s with
        pc := s.pc + 1
        registers := Function.update s.registers register (some a)
        memory := m.scopeCreate (some r) a }
  | destroy {s : ScopeMachine} {m : Memory} {register r : Nat}
      (here : code[s.pc]? = some (.destroy register)) (held : s.registers register = some r)
      (memory : s.memory = some m) (running : s.returned = false) :
      Step code s (.destroyed r) { s with pc := s.pc + 1, memory := m.scopeDestroy r }
  | alloc {s : ScopeMachine} {m : Memory} {scope : Option Nat} {r a : Nat}
      (here : code[s.pc]? = some (.evaluate scope)) (held : s.record scope = some r)
      (memory : s.memory = some m) (running : s.returned = false) (unused : Unused m a) :
      Step code s (.allocated a) { s with memory := m.scopeAlloc r a }
  | evaluated {s : ScopeMachine} {scope : Option Nat} (here : code[s.pc]? = some (.evaluate scope))
      (running : s.returned = false) : Step code s .none { s with pc := s.pc + 1 }
  | free {s : ScopeMachine} {m : Memory} {scope : Option Nat} {r ptr : Nat}
      (here : code[s.pc]? = some (.free scope)) (held : s.record scope = some r)
      (memory : s.memory = some m) (running : s.returned = false) :
      Step code s (.freed ptr) { s with pc := s.pc + 1, memory := m.scopeFree r ptr }
  | notFreed {s : ScopeMachine} {scope : Option Nat} (here : code[s.pc]? = some (.free scope))
      (running : s.returned = false) : Step code s .none { s with pc := s.pc + 1 }
  | label {s : ScopeMachine} {name : String} (here : code[s.pc]? = some (.label name))
      (running : s.returned = false) : Step code s .none { s with pc := s.pc + 1 }
  | jump {s : ScopeMachine} {target : String} {pc : Nat}
      (here : code[s.pc]? = some (.jump target)) (there : code[pc]? = some (.label target))
      (running : s.returned = false) : Step code s .none { s with pc := pc }
  | branch {s : ScopeMachine} {trueLabel falseLabel target : String} {pc : Nat}
      (here : code[s.pc]? = some (.branch trueLabel falseLabel))
      (taken : target = trueLabel ∨ target = falseLabel) (there : code[pc]? = some (.label target))
      (running : s.returned = false) : Step code s .none { s with pc := pc }
  | return {s : ScopeMachine} {m : Memory} (last : s.pc = code.length)
      (memory : s.memory = some m) (running : s.returned = false) :
      Step code s (.destroyed s.root) { s with returned := true, memory := m.scopeDestroy s.root }

/-- A SCOPE is entered where no child of the scope around it is open, and the scope that
control is in has been entered and not left through END_SCOPE since. -/
structure Nested (code : List ScopeOp) (s : ScopeMachine) : Prop where
  enters : ∀ m register parent r, s.memory = some m →
    code[s.pc]? = some (.create register parent) → s.record parent = some r →
    r ∈ m.opened ∧ (m.scope r).openChild = none
  inside : ∀ m scope r, s.memory = some m →
    (code[s.pc]? = some (.evaluate scope) ∨ code[s.pc]? = some (.free scope) ∨
      ∃ register, scope = some register ∧ code[s.pc]? = some (.destroy register)) →
    s.record scope = some r → r ∈ m.opened

variable {code : List ScopeOp} {s t : ScopeMachine} {m m' : Memory} {e : ScopeEvent}
  {events : List ScopeEvent}

/-- The open scopes are one chain from the root while the body runs, and none afterwards. -/
structure Sound (s : ScopeMachine) : Prop where
  elsewhere : ∀ register, s.registers register ≠ some s.root
  memory : ∃ m chain, s.memory = some m ∧ m.Stack chain ∧
    if s.returned then chain = [] else chain.head? = some s.root

/-- Nothing an open scope owns is released by a step, but for the block it frees. -/
def Keeps (m : Memory) (e : ScopeEvent) (m' : Memory) : Prop :=
  ∀ r ∈ m.opened, r ∈ m'.opened → ∀ b ∈ (m.scope r).allocs, b ∈ m'.blocks ∨ e = .freed b

/-- Nothing is held at first. -/
theorem sound_start {root : Nat} : Sound (start root) := by
  obtain ⟨m, created, stack⟩ := Memory.stack_empty.createRoot (s := root)
  exact ⟨by simp [start], m, [root], created, stack, rfl⟩

/-- A step from a memory whose scopes are a chain to another keeps the blocks of the scopes
whose entries it does not change. -/
theorem keeps_of_same {chain : List Nat} (stack : m'.Stack chain)
    (same : ∀ r ∈ chain, r ∈ m.opened → (m'.scope r).allocs = (m.scope r).allocs) :
      Keeps m e m' := by
  intro r isOpen still b owns
  rw [← same r (stack.mem_opened.mp still) isOpen] at owns
  exact .inl (stack.allocated still owns)

/-- The chain while the body runs starts at the root. -/
theorem Sound.running (sound : Sound s) (running : s.returned = false)
    (memory : s.memory = some m) :
    ∃ chain, m.Stack (s.root :: chain) := by
  obtain ⟨m₁, chain, memory₁, stack, first⟩ := sound.memory
  obtain rfl : m = m₁ := Option.some.inj (memory.symm.trans memory₁)
  simp only [running, Bool.false_eq_true, if_false] at first
  obtain ⟨rest, rfl⟩ := List.head?_eq_some_iff.mp first
  exact ⟨rest, stack⟩

/-- The memory after a step that stays in the body. -/
theorem Sound.stay (sound : Sound s) (running : t.returned = false) (root : t.root = s.root)
    (registers : t.registers = s.registers) {chain : List Nat} (memory : t.memory = some m')
    (stack : m'.Stack (s.root :: chain)) : Sound t where
  elsewhere := by
    rw [registers, root]
    exact sound.elsewhere
  memory := ⟨m', _, memory, stack, by simp [running, root]⟩

/-- Every step of nested code keeps the ledger of scopes. -/
theorem Sound.step (sound : Sound s) (nested : Nested code s) (next : Step code s e t) :
    Sound t ∧ ∀ m m', s.memory = some m → t.memory = some m' → Keeps m e m' := by
  cases next with
  | @create m register r a parent here held memory running unused =>
      obtain ⟨chain, stack⟩ := sound.running running memory
      obtain ⟨isOpen, childless⟩ := nested.enters m register parent r memory here held
      obtain ⟨front, whole⟩ := stack.innermost isOpen childless
      rw [whole] at stack
      obtain ⟨m', created, stack', same⟩ := stack.create unused.2.2
      have notRoot : a ≠ s.root := by
        rintro rfl
        refine unused.2.2 (stack.mem_opened.mpr ?_)
        rw [← whole]
        exact List.mem_cons_self
      refine ⟨⟨fun other => ?_, m', _, created, stack', ?_⟩, fun m₁ m₂ old new => ?_⟩
      · by_cases mine : other = register
        · simpa [mine] using notRoot
        · simpa [mine] using sound.elsewhere other
      · rw [if_neg (by simp [running]), List.append_cons, ← whole]
        rfl
      · obtain rfl := Option.some.inj (memory.symm.trans old)
        obtain rfl := Option.some.inj (created.symm.trans new)
        refine keeps_of_same stack' fun t member wasOpen => same t ?_
        exact stack.mem_opened.mp wasOpen
  | @destroy m register r here held memory running =>
      obtain ⟨chain, stack⟩ := sound.running running memory
      have isOpen := nested.inside m (some register) r memory
        (.inr (.inr ⟨register, rfl, here⟩)) held
      have inner : r ∈ chain := by
        obtain rfl | inner := List.mem_cons.mp (stack.mem_opened.mp isOpen)
        · exact absurd held (sound.elsewhere register)
        · exact inner
      obtain ⟨front, rest, rfl⟩ := List.append_of_mem inner
      rw [← List.cons_append] at stack
      obtain ⟨m', destroyed, stack', same⟩ := stack.destroy
      refine ⟨sound.stay running rfl rfl destroyed stack', fun m₁ m₂ old new => ?_⟩
      obtain rfl := Option.some.inj (memory.symm.trans old)
      obtain rfl := Option.some.inj (destroyed.symm.trans new)
      exact keeps_of_same stack' fun t member _ => same t member
  | @alloc m scope r a here held memory running unused =>
      obtain ⟨chain, stack⟩ := sound.running running memory
      have isOpen := nested.inside m scope r memory (.inl here) held
      obtain ⟨m', allocated, stack', grown⟩ := stack.alloc (stack.mem_opened.mp isOpen) unused.2.1
      refine ⟨sound.stay running rfl rfl allocated stack',
        fun m₁ m₂ old new r wasOpen _ b owns => ?_⟩
      obtain rfl := Option.some.inj (memory.symm.trans old)
      obtain rfl := Option.some.inj (allocated.symm.trans new)
      exact .inl (grown (stack.allocated wasOpen owns))
  | @free m scope r ptr here held memory running =>
      obtain ⟨chain, stack⟩ := sound.running running memory
      have isOpen := nested.inside m scope r memory (.inr (.inl here)) held
      obtain ⟨m', freed, stack', left⟩ := stack.free ptr (stack.mem_opened.mp isOpen)
      refine ⟨sound.stay running rfl rfl freed stack', fun m₁ m₂ old new r wasOpen _ b owns => ?_⟩
      obtain rfl := Option.some.inj (memory.symm.trans old)
      obtain rfl := Option.some.inj (freed.symm.trans new)
      by_cases same : b = ptr
      · exact .inr (same ▸ rfl)
      · exact .inl (left (Finset.mem_erase.mpr ⟨same, stack.allocated wasOpen owns⟩))
  | evaluated here running | notFreed here running | label here running | jump here there running
  | branch here taken there running =>
      obtain ⟨m, chain, memory, stack, first⟩ := sound.memory
      refine ⟨⟨sound.elsewhere, m, chain, memory, stack, first⟩, fun m₁ m₂ old new => ?_⟩
      obtain rfl := Option.some.inj (old.symm.trans new)
      obtain rfl := Option.some.inj (memory.symm.trans old)
      exact keeps_of_same stack fun _ _ _ => rfl
  | @«return» m last memory running =>
      obtain ⟨chain, stack⟩ := sound.running running memory
      obtain ⟨m', destroyed, stack', same⟩ := (List.nil_append _ ▸ stack :
        m.Stack ([] ++ s.root :: chain)).destroy
      refine ⟨⟨sound.elsewhere, m', [], destroyed, stack', rfl⟩, fun m₁ m₂ old new => ?_⟩
      obtain rfl := Option.some.inj (memory.symm.trans old)
      obtain rfl := Option.some.inj (destroyed.symm.trans new)
      exact keeps_of_same stack' fun t member _ => same t member

/-- A SCOPE inside another, each with a block, and the FREE of an outer block between their
ends. -/
def twoScopes : List Node :=
  [.assignment 1 "a" (.alloc (.intLit 8) .bytes false),
    .scope 2 [.assignment 3 "b" (.alloc (.intLit 8) .bytes false),
      .scope 4 [.assignment 5 "d" (.alloc (.intLit 8) .bytes false)], .free 6 "a"]]

/-- What the place control is at demands of the memory. -/
theorem nested_of {op : ScopeOp} (memory : s.memory = some m) (here : code[s.pc]? = some op)
    (enters : ∀ register parent r, op = .create register parent → s.record parent = some r →
      r ∈ m.opened ∧ (m.scope r).openChild = none)
    (inside : ∀ scope r, op = .evaluate scope ∨ op = .free scope ∨
      (∃ register, scope = some register ∧ op = .destroy register) →
      s.record scope = some r → r ∈ m.opened) : Nested code s where
  enters m₁ register parent r memory₁ create held := by
    obtain rfl := Option.some.inj (memory.symm.trans memory₁)
    exact enters register parent r (Option.some.inj (here.symm.trans create)) held
  inside m₁ scope r memory₁ op₁ held := by
    obtain rfl := Option.some.inj (memory.symm.trans memory₁)
    refine inside scope r ?_ held
    rw [here] at op₁
    simpa using op₁

/-- Nothing is asked of the end of the code. -/
theorem nested_of_end (last : code[s.pc]? = none) : Nested code s where
  enters m register parent r memory create held := by simp [last] at create
  inside m scope r memory op held := by simp [last] at op

/-- What a run of `twoScopes` does: the block of the outer SCOPE goes with its END_SCOPE, the
one of the body with the FREE. -/
def twoScopesEvents : List ScopeEvent :=
  [.allocated 2, .none, .created 3, .allocated 4, .none, .created 5, .allocated 6, .none,
    .destroyed 5,
    .freed 2, .destroyed 3, .destroyed 1]

/-- A loop that leaves its SCOPE by a jump while `v` is not zero, and enters it again. -/
def reentered : List Node :=
  [.assignment 1 "c" (.alloc (.intLit 8) .int false), .store 2 "c" (.intLit 1) 8 none,
    .label 3 "again",
    .scope 4 [.assignment 5 "v" (.load (.var "c") 8 none), .store 6 "c" (.intLit 0) 8 none,
      .branch 7 (.var "v") "again" "inside", .label 8 "inside"],
    .free 9 "c"]

end ScopeMachine

end Sigil.Runtime
