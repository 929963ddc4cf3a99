import Sigil.Codegen.AccessWidth

/-!
# A machine for emitted code

The blocks of a function executed item by item, over results and an address space. An
item that the builder folded computes what its instruction computes. Of the calls only
`abort` is known, and the machine stops there.
-/

namespace Sigil

open Flow Relation

/-- The bytes in memory. -/
abbrev AddressSpace := BitVec 64 → BitVec 8

namespace AddressSpace

/-- The number in some bytes from an address on, low byte first. -/
def read (memory : AddressSpace) (address : BitVec 64) : Nat → Nat
  | 0 => 0
  | n + 1 => (memory address).toNat + 256 * memory.read (address + 1) n

/-- Put a number into some bytes from an address on, low byte first. -/
def write (memory : AddressSpace) (address : BitVec 64) (bytes value : Nat) : AddressSpace :=
  fun a =>
    let i := (a - address).toNat
    if i < bytes then BitVec.ofNat 8 (value / 256 ^ i) else memory a

end AddressSpace

/-- Where the parameters, string constants and functions are. -/
structure Placement where
  param : Nat → BitVec 64
  global : Nat → BitVec 64
  function : String → BitVec 64

/-- The address a pointer holds. -/
def PtrValue.eval (placement : Placement) (results : Results) : PtrValue → BitVec 64
  | null => 0
  | param i => placement.param i
  | global i => placement.global i
  | function symbol => placement.function symbol
  | reg id _ => BitVec.ofNat 64 (results id)

/-- The result of an instruction and the memory it leaves, where it is defined. An index
is extended with its sign to the width of an address. -/
def Instr.execute (placement : Placement) (results : Results) (memory : AddressSpace) :
    Instr → Option (Nat × AddressSpace)
  | .load p width => some (memory.read (p.eval placement results) (bytesOf width), memory)
  | .store p a =>
      some (0, memory.write (p.eval placement results) (bytesOf a.width) (a.eval results).toNat)
  | .gep p index =>
      some ((p.eval placement results + (index.eval results).signExtend 64).toNat, memory)
  | .inttoptr a => some (((a.eval results).setWidth 64).toNat, memory)
  | .ptrtoint p => some ((p.eval placement results).toNat, memory)
  | i => (i.compute results).map (·, memory)

/-- A point of an execution: the items of the block executed, results and memory. -/
structure Machine where
  block : Nat
  next : Nat
  results : Results
  memory : AddressSpace

namespace Machine

/-- Execute one item. -/
def step (placement : Placement) (code : Nat → List Item) (m : Machine) : Option Machine :=
  match (code m.block)[m.next]? with
  | some (.instr id i) | some (.folded id i) =>
      (i.execute placement m.results m.memory).map fun p =>
        ⟨m.block, m.next + 1, Function.update m.results id p.1, p.2⟩
  | some (.term e) => (e.target m.results).map fun b => ⟨b, 0, m.results, m.memory⟩
  | none => none

/-- The execution gets from one point to another. -/
def Reaches (placement : Placement) (code : Nat → List Item) : Machine → Machine → Prop :=
  ReflTransGen fun m n => m.step placement code = some n

/-- The next item calls `abort`. -/
def Aborts (code : Nat → List Item) (m : Machine) : Prop :=
  ∃ id, (code m.block)[m.next]? = some (.instr id (.call "abort" []))

end Machine

/-- The point at which the generator inserts. -/
def CodeGen.machine (s : CodeGen) (results : Results) (memory : AddressSpace) : Machine :=
  ⟨s.current, (s.items s.current).length, results, memory⟩

/-- The blocks have all the code of a state. -/
def Contains (code : Nat → List Item) (s : CodeGen) : Prop :=
  ∀ b, s.items b <+: code b

/-- `t` has all the code of `s` and numbers its results no lower. -/
structure Precedes (s t : CodeGen) : Prop where
  items : ∀ b, s.items b <+: t.items b
  nextId : s.nextId ≤ t.nextId

/-- Results agree below a number. -/
def AgreeBelow (bound : Nat) (results results' : Results) : Prop :=
  ∀ id < bound, results' id = results id

section Precedes

variable {ok : Set Nat} {s t u : CodeGen} {code : Nat → List Item} {code' : List Item}

/-- Code that contains a later state contains an earlier one. -/
theorem Contains.before (contains : Contains code t) (precedes : Precedes s t) :
    Contains code s :=
  fun b => (precedes.items b).trans (contains b)

/-- Every state precedes itself. -/
theorem Precedes.refl (s : CodeGen) : Precedes s s := ⟨fun _ => List.prefix_rfl, le_rfl⟩

/-- Precedence is transitive. -/
theorem Precedes.trans (first : Precedes s t) (second : Precedes t u) : Precedes s u :=
  ⟨fun b => (first.items b).trans (second.items b), first.nextId.trans second.nextId⟩

/-- A state precedes what it grows to. -/
theorem Grows.precedes (grows : Grows ok s t) : Precedes s t where
  items b := by
    obtain ⟨new, here, _⟩ := grows.items b
    exact ⟨new, here.symm⟩
  nextId := grows.nextId

/-- A state precedes the one with an instruction more. -/
theorem CodeGen.precedes_built (s : CodeGen) (i : Instr) : Precedes s (s.built i) :=
  Grows.precedes (.ofStep (.build i fun _ _ => trivial) : Grows Set.univ s (s.built i))

/-- A built instruction takes the next register. -/
theorem CodeGen.nextId_built (s : CodeGen) (i : Instr) : (s.built i).nextId = s.nextId + 1 := rfl

/-- Results agree with themselves. -/
theorem AgreeBelow.refl (bound : Nat) (results : Results) : AgreeBelow bound results results :=
  fun _ _ => rfl

/-- Results that agree with the same ones agree, as far as both do. -/
theorem AgreeBelow.trans {bound bound' : Nat} {first second third : Results}
    (early : AgreeBelow bound first second) (late : AgreeBelow bound' second third)
    (le : bound ≤ bound') : AgreeBelow bound first third :=
  fun id below => (late id (below.trans_le le)).trans (early id below)

/-- A result changed at the bound leaves those below. -/
theorem agreeBelow_update (results : Results) (bound n : Nat) :
    AgreeBelow bound results (Function.update results bound n) :=
  fun _ below => Function.update_of_ne (Nat.ne_of_lt below) n results

end Precedes

/-- What takes builder steps adds code. -/
theorem Emits.grows {α : Type} {x : Gen α} {a : α} {good : α → Prop} {s t : CodeGen}
    (emits : Emits Set.univ x good) (returned : Returns x s a t) : Grows Set.univ s t :=
  (emits s a t returned s.uses_univ).1.grows

namespace Gen

variable {s t : CodeGen} {h : Handle} {v : SigilValue} {size : Nat} {off : Offset} {u : Unit}

/-- The code of a variable is only added. -/
theorem grows_getVar {name : String} (returned : Returns (getVar name) s v t) :
    Grows Set.univ s t :=
  (emits_getVar name).grows returned

/-- The code of two integers brought to one width is only added. -/
theorem grows_normalizeIntTypes {a b : IntValue} {p : IntValue × IntValue}
    (returned : Returns (normalizeIntTypes a b) s p t) : Grows Set.univ s t :=
  (emits_normalizeIntTypes (fun _ _ => trivial) fun _ _ => trivial).grows returned

/-- The code of a resized integer is only added. -/
theorem grows_resizeInt {a b : IntValue} {width : Nat} (returned : Returns (resizeInt a width) s b t) :
    Grows Set.univ s t :=
  (emits_resizeInt fun _ _ => trivial).grows returned

/-- The code of a bounds check is only added. -/
theorem grows_boundsCheck {offset : IntValue} {allocated : Nat}
    (returned : Returns (emitBoundsCheck offset size allocated) s u t) : Grows Set.univ s t :=
  (emits_boundsCheck size allocated fun _ _ => trivial).grows returned

/-- The code of a dereferenced handle is only added. -/
theorem grows_derefHandle {role : String} (returned : Returns (derefHandle role v) s h t) :
    Grows Set.univ s t :=
  (emits_derefHandle fun _ _ => trivial).grows returned

/-- The code of an offset is only added. -/
theorem grows_compileOffset {offset : Option Expr} (returned : Returns (compileOffset offset) s off t) :
    Grows Set.univ s t :=
  (emits_compileOffset fun e _ => emits_compileExpr _ e).grows returned

/-- The code of the check of an offset is only added. -/
theorem grows_checkOffset (returned : Returns (checkOffset h size off) s u t) :
    Grows Set.univ s t :=
  (emits_checkOffset fun _ _ => trivial).grows returned

/-- The code of an address is only added. -/
theorem grows_address {p : PtrValue} (returned : Returns (address h off) s p t) :
    Grows Set.univ s t :=
  (emits_address (fun _ _ => trivial) fun _ _ => trivial).grows returned

/-- The code of a load is only added. -/
theorem grows_load (returned : Returns (load h size off) s v t) : Grows Set.univ s t :=
  (emits_load (fun _ _ => trivial) fun _ _ => trivial).grows returned

/-- The code of a store is only added. -/
theorem grows_store (returned : Returns (store h v size off) s u t) : Grows Set.univ s t :=
  (emits_store (fun _ _ => trivial) (fun _ _ => trivial) fun _ _ => trivial).grows returned

end Gen

section Operands

variable {results results' : Results} {bound : Nat}

/-- An integer has the same value under results that agree on its registers. -/
theorem IntValue.eval_agree {i : IntValue} (agree : AgreeBelow bound results results')
    (below : ∀ r ∈ i.regs, r < bound) : i.eval results' = i.eval results := by
  cases i with
  | const width n => rfl
  | reg width id folded =>
      exact congrArg (BitVec.ofNat width) (agree id (below id (by simp [IntValue.regs])))

/-- A pointer has the same value under results that agree on its registers. -/
theorem PtrValue.eval_agree {p : PtrValue} (placement : Placement)
    (agree : AgreeBelow bound results results') (below : ∀ r ∈ p.regs, r < bound) :
    p.eval placement results' = p.eval placement results := by
  cases p with
  | null | param _ | global _ | function _ => rfl
  | reg id folded =>
      exact congrArg (BitVec.ofNat 64) (agree id (below id (by simp [PtrValue.regs])))

end Operands

section Reaches

variable {placement : Placement} {code : Nat → List Item} {s : CodeGen} {results : Results}
  {memory : AddressSpace}

/-- The item after the code of a state is the next one there. -/
theorem Contains.next {item : Item} (contains : Contains code s) {b : Nat} {before rest : List Item}
    (here : s.items b = before ++ item :: rest) : (code b)[before.length]? = some item := by
  obtain ⟨later, extended⟩ := contains b
  rw [← extended, here]
  simp

/-- The machine executes an instruction just built. -/
theorem CodeGen.reaches_built {i : Instr} {n : Nat} {memory' : AddressSpace}
    (contains : Contains code (s.built i)) (inRange : s.current < s.blocks.length)
    (done : i.execute placement results memory = some (n, memory')) :
    Machine.Reaches placement code (s.machine results memory)
      ((s.built i).machine (Function.update results s.nextId n) memory') := by
  have here : (s.built i).items s.current = s.items s.current ++
      (if i.folds then .folded s.nextId i else .instr s.nextId i) :: [] := by
    rw [s.items_built inRange, if_pos rfl]
  have next := contains.next here
  have reached : (s.built i).machine (Function.update results s.nextId n) memory' =
      ⟨s.current, (s.items s.current).length + 1, Function.update results s.nextId n, memory'⟩ := by
    rw [CodeGen.machine, CodeGen.current_built, here]
    simp
  rw [reached]
  refine .single ?_
  unfold Machine.step CodeGen.machine
  rw [next]
  cases i.folds <;> simp [done]

end Reaches

end Sigil
