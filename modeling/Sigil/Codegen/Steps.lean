import Sigil.Codegen.Function

/-!
# What the builder's steps do

One lemma for each step of the builder, saying when it returns what. They are simp
lemmas, so a returning run of the generator comes apart into its steps.
-/

namespace Sigil

open Flow

/-- A branch of the generator. -/
@[simp] theorem returns_ite {α : Type} {c : Prop} [Decidable c] {x y : Gen α} {s t : CodeGen}
    {a : α} : Returns (if c then x else y) s a t ↔ if c then Returns x s a t else Returns y s a t := by
  split <;> rfl

namespace CodeGen

variable {cg : CodeGen} {item : Item} {b : Nat}

/-- What building an instruction leaves. -/
def built (cg : CodeGen) (i : Instr) : CodeGen :=
  (cg.push (if i.folds then .folded cg.nextId i else .instr cg.nextId i)).fresh

/-- What declaring a function leaves. -/
def declared (cg : CodeGen) (symbol : String) : CodeGen :=
  { cg with moduleFns := cg.moduleFns.insert symbol }

/-- What appending a block leaves. -/
def appended (cg : CodeGen) (name : String) : CodeGen :=
  { cg with blocks := cg.blocks ++ [{ name := name }] }

/-- What moving the insertion point leaves. -/
def positioned (cg : CodeGen) (b : Nat) : CodeGen :=
  { cg with current := b }

/-- What binding a name leaves. -/
def bound (cg : CodeGen) (name : String) (value : SigilValue) : CodeGen :=
  { cg with vars := cg.vars.insert name value }

/-- An item goes to the end of the block at the insertion point. -/
theorem items_push (cg : CodeGen) (inRange : cg.current < cg.blocks.length) :
    (cg.push item).items b = if b = cg.current then cg.items b ++ [item] else cg.items b := by
  unfold push items
  rw [List.getElem?_modify]
  by_cases here : b = cg.current
  · subst here
    simp [inRange]
  · simp [here, Ne.symm here]

end CodeGen

namespace Gen

variable {s t : CodeGen} {i : Instr} {id width : Nat}

/-- Building takes the next register. -/
@[simp] theorem returns_build : Returns (build i) s id t ↔ id = s.nextId ∧ t = s.built i := by
  simp only [build, returns_bind, returns_get, returns_modify, returns_pure]
  constructor
  · rintro ⟨_, _, ⟨rfl, rfl⟩, _, _, rfl, rfl, rfl⟩
    exact ⟨rfl, rfl⟩
  · rintro ⟨rfl, rfl⟩
    exact ⟨_, _, ⟨rfl, rfl⟩, (), _, rfl, rfl, rfl⟩

/-- An integer instruction gives the next register at its width. -/
@[simp] theorem returns_buildInt {v : IntValue} :
    Returns (buildInt width i) s v t ↔ v = .reg width s.nextId i.folds ∧ t = s.built i := by
  simp only [buildInt, returns_bind, returns_build, returns_pure]
  constructor
  · rintro ⟨_, _, ⟨rfl, rfl⟩, rfl, rfl⟩
    exact ⟨rfl, rfl⟩
  · rintro ⟨rfl, rfl⟩
    exact ⟨_, _, ⟨rfl, rfl⟩, rfl, rfl⟩

/-- A float instruction gives the next register at its width. -/
@[simp] theorem returns_buildFloat {v : FloatValue} :
    Returns (buildFloat width i) s v t ↔ v = .reg width s.nextId i.folds ∧ t = s.built i := by
  simp only [buildFloat, returns_bind, returns_build, returns_pure]
  constructor
  · rintro ⟨_, _, ⟨rfl, rfl⟩, rfl, rfl⟩
    exact ⟨rfl, rfl⟩
  · rintro ⟨rfl, rfl⟩
    exact ⟨_, _, ⟨rfl, rfl⟩, rfl, rfl⟩

/-- A pointer instruction gives the next register. -/
@[simp] theorem returns_buildPtr {v : PtrValue} :
    Returns (buildPtr i) s v t ↔ v = .reg s.nextId i.folds ∧ t = s.built i := by
  simp only [buildPtr, returns_bind, returns_build, returns_pure]
  constructor
  · rintro ⟨_, _, ⟨rfl, rfl⟩, rfl, rfl⟩
    exact ⟨rfl, rfl⟩
  · rintro ⟨rfl, rfl⟩
    exact ⟨_, _, ⟨rfl, rfl⟩, rfl, rfl⟩

/-- Terminating pushes the block's end. -/
@[simp] theorem returns_terminate {e : BlockEnd} {u : Unit} :
    Returns (terminate e) s u t ↔ t = s.push (.term e) := returns_modify

/-- A new block is the last. -/
@[simp] theorem returns_appendBlock {name : String} {b : Nat} :
    Returns (appendBlock name) s b t ↔
      b = s.blocks.length ∧ t = s.appended name := by
  simp only [appendBlock, returns_bind, returns_get, returns_modify, returns_pure]
  constructor
  · rintro ⟨_, _, ⟨rfl, rfl⟩, _, _, rfl, rfl, rfl⟩
    exact ⟨rfl, rfl⟩
  · rintro ⟨rfl, rfl⟩
    exact ⟨_, _, ⟨rfl, rfl⟩, (), _, rfl, rfl, rfl⟩

/-- Positioning moves to the block. -/
@[simp] theorem returns_positionAtEnd {b : Nat} {u : Unit} :
    Returns (positionAtEnd b) s u t ↔ t = s.positioned b := returns_modify

/-- Declaring adds the symbol. -/
@[simp] theorem returns_declare {symbol : String} {u : Unit} :
    Returns (declare symbol) s u t ↔ t = s.declared symbol := returns_modify

/-- A call of the runtime declares its symbol and takes the next register. -/
@[simp] theorem returns_callRuntime {symbol : String} {args : List CallArg} :
    Returns (callRuntime symbol args) s id t ↔
      id = s.nextId ∧ t = (s.declared symbol).built (.call symbol args) := by
  simp only [callRuntime, returns_bind, returns_declare, returns_build, exists_eq_left,
    exists_const]
  rfl

/-- An allocation gives the next register as its handle. -/
@[simp] theorem returns_allocHandle {size : Nat} {typ : HandleType} {h : Handle} :
    Returns (allocHandle size typ) s h t ↔
      h = ⟨.reg s.nextId false, size, typ⟩ ∧ t = s.built (.alloca (size % 2 ^ 32)) := by
  simp only [allocHandle, returns_bind, returns_buildPtr, returns_pure]
  constructor
  · rintro ⟨_, _, ⟨rfl, rfl⟩, rfl, rfl⟩
    exact ⟨rfl, rfl⟩
  · rintro ⟨rfl, rfl⟩
    exact ⟨_, _, ⟨rfl, rfl⟩, rfl, rfl⟩

/-- What allocating from the current scope leaves. -/
def scopeAllocated (s : CodeGen) (size : Nat) : CodeGen :=
  match s.currentScope with
  | none => s.built (.alloca (size % 2 ^ 32))
  | some scope => (s.declared "sigil_scope_alloc").built
      (.call "sigil_scope_alloc" [.ptr scope, .int (i64 size)])

/-- An allocation in the scope gives the next register as its handle. -/
@[simp] theorem returns_scopeAllocHandle {size : Nat} {typ : HandleType} {h : Handle} :
    Returns (scopeAllocHandle size typ) s h t ↔
      h = ⟨.reg s.nextId false, size, typ⟩ ∧ t = scopeAllocated s size := by
  have here : Returns (scopeAllocHandle size typ) s h t ↔ Returns (match s.currentScope with
      | none => allocHandle size typ
      | some scope => do
          let id ← callRuntime "sigil_scope_alloc" [.ptr scope, .int (i64 size)]
          return ⟨.reg id false, size, typ⟩) s h t := by
    simp only [scopeAllocHandle, returns_bind, returns_get]
    constructor
    · rintro ⟨_, _, ⟨rfl, rfl⟩, run⟩
      exact run
    · exact fun run => ⟨s, s, ⟨rfl, rfl⟩, run⟩
  rw [here, scopeAllocated]
  cases s.currentScope with
  | none => exact returns_allocHandle
  | some scope =>
      simp only [returns_bind, returns_callRuntime, returns_pure]
      constructor
      · rintro ⟨_, _, ⟨rfl, rfl⟩, rfl, rfl⟩
        exact ⟨rfl, rfl⟩
      · rintro ⟨rfl, rfl⟩
        exact ⟨_, _, ⟨rfl, rfl⟩, rfl, rfl⟩

/-- A lifted result is the result. -/
@[simp] theorem returns_lift {α : Type} {result : Except CodeGenError α} {a : α} :
    Returns (lift result) s a t ↔ result = .ok a ∧ t = s := by
  unfold lift
  cases result with
  | ok b =>
      rw [returns_pure, Except.ok.injEq]
      exact and_congr_right fun _ => eq_comm
  | error e => simp

/-- Only an integer is taken for one. -/
@[simp] theorem returns_asInt {v : SigilValue} {i : IntValue} :
    Returns (asInt v) s i t ↔ v = .immediate i ∧ t = s := by
  cases v <;> simp [asInt, SigilValue.asInt]

/-- Only a float is taken for one. -/
@[simp] theorem returns_asFloat {v : SigilValue} {f : FloatValue} :
    Returns (asFloat v) s f t ↔ v = .float f ∧ t = s := by
  cases v <;> simp [asFloat, SigilValue.asFloat]

/-- Only a handle is taken for one. -/
@[simp] theorem returns_asHandle {v : SigilValue} {h : Handle} :
    Returns (asHandle v) s h t ↔ v = .handle h ∧ t = s := by
  cases v <;> simp [asHandle, SigilValue.asHandle]

/-- Binding a name binds it. -/
@[simp] theorem returns_bindVar {name : String} {v : SigilValue} {u : Unit} :
    Returns (bindVar name v) s u t ↔ t = s.bound name v := returns_modify

end Gen

end Sigil
