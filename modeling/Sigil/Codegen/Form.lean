import Sigil.Codegen.Steps

/-!
# The form of generated values

Whether an expression is generated as memory, an integer or a float, how large the
memory is and how wide the number: a function of the expression and of what the names
in it stand for.
-/

namespace Sigil

open Flow

/-- The kind and the extent of a value. -/
inductive Form where
  | memory (size : Nat) (typ : HandleType)
  | int (width : Nat)
  | float (width : Nat)
  deriving DecidableEq, Repr

def SigilValue.form : SigilValue → Form
  | handle h => .memory h.size h.typ
  | immediate i => .int i.width
  | float f => .float f.width

/-- What the generator knows of names. -/
@[ext]
structure Names where
  vars : String → Option Form
  slots : String → Option SlotType
  outputs : String → Option (List OutputSlot)
  callees : String → List OutputSlot

def CodeGen.names (cg : CodeGen) : Names where
  vars name := (cg.vars.lookup name).map SigilValue.form
  slots name := (cg.mutableSlots.lookup name).map Prod.snd
  outputs name := (cg.callOutputs.lookup name).map CallOutputs.slots
  callees name := Gen.outputsOf cg name

/-- The wider of two integers. -/
def Form.wider : Form → Form → Option Form
  | int a, int b => some (.int (max a b))
  | _, _ => none

/-- What LOAD reads from memory of a form; an integer is an address. -/
def Form.loaded (size : Nat) : Form → Option Form
  | memory _ .float => some (.float (if size = 4 then 32 else 64))
  | memory _ _ | int _ => some (.int (Gen.intWidth size))
  | float _ => none

namespace Names

/-- A variable: 64 bits if it has a slot for integers. -/
def read (n : Names) (name : String) : Option Form :=
  match n.slots name with
  | some .int => some (.int 64)
  | some (.float width) => some (.float width)
  | none => n.vars name

/-- A field of a CALL result; a string is behind a pointer of unknown size. -/
def field (n : Names) (base field : String) : Option Form := do
  let slot ← (← n.outputs base).find? fun slot => slot.name = field
  return if slot.typ = .string then .memory 0 .string else .memory slot.size slot.typ

/-- The result of a CALL: one buffer for all outputs. -/
def result (n : Names) (behavior : String) : Form :=
  let total := ((n.callees behavior).map OutputSlot.size).sum
  if total > 0 then .memory total .bytes else .int 64

/-- A CALL with outputs leaves them under `__pending`. -/
def called (n : Names) (behavior : String) : Names :=
  let slots := n.callees behavior
  if (slots.map OutputSlot.size).sum > 0 then
    { n with outputs := Function.update n.outputs "__pending" (some slots) }
  else n

mutual

/-- What is known of names after the code for an expression. -/
def after (n : Names) : Expr → Names
  | .intLit _ | .floatLit _ | .stringLit _ | .var _ | .field _ _ | .alloc _ _ _ | .wait _
  | .channelReceive _ => n
  | .load a _ none | .ineg a _ | .not a _ | .fneg a _ | .ftoi a _ _ | .itof a _ _
  | .atomicLoad a _ | .channel _ a => n.after a
  | .load a _ (some b) | .intArith _ a b _ | .floatArith _ a b _ | .intCmp _ a b _
  | .floatCmp _ a b _ | .bitwise _ a b _ | .atomicStore a b _ | .atomicRmw _ a b _ =>
      (n.after a).after b
  | .cas a b c _ => ((n.after a).after b).after c
  | .call behavior args => (n.afterAll args).called behavior
  | .spawn _ args => n.afterAll args

def afterAll (n : Names) : List Expr → Names
  | [] => n
  | arg :: rest => (n.after arg).afterAll rest

end

/-- The form of an expression. -/
def formOf (n : Names) : Expr → Option Form
  | .intLit _ => some (.int 64)
  | .floatLit _ => some (.float 64)
  | .stringLit s => some (.memory (8 + s.toUTF8.toList.length) .string)
  | .var name => n.read name
  | .field (.var base) f => n.field base f
  | .field _ _ => none
  | .alloc size typ _ => some (.memory ((size.evalConstInt.map BitVec.toNat).getD 64) (.ofAst typ))
  | .load source size _ | .atomicLoad source size => (n.formOf source).bind (Form.loaded size)
  | .intArith _ a b _ | .bitwise _ a b _ => do
      (← n.formOf a).wider (← (n.after a).formOf b)
  | .intCmp _ _ _ _ | .floatCmp _ _ _ _ | .cas _ _ _ _ | .spawn _ _ | .wait _ | .channel _ _
  | .channelReceive _ | .ineg _ _ => some (.int 64)
  | .not a _ | .fneg a _ => n.formOf a
  | .floatArith _ a _ _ => n.formOf a
  | .ftoi _ _ intSize => some (.int (Gen.intWidth intSize))
  | .itof _ _ floatSize => some (.float (if floatSize = 4 then 32 else 64))
  | .atomicStore target value _ | .atomicRmw _ target value _ => (n.after target).formOf value
  | .call behavior args => some ((n.afterAll args).result behavior)

end Names

/-- From a state with the names `n` a computation returns a good result, and leaves the
names `n'`. -/
def Leaves {α : Type} (n : Names) (x : Gen α) (good : α → Prop) (n' : Names) : Prop :=
  ∀ s a t, Returns x s a t → s.names = n → good a ∧ t.names = n'

namespace Leaves

variable {α β : Type} {n m n' : Names} {x : Gen α} {f : α → Gen β} {good : α → Prop}
  {good' : β → Prop}

/-- A generator that does nothing leaves the names. -/
theorem pure {a : α} (holds : good a) : Leaves n (pure a : Gen α) good n := by
  intro s a' t returned names
  obtain ⟨rfl, rfl⟩ := returns_pure.mp returned
  exact ⟨holds, names⟩

/-- A failing generator leaves anything. -/
theorem throw (e : CodeGenError) : Leaves n (throw e : Gen α) good n' :=
  fun _ _ _ returned => absurd returned not_returns_throw

/-- Behind a failing generator anything is left. -/
theorem throw_bind (e : CodeGenError) : Leaves n ((MonadExcept.throw e : Gen α) >>= f) good' n' := by
  intro s b t returned
  obtain ⟨a, m, thrown, _⟩ := returns_bind.mp returned
  exact absurd thrown not_returns_throw

/-- Generators one after the other leave what the last leaves. -/
theorem bind (first : Leaves n x good m) (second : ∀ a, good a → Leaves m (f a) good' n') :
    Leaves n (x >>= f) good' n' := by
  intro s b t returned names
  obtain ⟨a, u, one, two⟩ := returns_bind.mp returned
  obtain ⟨holds, names⟩ := first s a u one names
  exact second a holds u b t two names

/-- What reads the state leaves what each branch leaves. -/
theorem get_bind {f : CodeGen → Gen β} (next : ∀ s, s.names = n → Leaves n (f s) good' n') :
    Leaves n (get >>= f) good' n' := by
  intro s b t returned names
  obtain ⟨_, _, read, run⟩ := returns_bind.mp returned
  obtain ⟨rfl, rfl⟩ := returns_get.mp read
  exact next _ names _ b t run names

/-- A changed state leaves the names it has. -/
theorem modify {f : CodeGen → CodeGen} (square : ∀ s, s.names = n → (f s).names = n') :
    Leaves n (modify f : Gen PUnit) (fun _ => True) n' := by
  intro s u t returned names
  obtain rfl := returns_modify.mp returned
  exact ⟨trivial, square s names⟩

/-- What is known of the result may be weakened. -/
theorem mono {weaker : α → Prop} (leaves : Leaves n x good n') (weaken : ∀ a, good a → weaker a) :
    Leaves n x weaker n' := by
  intro s a t returned names
  obtain ⟨holds, names⟩ := leaves s a t returned names
  exact ⟨weaken a holds, names⟩

end Leaves

namespace Gen

variable {n n' m : Names} {width : Nat} {i : Instr}

/-- The form and the names that an instruction leaves. -/
theorem leaves_build : Leaves n (build i) (fun _ => True) n := by
  intro s a t returned names
  obtain ⟨rfl, rfl⟩ := returns_build.mp returned
  exact ⟨trivial, names⟩

/-- The form and the names that an integer instruction leaves. -/
theorem leaves_buildInt : Leaves n (buildInt width i) (fun v => v.width = width) n := by
  apply leaves_build.bind
  intro id _
  exact .pure rfl

/-- The form and the names that a float instruction leaves. -/
theorem leaves_buildFloat : Leaves n (buildFloat width i) (fun v => v.width = width) n := by
  apply leaves_build.bind
  intro id _
  exact .pure rfl

/-- The form and the names that a pointer instruction leaves. -/
theorem leaves_buildPtr : Leaves n (buildPtr i) (fun _ => True) n := by
  apply leaves_build.bind
  intro id _
  exact .pure trivial

/-- The form and the names that a declaration leaves. -/
theorem leaves_declare (symbol : String) : Leaves n (declare symbol) (fun _ => True) n :=
  .modify fun _ names => names

/-- The form and the names that a call of the runtime leaves. -/
theorem leaves_callRuntime (symbol : String) (args : List CallArg) :
    Leaves n (callRuntime symbol args) (fun _ => True) n := by
  apply (leaves_declare symbol).bind
  intro _ _
  exact leaves_build

/-- The form and the names that the test for an integer leaves. -/
theorem leaves_asInt (v : SigilValue) : Leaves n (asInt v) (fun i => v.form = .int i.width) n := by
  cases v with
  | immediate i => exact .pure rfl
  | handle h | float f => exact .throw _

/-- The form and the names that the test for a float leaves. -/
theorem leaves_asFloat (v : SigilValue) :
    Leaves n (asFloat v) (fun f => v.form = .float f.width) n := by
  cases v with
  | float f => exact .pure rfl
  | handle h | immediate i => exact .throw _

/-- The form and the names that the test for a handle leaves. -/
theorem leaves_asHandle (v : SigilValue) :
    Leaves n (asHandle v) (fun h => v.form = .memory h.size h.typ) n := by
  cases v with
  | handle h => exact .pure rfl
  | immediate i | float f => exact .throw _

/-- Normalization leaves two integers as wide as the wider one was. -/
theorem leaves_normalizeIntTypes (a b : IntValue) :
    Leaves n (normalizeIntTypes a b) (fun p => p.1.width = max a.width b.width) n := by
  unfold normalizeIntTypes
  by_cases same : a.width = b.width
  · rw [if_pos same]
    exact .pure (by rw [same, max_self])
  · rw [if_neg same]
    by_cases wider : a.width > b.width
    · rw [if_pos wider]
      apply leaves_buildInt.bind
      intro extended _
      exact .pure (max_eq_left wider.le).symm
    · rw [if_neg wider]
      apply leaves_buildInt.bind
      intro extended wide
      exact .pure (wide.trans (max_eq_right (by omega)).symm)

/-- The form and the names that a resized integer leaves. -/
theorem leaves_resizeInt (a : IntValue) (width : Nat) :
    Leaves n (resizeInt a width) (fun _ => True) n := by
  unfold resizeInt
  split
  · exact .pure trivial
  · split
    all_goals exact leaves_buildInt.mono fun _ _ => trivial

/-- The form and the names that a bounds check leaves. -/
theorem leaves_emitBoundsCheck (offset : IntValue) (accessSize allocatedSize : Nat) :
    Leaves n (emitBoundsCheck offset accessSize allocatedSize) (fun _ => True) n := by
  apply leaves_buildInt.bind
  intro endOffset _
  apply leaves_buildInt.bind
  intro isViolation _ s u t returned names
  simp only [returns_bind, returns_appendBlock, returns_terminate, returns_positionAtEnd,
    returns_callRuntime] at returned
  obtain ⟨_, _, ⟨rfl, rfl⟩, _, _, ⟨rfl, rfl⟩, _, _, rfl, _, _, rfl, _, _, ⟨rfl, rfl⟩, _, _, rfl, rfl⟩ :=
    returned
  exact ⟨trivial, names⟩

/-- The form and the names that an allocation leaves. -/
theorem leaves_allocHandle (size : Nat) (typ : HandleType) :
    Leaves n (allocHandle size typ) (fun h => h.size = size ∧ h.typ = typ) n := by
  apply leaves_buildPtr.bind
  intro p _
  exact .pure ⟨rfl, rfl⟩

/-- The form and the names that an allocation in the scope leaves. -/
theorem leaves_scopeAllocHandle (size : Nat) (typ : HandleType) :
    Leaves n (scopeAllocHandle size typ) (fun h => h.size = size ∧ h.typ = typ) n := by
  apply Leaves.get_bind
  intro s _
  split
  · exact leaves_allocHandle size typ
  · apply (leaves_callRuntime _ _).bind
    intro id _
    exact .pure ⟨rfl, rfl⟩

/-- The form and the names that the check of an offset leaves. -/
theorem leaves_checkOffset (h : Handle) (size : Nat) (offset : Offset) :
    Leaves n (checkOffset h size offset) (fun _ => True) n := by
  cases offset with
  | const k => exact .pure trivial
  | dynamic offset =>
      apply Leaves.get_bind
      intro s _
      split
      · exact leaves_emitBoundsCheck _ _ _
      · exact .pure trivial

/-- The form and the names that an address leaves. -/
theorem leaves_address (h : Handle) (offset : Offset) :
    Leaves n (address h offset) (fun _ => True) n := by
  unfold address
  split
  · exact .pure trivial
  · exact leaves_buildPtr
  · exact leaves_buildPtr

/-- The form and the names that a load leaves. -/
theorem leaves_load (h : Handle) (size : Nat) (offset : Offset) :
    Leaves n (load h size offset)
      (fun v => Form.loaded size (.memory h.size h.typ) = some v.form) n := by
  apply (leaves_checkOffset h size offset).bind
  intro _ _
  apply (leaves_address h offset).bind
  intro ptr _
  cases typ : h.typ with
  | float =>
      apply leaves_buildFloat.bind
      intro f wide
      exact .pure (by rw [SigilValue.form, wide, Form.loaded])
  | int | bytes | string =>
      apply leaves_buildInt.bind
      intro i wide
      exact .pure (by simp [SigilValue.form, wide, Form.loaded])

/-- The form and the names that a store leaves. -/
theorem leaves_store (h : Handle) (value : SigilValue) (size : Nat) (offset : Offset) :
    Leaves n (store h value size offset) (fun _ => True) n := by
  apply (leaves_checkOffset h size offset).bind
  intro _ _
  apply (leaves_address h offset).bind
  intro ptr _
  cases value with
  | immediate i =>
      apply (leaves_resizeInt i _).bind
      intro _ _
      apply leaves_build.bind
      intro _ _
      exact .pure trivial
  | handle src =>
      apply leaves_buildInt.bind
      intro address _
      apply (leaves_resizeInt address _).bind
      intro _ _
      apply leaves_build.bind
      intro _ _
      exact .pure trivial
  | float f =>
      apply leaves_build.bind
      intro _ _
      exact .pure trivial

/-- The memory in which a value of a form is passed. -/
def passedSize : Form → Nat
  | .memory size _ => size
  | .int width => max (width / 8) 8
  | .float width => if width = 32 then 4 else 8

/-- The form and the names that the handle of an immediate leaves. -/
theorem leaves_immediateToHandle (v : SigilValue) :
    Leaves n (immediateToHandle v) (fun h => h.size = passedSize v.form) n := by
  cases v with
  | handle h => exact .pure rfl
  | immediate i =>
      apply (leaves_allocHandle _ _).bind
      intro h made
      apply leaves_build.bind
      intro _ _
      exact .pure made.1
  | float f =>
      apply (leaves_allocHandle _ _).bind
      intro h made
      apply leaves_build.bind
      intro _ _
      exact .pure made.1

/-- A value of the form the names give an expression. -/
abbrev LeavesForm (n : Names) (e : Expr) (x : Gen SigilValue) : Prop :=
  Leaves n x (fun v => n.formOf e = some v.form) (n.after e)

/-- The form and the names that a variable leaves. -/
theorem leaves_getVar (name : String) :
    Leaves n (getVar name) (fun v => n.read name = some v.form) n := by
  apply Leaves.get_bind
  rintro s rfl
  have slot : s.names.slots name = (s.mutableSlots.lookup name).map Prod.snd := rfl
  have var : s.names.vars name = (s.vars.lookup name).map SigilValue.form := rfl
  unfold Names.read
  rw [slot, var]
  cases s.mutableSlots.lookup name with
  | some slot =>
      rcases slot with ⟨ptr, _ | width⟩
      · apply leaves_buildInt.bind
        intro i wide
        exact .pure (by simp [SigilValue.form, wide])
      · apply leaves_buildFloat.bind
        intro f wide
        exact .pure (by simp [SigilValue.form, wide])
  | none =>
      cases s.vars.lookup name with
      | some value => exact .pure rfl
      | none => exact .throw _

/-- The form and the names that a binding leaves. -/
theorem leaves_getBinding (name : String) : Leaves n (getBinding name) (fun _ => True) n := by
  apply Leaves.get_bind
  intro s _
  split
  · exact .pure trivial
  · exact .throw _

/-- The form and the names that a field of call outputs leaves. -/
theorem leaves_getField (outputs : CallOutputs) (field : String) :
    Leaves n (getField outputs field) (fun h => ∃ slot, slot.size = h.size ∧ slot.typ = h.typ ∧
      (outputs.slots.find? fun slot => slot.name = field) = some slot) n := by
  unfold getField
  cases outputs.slots.find? fun slot => slot.name = field with
  | none => exact .throw _
  | some slot =>
      dsimp only
      split
      · apply leaves_buildPtr.bind
        intro ptr _
        exact .pure ⟨slot, rfl, rfl, rfl⟩
      · exact .pure ⟨slot, rfl, rfl, rfl⟩

/-- The form and the names that a field leaves. -/
theorem leaves_compileField (base : Expr) (field : String) :
    LeavesForm n (.field base field) (compileField base field) := by
  cases base with
  | var name =>
      apply Leaves.get_bind
      rintro s rfl
      have known : s.names.outputs name = (s.callOutputs.lookup name).map CallOutputs.slots := rfl
      have form : s.names.formOf (.field (.var name) field) = s.names.field name field := rfl
      rw [form, Names.field, known]
      cases s.callOutputs.lookup name with
      | none => exact .throw _
      | some outputs =>
          apply (leaves_getField outputs field).bind
          rintro h ⟨slot, size, typ, found⟩
          split
          next isString =>
            apply leaves_buildPtr.bind
            intro ptr _
            exact .pure (by simp [found, typ, isString, SigilValue.form])
          next notString =>
            exact .pure (by simp [found, typ, notString, SigilValue.form, size])
  | _ => exact .throw _

/-- The form and the names that an integer operation leaves. -/
theorem leaves_compileIntBinop {a b : Gen SigilValue} {fa fb : Option Form} (op : IntOp)
    (first : Leaves n a (fun v => fa = some v.form) m)
    (second : Leaves m b (fun v => fb = some v.form) n') :
    Leaves n (compileIntBinop op a b)
      (fun v => (do (← fa).wider (← fb)) = some v.form) n' := by
  apply first.bind
  rintro v rfl
  apply (leaves_asInt v).bind
  intro av formA
  apply second.bind
  rintro w rfl
  apply (leaves_asInt w).bind
  intro bv formB
  apply (leaves_normalizeIntTypes av bv).bind
  rintro ⟨x, y⟩ wide
  apply leaves_buildInt.bind
  intro r width
  refine .pure ?_
  rw [formA, formB]
  simp [SigilValue.form, Form.wider, width, ← wide]

/-- The form and the names that an integer comparison leaves. -/
theorem leaves_compileIntCmp {a b : Gen SigilValue} {good good' : SigilValue → Prop}
    (pred : IntPredicate) (first : Leaves n a good m) (second : Leaves m b good' n') :
    Leaves n (compileIntCmp pred a b) (fun v => v.form = .int 64) n' := by
  apply first.bind
  intro v _
  apply (leaves_asInt v).bind
  intro av _
  apply second.bind
  intro w _
  apply (leaves_asInt w).bind
  intro bv _
  apply (leaves_normalizeIntTypes av bv).bind
  intro p _
  apply leaves_buildInt.bind
  intro cmp _
  apply leaves_buildInt.bind
  intro r wide
  exact .pure (by rw [SigilValue.form, wide])

/-- The form and the names that a float operation leaves. -/
theorem leaves_compileFloatBinop {a b : Gen SigilValue} {fa : Option Form}
    {good : SigilValue → Prop} (op : FloatArith) (first : Leaves n a (fun v => fa = some v.form) m)
    (second : Leaves m b good n') :
    Leaves n (compileFloatBinop op a b) (fun v => fa = some v.form) n' := by
  apply first.bind
  rintro v rfl
  apply (leaves_asFloat v).bind
  intro av form
  apply second.bind
  intro w _
  apply (leaves_asFloat w).bind
  intro bv _
  apply leaves_buildFloat.bind
  intro r wide
  exact .pure (by rw [form, SigilValue.form, wide])

/-- The form and the names that a float comparison leaves. -/
theorem leaves_compileFloatCmp {a b : Gen SigilValue} {good good' : SigilValue → Prop}
    (pred : Comparison) (first : Leaves n a good m) (second : Leaves m b good' n') :
    Leaves n (compileFloatCmp pred a b) (fun v => v.form = .int 64) n' := by
  apply first.bind
  intro v _
  apply (leaves_asFloat v).bind
  intro av _
  apply second.bind
  intro w _
  apply (leaves_asFloat w).bind
  intro bv _
  apply leaves_buildInt.bind
  intro cmp _
  apply leaves_buildInt.bind
  intro r wide
  exact .pure (by rw [SigilValue.form, wide])

/-- The form and the names that INEG leaves. -/
theorem leaves_compileIneg {a : Gen SigilValue} {good : SigilValue → Prop}
    (operand : Leaves n a good m) : Leaves n (compileIneg a) (fun v => v.form = .int 64) m := by
  apply operand.bind
  intro v _
  apply (leaves_asInt v).bind
  intro av _
  apply leaves_buildInt.bind
  intro r wide
  exact .pure (by rw [SigilValue.form, wide])

/-- The form and the names that NOT leaves. -/
theorem leaves_compileNot {a : Gen SigilValue} {fa : Option Form}
    (operand : Leaves n a (fun v => fa = some v.form) m) :
    Leaves n (compileNot a) (fun v => fa = some v.form) m := by
  apply operand.bind
  rintro v rfl
  apply (leaves_asInt v).bind
  intro av form
  apply leaves_buildInt.bind
  intro r wide
  exact .pure (by rw [form, SigilValue.form, wide])

/-- The form and the names that FNEG leaves. -/
theorem leaves_compileFneg {a : Gen SigilValue} {fa : Option Form}
    (operand : Leaves n a (fun v => fa = some v.form) m) :
    Leaves n (compileFneg a) (fun v => fa = some v.form) m := by
  apply operand.bind
  rintro v rfl
  apply (leaves_asFloat v).bind
  intro av form
  apply leaves_buildFloat.bind
  intro r wide
  exact .pure (by rw [form, SigilValue.form, wide])

/-- The form and the names that FTOI leaves. -/
theorem leaves_compileFtoi {a : Gen SigilValue} {good : SigilValue → Prop}
    (operand : Leaves n a good m) (intSize : Nat) :
    Leaves n (compileFtoi a intSize) (fun v => v.form = .int (intWidth intSize)) m := by
  apply operand.bind
  intro v _
  apply (leaves_asFloat v).bind
  intro av _
  apply leaves_buildInt.bind
  intro r wide
  exact .pure (by rw [SigilValue.form, wide])

/-- The form and the names that ITOF leaves. -/
theorem leaves_compileItof {a : Gen SigilValue} {good : SigilValue → Prop}
    (operand : Leaves n a good m) (floatSize : Nat) :
    Leaves n (compileItof a floatSize)
      (fun v => v.form = .float (if floatSize = 4 then 32 else 64)) m := by
  apply operand.bind
  intro v _
  apply (leaves_asInt v).bind
  intro av _
  apply leaves_buildFloat.bind
  intro r wide
  exact .pure (by rw [SigilValue.form, wide])

/-- The form and the names that ATOMIC_STORE leaves. -/
theorem leaves_compileAtomicStore {a b : Gen SigilValue} {fb : Option Form}
    {good : SigilValue → Prop} (size : Nat) (first : Leaves n a good m)
    (second : Leaves m b (fun v => fb = some v.form) n') :
    Leaves n (compileAtomicStore a b size) (fun v => fb = some v.form) n' := by
  apply first.bind
  intro v _
  apply (leaves_asHandle v).bind
  intro h _
  apply second.bind
  rintro w rfl
  apply (leaves_store h w size _).bind
  intro _ _
  exact .pure rfl

/-- The form and the names that CAS leaves. -/
theorem leaves_compileCas {a b c : Gen SigilValue} {good good' good'' : SigilValue → Prop}
    {m' : Names} (first : Leaves n a good m) (second : Leaves m b good' m')
    (third : Leaves m' c good'' n') :
    Leaves n (compileCas a b c) (fun v => v.form = .int 64) n' := by
  apply first.bind
  intro v _
  apply (leaves_asHandle v).bind
  intro h _
  apply second.bind
  intro w _
  apply (leaves_asInt w).bind
  intro exp _
  apply third.bind
  intro x _
  apply (leaves_asInt x).bind
  intro new _
  split
  · exact .throw_bind _
  · apply leaves_build.bind
    intro result _
    apply leaves_buildInt.bind
    intro success _
    apply leaves_buildInt.bind
    intro r wide
    exact .pure (by rw [SigilValue.form, wide])

/-- The form and the names that an atomic update leaves. -/
theorem leaves_compileAtomicRmw {a b : Gen SigilValue} {good : SigilValue → Prop}
    {fb : Option Form} (op : AtomicRmw) (first : Leaves n a good m)
    (second : Leaves m b (fun v => fb = some v.form) n') :
    Leaves n (compileAtomicRmw op a b) (fun v => fb = some v.form) n' := by
  apply first.bind
  intro v _
  apply (leaves_asHandle v).bind
  intro h _
  apply second.bind
  rintro w rfl
  apply (leaves_asInt w).bind
  intro val form
  split
  · exact .throw_bind _
  · apply leaves_buildInt.bind
    intro r wide
    exact .pure (by rw [form, SigilValue.form, wide])

/-- The form and the names that a dereferenced handle leaves. -/
theorem leaves_derefHandle (role : String) (size : Nat) (v : SigilValue) :
    Leaves n (derefHandle role v)
      (fun h => v.form.loaded size = Form.loaded size (.memory h.size h.typ)) n := by
  cases v with
  | handle h => exact .pure rfl
  | immediate i =>
      apply leaves_buildPtr.bind
      intro p _
      exact .pure rfl
  | float f => exact .throw _

/-- The form and the names that an argument of SPAWN leaves. -/
theorem leaves_spawnArg (v : SigilValue) : Leaves n (spawnArg v) (fun _ => True) n := by
  cases v with
  | handle h => exact leaves_buildInt.mono fun _ _ => trivial
  | immediate i => exact .pure trivial
  | float f => exact leaves_buildInt.mono fun _ _ => trivial

/-- The form and the names that SPAWN leaves. -/
theorem leaves_compileSpawn (pattern : String) (argCount : Nat) {args : Handle → Gen Unit}
    (operands : ∀ h, Leaves n (args h) (fun _ => True) m) :
    Leaves n (compileSpawn pattern argCount args) (fun v => v.form = .int 64) m := by
  apply (leaves_declare _).bind
  intro _ _
  apply Leaves.get_bind
  intro s _
  split
  · exact .throw_bind _
  · apply (leaves_allocHandle _ _).bind
    intro h _
    apply (operands h).bind
    intro _ _
    apply leaves_buildInt.bind
    intro r wide
    exact .pure (by rw [SigilValue.form, wide])

/-- The form and the names that WAIT leaves. -/
theorem leaves_compileWait (handle : String) :
    Leaves n (compileWait handle) (fun v => v.form = .int 64) n := by
  apply (leaves_declare _).bind
  intro _ _
  apply (leaves_getBinding handle).bind
  intro v _
  apply (leaves_asInt v).bind
  intro i _
  apply leaves_build.bind
  intro _ _
  exact .pure rfl

/-- The form and the names that CHANNEL leaves. -/
theorem leaves_compileChannel {capacity : Gen SigilValue} {good : SigilValue → Prop}
    (operand : Leaves n capacity good m) :
    Leaves n (compileChannel capacity) (fun v => v.form = .int 64) m := by
  apply (leaves_declare _).bind
  intro _ _
  apply operand.bind
  intro v _
  apply (leaves_asInt v).bind
  intro i _
  apply leaves_buildInt.bind
  intro r wide
  exact .pure (by rw [SigilValue.form, wide])

/-- The form and the names that CHANNEL_RECEIVE leaves. -/
theorem leaves_compileChannelReceive (channel : String) :
    Leaves n (compileChannelReceive channel) (fun v => v.form = .int 64) n := by
  apply (leaves_declare _).bind
  intro _ _
  apply (leaves_getBinding channel).bind
  intro v _
  apply (leaves_asInt v).bind
  intro i _
  apply (leaves_allocHandle _ _).bind
  intro h _
  apply leaves_build.bind
  intro _ _
  apply leaves_buildInt.bind
  intro r wide
  exact .pure (by rw [SigilValue.form, wide])

/-- The form and the names that the pointers to the output slots leaves. -/
theorem leaves_slotPointers (buffer : Handle) (slots : List OutputSlot) :
    Leaves n (slotPointers buffer slots) (fun _ => True) n := by
  induction slots with
  | nil => exact .pure trivial
  | cons slot rest ih =>
      unfold slotPointers
      split
      · apply leaves_buildPtr.bind
        intro ptr _
        apply ih.bind
        intro _ _
        exact .pure trivial
      · have base : Leaves n (Pure.pure buffer.ptr) (fun _ => True) n := .pure trivial
        apply base.bind
        intro ptr _
        apply ih.bind
        intro _ _
        exact .pure trivial

/-- What a call leaves pending is what its signature says. -/
theorem leaves_compileCall (behavior : String) {args : Gen (List CallArg)}
    (known : m.callees = n.callees) (operands : Leaves n args (fun _ => True) m) :
    Leaves n (compileCall behavior args) (fun v => m.result behavior = v.form)
      (m.called behavior) := by
  have found : Leaves n (callee behavior) (fun _ => True) n := by
    apply Leaves.get_bind
    intro s _
    split
    · exact .pure trivial
    · split
      · exact .pure trivial
      · exact .throw _
  apply found.bind
  intro symbol _
  apply Leaves.get_bind
  rintro s rfl
  have slots : outputsOf s behavior = m.callees behavior := congrFun known.symm behavior
  apply operands.bind
  intro inputs _
  rw [slots]
  unfold Names.result Names.called
  dsimp only
  split
  next some_ =>
    apply (leaves_scopeAllocHandle _ _).bind
    rintro buffer ⟨size, typ⟩
    apply (leaves_slotPointers buffer _).bind
    intro pointers _
    apply leaves_build.bind
    intro _ _
    apply Leaves.bind (m := { m with outputs := Function.update m.outputs "__pending" (some (m.callees behavior)) })
    · refine .modify fun s names => ?_
      subst names
      refine Names.ext rfl rfl (funext fun name => ?_) rfl
      by_cases here : name = "__pending"
      · subst here
        simp [CodeGen.names]
      · simp [CodeGen.names, here]
    · intro _ _
      exact .pure (by rw [SigilValue.form, size, typ])
  next none_ =>
    apply leaves_build.bind
    intro _ _
    exact .pure rfl

/-- The form and the names that an offset leaves. -/
theorem leaves_compileOffset {offset : Option Expr}
    (operand : ∀ e ∈ offset, LeavesForm n e (compileExpr e)) :
    Leaves n (compileOffset offset) (fun _ => True) (match offset with
      | none => n
      | some e => n.after e) := by
  cases offset with
  | none => exact .pure trivial
  | some e =>
      unfold compileOffset
      cases constant : e.evalConstInt with
      | some k =>
          obtain ⟨l, rfl⟩ : ∃ l, e = .intLit l := by
            cases e <;> simp [Expr.evalConstInt] at constant
            exact ⟨_, rfl⟩
          exact .pure trivial
      | none =>
          apply (operand e rfl).bind
          intro v _
          apply (leaves_asInt v).bind
          intro i _
          exact .pure trivial

/-- The form and the names that the arguments of a CALL leaves. -/
theorem leaves_compileArgs {args : List Expr}
    (operands : ∀ e ∈ args, ∀ n, LeavesForm n e (compileExpr e)) :
    Leaves n (compileArgs args) (fun _ => True) (n.afterAll args) := by
  induction args generalizing n with
  | nil => exact .pure trivial
  | cons arg rest ih =>
      obtain ⟨here, others⟩ := List.forall_mem_cons.mp operands
      apply (here n).bind
      intro v _
      apply (leaves_immediateToHandle v).bind
      intro h _
      apply (ih others).bind
      intro ptrs _
      exact .pure trivial

/-- The form and the names that the arguments of a SPAWN leaves. -/
theorem leaves_compileSpawnArgs {args : List Expr} (buffer : Handle) (i : Nat)
    (operands : ∀ e ∈ args, ∀ n, LeavesForm n e (compileExpr e)) :
    Leaves n (compileSpawnArgs buffer i args) (fun _ => True) (n.afterAll args) := by
  induction args generalizing n i with
  | nil => exact .pure trivial
  | cons arg rest ih =>
      obtain ⟨here, others⟩ := List.forall_mem_cons.mp operands
      apply (here n).bind
      intro v _
      apply (leaves_spawnArg v).bind
      intro value _
      apply (leaves_store _ _ _ _).bind
      intro _ _
      exact ih (i + 1) others

mutual

/-- The code for an expression leaves the signatures alone. -/
theorem callees_after (n : Names) (e : Expr) : (n.after e).callees = n.callees := by
  cases e with
  | call behavior args =>
      have inner := callees_afterAll n args
      unfold Names.after Names.called
      dsimp only
      split <;> exact inner
  | spawn pattern args => exact callees_afterAll n args
  | load source size offset =>
      cases offset with
      | none => exact callees_after n source
      | some offset => exact (callees_after _ offset).trans (callees_after n source)
  | intArith _ a b _ | floatArith _ a b _ | intCmp _ a b _ | floatCmp _ a b _ | bitwise _ a b _
  | atomicStore a b _ | atomicRmw _ a b _ =>
      exact (callees_after _ b).trans (callees_after n a)
  | cas a b c _ => exact (callees_after _ c).trans ((callees_after _ b).trans (callees_after n a))
  | ineg a _ | not a _ | fneg a _ | ftoi a _ _ | itof a _ _ | atomicLoad a _ | channel _ a =>
      exact callees_after n a
  | _ => rfl

/-- Arguments change no callee. -/
theorem callees_afterAll (n : Names) (args : List Expr) :
    (n.afterAll args).callees = n.callees := by
  cases args with
  | nil => rfl
  | cons arg rest => exact (callees_afterAll _ rest).trans (callees_after n arg)

end

/-- An expression is generated as the form its names give it. -/
theorem leaves_compileExpr (n : Names) (e : Expr) : LeavesForm n e (compileExpr e) := by
  induction e using Expr.inductionOnChildren generalizing n with
  | step e operand =>
      unfold compileExpr
      cases e with
      | intLit k | floatLit bits => exact .pure rfl
      | stringLit s =>
          apply Leaves.get_bind
          intro cg names
          refine Leaves.bind (m := n) (.modify fun _ names => names) fun _ _ => .pure ?_
          simp [Names.formOf, SigilValue.form]
      | var name => exact leaves_getVar name
      | field base field => exact leaves_compileField base field
      | alloc size typ shared =>
          apply (leaves_scopeAllocHandle _ _).bind
          rintro h ⟨size, typ⟩
          exact .pure (by rw [Names.formOf, SigilValue.form, size, typ])
      | load source size offset =>
          have loads : ∀ m, Leaves (n.after source) (compileOffset offset) (fun _ => True) m →
              Leaves n (compileExpr source >>= fun v => derefHandle "LOAD source" v >>= fun h =>
                compileOffset offset >>= fun off => load h size off)
                (fun v => n.formOf (.load source size offset) = some v.form) m := by
            intro m offsets
            apply (operand source (by cases offset <;> simp [Expr.children]) n).bind
            intro v form
            apply (leaves_derefHandle _ size v).bind
            intro h deref
            apply offsets.bind
            intro off _
            apply (leaves_load h size off).mono
            intro value loaded
            rw [Names.formOf, form, Option.bind_some, deref, loaded]
          cases offset with
          | none => exact loads _ (leaves_compileOffset (by simp))
          | some offset =>
              refine loads _ (leaves_compileOffset ?_)
              rintro e at_
              obtain rfl := Option.some.inj at_
              exact operand offset (by simp [Expr.children]) _
      | call behavior args =>
          exact (leaves_compileCall behavior (callees_afterAll n args)
            (leaves_compileArgs operand)).mono fun v form => congrArg some form
      | intArith op a b size =>
          exact leaves_compileIntBinop _ (operand a (by simp [Expr.children]) n)
            (operand b (by simp [Expr.children]) _)
      | bitwise op a b size =>
          exact leaves_compileIntBinop _ (operand a (by simp [Expr.children]) n)
            (operand b (by simp [Expr.children]) _)
      | intCmp op a b size =>
          exact (leaves_compileIntCmp _ (operand a (by simp [Expr.children]) n)
            (operand b (by simp [Expr.children]) _)).mono fun v form => congrArg some form.symm
      | floatArith op a b size =>
          exact leaves_compileFloatBinop _ (operand a (by simp [Expr.children]) n)
            (operand b (by simp [Expr.children]) _)
      | floatCmp op a b size =>
          exact (leaves_compileFloatCmp _ (operand a (by simp [Expr.children]) n)
            (operand b (by simp [Expr.children]) _)).mono fun v form => congrArg some form.symm
      | ineg a size =>
          exact (leaves_compileIneg (operand a (by simp [Expr.children]) n)).mono
            fun v form => congrArg some form.symm
      | not a size => exact leaves_compileNot (operand a (by simp [Expr.children]) n)
      | fneg a size => exact leaves_compileFneg (operand a (by simp [Expr.children]) n)
      | ftoi value floatSize intSize =>
          exact (leaves_compileFtoi (operand value (by simp [Expr.children]) n) intSize).mono
            fun v form => congrArg some form.symm
      | itof value intSize floatSize =>
          exact (leaves_compileItof (operand value (by simp [Expr.children]) n) floatSize).mono
            fun v form => congrArg some form.symm
      | atomicLoad source size =>
          apply (operand source (by simp [Expr.children]) n).bind
          intro v form
          apply (leaves_asHandle v).bind
          intro h known
          apply (leaves_load h size _).mono
          intro value loaded
          rw [Names.formOf, form, Option.bind_some, known, loaded]
      | atomicStore target value size =>
          exact leaves_compileAtomicStore size (operand target (by simp [Expr.children]) n)
            (operand value (by simp [Expr.children]) _)
      | cas addr expected new size =>
          exact (leaves_compileCas (operand addr (by simp [Expr.children]) n)
            (operand expected (by simp [Expr.children]) _)
            (operand new (by simp [Expr.children]) _)).mono fun v form => congrArg some form.symm
      | atomicRmw op target value size =>
          exact leaves_compileAtomicRmw op (operand target (by simp [Expr.children]) n)
            (operand value (by simp [Expr.children]) _)
      | spawn pattern args =>
          exact (leaves_compileSpawn pattern args.length fun buffer =>
            leaves_compileSpawnArgs buffer 0 operand).mono fun v form => congrArg some form.symm
      | wait handle =>
          exact (leaves_compileWait handle).mono fun v form => congrArg some form.symm
      | channel typ capacity =>
          exact (leaves_compileChannel (operand capacity (by simp [Expr.children]) n)).mono
            fun v form => congrArg some form.symm
      | channelReceive channel =>
          exact (leaves_compileChannelReceive channel).mono fun v form => congrArg some form.symm

end Gen

end Sigil
