import Sigil.Codegen.Steps

/-!
# What generating an expression does to the generator

The generator gets from one state to the next by a few kinds of builder steps. Each
fact about generated code is a lemma about one step, and holds of every run because
a run is made of steps.
-/

namespace Sigil

open Flow Relation

namespace IntValue

/-- The register an integer is in. -/
def regs : IntValue → List Nat
  | const _ _ => []
  | reg _ id _ => [id]

end IntValue

def FloatValue.regs : FloatValue → List Nat
  | const _ => []
  | reg _ id _ => [id]

def PtrValue.regs : PtrValue → List Nat
  | null | param _ | global _ | function _ => []
  | reg id _ => [id]

def SigilValue.regs : SigilValue → List Nat
  | handle h => h.ptr.regs
  | immediate i => i.regs
  | float f => f.regs

def CallArg.regs : CallArg → List Nat
  | int i => i.regs
  | ptr p => p.regs

def Offset.regs : Offset → List Nat
  | const _ => []
  | dynamic i => i.regs

/-- The registers an instruction reads. -/
def Instr.regs : Instr → List Nat
  | intOp _ a b | icmp _ a b => a.regs ++ b.regs
  | floatOp _ a b | fcmp _ a b => a.regs ++ b.regs
  | not a | sext a _ | zext a _ | trunc a _ | sitofp a _ | inttoptr a => a.regs
  | fneg a | fptosi a _ | bitcast a => a.regs
  | ptrtoint p | load p _ | loadFloat p _ | loadPtr p => p.regs
  | alloca _ => []
  | store p a | atomicRmw _ p a => p.regs ++ a.regs
  | storeFloat p a => p.regs ++ a.regs
  | gep p index => p.regs ++ index.regs
  | memcpy dest src bytes => dest.regs ++ src.regs ++ bytes.regs
  | call _ args => args.flatMap CallArg.regs
  | cmpxchg p expected new => p.regs ++ expected.regs ++ new.regs
  | extractSuccess id => [id]

/-- The registers a terminator reads. -/
def BlockEnd.regs : BlockEnd → List Nat
  | condBr condition _ _ => condition.regs
  | ret (some status) => status.regs
  | br _ | ret none | unreachable => []

/-- The registers an item reads. -/
def Item.regs : Item → List Nat
  | instr _ i | folded _ i => i.regs
  | term t => t.regs

/-- The register an item writes. -/
def Item.result : Item → Option Nat
  | instr id _ | folded id _ => some id
  | term _ => none

/-- Every register of the generator's values, and every register to come, is one of
`ok`. -/
structure CodeGen.Uses (cg : CodeGen) (ok : Set Nat) : Prop where
  vars : ∀ {name value}, cg.vars.lookup name = some value → ∀ r ∈ value.regs, r ∈ ok
  outputs : ∀ {name outputs}, cg.callOutputs.lookup name = some outputs →
    ∀ r ∈ outputs.buffer.ptr.regs, r ∈ ok
  slots : ∀ {name slot}, cg.mutableSlots.lookup name = some slot → ∀ r ∈ slot.1.regs, r ∈ ok
  scope : ∀ {p}, cg.currentScope = some p → ∀ r ∈ p.regs, r ∈ ok
  fresh : ∀ {id}, cg.nextId ≤ id → id ∈ ok

/-- A step of the builder in code for an expression, over registers of `ok`. -/
inductive ExprStep (ok : Set Nat) : CodeGen → CodeGen → Prop where
  | build {s} (i : Instr) (operands : ∀ r ∈ i.regs, r ∈ ok) : ExprStep ok s (s.built i)
  | declare {s} (symbol : String) : ExprStep ok s (s.declared symbol)
  | constant {s} (bytes : List UInt8) :
      ExprStep ok s { s with globals := s.globals ++ [bytes] }
  | append {s} (name : String) : ExprStep ok s (s.appended name)
  | terminate {s} (e : BlockEnd) (operands : ∀ r ∈ e.regs, r ∈ ok) :
      ExprStep ok s (s.push (.term e))
  | position {s} (b : Nat) (inRange : b < s.blocks.length) : ExprStep ok s (s.positioned b)
  | outputs {s} (outputs : CallOutputs) (buffer : ∀ r ∈ outputs.buffer.ptr.regs, r ∈ ok) :
      ExprStep ok s { s with callOutputs := s.callOutputs.insert "__pending" outputs }

/-- The steps of code for an expression. -/
abbrev ExprSteps (ok : Set Nat) : CodeGen → CodeGen → Prop := ReflTransGen (ExprStep ok)

namespace ExprStep

variable {ok : Set Nat} {s t : CodeGen}

/-- A step of an expression reads known registers only. -/
theorem uses (step : ExprStep ok s t) (known : s.Uses ok) : t.Uses ok := by
  cases step with
  | build i operands => exact { known with fresh := fun le => known.fresh (Nat.le_of_succ_le le) }
  | declare symbol | constant bytes | append name | terminate e operands | position b inRange =>
      exact ⟨known.vars, known.outputs, known.slots, known.scope, known.fresh⟩
  | outputs outputs buffer =>
      refine { known with outputs := ?_ }
      intro name found lookup
      by_cases here : name = "__pending"
      · subst here
        rw [AList.lookup_insert] at lookup
        obtain rfl := Option.some.inj lookup
        exact buffer
      · rw [AList.lookup_insert_ne here] at lookup
        exact known.outputs lookup

end ExprStep

/-- The steps of an expression read known registers only. -/
theorem ExprSteps.uses {ok : Set Nat} {s t : CodeGen} (steps : ExprSteps ok s t)
    (known : s.Uses ok) : t.Uses ok := by
  induction steps with
  | refl => exact known
  | tail _ step ih => exact step.uses ih

/-- A computation takes builder steps over registers of `ok`, and its result is
`good`. -/
def Emits {α : Type} (ok : Set Nat) (x : Gen α) (good : α → Prop) : Prop :=
  ∀ s a t, Returns x s a t → s.Uses ok → ExprSteps ok s t ∧ good a

namespace Emits

variable {α β : Type} {ok : Set Nat} {x : Gen α} {f : α → Gen β} {good : α → Prop}
  {good' : β → Prop}

/-- A generator that does nothing emits nothing. -/
theorem pure {a : α} (holds : good a) : Emits ok (pure a) good := by
  intro s b t returned _
  obtain ⟨rfl, rfl⟩ := returns_pure.mp returned
  exact ⟨.refl, holds⟩

/-- Generators one after the other emit one after the other. -/
theorem bind (first : Emits ok x good) (second : ∀ a, good a → Emits ok (f a) good') :
    Emits ok (x >>= f) good' := by
  intro s b t returned known
  obtain ⟨a, m, one, two⟩ := returns_bind.mp returned
  obtain ⟨steps, holds⟩ := first s a m one known
  obtain ⟨steps', holds'⟩ := second a holds m b t two (steps.uses known)
  exact ⟨steps.trans steps', holds'⟩

/-- A failing generator emits nothing. -/
theorem throw (e : CodeGenError) : Emits ok (throw e : Gen α) good :=
  fun _ _ _ returned _ => absurd returned not_returns_throw

/-- Behind a failing generator nothing is emitted. -/
theorem throw_bind (e : CodeGenError) : Emits ok ((MonadExcept.throw e : Gen α) >>= f) good' :=
  fun _ _ _ returned _ => absurd (returns_bind.mp returned) (by simp)

/-- What is read from the state is what its registers allow. -/
theorem get : Emits ok (get : Gen CodeGen) (·.Uses ok) := by
  intro s a t returned known
  obtain ⟨rfl, rfl⟩ := returns_get.mp returned
  exact ⟨.refl, known⟩

/-- What is known of the result may be weakened. -/
theorem mono {weaker : α → Prop} (emits : Emits ok x good) (weaken : ∀ a, good a → weaker a) :
    Emits ok x weaker := by
  intro s a t returned known
  obtain ⟨steps, holds⟩ := emits s a t returned known
  exact ⟨steps, weaken a holds⟩

/-- One step that is a function of the state. -/
theorem modify {g : CodeGen → CodeGen} (step : ∀ s, ExprStep ok s (g s)) :
    Emits ok (modify g : Gen Unit) fun _ => True := by
  intro s a t returned _
  obtain rfl := returns_modify.mp returned
  exact ⟨.single (step s), trivial⟩

end Emits

namespace Gen

variable {ok : Set Nat}

section Builder

variable {i : Instr} {width : Nat} {a b : IntValue} {h : Handle}

/-- The code of an instruction reads known registers only. -/
theorem emits_build (operands : ∀ r ∈ i.regs, r ∈ ok) : Emits ok (build i) (· ∈ ok) := by
  intro s id t returned known
  obtain ⟨rfl, rfl⟩ := returns_build.mp returned
  exact ⟨.single (.build i operands), known.fresh le_rfl⟩

/-- The code of an integer instruction reads known registers only. -/
theorem emits_buildInt (operands : ∀ r ∈ i.regs, r ∈ ok) :
    Emits ok (buildInt width i) fun v => ∀ r ∈ v.regs, r ∈ ok := by
  apply (emits_build operands).bind
  intro id member
  exact .pure (by simpa [IntValue.regs] using member)

/-- The code of a float instruction reads known registers only. -/
theorem emits_buildFloat (operands : ∀ r ∈ i.regs, r ∈ ok) :
    Emits ok (buildFloat width i) fun v => ∀ r ∈ v.regs, r ∈ ok := by
  apply (emits_build operands).bind
  intro id member
  exact .pure (by simpa [FloatValue.regs] using member)

/-- The code of a pointer instruction reads known registers only. -/
theorem emits_buildPtr (operands : ∀ r ∈ i.regs, r ∈ ok) :
    Emits ok (buildPtr i) fun v => ∀ r ∈ v.regs, r ∈ ok := by
  apply (emits_build operands).bind
  intro id member
  exact .pure (by simpa [PtrValue.regs] using member)

/-- The code of a declaration reads known registers only. -/
theorem emits_declare (symbol : String) : Emits ok (declare symbol) fun _ => True :=
  .modify fun _ => .declare symbol

/-- The code of a call of the runtime reads known registers only. -/
theorem emits_callRuntime {symbol : String} {args : List CallArg}
    (operands : ∀ r ∈ (Instr.call symbol args).regs, r ∈ ok) :
    Emits ok (callRuntime symbol args) (· ∈ ok) :=
  (emits_declare symbol).bind fun _ _ => emits_build operands

/-- The code of the test for an integer reads known registers only. -/
theorem emits_asInt {v : SigilValue} (known : ∀ r ∈ v.regs, r ∈ ok) :
    Emits ok (asInt v) fun i => ∀ r ∈ i.regs, r ∈ ok := by
  intro s i t returned _
  obtain ⟨rfl, rfl⟩ := returns_asInt.mp returned
  exact ⟨.refl, known⟩

/-- The code of the test for a float reads known registers only. -/
theorem emits_asFloat {v : SigilValue} (known : ∀ r ∈ v.regs, r ∈ ok) :
    Emits ok (asFloat v) fun f => ∀ r ∈ f.regs, r ∈ ok := by
  intro s f t returned _
  obtain ⟨rfl, rfl⟩ := returns_asFloat.mp returned
  exact ⟨.refl, known⟩

/-- The code of the test for a handle reads known registers only. -/
theorem emits_asHandle {v : SigilValue} (known : ∀ r ∈ v.regs, r ∈ ok) :
    Emits ok (asHandle v) fun h => ∀ r ∈ h.ptr.regs, r ∈ ok := by
  intro s h t returned _
  obtain ⟨rfl, rfl⟩ := returns_asHandle.mp returned
  exact ⟨.refl, known⟩

/-- The code of two integers brought to one width reads known registers only. -/
theorem emits_normalizeIntTypes (left : ∀ r ∈ a.regs, r ∈ ok) (right : ∀ r ∈ b.regs, r ∈ ok) :
    Emits ok (normalizeIntTypes a b) fun p =>
      (∀ r ∈ p.1.regs, r ∈ ok) ∧ ∀ r ∈ p.2.regs, r ∈ ok := by
  unfold normalizeIntTypes
  split
  · exact .pure ⟨left, right⟩
  · split
    · exact (emits_buildInt (i := .sext b a.width) right).bind fun _ extended =>
        .pure ⟨left, extended⟩
    · exact (emits_buildInt (i := .sext a b.width) left).bind fun _ extended =>
        .pure ⟨extended, right⟩

/-- The code of a resized integer reads known registers only. -/
theorem emits_resizeInt (known : ∀ r ∈ a.regs, r ∈ ok) :
    Emits ok (resizeInt a width) fun v => ∀ r ∈ v.regs, r ∈ ok := by
  unfold resizeInt
  split
  · exact .pure known
  · split
    · exact emits_buildInt (i := .trunc a width) known
    · exact emits_buildInt (i := .zext a width) known

/-- The code of an allocation reads known registers only. -/
theorem emits_allocHandle (size : Nat) (typ : HandleType) :
    Emits ok (allocHandle size typ) fun h => ∀ r ∈ h.ptr.regs, r ∈ ok :=
  (emits_buildPtr (by simp [Instr.regs])).bind fun _ known => .pure known

/-- The code of an allocation in the scope reads known registers only. -/
theorem emits_scopeAllocHandle (size : Nat) (typ : HandleType) :
    Emits ok (scopeAllocHandle size typ) fun h => ∀ r ∈ h.ptr.regs, r ∈ ok := by
  apply Emits.get.bind
  intro cg known
  split
  · exact emits_allocHandle size typ
  next scope here =>
    have operands : ∀ r ∈ (Instr.call "sigil_scope_alloc" [.ptr scope, .int (i64 size)]).regs,
        r ∈ ok := by
      simpa [Instr.regs, CallArg.regs, i64, IntValue.regs] using known.scope here
    apply (emits_callRuntime operands).bind
    intro id member
    exact .pure (by simpa [PtrValue.regs] using member)

/-- The bounds check leaves the insertion point in its second block. -/
theorem emits_boundsCheck {offset : IntValue} (accessSize allocatedSize : Nat)
    (known : ∀ r ∈ offset.regs, r ∈ ok) :
    Emits ok (emitBoundsCheck offset accessSize allocatedSize) fun _ => True := by
  unfold emitBoundsCheck
  apply (emits_buildInt (by simpa [Instr.regs, i64, IntValue.regs] using known)).bind
  intro endOffset knownEnd
  apply (emits_buildInt (by simpa [Instr.regs, i64, IntValue.regs] using knownEnd)).bind
  intro isViolation knownViolation s u t returned known'
  simp only [returns_bind, returns_appendBlock, returns_terminate, returns_positionAtEnd,
    returns_callRuntime] at returned
  obtain ⟨_, _, ⟨rfl, rfl⟩, _, _, ⟨rfl, rfl⟩, _, _, rfl, _, _, rfl, _, _, ⟨rfl, rfl⟩, _, _, rfl,
    rfl⟩ := returned
  refine ⟨?_, trivial⟩
  let branch : BlockEnd := .condBr isViolation s.blocks.length (s.blocks.length + 1)
  have appended : (s.appended "bounds_violation").blocks.length = s.blocks.length + 1 := by
    simp [CodeGen.appended]
  rw [appended]
  apply ReflTransGen.head (.append "bounds_violation")
  apply ReflTransGen.head (.append "bounds_ok")
  apply ReflTransGen.head (.terminate branch knownViolation)
  apply ReflTransGen.head (.position s.blocks.length (by simp [CodeGen.push, CodeGen.appended]))
  apply ReflTransGen.head (.declare "abort")
  apply ReflTransGen.head (.build (.call "abort" []) (by simp [Instr.regs]))
  apply ReflTransGen.head (.terminate .unreachable (by simp [BlockEnd.regs]))
  exact .single (.position (s.blocks.length + 1) (by simp [CodeGen.push, CodeGen.appended,
    CodeGen.positioned, CodeGen.declared, CodeGen.built, CodeGen.fresh]))

end Builder

section Access

variable {h : Handle} {offset : Offset} {value : SigilValue} {size : Nat}

/-- The code of the check of an offset reads known registers only. -/
theorem emits_checkOffset (known : ∀ r ∈ offset.regs, r ∈ ok) :
    Emits ok (checkOffset h size offset) fun _ => True := by
  cases offset with
  | const off => exact .pure trivial
  | dynamic i =>
      apply Emits.get.bind
      intro cg _
      split
      · exact emits_boundsCheck size h.size known
      · exact .pure trivial

/-- The code of an address reads known registers only. -/
theorem emits_address (base : ∀ r ∈ h.ptr.regs, r ∈ ok) (known : ∀ r ∈ offset.regs, r ∈ ok) :
    Emits ok (address h offset) fun p => ∀ r ∈ p.regs, r ∈ ok := by
  match offset with
  | .const 0 => exact .pure base
  | .const (off + 1) =>
      exact emits_buildPtr (by simpa [Instr.regs, i64, IntValue.regs] using base)
  | .dynamic i => exact emits_buildPtr (List.forall_mem_append.mpr ⟨base, known⟩)

/-- The code of a load reads known registers only. -/
theorem emits_load (base : ∀ r ∈ h.ptr.regs, r ∈ ok) (known : ∀ r ∈ offset.regs, r ∈ ok) :
    Emits ok (load h size offset) fun v => ∀ r ∈ v.regs, r ∈ ok := by
  apply (emits_checkOffset known).bind
  intro _ _
  apply (emits_address base known).bind
  intro ptr inside
  split
  · exact (emits_buildFloat (i := .loadFloat ptr _) inside).bind fun _ known => .pure known
  all_goals exact (emits_buildInt (i := .load ptr _) inside).bind fun _ known => .pure known

/-- The code of a store reads known registers only. -/
theorem emits_store (base : ∀ r ∈ h.ptr.regs, r ∈ ok) (stored : ∀ r ∈ value.regs, r ∈ ok)
    (known : ∀ r ∈ offset.regs, r ∈ ok) :
    Emits ok (store h value size offset) fun _ => True := by
  have put : ∀ {ptr : PtrValue} {i : IntValue}, (∀ r ∈ ptr.regs, r ∈ ok) →
      (∀ r ∈ i.regs, r ∈ ok) →
      Emits ok (do let _ ← build (.store ptr (← resizeInt i (intWidth size)))) fun _ => True := by
    intro ptr i inside known
    apply (emits_resizeInt known).bind
    intro resized known
    exact (emits_build (i := .store ptr resized) (List.forall_mem_append.mpr
      ⟨inside, known⟩)).bind fun _ _ => .pure trivial
  apply (emits_checkOffset known).bind
  intro _ _
  apply (emits_address base known).bind
  intro ptr inside
  cases value with
  | immediate i => exact put inside stored
  | handle src =>
      exact (emits_buildInt (i := .ptrtoint src.ptr) stored).bind fun _ known => put inside known
  | float f =>
      exact (emits_build (i := .storeFloat ptr f) (List.forall_mem_append.mpr
        ⟨inside, stored⟩)).bind fun _ _ => .pure trivial

/-- The code of the handle of an immediate reads known registers only. -/
theorem emits_immediateToHandle (known : ∀ r ∈ value.regs, r ∈ ok) :
    Emits ok (immediateToHandle value) fun h => ∀ r ∈ h.ptr.regs, r ∈ ok := by
  cases value with
  | handle h => exact .pure known
  | immediate i =>
      apply (emits_allocHandle _ .int).bind
      intro h inside
      exact (emits_build (i := .store h.ptr i) (List.forall_mem_append.mpr ⟨inside, known⟩)).bind
        fun _ _ => .pure inside
  | float f =>
      apply (emits_allocHandle _ .float).bind
      intro h inside
      exact (emits_build (i := .storeFloat h.ptr f) (List.forall_mem_append.mpr
        ⟨inside, known⟩)).bind fun _ _ => .pure inside

/-- The code of a dereferenced handle reads known registers only. -/
theorem emits_derefHandle {role : String} (known : ∀ r ∈ value.regs, r ∈ ok) :
    Emits ok (derefHandle role value) fun h => ∀ r ∈ h.ptr.regs, r ∈ ok := by
  cases value with
  | handle h => exact .pure known
  | immediate i =>
      exact (emits_buildPtr (i := .inttoptr i) known).bind fun _ inside => .pure inside
  | float f => exact .throw _

end Access

section Names

/-- The code of a pointer behind an offset reads known registers only. -/
theorem emits_offsetPointer {α : Type} {good : α → Prop} {next : PtrValue → Gen α}
    {base : PtrValue} {off : Nat} (known : ∀ r ∈ base.regs, r ∈ ok)
    (goesOn : ∀ p : PtrValue, (∀ r ∈ p.regs, r ∈ ok) → Emits ok (next p) good) :
    Emits ok (if off > 0 then buildPtr (.gep base (i64 off)) >>= next else pure base >>= next)
      good := by
  split
  · exact (emits_buildPtr (by simpa [Instr.regs, i64, IntValue.regs] using known)).bind goesOn
  · exact (Emits.pure known).bind goesOn

/-- The code of a field of call outputs reads known registers only. -/
theorem emits_getField {outputs : CallOutputs} {field : String}
    (known : ∀ r ∈ outputs.buffer.ptr.regs, r ∈ ok) :
    Emits ok (getField outputs field) fun h => ∀ r ∈ h.ptr.regs, r ∈ ok := by
  unfold getField
  split
  · exact .throw _
  · apply emits_offsetPointer known
    intro p inside
    exact .pure inside

/-- The code of a variable reads known registers only. -/
theorem emits_getVar (name : String) :
    Emits ok (getVar name) fun v => ∀ r ∈ v.regs, r ∈ ok := by
  apply Emits.get.bind
  intro cg known
  split
  next ptr slot =>
    have inside : ∀ r ∈ ptr.regs, r ∈ ok := known.slots slot
    exact (emits_buildInt (i := .load ptr 64) inside).bind fun _ loaded => .pure loaded
  next ptr width slot =>
    have inside : ∀ r ∈ ptr.regs, r ∈ ok := known.slots slot
    exact (emits_buildFloat (i := .loadFloat ptr width) inside).bind fun _ loaded => .pure loaded
  next =>
    split
    next value bound => exact .pure (known.vars bound)
    next => exact .throw _

/-- The code of a binding reads known registers only. -/
theorem emits_getBinding (name : String) :
    Emits ok (getBinding name) fun v => ∀ r ∈ v.regs, r ∈ ok := by
  apply Emits.get.bind
  intro cg known
  split
  next value bound => exact .pure (known.vars bound)
  next => exact .throw _

/-- The code of a field reads known registers only. -/
theorem emits_compileField (base : Expr) (field : String) :
    Emits ok (compileField base field) fun v => ∀ r ∈ v.regs, r ∈ ok := by
  unfold compileField
  split
  next name =>
    apply Emits.get.bind
    intro cg known
    split
    next => exact .throw _
    next outputs found =>
      apply (emits_getField (known.outputs found)).bind
      intro handle inside
      split
      · exact (emits_buildPtr (i := .loadPtr handle.ptr) inside).bind fun _ inside => .pure inside
      · exact .pure inside
  next => exact .throw _

/-- The code of a string literal reads known registers only. -/
theorem emits_compileString (s : String) :
    Emits ok (compileString s) fun v => ∀ r ∈ v.regs, r ∈ ok := by
  apply Emits.get.bind
  intro cg _
  apply (Emits.modify fun _ => .constant _).bind
  intro _ _
  exact .pure (by simp [SigilValue.regs, PtrValue.regs])

/-- The code of a callee reads known registers only. -/
theorem emits_callee (behavior : String) : Emits ok (callee behavior) fun _ => True := by
  apply Emits.get.bind
  intro cg _
  split
  · exact .pure trivial
  · split
    · exact .pure trivial
    · exact .throw _

end Names

section Expressions

variable {a b c : Gen SigilValue}

/-- A result over registers of `ok`. -/
abbrev EmitsValue (ok : Set Nat) (x : Gen SigilValue) : Prop :=
  Emits ok x fun v => ∀ r ∈ v.regs, r ∈ ok

/-- The code of an integer operation reads known registers only. -/
theorem emits_compileIntBinop (op : IntOp) (x : EmitsValue ok a) (y : EmitsValue ok b) :
    EmitsValue ok (compileIntBinop op a b) := by
  unfold compileIntBinop
  apply x.bind
  intro av known
  apply (emits_asInt known).bind
  intro av known
  apply y.bind
  intro bv known'
  apply (emits_asInt known').bind
  intro bv known'
  apply (emits_normalizeIntTypes known known').bind
  intro p normal
  exact (emits_buildInt (i := .intOp op p.1 p.2) (List.forall_mem_append.mpr normal)).bind
    fun _ built => .pure built

/-- A widened truth value reads known registers only. -/
theorem emits_zext {i : IntValue} (known : ∀ r ∈ i.regs, r ∈ ok) :
    EmitsValue ok (do return .immediate (← buildInt 64 (.zext i 64))) :=
  (emits_buildInt (i := .zext i 64) known).bind fun _ built => .pure built

/-- The code of an integer comparison reads known registers only. -/
theorem emits_compileIntCmp (pred : IntPredicate) (x : EmitsValue ok a) (y : EmitsValue ok b) :
    EmitsValue ok (compileIntCmp pred a b) := by
  unfold compileIntCmp
  apply x.bind
  intro av known
  apply (emits_asInt known).bind
  intro av known
  apply y.bind
  intro bv known'
  apply (emits_asInt known').bind
  intro bv known'
  apply (emits_normalizeIntTypes known known').bind
  intro p normal
  apply (emits_buildInt (i := .icmp pred p.1 p.2) (List.forall_mem_append.mpr normal)).bind
  intro cmp known
  exact emits_zext known

/-- The code of a float operation reads known registers only. -/
theorem emits_compileFloatBinop (op : FloatArith) (x : EmitsValue ok a) (y : EmitsValue ok b) :
    EmitsValue ok (compileFloatBinop op a b) := by
  unfold compileFloatBinop
  apply x.bind
  intro av known
  apply (emits_asFloat known).bind
  intro av known
  apply y.bind
  intro bv known'
  apply (emits_asFloat known').bind
  intro bv known'
  exact (emits_buildFloat (i := .floatOp op av bv) (List.forall_mem_append.mpr
    ⟨known, known'⟩)).bind fun _ built => .pure built

/-- The code of a float comparison reads known registers only. -/
theorem emits_compileFloatCmp (pred : Comparison) (x : EmitsValue ok a) (y : EmitsValue ok b) :
    EmitsValue ok (compileFloatCmp pred a b) := by
  unfold compileFloatCmp
  apply x.bind
  intro av known
  apply (emits_asFloat known).bind
  intro av known
  apply y.bind
  intro bv known'
  apply (emits_asFloat known').bind
  intro bv known'
  apply (emits_buildInt (i := .fcmp pred av bv) (List.forall_mem_append.mpr ⟨known, known'⟩)).bind
  intro cmp known
  exact emits_zext known

/-- The code of INEG reads known registers only. -/
theorem emits_compileIneg (x : EmitsValue ok a) : EmitsValue ok (compileIneg a) := by
  unfold compileIneg
  apply x.bind
  intro v known
  apply (emits_asInt known).bind
  intro av known
  exact (emits_buildInt (i := .intOp .sub (i64 0) av) known).bind fun _ built => .pure built

/-- The code of NOT reads known registers only. -/
theorem emits_compileNot (x : EmitsValue ok a) : EmitsValue ok (compileNot a) := by
  unfold compileNot
  apply x.bind
  intro v known
  apply (emits_asInt known).bind
  intro av known
  exact (emits_buildInt (i := .not av) known).bind fun _ built => .pure built

/-- The code of FNEG reads known registers only. -/
theorem emits_compileFneg (x : EmitsValue ok a) : EmitsValue ok (compileFneg a) := by
  unfold compileFneg
  apply x.bind
  intro v known
  apply (emits_asFloat known).bind
  intro av known
  exact (emits_buildFloat (i := .fneg av) known).bind fun _ built => .pure built

/-- The code of FTOI reads known registers only. -/
theorem emits_compileFtoi (x : EmitsValue ok a) (intSize : Nat) :
    EmitsValue ok (compileFtoi a intSize) := by
  unfold compileFtoi
  apply x.bind
  intro v known
  apply (emits_asFloat known).bind
  intro fv known
  exact (emits_buildInt (i := .fptosi fv _) known).bind fun _ built => .pure built

/-- The code of ITOF reads known registers only. -/
theorem emits_compileItof (x : EmitsValue ok a) (floatSize : Nat) :
    EmitsValue ok (compileItof a floatSize) := by
  unfold compileItof
  apply x.bind
  intro v known
  apply (emits_asInt known).bind
  intro iv known
  exact (emits_buildFloat (i := .sitofp iv _) known).bind fun _ built => .pure built

/-- The code of ATOMIC_STORE reads known registers only. -/
theorem emits_compileAtomicStore (x : EmitsValue ok a) (y : EmitsValue ok b) (size : Nat) :
    EmitsValue ok (compileAtomicStore a b size) := by
  unfold compileAtomicStore
  apply x.bind
  intro target known
  apply (emits_asHandle known).bind
  intro h inside
  apply y.bind
  intro val known
  exact (emits_store inside known (by simp [Offset.regs])).bind fun _ _ => .pure known

/-- The code of CAS reads known registers only. -/
theorem emits_compileCas (x : EmitsValue ok a) (y : EmitsValue ok b) (z : EmitsValue ok c) :
    EmitsValue ok (compileCas a b c) := by
  unfold compileCas
  apply x.bind
  intro target known
  apply (emits_asHandle known).bind
  intro h inside
  apply y.bind
  intro exp known
  apply (emits_asInt known).bind
  intro exp known
  apply z.bind
  intro new known'
  apply (emits_asInt known').bind
  intro new known'
  split
  · exact .throw_bind _
  · apply (emits_build (i := .cmpxchg h.ptr exp new) (List.forall_mem_append.mpr
      ⟨List.forall_mem_append.mpr ⟨inside, known⟩, known'⟩)).bind
    intro result member
    apply (emits_buildInt (i := .extractSuccess result) (by simpa [Instr.regs] using member)).bind
    intro success known
    exact emits_zext known

/-- The code of an atomic update reads known registers only. -/
theorem emits_compileAtomicRmw (op : AtomicRmw) (x : EmitsValue ok a) (y : EmitsValue ok b) :
    EmitsValue ok (compileAtomicRmw op a b) := by
  unfold compileAtomicRmw
  apply x.bind
  intro target known
  apply (emits_asHandle known).bind
  intro h inside
  apply y.bind
  intro val known
  apply (emits_asInt known).bind
  intro val known
  split
  · exact .throw_bind _
  · exact (emits_buildInt (i := .atomicRmw op h.ptr val) (List.forall_mem_append.mpr
      ⟨inside, known⟩)).bind fun _ built => .pure built

/-- The code of an argument of SPAWN reads known registers only. -/
theorem emits_spawnArg {v : SigilValue} (known : ∀ r ∈ v.regs, r ∈ ok) :
    Emits ok (spawnArg v) fun i => ∀ r ∈ i.regs, r ∈ ok := by
  cases v with
  | handle h => exact emits_buildInt (i := .ptrtoint h.ptr) known
  | immediate i => exact .pure known
  | float f => exact emits_buildInt (i := .bitcast f) known

/-- The code of SPAWN reads known registers only. -/
theorem emits_compileSpawn (pattern : String) (argCount : Nat) {args : Handle → Gen Unit}
    (stores : ∀ h : Handle, (∀ r ∈ h.ptr.regs, r ∈ ok) → Emits ok (args h) fun _ => True) :
    EmitsValue ok (compileSpawn pattern argCount args) := by
  unfold compileSpawn
  apply (emits_declare _).bind
  intro _ _
  apply Emits.get.bind
  intro cg _
  split
  · exact .throw_bind _
  · apply (emits_allocHandle _ .bytes).bind
    intro buffer inside
    apply (stores buffer inside).bind
    intro _ _
    have operands : ∀ size, ∀ r ∈ (Instr.call "sigil_spawn"
        [.ptr (.function (symbolOf pattern)), .ptr buffer.ptr, .int (i64 size)]).regs, r ∈ ok := by
      simpa [Instr.regs, CallArg.regs, PtrValue.regs, i64, IntValue.regs] using inside
    exact (emits_buildInt (operands _)).bind fun _ built => .pure built

/-- The code of WAIT reads known registers only. -/
theorem emits_compileWait (handleName : String) : EmitsValue ok (compileWait handleName) := by
  unfold compileWait
  apply (emits_declare _).bind
  intro _ _
  apply (emits_getBinding handleName).bind
  intro v known
  apply (emits_asInt known).bind
  intro handle known
  have operands : ∀ r ∈ (Instr.call "sigil_wait" [.int handle, .ptr .null, .int (i64 0)]).regs,
      r ∈ ok := by
    simpa [Instr.regs, CallArg.regs, PtrValue.regs, i64, IntValue.regs] using known
  apply (emits_build operands).bind
  intro _ _
  exact .pure (by simp [SigilValue.regs, i64, IntValue.regs])

/-- The code of CHANNEL reads known registers only. -/
theorem emits_compileChannel (x : EmitsValue ok a) : EmitsValue ok (compileChannel a) := by
  unfold compileChannel
  apply (emits_declare _).bind
  intro _ _
  apply x.bind
  intro v known
  apply (emits_asInt known).bind
  intro cap known
  have operands : ∀ r ∈ (Instr.call "sigil_channel_create" [.int (i64 8), .int cap]).regs,
      r ∈ ok := by
    simpa [Instr.regs, CallArg.regs, i64, IntValue.regs] using known
  exact (emits_buildInt operands).bind fun _ built => .pure built

/-- The code of CHANNEL_RECEIVE reads known registers only. -/
theorem emits_compileChannelReceive (channel : String) :
    EmitsValue ok (compileChannelReceive channel) := by
  unfold compileChannelReceive
  apply (emits_declare _).bind
  intro _ _
  apply (emits_getBinding channel).bind
  intro v known
  apply (emits_asInt known).bind
  intro chan known
  apply (emits_allocHandle 8 .int).bind
  intro buffer inside
  have operands : ∀ r ∈ (Instr.call "sigil_channel_receive" [.int chan, .ptr buffer.ptr]).regs,
      r ∈ ok := by
    simp only [Instr.regs, List.flatMap_cons, CallArg.regs, List.flatMap_nil, List.append_nil]
    exact List.forall_mem_append.mpr ⟨known, inside⟩
  apply (emits_build operands).bind
  intro _ _
  exact (emits_buildInt (i := .load buffer.ptr 64) inside).bind fun _ built => .pure built

/-- The registers of the arguments of a call. -/
abbrev argRegs (args : List CallArg) : List Nat := args.flatMap CallArg.regs

/-- The code of the pointers to the output slots reads known registers only. -/
theorem emits_slotPointers {buffer : Handle} (inside : ∀ r ∈ buffer.ptr.regs, r ∈ ok)
    (slots : List OutputSlot) :
    Emits ok (slotPointers buffer slots) fun args => ∀ r ∈ argRegs args, r ∈ ok := by
  induction slots with
  | nil => exact .pure (by simp [argRegs])
  | cons slot rest ih =>
      unfold slotPointers
      apply emits_offsetPointer inside
      intro p known
      apply ih.bind
      intro args known'
      exact .pure (List.forall_mem_append.mpr ⟨known, known'⟩)

/-- The code of CALL reads known registers only. -/
theorem emits_compileCall (behavior : String) {args : Gen (List CallArg)}
    (inputs : Emits ok args fun args => ∀ r ∈ argRegs args, r ∈ ok) :
    EmitsValue ok (compileCall behavior args) := by
  unfold compileCall
  apply (emits_callee behavior).bind
  intro symbol _
  apply Emits.get.bind
  intro cg _
  apply inputs.bind
  intro inputs known
  dsimp only
  split
  · apply (emits_scopeAllocHandle _ .bytes).bind
    intro buffer inside
    apply (emits_slotPointers inside _).bind
    intro outputs known'
    have operands : ∀ r ∈ (Instr.call symbol (inputs ++ outputs)).regs, r ∈ ok := by
      simp only [Instr.regs, List.flatMap_append]
      exact List.forall_mem_append.mpr ⟨known, known'⟩
    apply (emits_build operands).bind
    intro _ _
    apply (Emits.modify fun _ => .outputs ⟨buffer, outputsOf cg behavior⟩ inside).bind
    intro _ _
    exact .pure inside
  · apply (emits_build (i := .call symbol inputs) known).bind
    intro _ _
    exact .pure (by simp [SigilValue.regs, i64, IntValue.regs])

/-- The code of the arguments of a CALL reads known registers only. -/
theorem emits_compileArgs {args : List Expr}
    (each : ∀ e ∈ args, EmitsValue ok (compileExpr e)) :
    Emits ok (compileArgs args) fun args => ∀ r ∈ argRegs args, r ∈ ok := by
  induction args with
  | nil => exact .pure (by simp [argRegs])
  | cons arg rest ih =>
      unfold compileArgs
      apply (each arg List.mem_cons_self).bind
      intro v known
      apply (emits_immediateToHandle known).bind
      intro h inside
      apply (ih fun e member => each e (List.mem_cons_of_mem _ member)).bind
      intro args known'
      exact .pure (List.forall_mem_append.mpr ⟨inside, known'⟩)

/-- The code of the arguments of a SPAWN reads known registers only. -/
theorem emits_compileSpawnArgs {buffer : Handle} (inside : ∀ r ∈ buffer.ptr.regs, r ∈ ok) (i : Nat)
    {args : List Expr} (each : ∀ e ∈ args, EmitsValue ok (compileExpr e)) :
    Emits ok (compileSpawnArgs buffer i args) fun _ => True := by
  induction args generalizing i with
  | nil => exact .pure trivial
  | cons arg rest ih =>
      unfold compileSpawnArgs
      apply (each arg List.mem_cons_self).bind
      intro v known
      apply (emits_spawnArg known).bind
      intro val known
      have stored : ∀ r ∈ (SigilValue.immediate val).regs, r ∈ ok := known
      apply (emits_store inside stored (by simp [Offset.regs])).bind
      intro _ _
      exact ih (i + 1) fun e member => each e (List.mem_cons_of_mem _ member)

/-- The code of an offset reads known registers only. -/
theorem emits_compileOffset {offset : Option Expr}
    (each : ∀ e ∈ offset, EmitsValue ok (compileExpr e)) :
    Emits ok (compileOffset offset) fun off => ∀ r ∈ off.regs, r ∈ ok := by
  cases offset with
  | none => exact .pure (by simp [Offset.regs])
  | some e =>
      unfold compileOffset
      split
      · exact .pure (by simp [Offset.regs])
      · apply (each e rfl).bind
        intro v known
        apply (emits_asInt known).bind
        intro i known
        exact .pure known

/-- Code for an expression is made of builder steps over the registers known before. -/
theorem emits_compileExpr (ok : Set Nat) (e : Expr) : EmitsValue ok (compileExpr e) := by
  induction e using Expr.inductionOnChildren with
  | step e operand =>
      unfold compileExpr
      cases e with
      | intLit n | floatLit bits =>
          exact .pure (by simp [SigilValue.regs, i64, IntValue.regs, FloatValue.regs])
      | stringLit s => exact emits_compileString s
      | var name => exact emits_getVar name
      | field base field => exact emits_compileField base field
      | alloc size typ shared =>
          apply (emits_scopeAllocHandle _ _).bind
          intro h inside
          exact .pure inside
      | load source size offset =>
          apply (operand source (by cases offset <;> simp [Expr.children])).bind
          intro v known
          apply (emits_derefHandle known).bind
          intro h inside
          apply (emits_compileOffset fun e at_ => operand e (by
            cases at_
            simp [Expr.children])).bind
          intro off known
          exact emits_load inside known
      | call behavior args =>
          exact emits_compileCall behavior (emits_compileArgs fun e member => operand e member)
      | intArith op a b size =>
          exact emits_compileIntBinop _ (operand a (by simp [Expr.children]))
            (operand b (by simp [Expr.children]))
      | bitwise op a b size =>
          exact emits_compileIntBinop _ (operand a (by simp [Expr.children]))
            (operand b (by simp [Expr.children]))
      | intCmp op a b size =>
          exact emits_compileIntCmp _ (operand a (by simp [Expr.children]))
            (operand b (by simp [Expr.children]))
      | floatArith op a b size =>
          exact emits_compileFloatBinop _ (operand a (by simp [Expr.children]))
            (operand b (by simp [Expr.children]))
      | floatCmp op a b size =>
          exact emits_compileFloatCmp _ (operand a (by simp [Expr.children]))
            (operand b (by simp [Expr.children]))
      | ineg a size => exact emits_compileIneg (operand a (by simp [Expr.children]))
      | not a size => exact emits_compileNot (operand a (by simp [Expr.children]))
      | fneg a size => exact emits_compileFneg (operand a (by simp [Expr.children]))
      | ftoi value floatSize intSize =>
          exact emits_compileFtoi (operand value (by simp [Expr.children])) intSize
      | itof value intSize floatSize =>
          exact emits_compileItof (operand value (by simp [Expr.children])) floatSize
      | atomicLoad source size =>
          apply (operand source (by simp [Expr.children])).bind
          intro v known
          apply (emits_asHandle known).bind
          intro h inside
          exact emits_load inside (by simp [Offset.regs])
      | atomicStore target value size =>
          exact emits_compileAtomicStore (operand target (by simp [Expr.children]))
            (operand value (by simp [Expr.children])) size
      | cas addr expected new size =>
          exact emits_compileCas (operand addr (by simp [Expr.children]))
            (operand expected (by simp [Expr.children])) (operand new (by simp [Expr.children]))
      | atomicRmw op target value size =>
          exact emits_compileAtomicRmw op (operand target (by simp [Expr.children]))
            (operand value (by simp [Expr.children]))
      | spawn pattern args =>
          exact emits_compileSpawn pattern args.length fun h inside =>
            emits_compileSpawnArgs inside 0 fun e member => operand e member
      | wait handle => exact emits_compileWait handle
      | channel typ capacity =>
          exact emits_compileChannel (operand capacity (by simp [Expr.children]))
      | channelReceive channel => exact emits_compileChannelReceive channel

end Expressions

end Gen

end Sigil
