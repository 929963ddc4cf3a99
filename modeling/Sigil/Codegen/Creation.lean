import Sigil.Codegen.Function
import Sigil.Codegen.Loops

/-!
# The function of a pattern

A pattern becomes a function of one pointer, to a buffer in which its MEMORY lies name after
name. The function executes the ON_CREATE block over this memory and returns.
-/

namespace Sigil

open Flow Relation

/-- What the MEMORY names of a pattern stand for in a buffer, from an offset on. -/
def memoryNames (buffer : BitVec 64) (offset : Nat) : List MemoryDecl → Readings → Readings
  | [], names => names
  | decl :: rest, names =>
      memoryNames buffer (offset + decl.size) rest (Function.update names decl.name
        (some (.memory (buffer + BitVec.ofNat 64 offset) decl.size (.ofAst decl.typ))))

/-- STORE, SET of MEMORY, DISCARD, LABEL, JUMP and BRANCH. -/
def Node.Creates (memory : List MemoryDecl) : Node → Prop
  | .store _ _ _ _ _ | .discard _ _ | .label _ _ | .jump _ _ | .branch _ _ _ _ => True
  | .set _ target _ => target ∈ memory.map MemoryDecl.name
  | _ => False

/-- The items of a block of a function. -/
def EmittedFunction.code (f : EmittedFunction) (b : Nat) : List Item :=
  match f.blocks[b]? with
  | some block => block.items
  | none => []

section Memory

variable {v w : CodeGen} {u : Unit} {placement : Placement}

/-- Names are bound to memory, those that were and some others. -/
def Mapped (names : List String) (v w : CodeGen) : Prop :=
  ∀ name, (name ∈ names ∨ ∃ h, v.vars.lookup name = some (.handle h)) →
    ∃ h, w.vars.lookup name = some (.handle h)

/-- MEMORY is placed as memory at a fixed offset is addressed. -/
theorem Gen.mapMemory_cons (offset : Nat) (decl : MemoryDecl) (rest : List MemoryDecl) :
    Gen.mapMemory offset (decl :: rest) = (do
      let ptr ← Gen.address ⟨.param 0, decl.size, .ofAst decl.typ⟩ (.const offset)
      Gen.bindVar decl.name (.handle ⟨ptr, decl.size, .ofAst decl.typ⟩)
      Gen.mapMemory (offset + decl.size) rest) := by
  cases offset with
  | zero => rfl
  | succ n =>
      rw [Gen.mapMemory, if_neg (Nat.succ_ne_zero n)]
      rfl

/-- Behind an address the block is still open. -/
theorem needsTerminator_address {offset size : Nat} {typ : HandleType} {p : PtrValue}
    (inRange : v.current < v.blocks.length) (goes : v.needsTerminator = true)
    (returned : Returns (Gen.address ⟨.param 0, size, typ⟩ (.const offset)) v p w) :
    (∀ r ∈ p.regs, r < w.nextId) ∧ w.needsTerminator = true := by
  cases offset with
  | zero =>
      obtain ⟨rfl, rfl⟩ := returns_pure.mp returned
      exact ⟨by simp [PtrValue.regs], goes⟩
  | succ n =>
      obtain ⟨rfl, rfl⟩ := Gen.returns_buildPtr.mp returned
      exact ⟨by
        simp [PtrValue.regs, CodeGen.nextId_built], CodeGen.needsTerminator_built inRange rfl⟩

/-- The code that maps the memory makes every declared block. -/
theorem realizes_mapMemory {decls : List MemoryDecl} {offset : Nat}
    (returned : Returns (Gen.mapMemory offset decls) v u w) (ready : v.Ready)
      (unslotted : v.mutableSlots = ∅)
    (goes : v.needsTerminator = true) :
    (Lengthens v w ∧ w.Ready ∧ w.needsTerminator = true ∧ Mapped (decls.map MemoryDecl.name) v w) ∧
      ∀ results space, Realizes placement v w results space
        (.ok (memoryNames (placement.param 0) offset decls (v.readings placement results space)))
        fun names results' space' => space' = space ∧ w.readings placement results' space' =
          names := by
  induction decls generalizing offset v with
  | nil =>
      obtain ⟨rfl, rfl⟩ := returns_pure.mp returned
      exact ⟨⟨.refl _, ready, goes, fun name known => known.resolve_left (by simp)⟩,
        fun results space => .done ⟨rfl, rfl⟩⟩
  | cons decl rest ih =>
      rw [Gen.mapMemory_cons] at returned
      simp only [returns_bind, Gen.returns_bindVar] at returned
      obtain ⟨p, m, address, _, _, rfl, later⟩ := returned
      have grows := Gen.grows_address address
      have readyM := ready.grows grows
      obtain ⟨below, goesM⟩ := needsTerminator_address ready.inRange goes address
      have unslottedM : m.mutableSlots = ∅ := grows.mutableSlots.trans unslotted
      let value : SigilValue := .handle ⟨p, decl.size, .ofAst decl.typ⟩
      obtain ⟨⟨lengthens, readyW, goesW, mapped⟩, run⟩ :=
        ih later (readyM.bound (v := value) below) unslottedM goesM
      have binds := Lengthens.bound m decl.name value
      refine ⟨⟨(Lengthens.ofGrows grows).trans (binds.trans lengthens), readyW, goesW, ?_⟩,
        fun results space => ?_⟩
      · rintro name known
        refine mapped name ?_
        by_cases here : name = decl.name
        · subst here
          exact .inr ⟨_, AList.lookup_insert m.vars⟩
        · refine known.imp (fun member => ?_) ?_
          · exact (List.mem_cons.mp member).resolve_left here
          · rintro ⟨h, bound⟩
            exact ⟨h, (AList.lookup_insert_ne here).trans (grows.vars ▸ bound)⟩
      · have fixed :
          Returns (Gen.checkOffset ⟨.param 0, decl.size, .ofAst decl.typ⟩ 0 (.const offset)) v
            () v :=
          returns_pure.mpr ⟨rfl, rfl⟩
        have located : Realizes placement v m results space
            (.ok (placement.param 0 + BitVec.ofNat 64 offset)) _ :=
          realizes_locate fixed address ready (by simp [PtrValue.regs]) (by simp [Offset.regs])
        refine located.bind (f := fun _ => .ok
          (memoryNames (placement.param 0) offset (decl :: rest)
          (v.readings placement results space))) grows.precedes (binds.trans lengthens).precedes ?_
        rintro at_ results' space' same agree ⟨rfl, here, _⟩
        obtain rfl := Except.ok.inj same
        have datum : value.datum placement results' =
            some (.memory (placement.param 0 + BitVec.ofNat 64 offset) decl.size
              (.ofAst decl.typ)) := by
          rw [← here]
          rfl
        have names : (m.bound decl.name value).readings placement results' space' =
            Function.update (v.readings placement results space') decl.name (some (.memory
              (placement.param 0 + BitVec.ofNat 64 offset) decl.size (.ofAst decl.typ))) := by
          rw [CodeGen.readings_bound unslottedM datum, ready.readings_agree grows agree]
        have rest := run results' space'
        rw [names] at rest
        exact rest

/-- What creates the declared names is steady. -/
theorem Node.Creates.steady {memory : List MemoryDecl} {node : Node} (creates : node.Creates memory)
    (mapped : Mapped (memory.map MemoryDecl.name) v w) : w.Steady node := by
  cases node with
  | set line target value => exact mapped target (.inl creates)
  | _ => exact creates

end Memory

section Functions

variable {pattern : Pattern} {s s' : CodeGen} {f : EmittedFunction} {symbol : String} {u : Unit}

/-- The generator at the beginning of a function. -/
structure CodeGen.Begun (s : CodeGen) : Prop where
  ready : s.Ready
  mutableSlots : s.mutableSlots = ∅
  vars : s.vars = ∅
  needsTerminator : s.needsTerminator = true
  machine : ∀ results space, s.machine results space = ⟨0, 0, results, space⟩

/-- Beginning a function leaves the generator at its start. -/
theorem begun_beginFunction (slotless : s.mutableSlots = ∅)
    (returned : Returns (Gen.beginFunction symbol) s u s') :
    s'.Begun := by
  unfold Gen.beginFunction at returned
  simp only [returns_bind, Gen.returns_declare, returns_modify] at returned
  obtain ⟨_, _, rfl, rfl⟩ := returned
  refine ⟨⟨rfl, by simp, fun bound => absurd bound (by simp), fun {name slot} slotted => ?_⟩,
    slotless, rfl, rfl,
    fun _ _ => rfl⟩
  change s.mutableSlots.lookup name = some slot at slotted
  rw [slotless] at slotted
  cases slotted

/-- At the start of a function no name is bound. -/
theorem CodeGen.Begun.readings_eq (begun : s.Begun) (placement : Placement) (results : Results)
    (space : AddressSpace) : s.readings placement results space = fun _ => none := by
  funext name
  rw [CodeGen.readings_unslotted begun.mutableSlots, begun.vars]
  rfl

/-- How a pattern is generated: its code is that of the ON_CREATE block and a return. -/
theorem returns_compilePattern (slotless : s.mutableSlots = ∅)
    (returned : Returns (Gen.compilePattern pattern) s f s') :
    ∃ v w t t', v.Begun ∧ Returns (Gen.mapMemory 0 pattern.memory) v () w ∧
      Returns (Gen.compileImpl pattern.onCreate) w () t ∧ f.code = t'.items ∧ Precedes t t' ∧
        (t.needsTerminator = true → t' = t.push (.term (.ret none))) := by
  unfold Gen.compilePattern at returned
  simp only [returns_bind, returns_get] at returned
  obtain ⟨_, s₁, declared, s₁, s₁, ⟨rfl, rfl⟩, _, v, begun, _, w, mapped, _, t, compiled, t, t,
    ⟨rfl, rfl⟩,
    final⟩ := returned
  have slotless₁ : s₁.mutableSlots = ∅ := by
    unfold Gen.declareExternals at declared
    simp only [returns_bind, Gen.returns_declare, returns_get] at declared
    obtain ⟨_, _, rfl, _, _, ⟨rfl, rfl⟩, rfl⟩ := declared
    exact slotless
  refine ⟨v, w, t, ?_⟩
  split at final
  next needed =>
    simp only [returns_bind, Gen.returns_terminate, returns_get, returns_modify, Gen.register,
      returns_pure] at final
    obtain ⟨_, _, rfl, _, _, ⟨rfl, rfl⟩, _, _, rfl, _, _, rfl, rfl, rfl⟩ := final
    exact ⟨_, begun_beginFunction slotless₁ begun, mapped, compiled, rfl, t.precedes_push _,
      fun _ => rfl⟩
  next needless =>
    simp only [returns_bind, returns_get, returns_modify, Gen.register, returns_pure] at final
    obtain ⟨_, _, ⟨rfl, rfl⟩, _, _, rfl, _, _, rfl, rfl, rfl⟩ := final
    exact ⟨_, begun_beginFunction slotless₁ begun, mapped, compiled, rfl, .refl _, fun goes =>
      absurd goes needless⟩

end Functions

/-- A pattern that counts its second MEMORY down to zero. -/
def counter : Pattern where
  name := "counter"
  memory := [⟨"first", .int, 8⟩, ⟨"b", .int, 8⟩]
  onCreate := countdown

def counterFunction : EmittedFunction × CodeGen :=
  match Gen.compilePattern counter {} with
  | .ok result => result
  | .error _ => (⟨"", 0, []⟩, {})

end Sigil
