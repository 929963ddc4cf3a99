import Sigil.Codegen.Meaning

/-!
# Code for an expression computes its meaning

Emitted code realizes a meaning when it gets from one insertion point of the generator
to the other with the value in hand, or reaches a call of `abort` where the program
aborts. Realizations compose along the binds of the generator.
-/

namespace Sigil

open Flow Relation

/-- An integer value with its width. -/
def IntValue.quantity (results : Results) (i : IntValue) : Quantity := ⟨i.width, i.eval results⟩

/-- What a generated value stands for; a float stands for nothing. -/
def SigilValue.datum (placement : Placement) (results : Results) : SigilValue → Option Datum
  | handle h => some (.memory (h.ptr.eval placement results) h.size h.typ)
  | immediate i => some (.int (i.quantity results))
  | float _ => none

def Offset.displacement (results : Results) : Offset → Displacement
  | const n => .fixed n
  | dynamic i => .computed (i.quantity results)

/-- What a read of each name yields: the content of its slot, or what it is bound to. -/
def CodeGen.readings (s : CodeGen) (placement : Placement) (results : Results)
    (space : AddressSpace) : Readings := fun name =>
  match s.mutableSlots.lookup name with
  | some (ptr, .int) =>
      some (.int ⟨64, BitVec.ofNat 64 (space.read (ptr.eval placement results) (bytesOf 64))⟩)
  | some (_, .float _) => none
  | none => (s.vars.lookup name).bind (SigilValue.datum placement results)

/-- The generator is inside a function and a block of it, and what its names are bound to
has been numbered. -/
structure CodeGen.Ready (s : CodeGen) : Prop where
  inFunction : s.inFunction = true
  inRange : s.current < s.blocks.length
  vars : ∀ {name value}, s.vars.lookup name = some value → ∀ r ∈ value.regs, r < s.nextId
  slots : ∀ {name slot}, s.mutableSlots.lookup name = some slot → ∀ r ∈ slot.1.regs, r < s.nextId

/-- How the code between two states ends: with results and memory of which `holds` is
true, or in a call of `abort` where the program aborts. -/
def Ends {β : Type} (placement : Placement) (code : Nat → List Item) (s t : CodeGen)
    (results : Results) (space : AddressSpace) (holds : β → Results → AddressSpace → Prop) :
    Meaning β → Prop
  | .ok b => ∃ results' space',
      Machine.Reaches placement code (s.machine results space) (t.machine results' space') ∧
        AgreeBelow s.nextId results results' ∧ holds b results' space'
  | .error .aborted => ∃ m,
      Machine.Reaches placement code (s.machine results space) m ∧ m.Aborts code
  | .error .undefined => True

/-- The code between two states realizes a meaning, whatever is emitted after it. -/
def Realizes {β : Type} (placement : Placement) (s t : CodeGen) (results : Results)
    (space : AddressSpace) (meaning : Meaning β) (holds : β → Results → AddressSpace → Prop) :
    Prop :=
  ∀ code, Contains code t → Ends placement code s t results space holds meaning

/-- A value stands for a datum, memory is as before and the value has been numbered. -/
def Carries (placement : Placement) (space : AddressSpace) (v : SigilValue) (bound : Nat)
    (d : Datum)
    (results' : Results) (space' : AddressSpace) : Prop :=
  space' = space ∧ v.datum placement results' = some d ∧ ∀ r ∈ v.regs, r < bound

namespace Realizes

variable {β γ : Type} {placement : Placement} {s m t : CodeGen} {results : Results}
  {space : AddressSpace} {meaning : Meaning β} {f : β → Meaning γ}
  {holds : β → Results → AddressSpace → Prop} {after : γ → Results → AddressSpace → Prop}

/-- No code. -/
theorem done {b : β} (holding : holds b results space) :
    Realizes placement s s results space (.ok b) holds :=
  fun _ _ => ⟨results, space, .refl, .refl _ _, holding⟩

/-- Where the meaning is undefined every code realizes it. -/
theorem undefined : Realizes placement s t results space (.error .undefined) holds :=
  fun _ _ => trivial

/-- Another value of the meaning. -/
theorem mapped {b : β} {c : γ} (realizes : Realizes placement s t results space (.ok b) holds)
    (weaken : ∀ results' space', holds b results' space' → after c results' space') :
    Realizes placement s t results space (.ok c) after := by
  intro code contains
  obtain ⟨results', space', reached, agree, holding⟩ := realizes code contains
  exact ⟨results', space', reached, agree, weaken results' space' holding⟩

/-- Realizations compose along a bind. -/
theorem bind (first : Realizes placement s m results space meaning holds)
    (grown : Precedes s m) (later : Precedes m t)
    (second : ∀ b results' space', meaning = .ok b → AgreeBelow s.nextId results results' →
      holds b results' space' → Realizes placement m t results' space' (f b) after) :
    Realizes placement s t results space (meaning >>= f) after := by
  intro code contains
  have run := first code (contains.before later)
  cases meaning with
  | error fault => cases fault <;> exact run
  | ok b =>
      obtain ⟨results', space', reached, agree, holding⟩ := run
      have rest := second b results' space' rfl agree holding code contains
      change Ends placement code s t results space after (f b)
      cases value : f b with
      | ok c =>
          rw [value] at rest
          obtain ⟨results'', space'', reached', agree', holding'⟩ := rest
          exact ⟨results'', space'', reached.trans reached', agree.trans agree' grown.nextId,
            holding'⟩
      | error fault =>
          rw [value] at rest
          cases fault with
          | aborted =>
              obtain ⟨stop, reached', aborts⟩ := rest
              exact ⟨stop, reached.trans reached', aborts⟩
          | undefined => exact trivial

/-- One instruction. -/
theorem built {i : Instr} {n : Nat} {space' : AddressSpace} {b : β}
    (inRange : s.current < s.blocks.length)
    (done : i.execute placement results space = some (n, space'))
    (holding : holds b (Function.update results s.nextId n) space') :
    Realizes placement s (s.built i) results space (.ok b) holds :=
  fun _ contains => ⟨_, space', s.reaches_built contains inRange done,
    agreeBelow_update results s.nextId n, holding⟩

/-- One instruction with the memory left alone, and what follows it. -/
theorem step {i : Instr} {n : Nat} (inRange : s.current < s.blocks.length)
    (done : i.execute placement results space = some (n, space)) (later : Precedes (s.built i) t)
    (rest : AgreeBelow s.nextId results (Function.update results s.nextId n) →
      Realizes placement (s.built i) t (Function.update results s.nextId n) space meaning holds) :
    Realizes placement s t results space meaning holds := by
  have here : Realizes placement s (s.built i) results space (.ok ())
      fun _ results' space' => results' = Function.update results s.nextId n ∧ space' = space :=
    .built inRange done ⟨rfl, rfl⟩
  apply here.bind (f := fun _ => meaning) (s.precedes_built i) later
  rintro _ _ _ - agree ⟨rfl, rfl⟩
  exact rest agree

end Realizes

section Values

variable {results results' : Results} {bound bound' : Nat} {placement : Placement}

/-- Registers known in a state are known in a later one. -/
theorem Precedes.below {s t : CodeGen} (precedes : Precedes s t) {regs : List Nat}
    (below : ∀ r ∈ regs, r < s.nextId) : ∀ r ∈ regs, r < t.nextId :=
  fun r member => (below r member).trans_le precedes.nextId

/-- An integer stands for the same quantity under results that agree on its registers. -/
theorem IntValue.quantity_agree {i : IntValue} (agree : AgreeBelow bound results results')
    (below : ∀ r ∈ i.regs, r < bound) : i.quantity results' = i.quantity results := by
  rw [IntValue.quantity, IntValue.eval_agree agree below, IntValue.quantity]

/-- A value stands for the same datum under results that agree on its registers. -/
theorem SigilValue.datum_agree {v : SigilValue} (agree : AgreeBelow bound results results')
    (below : ∀ r ∈ v.regs, r < bound) : v.datum placement results' = v.datum placement results := by
  cases v with
  | handle h => rw [SigilValue.datum, PtrValue.eval_agree placement agree below, SigilValue.datum]
  | immediate i => rw [SigilValue.datum, IntValue.quantity_agree agree below, SigilValue.datum]
  | float f => rfl

/-- A result just computed. -/
theorem IntValue.quantity_update {w : Nat} (id : Nat) (folded : Bool) (x : BitVec w) :
    (IntValue.reg w id folded).quantity (Function.update results id x.toNat) = ⟨w, x⟩ := by
  have value : (IntValue.reg w id folded).eval (Function.update results id x.toNat) = x := by
    rw [IntValue.eval_reg, Function.update_self]
    exact (BitVec.ofNat_toNat w x).trans (BitVec.setWidth_eq x)
  exact congrArg (Quantity.mk w) value

/-- A value of the width it is extended to. -/
theorem IntValue.quantity_signExtend {w : Nat} (i : IntValue) (same : w = i.width) :
    (⟨w, (i.eval results).signExtend w⟩ : Quantity) = i.quantity results := by
  subst same
  rw [BitVec.signExtend_eq]
  rfl

/-- A value of the width it is cut off to. -/
theorem IntValue.quantity_setWidth {w : Nat} (i : IntValue) (same : w = i.width) :
    (⟨w, (i.eval results).setWidth w⟩ : Quantity) = i.quantity results := by
  subst same
  rw [BitVec.setWidth_eq]
  rfl

namespace CodeGen.Ready

variable {ok : Set Nat} {s t : CodeGen} {space : AddressSpace}

/-- A state that is ready stays so as it grows. -/
theorem grows (ready : s.Ready) (grows : Grows ok s t) : t.Ready where
  inFunction := grows.inFunction.trans ready.inFunction
  inRange := grows.current ready.inRange
  vars bound := grows.precedes.below (ready.vars (grows.vars ▸ bound))
  slots bound := grows.precedes.below (ready.slots (grows.mutableSlots ▸ bound))

/-- Readings read the same while code is only added and results stay. -/
theorem readings_agree (ready : s.Ready) (grows : Grows ok s t)
    (agree : AgreeBelow s.nextId results results') :
    t.readings placement results' space = s.readings placement results space := by
  funext name
  unfold readings
  rw [grows.mutableSlots, grows.vars]
  cases slot : s.mutableSlots.lookup name with
  | some found =>
      have below := ready.slots slot
      obtain ⟨ptr, typ⟩ := found
      cases typ with
      | int => simp [PtrValue.eval_agree placement agree below]
      | float width => rfl
  | none =>
      cases bound : s.vars.lookup name with
      | none => rfl
      | some value => exact SigilValue.datum_agree agree (ready.vars bound)

end CodeGen.Ready

/-- A word that is equal to another at its width is it, cast. -/
theorem BitVec.cast_eq_of_heq {w w' : Nat} {x : BitVec w'} {y : BitVec w} (same : w' = w)
    (heq : HEq x y) : x.cast same = y := by
  subst same
  exact eq_of_heq heq

/-- An operation on two quantities of one width. -/
theorem Instr.compute_intOp (op : IntOp) {a b : IntValue} {w : Nat} {x y : BitVec w}
    (left : a.quantity results = ⟨w, x⟩) (right : b.quantity results = ⟨w, y⟩) :
    (Instr.intOp op a b).compute results = (op.apply x y).map BitVec.toNat := by
  rw [IntValue.quantity, Quantity.mk.injEq] at left right
  obtain ⟨rfl, valueA⟩ := left
  obtain rfl := eq_of_heq valueA
  rw [Instr.compute, dif_pos right.1, BitVec.cast_eq_of_heq right.1 right.2]

/-- A comparison of two quantities of one width. -/
theorem Instr.compute_icmp {pred : IntPredicate} {a b : IntValue} {w : Nat} {x y : BitVec w}
    (left : a.quantity results = ⟨w, x⟩) (right : b.quantity results = ⟨w, y⟩) :
    (Instr.icmp pred a b).compute results = some (pred.holds x y).toNat := by
  rw [IntValue.quantity, Quantity.mk.injEq] at left right
  obtain ⟨rfl, valueA⟩ := left
  obtain rfl := eq_of_heq valueA
  rw [Instr.compute, dif_pos right.1, BitVec.cast_eq_of_heq right.1 right.2]

end Values

section Operations

variable {placement : Placement} {s t : CodeGen} {results : Results} {space : AddressSpace}

/-- What a state of the generator reads for its names stays as code is added. -/
theorem Realizes.bindNames {β : Type} {m : CodeGen} {first : Meaning Datum}
    {f : Datum → Meaning β} {v : SigilValue} {after : β → Results → AddressSpace → Prop}
    (realizes : Realizes placement s m results space first (Carries placement space v m.nextId))
    (ready : s.Ready) (grows : Grows Set.univ s m) (later : Precedes m t)
    (second : ∀ d results', AgreeBelow s.nextId results results' → v.datum placement results' =
      some d →
      (∀ r ∈ v.regs, r < m.nextId) → m.Ready →
      m.readings placement results' space = s.readings placement results space →
      Realizes placement m t results' space (f d) after) :
    Realizes placement s t results space (first >>= f) after := by
  apply realizes.bind grows.precedes later
  rintro d results' space' - agree ⟨rfl, here, below⟩
  exact second d results' agree here below (ready.grows grows) (ready.readings_agree grows agree)

/-- Two integers are extended to the wider width. -/
theorem Realizes.normalized {a b : IntValue} {p : IntValue × IntValue} {m : CodeGen} {β : Type}
    {meaning : Meaning β} {after : β → Results → AddressSpace → Prop}
    (returned : Returns (Gen.normalizeIntTypes a b) s p m) (ready : s.Ready)
    (left : ∀ r ∈ a.regs, r < s.nextId) (right : ∀ r ∈ b.regs, r < s.nextId)
    (later : Precedes m t)
    (rest : ∀ results', m.Ready →
      let w := max a.width b.width
      p.1.quantity results' = ⟨w, (a.eval results).signExtend w⟩ →
      p.2.quantity results' = ⟨w, (b.eval results).signExtend w⟩ →
      Realizes placement m t results' space meaning after) :
    Realizes placement s t results space meaning after := by
  have grows := Gen.grows_normalizeIntTypes returned
  have readyM := ready.grows grows
  unfold Gen.normalizeIntTypes at returned
  by_cases same : a.width = b.width
  · rw [if_pos same, returns_pure] at returned
    obtain ⟨rfl, rfl⟩ := returned
    exact rest results ready (a.quantity_signExtend (by omega)).symm
      (b.quantity_signExtend (by omega)).symm
  · rw [if_neg same] at returned
    by_cases wider : a.width > b.width
    · rw [if_pos wider] at returned
      simp only [returns_bind, Gen.returns_buildInt, returns_pure] at returned
      obtain ⟨_, _, ⟨rfl, rfl⟩, rfl, rfl⟩ := returned
      have w : max a.width b.width = a.width := by omega
      rw [w] at rest
      refine Realizes.step ready.inRange rfl later fun agree => rest _ readyM ?_ ?_
      · rw [IntValue.quantity_agree agree left, a.quantity_signExtend rfl]
      · exact IntValue.quantity_update _ _ _
    · rw [if_neg wider] at returned
      simp only [returns_bind, Gen.returns_buildInt, returns_pure] at returned
      obtain ⟨_, _, ⟨rfl, rfl⟩, rfl, rfl⟩ := returned
      have w : max a.width b.width = b.width := by omega
      rw [w] at rest
      refine Realizes.step ready.inRange rfl later fun agree => rest _ readyM ?_ ?_
      · exact IntValue.quantity_update _ _ _
      · rw [IntValue.quantity_agree agree right, b.quantity_signExtend rfl]

/-- A value in the register just numbered. -/
theorem carries_reg {w n : Nat} {x : BitVec w} {folded : Bool} :
    Carries placement space (.immediate (.reg w n folded)) (n + 1) (.int ⟨w, x⟩)
      (Function.update results n x.toNat) space :=
  ⟨rfl, congrArg (fun q => some (Datum.int q)) (IntValue.quantity_update n folded x),
    by simp [SigilValue.regs, IntValue.regs]⟩

/-- An operation on two quantities of one width. -/
theorem realizes_intOp (op : IntOp) {a b : IntValue} {w : Nat} {x y : BitVec w}
    (inRange : s.current < s.blocks.length) (left : a.quantity results = ⟨w, x⟩)
    (right : b.quantity results = ⟨w, y⟩) :
    Realizes placement s (s.built (.intOp op a b)) results space
      ((defined (op.apply x y)).map fun bits => .int ⟨w, bits⟩)
      (Carries placement space (.immediate (.reg a.width s.nextId (Instr.intOp op a b).folds))
        (s.nextId + 1)) := by
  have width : a.width = w := congrArg Quantity.width left
  have computed := Instr.compute_intOp op left right
  rw [width]
  cases result : op.apply x y with
  | none => exact .undefined
  | some bits =>
      have done : (Instr.intOp op a b).execute placement results space =
        some (bits.toNat, space) := by
        change ((Instr.intOp op a b).compute results).map _ = _
        rw [computed, result]
        rfl
      exact .built inRange done carries_reg

end Operations

/-- Code for an expression realizes its meaning. -/
def Preserves (placement : Placement) (e : Expr) : Prop :=
  ∀ {s t : CodeGen} {v : SigilValue} (results : Results) (space : AddressSpace),
    Returns (Gen.compileExpr e) s v t → s.Ready →
      Realizes placement s t results space (e.meaning (s.readings placement results space) space)
        (Carries placement space v t.nextId)

section Operators

variable {placement : Placement} {s t : CodeGen} {results : Results} {space : AddressSpace}
  {a b : Expr} {v : SigilValue}

/-- Two operands, one after the other. -/
theorem Preserves.operands {β : Type} {m n : CodeGen} {va vb : SigilValue}
    {f : Datum → Datum → Meaning β} {after : β → Results → AddressSpace → Prop}
    (first : Preserves placement a) (second : Preserves placement b)
    (left : Returns (Gen.compileExpr a) s va m) (right : Returns (Gen.compileExpr b) m vb n)
    (ready : s.Ready) (later : Precedes n t)
    (rest : ∀ x y results', va.datum placement results' = some x →
      vb.datum placement results' = some y → (∀ r ∈ va.regs, r < n.nextId) →
      (∀ r ∈ vb.regs, r < n.nextId) → n.Ready →
      Realizes placement n t results' space (f x y) after) :
    Realizes placement s t results space
      (a.meaning (s.readings placement results space) space >>= fun x =>
        b.meaning (s.readings placement results space) space >>= f x) after := by
  have leftGrows := Gen.grows_compileExpr left
  have rightGrows := Gen.grows_compileExpr right
  refine (first results space left ready).bindNames ready leftGrows
    (rightGrows.precedes.trans later) ?_
  intro x results' _ valueA belowA readyM names
  rw [← names]
  refine (second results' space right readyM).bindNames readyM rightGrows later ?_
  intro y results'' agree valueB belowB readyN _
  exact rest x y results'' ((SigilValue.datum_agree agree belowA).trans valueA) valueB
    (rightGrows.precedes.below belowA) belowB readyN

/-- What is known of the integers an operator works on. -/
theorem SigilValue.datum_int {i : IntValue} {d : Datum}
    (value : (SigilValue.immediate i).datum placement results = some d) :
    d = .int (i.quantity results) :=
  (Option.some.inj value).symm

/-- An integer operation keeps its meaning when its operands do. -/
theorem Preserves.intBinop {op : IntOp} (first : Preserves placement a)
    (second : Preserves placement b) (ready : s.Ready)
    (returned : Returns (Gen.compileIntBinop op (Gen.compileExpr a) (Gen.compileExpr b)) s v t) :
    Realizes placement s t results space (do
      op.meaning (← a.meaning (s.readings placement results space) space)
        (← b.meaning (s.readings placement results space) space))
          (Carries placement space v t.nextId) := by
  simp only [Gen.compileIntBinop, returns_bind, Gen.returns_asInt, Gen.returns_buildInt,
    returns_pure] at returned
  obtain ⟨_, _, left, ia, m, ⟨rfl, rfl⟩, _, _, right, ib, n, ⟨rfl, rfl⟩, p, q, extended, _,
    _, ⟨rfl, rfl⟩, rfl, rfl⟩ := returned
  have later := (Gen.grows_normalizeIntTypes extended).precedes
  refine first.operands second left right ready (later.trans (q.precedes_built _)) ?_
  intro x y results' valueA valueB belowA belowB readyN
  obtain rfl := SigilValue.datum_int valueA
  obtain rfl := SigilValue.datum_int valueB
  refine .normalized extended readyN belowA belowB (q.precedes_built _) ?_
  intro results'' readyQ _ qa qb
  exact realizes_intOp op readyQ.inRange qa qb

/-- An integer comparison keeps its meaning when its operands do. -/
theorem Preserves.intCmp {pred : IntPredicate} (first : Preserves placement a)
    (second : Preserves placement b) (ready : s.Ready)
    (returned : Returns (Gen.compileIntCmp pred (Gen.compileExpr a) (Gen.compileExpr b)) s v t) :
    Realizes placement s t results space (do
      pred.meaning (← a.meaning (s.readings placement results space) space)
        (← b.meaning (s.readings placement results space) space))
          (Carries placement space v t.nextId) := by
  simp only [Gen.compileIntCmp, returns_bind, Gen.returns_asInt, Gen.returns_buildInt,
    returns_pure] at returned
  obtain ⟨_, _, left, ia, m, ⟨rfl, rfl⟩, _, _, right, ib, n, ⟨rfl, rfl⟩, p, q, extended, _,
    _, ⟨rfl, rfl⟩, _, _, ⟨rfl, rfl⟩, rfl, rfl⟩ := returned
  have later := (Gen.grows_normalizeIntTypes extended).precedes
  have rest := (q.precedes_built (.icmp pred p.1 p.2)).trans (CodeGen.precedes_built _
    (.zext (.reg 1 q.nextId (Instr.icmp pred p.1 p.2).folds) 64))
  refine first.operands second left right ready (later.trans rest) ?_
  intro x y results' valueA valueB belowA belowB readyN
  obtain rfl := SigilValue.datum_int valueA
  obtain rfl := SigilValue.datum_int valueB
  refine .normalized extended readyN belowA belowB rest ?_
  intro results'' readyQ w qa qb
  let bit := pred.holds ((ia.eval results').signExtend w) ((ib.eval results').signExtend w)
  have compared : (Instr.icmp pred p.1 p.2).execute placement results'' space =
      some (bit.toNat, space) :=
    congrArg (Option.map (·, space)) (Instr.compute_icmp qa qb)
  refine Realizes.step readyQ.inRange compared (CodeGen.precedes_built _ _) fun _ => ?_
  have truth :
    (⟨64, (BitVec.ofNat 1 (Function.update results'' q.nextId bit.toNat q.nextId)).setWidth
      64⟩ : Quantity) = .ofBool bit := by
    rw [Function.update_self]
    cases bit <;> rfl
  change Realizes placement _ _ _ space (.ok (Datum.int (.ofBool bit))) _
  rw [← truth]
  exact .built (by simpa using readyQ.inRange) rfl carries_reg

/-- INEG keeps its meaning when its operand does. -/
theorem Preserves.ineg (operand : Preserves placement a) (ready : s.Ready)
    (returned : Returns (Gen.compileIneg (Gen.compileExpr a)) s v t) :
    Realizes placement s t results space (do
      (← a.meaning (s.readings placement results space) space).neg)
        (Carries placement space v t.nextId) := by
  simp only [Gen.compileIneg, returns_bind, Gen.returns_asInt, Gen.returns_buildInt,
    returns_pure] at returned
  obtain ⟨_, _, left, i, m, ⟨rfl, rfl⟩, _, _, ⟨rfl, rfl⟩, rfl, rfl⟩ := returned
  refine (operand results space left ready).bindNames ready (Gen.grows_compileExpr left)
    (m.precedes_built _) ?_
  intro d results' _ value _ readyM _
  obtain rfl := SigilValue.datum_int value
  change Realizes placement m _ results' space (if i.width = 64 then
    .ok (Datum.int ⟨64, -(i.eval results').setWidth 64⟩) else .error .undefined) _
  by_cases wide : i.width = 64
  · have zero : (Gen.i64 0).quantity results' = ⟨64, 0⟩ := rfl
    have operand : _ = i.quantity results' := i.quantity_setWidth wide.symm
    rw [if_pos wide, ← BitVec.zero_sub]
    exact realizes_intOp .sub readyM.inRange zero operand.symm
  · rw [if_neg wide]
    exact .undefined

/-- NOT keeps its meaning when its operand does. -/
theorem Preserves.not (operand : Preserves placement a) (ready : s.Ready)
    (returned : Returns (Gen.compileNot (Gen.compileExpr a)) s v t) :
    Realizes placement s t results space (do
      (← a.meaning (s.readings placement results space) space).not)
        (Carries placement space v t.nextId) := by
  simp only [Gen.compileNot, returns_bind, Gen.returns_asInt, Gen.returns_buildInt,
    returns_pure] at returned
  obtain ⟨_, _, left, i, m, ⟨rfl, rfl⟩, _, _, ⟨rfl, rfl⟩, rfl, rfl⟩ := returned
  refine (operand results space left ready).bindNames ready (Gen.grows_compileExpr left)
    (m.precedes_built _) ?_
  intro d results' _ value _ readyM _
  obtain rfl := SigilValue.datum_int value
  exact .built readyM.inRange rfl carries_reg

end Operators

end Sigil
