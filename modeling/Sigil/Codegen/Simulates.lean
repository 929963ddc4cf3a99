import Sigil.Codegen.Preserves

/-!
# Code for accesses and whole expressions

A LOAD at a computed offset branches: to a call of `abort`, or on to the access. What
comes after it is emitted into the block of the second branch.
-/

namespace Sigil

open Flow Relation

section Guard

variable {placement : Placement} {s t : CodeGen} {results : Results} {space : AddressSpace}

/-- A state precedes its guarded one. -/
theorem Gen.precedes_guarded (s : CodeGen) (violation : IntValue) :
    Precedes s (Gen.guarded s violation) := by
  suffices steps : ExprSteps Set.univ s (Gen.guarded s violation) from steps.grows.precedes
  apply ReflTransGen.head (.append "bounds_violation")
  apply ReflTransGen.head (.append "bounds_ok")
  apply ReflTransGen.head (.terminate (.condBr violation s.blocks.length (s.blocks.length + 1))
    fun _ _ => trivial)
  apply ReflTransGen.head (.position s.blocks.length (by simp))
  apply ReflTransGen.head (.declare "abort")
  apply ReflTransGen.head (.build (.call "abort" []) fun _ _ => trivial)
  apply ReflTransGen.head (.terminate .unreachable fun _ _ => trivial)
  exact .single (.position (s.blocks.length + 1) (by simp))

/-- The block of a violation calls `abort`. -/
theorem Gen.items_violation (s : CodeGen) (violation : IntValue)
    (inRange : s.current < s.blocks.length) : (Gen.guarded s violation).items s.blocks.length =
      [] ++ .instr s.nextId (.call "abort" []) :: [.term .unreachable] := by
  unfold Gen.guarded
  rw [CodeGen.items_positioned, CodeGen.items_push _ (by simp), if_pos (by simp),
    CodeGen.items_built _ (by simp), if_pos (by simp), CodeGen.items_declared,
    CodeGen.items_positioned, CodeGen.items_push _ (by simp; omega), if_neg (by simp; omega),
    CodeGen.items_appended, CodeGen.items_appended, s.items_eq_nil le_rfl]
  rfl

/-- The block behind a guard is empty. -/
theorem Gen.items_behind (s : CodeGen) (violation : IntValue)
    (inRange : s.current < s.blocks.length) :
    (Gen.guarded s violation).items (s.blocks.length + 1) = [] := by
  unfold Gen.guarded
  rw [CodeGen.items_positioned, CodeGen.items_push _ (by simp), if_neg (by simp),
    CodeGen.items_built _ (by simp), if_neg (by simp), CodeGen.items_declared,
    CodeGen.items_positioned, CodeGen.items_push _ (by simp; omega), if_neg (by simp; omega),
    CodeGen.items_appended, CodeGen.items_appended, s.items_eq_nil (by omega)]

/-- A guard goes on or to its call of `abort`. -/
theorem realizes_guarded {bit folded : Bool} {id : Nat} (inRange : s.current < s.blocks.length) :
    Realizes placement s (Gen.guarded s (.reg 1 id folded)) (Function.update results id bit.toNat)
      space (if bit then .error .aborted else .ok ()) fun _ _ space' => space' = space := by
  intro code contains
  have next := contains.next (Gen.items_guarded inRange (.reg 1 id folded))
  have jumped : (s.machine (Function.update results id bit.toNat) space).step placement code =
      some ⟨if bit then s.blocks.length else s.blocks.length + 1, 0,
        Function.update results id bit.toNat, space⟩ := by
    unfold Machine.step CodeGen.machine
    rw [next]
    simp [BlockEnd.target_bit]
  cases bit with
  | true =>
      have stops := contains.next (Gen.items_violation s (.reg 1 id folded) inRange)
      exact ⟨_, .single jumped, s.nextId, stops⟩
  | false =>
      have reached : (Gen.guarded s (.reg 1 id folded)).machine
          (Function.update results id false.toNat) space = ⟨s.blocks.length + 1, 0,
            Function.update results id false.toNat, space⟩ := by
        change Machine.mk (s.blocks.length + 1)
          ((Gen.guarded s (.reg 1 id folded)).items (s.blocks.length + 1)).length _ _ = _
        rw [Gen.items_behind s _ inRange]
        rfl
      exact ⟨_, _, reached ▸ .single jumped, .refl _ _, rfl⟩

/-- A bounds check goes on where the access ends inside the memory. -/
theorem realizes_boundsCheck {offset : IntValue} {size allocated : Nat} {u : Unit}
    (returned : Returns (Gen.emitBoundsCheck offset size allocated) s u t)
    (inRange : s.current < s.blocks.length) (wide : offset.width = 64) :
    Realizes placement s t results space
      (if (BitVec.ofNat 64 allocated).ult
        ((offset.eval results).setWidth 64 + BitVec.ofNat 64 size) then .error .aborted else .ok ())
      fun _ _ space' => space' = space := by
  obtain ⟨folded, rfl⟩ := Gen.guarded_of_emitBoundsCheck returned
  let reached := (offset.eval results).setWidth 64 + BitVec.ofNat 64 size
  let ended : Instr := .intOp .add offset (Gen.i64 size)
  let beyond : Instr := .icmp .ugt (.reg offset.width s.nextId ended.folds) (Gen.i64 allocated)
  let results' := Function.update results s.nextId reached.toNat
  let bit := (BitVec.ofNat 64 allocated).ult reached
  have guards := Gen.precedes_guarded ((s.built ended).built beyond) (.reg 1 (s.nextId + 1) folded)
  have sum : ended.execute placement results space = some (reached.toNat, space) :=
    congrArg (Option.map (·, space)) (Gen.compute_end results wide)
  have end_ : BitVec.ofNat 64 (results' s.nextId) = reached := by
    rw [show results' s.nextId = reached.toNat from Function.update_self ..]
    exact (BitVec.ofNat_toNat 64 reached).trans (BitVec.setWidth_eq reached)
  have compared : beyond.execute placement results' space = some (bit.toNat, space) := by
    change (beyond.compute results').map (·, space) = _
    rw [show beyond = .icmp .ugt (.reg 64 s.nextId ended.folds) (Gen.i64 allocated) from
      congrArg (fun w => Instr.icmp .ugt (.reg w s.nextId ended.folds) (Gen.i64 allocated)) wide,
      Gen.compute_violation, end_]
    rfl
  refine Realizes.step inRange sum ((CodeGen.precedes_built _ beyond).trans guards) fun _ => ?_
  refine Realizes.step (by simpa using inRange) compared guards fun _ => ?_
  exact realizes_guarded (by simpa using inRange)

end Guard

section Access

variable {placement : Placement} {s t : CodeGen} {results : Results} {space : AddressSpace}

/-- An address just computed. -/
theorem PtrValue.eval_update (id : Nat) (folded : Bool) (x : BitVec 64) :
    (PtrValue.reg id folded).eval placement (Function.update results id x.toNat) = x := by
  rw [PtrValue.eval, Function.update_self]
  exact (BitVec.ofNat_toNat 64 x).trans (BitVec.setWidth_eq x)

/-- What follows a guard follows where it passes. -/
theorem guard_bind {β : Type} {c : Prop} [Decidable c] (b : β) :
    ((if c then .error .aborted else .ok () : Meaning Unit) >>= fun _ => .ok b) =
      if c then .error .aborted else .ok b := by
  split <;> rfl

/-- The memory behind a value. -/
theorem realizes_derefHandle {role : String} {v : SigilValue} {h : Handle} {d : Datum}
    (returned : Returns (Gen.derefHandle role v) s h t) (inRange : s.current < s.blocks.length)
    (value : v.datum placement results = some d) (below : ∀ r ∈ v.regs, r < s.nextId) :
    Realizes placement s t results space (.ok d.place)
      (Carries placement space (.handle h) t.nextId) := by
  cases v with
  | handle h =>
      obtain ⟨rfl, rfl⟩ := returns_pure.mp returned
      obtain rfl := Option.some.inj value
      exact .done ⟨rfl, rfl, below⟩
  | immediate i =>
      obtain rfl := SigilValue.datum_int value
      simp only [Gen.derefHandle, returns_bind, Gen.returns_buildPtr, returns_pure] at returned
      obtain ⟨_, _, ⟨rfl, rfl⟩, rfl, rfl⟩ := returned
      refine .built inRange rfl
        ⟨rfl, ?_, by simp [SigilValue.regs, PtrValue.regs, CodeGen.nextId_built]⟩
      exact congrArg (fun a => some (Datum.memory a 0 .int)) (PtrValue.eval_update _ _ _)
  | float f => exact absurd returned not_returns_throw

/-- The distance of an access. -/
theorem Preserves.offset {offset : Option Expr} {off : Offset}
    (each : ∀ e ∈ offset, Preserves placement e)
    (returned : Returns (Gen.compileOffset offset) s off t) (ready : s.Ready) :
    Realizes placement s t results space
      (displacementOf (s.readings placement results space) space offset) fun d results' space' =>
        space' = space ∧ off.displacement results' = d ∧ ∀ r ∈ off.regs, r < t.nextId := by
  cases offset with
  | none =>
      obtain ⟨rfl, rfl⟩ := returns_pure.mp returned
      exact .done ⟨rfl, rfl, by simp [Offset.regs]⟩
  | some e =>
      unfold Gen.compileOffset at returned
      unfold displacementOf
      cases literal : e.evalConstInt with
      | some n =>
          rw [literal] at returned
          obtain ⟨rfl, rfl⟩ := returns_pure.mp returned
          exact .done ⟨rfl, rfl, by simp [Offset.regs]⟩
      | none =>
          rw [literal] at returned
          simp only [returns_bind, Gen.returns_asInt, returns_pure] at returned
          obtain ⟨_, _, run, i, m, ⟨rfl, rfl⟩, rfl, rfl⟩ := returned
          refine (each e rfl results space run ready).bindNames ready (Gen.grows_compileExpr run)
            (.refl m) ?_
          intro d results' _ value below _ _
          obtain rfl := SigilValue.datum_int value
          exact .done ⟨rfl, rfl, below⟩

/-- An address at a constant distance. -/
theorem realizes_gep {p : PtrValue} {index : IntValue} {at_ : BitVec 64}
    (inRange : s.current < s.blocks.length)
    (sum : p.eval placement results + (index.eval results).signExtend 64 = at_) :
    Realizes placement s (s.built (.gep p index)) results space (.ok at_) fun at_ results' space' =>
      space' = space ∧
        (PtrValue.reg s.nextId (Instr.gep p index).folds).eval placement results' = at_ ∧
        ∀ r ∈ (PtrValue.reg s.nextId (Instr.gep p index).folds).regs, r < s.nextId + 1 := by
  refine .built inRange rfl ⟨rfl, ?_, by simp [PtrValue.regs]⟩
  rw [sum]
  exact PtrValue.eval_update _ _ _

/-- The address of an access, checked where it is computed. -/
theorem realizes_locate {h : Handle} {off : Offset} {size : Nat} {u : Unit} {m : CodeGen}
    {p : PtrValue} (check : Returns (Gen.checkOffset h size off) s u m)
    (address : Returns (Gen.address h off) m p t) (ready : s.Ready)
    (belowH : ∀ r ∈ h.ptr.regs, r < s.nextId) (belowO : ∀ r ∈ off.regs, r < s.nextId) :
    Realizes placement s t results space
      ((Datum.memory (h.ptr.eval placement results) h.size h.typ).locate size
        (off.displacement results)) fun at_ results' space' =>
          space' = space ∧ p.eval placement results' = at_ ∧ ∀ r ∈ p.regs, r < t.nextId := by
  cases off with
  | const n =>
      obtain ⟨rfl, rfl⟩ := returns_pure.mp check
      cases n with
      | zero =>
          obtain ⟨rfl, rfl⟩ := returns_pure.mp address
          exact .done ⟨rfl, (BitVec.add_zero _).symm, belowH⟩
      | succ n =>
          obtain ⟨rfl, rfl⟩ := Gen.returns_buildPtr.mp address
          refine realizes_gep ready.inRange ?_
          change _ + (BitVec.ofInt 64 (n + 1 : Nat)).signExtend 64 = _
          rw [BitVec.signExtend_eq]
          rfl
  | dynamic i =>
      obtain ⟨rfl, rfl⟩ := Gen.returns_buildPtr.mp address
      rw [Gen.returns_checkOffset ready.inFunction] at check
      let target := h.ptr.eval placement results + (i.eval results).signExtend 64
      change Realizes placement s _ results space (if h.size = 0 then .ok target
        else if i.width ≠ 64 then .error .undefined
        else if (BitVec.ofNat 64 h.size).ult ((i.eval results).setWidth 64 + BitVec.ofNat 64 size)
          then .error .aborted else .ok target) _
      by_cases known : 0 < h.size
      · rw [if_pos known] at check
        have grows := Gen.grows_boundsCheck check
        rw [if_neg (by omega)]
        by_cases wide : i.width = 64
        · rw [if_neg (not_not.mpr wide)]
          refine (congrArg (fun meaning => Realizes placement s _ results space meaning _)
            (guard_bind target)).mp ?_
          refine (realizes_boundsCheck check ready.inRange wide).bind grows.precedes
            (m.precedes_built _) ?_
          rintro _ results' _ - agree rfl
          refine realizes_gep (grows.current ready.inRange) ?_
          rw [PtrValue.eval_agree placement agree belowH, IntValue.eval_agree agree belowO]
        · rw [if_pos wide]
          exact .undefined
      · rw [if_neg known] at check
        obtain rfl := check
        rw [if_pos (by omega)]
        exact realizes_gep ready.inRange rfl

/-- What is left of a LOAD once its address is known. -/
theorem realizes_fetch {h : Handle} {p : PtrValue} {size : Nat} {v : SigilValue}
    {address : BitVec 64} (inRange : s.current < s.blocks.length)
    (read : Returns (match h.typ with
      | .float => do
          let width := if size = 4 then 32 else 64
          return .float (← Gen.buildFloat width (.loadFloat p width))
      | .int | .bytes | .string =>
          return .immediate (← Gen.buildInt (Gen.intWidth size) (.load p (Gen.intWidth size))))
            s v t) :
    Realizes placement s t results space
      ((Datum.memory address h.size h.typ).fetch space size (p.eval placement results))
      (Carries placement space v t.nextId) := by
  let w := Gen.intWidth size
  have number : Returns (do
      return .immediate (← Gen.buildInt w (.load p w))) s v t →
      Realizes placement s t results space
        (.ok (.int ⟨w, BitVec.ofNat w (space.read (p.eval placement results) (bytesOf w))⟩))
        (Carries placement space v t.nextId) := by
    intro read
    simp only [returns_bind, Gen.returns_buildInt, returns_pure] at read
    obtain ⟨_, _, ⟨rfl, rfl⟩, rfl, rfl⟩ := read
    refine .built inRange rfl
      ⟨rfl, ?_, by simp [SigilValue.regs, IntValue.regs, CodeGen.nextId_built]⟩
    rw [SigilValue.datum, IntValue.quantity, IntValue.eval_reg, Function.update_self]
    rfl
  cases typ : h.typ with
  | float => exact .undefined
  | int | bytes | string =>
      rw [typ] at read
      exact number read

/-- A state precedes the one behind a fetch. -/
theorem precedes_fetch {h : Handle} {p : PtrValue} {size : Nat} {v : SigilValue}
    (read : Returns (match h.typ with
      | .float => do
          let width := if size = 4 then 32 else 64
          return .float (← Gen.buildFloat width (.loadFloat p width))
      | .int | .bytes | .string =>
          return .immediate (← Gen.buildInt (Gen.intWidth size) (.load p (Gen.intWidth size))))
            s v t) :
    Precedes s t := by
  cases typ : h.typ <;> rw [typ] at read <;>
    simp only [returns_bind, Gen.returns_buildInt, Gen.returns_buildFloat, returns_pure] at read <;>
    obtain ⟨_, _, ⟨rfl, rfl⟩, rfl, rfl⟩ := read <;> exact s.precedes_built _

/-- LOAD of a value. -/
theorem Preserves.load {source : Expr} {size : Nat} {offset : Option Expr} {v : SigilValue}
    (operand : Preserves placement source) (each : ∀ e ∈ offset, Preserves placement e)
    (ready : s.Ready) (returned : Returns (Gen.compileExpr (.load source size offset)) s v t) :
    Realizes placement s t results space
      ((Expr.load source size offset).meaning (s.readings placement results space) space)
      (Carries placement space v t.nextId) := by
  unfold Gen.compileExpr Gen.load at returned
  simp only [returns_bind] at returned
  obtain ⟨vs, m₁, run, h, m₂, deref, off, m₃, distance, u, m₄, check, p, m₅, address, read⟩ :=
    returned
  have grows₁ := Gen.grows_compileExpr run
  have grows₂ := Gen.grows_derefHandle deref
  have grows₃ := Gen.grows_compileOffset distance
  have grows₄ := (Gen.grows_checkOffset check).trans (Gen.grows_address address)
  have last := precedes_fetch read
  have later₃ := grows₄.precedes.trans last
  have later₂ := grows₃.precedes.trans later₃
  unfold Expr.meaning
  refine (operand results space run ready).bindNames ready grows₁ (grows₂.precedes.trans later₂) ?_
  intro d results₁ _ value below ready₁ names₁
  refine (realizes_derefHandle deref ready₁.inRange value below).bindNames ready₁ grows₂ later₂
    (f := fun place => displacementOf (s.readings placement results space) space offset >>= fun
      distance => place.locate size distance >>= fun at_ => place.fetch space size at_) ?_
  intro place results₂ _ valueH belowH ready₂ names₂
  obtain rfl := Option.some.inj valueH
  rw [← names₁, ← names₂]
  refine (Preserves.offset each distance ready₂).bind grows₃.precedes later₃ ?_
  rintro _ results₃ _ - agree₃ ⟨rfl, rfl, belowO⟩
  rw [← PtrValue.eval_agree placement agree₃ belowH]
  refine (realizes_locate check address (ready₂.grows grows₃) (grows₃.precedes.below belowH)
    belowO).bind grows₄.precedes last ?_
  rintro _ results₄ _ - _ ⟨rfl, rfl, _⟩
  exact realizes_fetch ((ready₂.grows grows₃).grows grows₄).inRange read

/-- A read of a name. -/
theorem Preserves.var (name : String) : Preserves placement (.var name) := by
  intro s t v results space returned ready
  unfold Gen.compileExpr Gen.getVar at returned
  simp only [returns_bind, returns_get] at returned
  obtain ⟨_, s, ⟨rfl, rfl⟩, read⟩ := returned
  unfold Expr.meaning
  cases slot : s.mutableSlots.lookup name with
  | none =>
      rw [slot] at read
      have names : s.readings placement results space name =
          (s.vars.lookup name).bind (SigilValue.datum placement results) := by
        rw [CodeGen.readings, slot]
      rw [names]
      cases bound : s.vars.lookup name with
      | none => exact .undefined
      | some value =>
          rw [bound] at read
          obtain ⟨rfl, rfl⟩ := returns_pure.mp read
          change Realizes placement s s results space (defined (value.datum placement results)) _
          cases datum : value.datum placement results with
          | none => exact .undefined
          | some d => exact .done ⟨rfl, datum, ready.vars bound⟩
  | some found =>
      obtain ⟨ptr, typ⟩ := found
      cases typ with
      | int =>
          have names : s.readings placement results space name = some (.int
              ⟨64, BitVec.ofNat 64 (space.read (ptr.eval placement results) (bytesOf 64))⟩) := by
            rw [CodeGen.readings, slot]
          rw [slot] at read
          simp only [returns_bind, Gen.returns_buildInt, returns_pure] at read
          obtain ⟨_, _, ⟨rfl, rfl⟩, rfl, rfl⟩ := read
          rw [names]
          refine .built ready.inRange rfl ⟨rfl, ?_,
            by simp [SigilValue.regs, IntValue.regs, CodeGen.nextId_built]⟩
          rw [SigilValue.datum, IntValue.quantity, IntValue.eval_reg, Function.update_self]
          rfl
      | float width =>
          have names : s.readings placement results space name = none := by
            rw [CodeGen.readings, slot]
          rw [names]
          exact .undefined

/-- Code for every expression realizes its meaning. -/
theorem preserves (placement : Placement) (e : Expr) : Preserves placement e := by
  induction e using Expr.inductionOnChildren with
  | step e operand =>
      intro s t v results space returned ready
      cases e with
      | intLit n =>
          unfold Gen.compileExpr at returned
          obtain ⟨rfl, rfl⟩ := returns_pure.mp returned
          refine .done ⟨rfl, ?_, by simp [SigilValue.regs, Gen.i64, IntValue.regs]⟩
          exact congrArg (fun x => some (Datum.int ⟨64, x⟩)) BitVec.ofInt_toInt
      | var name => exact Preserves.var name results space returned ready
      | load source size offset =>
          refine Preserves.load (operand source (by cases offset <;> simp [Expr.children]))
            (fun e here => operand e (by
              cases here
              simp [Expr.children])) ready returned
      | intArith op a b size =>
          unfold Gen.compileExpr at returned
          unfold Expr.meaning
          exact Preserves.intBinop (operand a (by simp [Expr.children]))
            (operand b (by simp [Expr.children])) ready returned
      | bitwise op a b size =>
          unfold Gen.compileExpr at returned
          unfold Expr.meaning
          exact Preserves.intBinop (operand a (by simp [Expr.children]))
            (operand b (by simp [Expr.children])) ready returned
      | intCmp op a b size =>
          unfold Gen.compileExpr at returned
          unfold Expr.meaning
          exact Preserves.intCmp (operand a (by simp [Expr.children]))
            (operand b (by simp [Expr.children])) ready returned
      | ineg a size =>
          unfold Gen.compileExpr at returned
          unfold Expr.meaning
          exact Preserves.ineg (operand a (by simp [Expr.children])) ready returned
      | not a size =>
          unfold Gen.compileExpr at returned
          unfold Expr.meaning
          exact Preserves.not (operand a (by simp [Expr.children])) ready returned
      | _ => exact .undefined

end Access

/-- A function whose parameter is eight bytes of memory, with an integer in hand. -/
def indexedGenerator : CodeGen where
  blocks := [{ name := "entry" }]
  inFunction := true
  nextId := 1
  vars := ((∅ : AList fun _ : String => SigilValue).insert "i"
    (.immediate (.reg 64 0 false))).insert
    "b" (.handle ⟨.param 0, 8, .bytes⟩)

/-- The generator `indexedGenerator` is ready. -/
theorem indexedGenerator_ready : indexedGenerator.Ready where
  inFunction := rfl
  inRange := by decide
  vars := by
    intro name value lookup
    by_cases memory : name = "b"
    · subst memory
      obtain rfl := Option.some.inj ((AList.lookup_insert _).symm.trans lookup)
      simp [SigilValue.regs, PtrValue.regs]
    · have lookup := (AList.lookup_insert_ne memory).symm.trans lookup
      by_cases index : name = "i"
      · subst index
        obtain rfl := Option.some.inj ((AList.lookup_insert _).symm.trans lookup)
        simp [SigilValue.regs, IntValue.regs, indexedGenerator]
      · have lookup := (AList.lookup_insert_ne index).symm.trans lookup
        cases lookup
  slots := by
    intro name slot lookup
    cases lookup

/-- `IADD (LOAD b 4 i) 1 8`. -/
def loadPlusOne : Expr :=
  .intArith .add (.load (.var "b") 4 (some (.var "i"))) (.intLit 1) 8

def loadPlusOneCode : CodeGen × SigilValue :=
  match Gen.compileExpr loadPlusOne indexedGenerator with
  | .ok (v, t) => (t, v)
  | .error _ => (indexedGenerator, .float (.const 0))

end Sigil
