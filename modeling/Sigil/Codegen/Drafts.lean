import Sigil.Codegen.Outline

/-!
# Sketches follow the generator

Every function of the generator is followed by the function of the same name on
sketches: on the sketch of a state it computes the sketch of what the generator leaves
and the shape of what it returns, and it fails where the generator does.
-/

namespace Sigil

open Flow

def Offset.distance : Offset → Draft.Distance
  | const n => .const n
  | dynamic i => .dynamic i.scalar

namespace Gen

variable {n : Nat}

section Access

/-- The draft of an allocation follows the generator. -/
theorem follows_allocHandle (size : Nat) (typ : HandleType) :
    Drafts n (allocHandle size typ) (Draft.allocHandle size typ) Handle.memory :=
  (follows_buildPtr _ rfl rfl).bind fun _ => .pure rfl

/-- The draft of an allocation in the scope follows the generator. -/
theorem follows_scopeAllocHandle (size : Nat) (typ : HandleType) :
    Drafts n (scopeAllocHandle size typ) (Draft.scopeAllocHandle size typ) Handle.memory := by
  apply Follows.get_bind
  intro s
  have isScoped : s.sketch.isScoped = s.currentScope.isSome := rfl
  rw [isScoped]
  cases s.currentScope with
  | none => exact follows_allocHandle size typ
  | some scope => exact (follows_callRuntime _ _).bind fun _ => .pure rfl

/-- The draft of the check of an offset follows the generator. -/
theorem follows_checkOffset (h : Handle) (size : Nat) (offset : Offset) :
    Drafts n (checkOffset h size offset) (Draft.checkOffset h.memory offset.distance) id := by
  cases offset with
  | const n => exact .pure rfl
  | dynamic i =>
      apply Follows.get_bind
      intro s
      change Drafts n (if (s.inFunction && h.size > 0) = true then _ else _)
        (if (s.inFunction && h.size > 0) = true then _ else _) id
      split
      · exact follows_emitBoundsCheck _ _ _
      · exact .pure rfl

/-- The draft of an address follows the generator. -/
theorem follows_address (h : Handle) (offset : Offset) :
    Drafts n (address h offset) (Draft.address h.memory offset.distance) PtrValue.isConst := by
  match offset with
  | .const 0 => exact .pure rfl
  | .const (n + 1) => exact follows_buildPtr _ (Bool.and_true _) rfl
  | .dynamic i => exact follows_buildPtr _ rfl rfl

/-- The draft of a load follows the generator. -/
theorem follows_load (h : Handle) (size : Nat) (offset : Offset) :
    Drafts n (load h size offset) (Draft.load h.memory size offset.distance) SigilValue.shape := by
  apply (follows_checkOffset h size offset).bind
  intro _
  apply (follows_address h offset).bind
  intro ptr
  have typ : h.memory.typ = h.typ := rfl
  rw [typ]
  cases h.typ with
  | float => exact (follows_buildFloat _ _ rfl rfl).bind fun _ => .pure rfl
  | int | bytes | string => exact (follows_buildInt _ _ rfl rfl).bind fun _ => .pure rfl

/-- The draft of a store follows the generator. -/
theorem follows_store (h : Handle) (value : SigilValue) (size : Nat) (offset : Offset) :
    Drafts n (store h value size offset) (Draft.store h.memory value.shape size offset.distance)
      fun _ => () := by
  apply (follows_checkOffset h size offset).bind
  intro _
  apply (follows_address h offset).bind
  intro ptr
  cases value with
  | immediate i =>
      apply (follows_resizeInt i _).bind
      intro resized
      exact (follows_emit _ rfl rfl).bind fun _ => .pure rfl
  | handle src =>
      apply (follows_buildInt 64 _ rfl rfl).bind
      intro address
      apply (follows_resizeInt address _).bind
      intro resized
      exact (follows_emit _ rfl rfl).bind fun _ => .pure rfl
  | float f => exact (follows_emit _ rfl rfl).bind fun _ => .pure rfl

/-- The draft of the handle of an immediate follows the generator. -/
theorem follows_immediateToHandle (value : SigilValue) :
    Drafts n (immediateToHandle value) (Draft.immediateToHandle value.shape) Handle.memory := by
  cases value with
  | handle h => exact .pure rfl
  | immediate i =>
      apply (follows_allocHandle (max (i.width / 8) 8) .int).bind
      intro h
      exact (follows_emit _ rfl rfl).bind fun _ => .pure rfl
  | float f =>
      apply (follows_allocHandle (if f.width = 32 then 4 else 8) .float).bind
      intro h
      exact (follows_emit _ rfl rfl).bind fun _ => .pure rfl

/-- The draft of a dereferenced handle follows the generator. -/
theorem follows_derefHandle (role : String) (value : SigilValue) :
    Drafts n (derefHandle role value) (Draft.derefHandle value.shape) Handle.memory := by
  cases value with
  | handle h => exact .pure rfl
  | immediate i => exact (follows_buildPtr _ rfl rfl).bind fun _ => .pure rfl
  | float f => exact .throw _

end Access

section Names

/-- The pointer to an output slot. -/
theorem follows_slotPointer {α β : Type} {of : α → β} {next : PtrValue → Gen α}
    {next' : Bool → Draft β} (base : PtrValue) (offset : Nat)
    (goesOn : ∀ p, Drafts n (next p) (next' p.isConst) of) :
    Drafts n (if offset > 0 then buildPtr (.gep base (i64 offset)) >>= next else pure base >>= next)
      (Draft.slotPointer base.isConst offset >>= next') of := by
  unfold Draft.slotPointer
  split
  · have folds : (Instr.gep base (i64 offset)).folds = base.isConst := Bool.and_true _
    exact (follows_buildPtr _ folds rfl).bind goesOn
  · exact (Follows.pure rfl).bind goesOn

/-- The draft of a field of call outputs follows the generator. -/
theorem follows_getField (outputs : CallOutputs) (field : String) :
    Drafts n (getField outputs field) (Draft.getField outputs.layout field) Handle.memory := by
  have slots : outputs.layout.slots = outputs.slots := rfl
  unfold getField Draft.getField
  rw [slots]
  cases outputs.slots.find? fun slot => slot.name = field with
  | none => exact .throw _
  | some slot => exact follows_slotPointer _ _ fun p => .pure rfl

/-- The draft of a variable follows the generator. -/
theorem follows_getVar (name : String) :
    Drafts n (getVar name) (Draft.getVar name) SigilValue.shape := by
  apply Follows.get_bind
  intro s
  have slots : s.sketch.slots name = (s.mutableSlots.lookup name).map Prod.snd := rfl
  have vars : s.sketch.vars name = (s.vars.lookup name).map SigilValue.shape := rfl
  rw [slots, vars]
  cases s.mutableSlots.lookup name with
  | some found =>
      obtain ⟨ptr, slot⟩ := found
      cases slot with
      | int => exact (follows_buildInt _ _ rfl rfl).bind fun _ => .pure rfl
      | float width => exact (follows_buildFloat _ _ rfl rfl).bind fun _ => .pure rfl
  | none =>
      cases s.vars.lookup name with
      | some value => exact .pure rfl
      | none => exact .throw _

/-- The draft of a binding follows the generator. -/
theorem follows_getBinding (name : String) :
    Drafts n (getBinding name) (Draft.getBinding name) SigilValue.shape := by
  apply Follows.get_bind
  intro s
  have vars : s.sketch.vars name = (s.vars.lookup name).map SigilValue.shape := rfl
  rw [vars]
  cases s.vars.lookup name with
  | some value => exact .pure rfl
  | none => exact .throw _

/-- The draft of a string literal follows the generator. -/
theorem follows_compileString (s : String) :
    Drafts n (compileString s) (Draft.compileString s) SigilValue.shape := by
  apply Follows.of_returns
  intro cg inRange
  refine ⟨_, _, rfl, ?_, inRange⟩
  change some (Shape.handle ⟨8 + s.toUTF8.toList.length, .string, true⟩, cg.sketch) = some (.handle
    ⟨(((List.range 8).map fun i => UInt8.ofNat (s.utf8ByteSize / 2 ^ (8 * i))) ++
      s.toUTF8.toList).length, .string, true⟩, cg.sketch)
  rw [List.length_append, List.length_map, List.length_range]

/-- The draft of a field follows the generator. -/
theorem follows_compileField (base : Expr) (field : String) :
    Drafts n (compileField base field) (Draft.compileField base field) SigilValue.shape := by
  cases base with
  | var name =>
      apply Follows.get_bind
      intro s
      have seen : s.sketch.outputs name = (s.callOutputs.lookup name).map CallOutputs.layout := rfl
      rw [seen]
      cases s.callOutputs.lookup name with
      | none => exact .throw _
      | some outputs =>
          apply (follows_getField outputs field).bind
          intro handle
          change Drafts n (if handle.typ = .string then _ else _)
            (if handle.typ = .string then _ else _) _
          split
          · exact (follows_buildPtr _ rfl rfl).bind fun _ => .pure rfl
          · exact .pure rfl
  | _ => exact .throw _

end Names

section Expressions

variable {a b c : Gen SigilValue} {a' b' c' : Draft Shape}

/-- A value is followed by its shape. -/
abbrev DraftsValue (n : Nat) (x : Gen SigilValue) (y : Draft Shape) : Prop :=
  Drafts n x y SigilValue.shape

/-- The draft of an integer operation follows the generator. -/
theorem follows_compileIntBinop (op : IntOp) (x : DraftsValue n a a') (y : DraftsValue n b b') :
    DraftsValue n (compileIntBinop op a b) (Draft.compileIntBinop a' b') := by
  apply x.bind
  intro av
  apply (follows_asInt av).bind
  intro av
  apply y.bind
  intro bv
  apply (follows_asInt bv).bind
  intro bv
  apply (follows_normalizeIntTypes av bv).bind_of fun _ _ _ => normalizeIntTypes_width
  intro p same
  exact (follows_buildInt _ (.intOp op p.1 p.2) rfl (decide_eq_true same)).bind fun _ => .pure rfl

/-- The draft of an integer comparison follows the generator. -/
theorem follows_compileIntCmp (pred : IntPredicate) (x : DraftsValue n a a')
    (y : DraftsValue n b b') :
    DraftsValue n (compileIntCmp pred a b) (Draft.compileIntCmp a' b') := by
  apply x.bind
  intro av
  apply (follows_asInt av).bind
  intro av
  apply y.bind
  intro bv
  apply (follows_asInt bv).bind
  intro bv
  apply (follows_normalizeIntTypes av bv).bind_of fun _ _ _ => normalizeIntTypes_width
  intro p same
  apply (follows_buildInt 1 (.icmp pred p.1 p.2) rfl (decide_eq_true same)).bind
  intro cmp
  exact (follows_buildInt _ _ rfl rfl).bind fun _ => .pure rfl

/-- The draft of a float operation follows the generator. -/
theorem follows_compileFloatBinop (op : FloatArith) (x : DraftsValue n a a')
    (y : DraftsValue n b b') :
    DraftsValue n (compileFloatBinop op a b) (Draft.compileFloatBinop a' b') := by
  apply x.bind
  intro av
  apply (follows_asFloat av).bind
  intro av
  apply y.bind
  intro bv
  apply (follows_asFloat bv).bind
  intro bv
  exact (follows_buildFloat _ _ rfl rfl).bind fun _ => .pure rfl

/-- The draft of a float comparison follows the generator. -/
theorem follows_compileFloatCmp (pred : Comparison) (x : DraftsValue n a a')
    (y : DraftsValue n b b') :
    DraftsValue n (compileFloatCmp pred a b) (Draft.compileFloatCmp a' b') := by
  apply x.bind
  intro av
  apply (follows_asFloat av).bind
  intro av
  apply y.bind
  intro bv
  apply (follows_asFloat bv).bind
  intro bv
  apply (follows_buildInt 1 (.fcmp pred av bv) rfl rfl).bind
  intro cmp
  exact (follows_buildInt _ _ rfl rfl).bind fun _ => .pure rfl

/-- The draft of INEG follows the generator. -/
theorem follows_compileIneg (x : DraftsValue n a a') :
    DraftsValue n (compileIneg a) (Draft.compileIneg a') := by
  apply x.bind
  intro av
  apply (follows_asInt av).bind
  intro av
  have same : (Instr.intOp .sub (i64 0) av).isAligned = decide (av.width = 64) :=
    decide_eq_decide.mpr eq_comm
  exact (follows_buildInt 64 _ rfl same).bind fun _ => .pure rfl

/-- The draft of NOT follows the generator. -/
theorem follows_compileNot (x : DraftsValue n a a') :
    DraftsValue n (compileNot a) (Draft.compileNot a') := by
  apply x.bind
  intro av
  apply (follows_asInt av).bind
  intro av
  exact (follows_buildInt _ _ rfl rfl).bind fun _ => .pure rfl

/-- The draft of FNEG follows the generator. -/
theorem follows_compileFneg (x : DraftsValue n a a') :
    DraftsValue n (compileFneg a) (Draft.compileFneg a') := by
  apply x.bind
  intro av
  apply (follows_asFloat av).bind
  intro av
  exact (follows_buildFloat _ _ rfl rfl).bind fun _ => .pure rfl

/-- The draft of FTOI follows the generator. -/
theorem follows_compileFtoi (x : DraftsValue n a a') (intSize : Nat) :
    DraftsValue n (compileFtoi a intSize) (Draft.compileFtoi a' intSize) := by
  apply x.bind
  intro fv
  apply (follows_asFloat fv).bind
  intro fv
  exact (follows_buildInt _ _ rfl rfl).bind fun _ => .pure rfl

/-- The draft of ITOF follows the generator. -/
theorem follows_compileItof (x : DraftsValue n a a') (floatSize : Nat) :
    DraftsValue n (compileItof a floatSize) (Draft.compileItof a' floatSize) := by
  apply x.bind
  intro iv
  apply (follows_asInt iv).bind
  intro iv
  exact (follows_buildFloat _ _ rfl rfl).bind fun _ => .pure rfl

/-- The draft of ATOMIC_STORE follows the generator. -/
theorem follows_compileAtomicStore (x : DraftsValue n a a') (y : DraftsValue n b b') (size : Nat) :
    DraftsValue n (compileAtomicStore a b size) (Draft.compileAtomicStore a' b' size) := by
  apply x.bind
  intro target
  apply (follows_asHandle target).bind
  intro handle
  apply y.bind
  intro val
  exact (follows_store handle val size (.const 0)).bind fun _ => .pure rfl

/-- The draft of CAS follows the generator. -/
theorem follows_compileCas (x : DraftsValue n a a') (y : DraftsValue n b b')
    (z : DraftsValue n c c') :
    DraftsValue n (compileCas a b c) (Draft.compileCas a' b' c') := by
  apply x.bind
  intro target
  apply (follows_asHandle target).bind
  intro handle
  apply y.bind
  intro exp
  apply (follows_asInt exp).bind
  intro exp
  apply z.bind
  intro new
  apply (follows_asInt new).bind
  intro new
  change Drafts n (if exp.width ≠ new.width then _ else _)
    (if exp.width ≠ new.width then _ else _) _
  by_cases same : exp.width = new.width
  · rw [if_neg (not_not_intro same), if_neg (not_not_intro same)]
    apply (follows_emit (.cmpxchg handle.ptr exp new) rfl (decide_eq_true same)).bind
    intro result
    apply (follows_buildInt 1 (.extractSuccess result) rfl rfl).bind
    intro success
    exact (follows_buildInt _ _ rfl rfl).bind fun _ => .pure rfl
  · rw [if_pos same, if_pos same]
    exact .throw_bind _

/-- The draft of an atomic update follows the generator. -/
theorem follows_compileAtomicRmw (op : AtomicRmw) (x : DraftsValue n a a')
    (y : DraftsValue n b b') :
    DraftsValue n (compileAtomicRmw op a b) (Draft.compileAtomicRmw a' b') := by
  apply x.bind
  intro target
  apply (follows_asHandle target).bind
  intro handle
  apply y.bind
  intro val
  apply (follows_asInt val).bind
  intro val
  change Drafts n (if val.width < 8 ∨ ¬ val.width.isPowerOfTwo then _ else _)
    (if val.width < 8 ∨ ¬ val.width.isPowerOfTwo then _ else _) _
  split
  · exact .throw_bind _
  · exact (follows_buildInt _ _ rfl rfl).bind fun _ => .pure rfl

/-- The draft of an argument of SPAWN follows the generator. -/
theorem follows_spawnArg (v : SigilValue) :
    Drafts n (spawnArg v) (Draft.spawnArg v.shape) IntValue.scalar := by
  cases v with
  | handle h => exact follows_buildInt _ _ rfl rfl
  | immediate i => exact .pure rfl
  | float f => exact follows_buildInt _ _ rfl rfl

/-- The draft of SPAWN follows the generator. -/
theorem follows_compileSpawn (pattern : String) (argCount : Nat) {args : Handle → Gen Unit}
    {args' : MemoryShape → Draft Unit} (stores : ∀ h, Drafts n (args h) (args' h.memory) id) :
    DraftsValue n (compileSpawn pattern argCount args)
      (Draft.compileSpawn pattern argCount args') := by
  apply (follows_declare _).bind
  intro _
  apply Follows.get_bind
  intro s
  change Drafts n (if symbolOf pattern ∉ s.moduleFns then _ else _)
    (if symbolOf pattern ∉ s.moduleFns then _ else _) _
  split
  · exact .throw_bind _
  · apply (follows_allocHandle (spawnBufferSize s pattern argCount) .bytes).bind
    intro buffer
    apply (stores buffer).bind
    intro _
    exact (follows_buildInt _ _ rfl rfl).bind fun _ => .pure rfl

/-- The draft of WAIT follows the generator. -/
theorem follows_compileWait (handleName : String) :
    DraftsValue n (compileWait handleName) (Draft.compileWait handleName) := by
  apply (follows_declare _).bind
  intro _
  apply (follows_getBinding handleName).bind
  intro v
  apply (follows_asInt v).bind
  intro handle
  exact (follows_emit _ rfl rfl).bind fun _ => .pure rfl

/-- The draft of CHANNEL follows the generator. -/
theorem follows_compileChannel (x : DraftsValue n a a') :
    DraftsValue n (compileChannel a) (Draft.compileChannel a') := by
  apply (follows_declare _).bind
  intro _
  apply x.bind
  intro v
  apply (follows_asInt v).bind
  intro cap
  exact (follows_buildInt _ _ rfl rfl).bind fun _ => .pure rfl

/-- The draft of CHANNEL_RECEIVE follows the generator. -/
theorem follows_compileChannelReceive (channel : String) :
    DraftsValue n (compileChannelReceive channel) (Draft.compileChannelReceive channel) := by
  apply (follows_declare _).bind
  intro _
  apply (follows_getBinding channel).bind
  intro v
  apply (follows_asInt v).bind
  intro chan
  apply (follows_allocHandle 8 .int).bind
  intro buffer
  apply (follows_emit _ rfl rfl).bind
  intro _
  exact (follows_buildInt _ _ rfl rfl).bind fun _ => .pure rfl

/-- The draft of a callee follows the generator. -/
theorem follows_callee (behavior : String) :
    Drafts n (callee behavior) (Draft.callee behavior) fun _ => () := by
  apply Follows.get_bind
  intro s
  have fns : s.sketch.behaviorFns = s.behaviorFns := rfl
  have declared : s.sketch.moduleFns = s.moduleFns := rfl
  rw [fns, declared]
  cases s.behaviorFns.lookup behavior with
  | some symbol => exact .pure rfl
  | none =>
      dsimp only
      split
      · exact .pure rfl
      · exact .throw _

/-- The draft of the pointers to the output slots follows the generator. -/
theorem follows_slotPointers (buffer : Handle) (slots : List OutputSlot) :
    Drafts n (slotPointers buffer slots) (Draft.slotPointers buffer.ptr.isConst slots)
      fun _ => () := by
  induction slots with
  | nil => exact .pure rfl
  | cons slot rest ih =>
      apply follows_slotPointer
      intro p
      exact ih.map fun _ => rfl

/-- The outputs of a CALL are kept under a name. -/
theorem follows_keepOutputs (name : String) (outputs : CallOutputs) :
    Drafts n (modify fun cg : CodeGen =>
        { cg with callOutputs := cg.callOutputs.insert name outputs })
      (modify fun sk : Sketch => sk.keepOutputs name (some outputs.layout)) id := by
  refine Follows.modify (fun s _ => ?_) ?_
  case refine_2 => exact fun _ inRange => inRange
  have kept : Function.update s.sketch.outputs name (some outputs.layout) =
      { s with callOutputs := s.callOutputs.insert name outputs }.sketch.outputs := by
    funext name'
    by_cases here : name' = name
    · subst here
      simp [CodeGen.sketch]
    · simp [CodeGen.sketch, here]
  exact congrArg (fun outputs => { s.sketch with outputs := outputs }) kept

/-- The draft of CALL follows the generator. -/
theorem follows_compileCall (behavior : String) {args : Gen (List CallArg)} {args' : Draft Unit}
    (inputs : Drafts n args args' fun _ => ()) :
    DraftsValue n (compileCall behavior args) (Draft.compileCall behavior args') := by
  apply (follows_callee behavior).bind
  intro symbol
  apply Follows.get_bind
  intro s
  apply inputs.bind
  intro inputs
  change Drafts n (if ((outputsOf s behavior).map OutputSlot.size).sum > 0 then _ else _)
    (if ((outputsOf s behavior).map OutputSlot.size).sum > 0 then _ else _) _
  split
  · apply (follows_scopeAllocHandle _ .bytes).bind
    intro buffer
    apply (follows_slotPointers buffer _).bind
    intro outputs
    apply (follows_emit _ rfl rfl).bind
    intro _
    exact (follows_keepOutputs "__pending" ⟨buffer, outputsOf s behavior⟩).bind fun _ => .pure rfl
  · exact (follows_emit _ rfl rfl).bind fun _ => .pure rfl

/-- The draft of the arguments of a CALL follows the generator. -/
theorem follows_compileArgs {args : List Expr}
    (each : ∀ e ∈ args, DraftsValue n (compileExpr e) (Draft.compileExpr e)) :
    Drafts n (compileArgs args) (Draft.compileArgs args) fun _ => () := by
  induction args with
  | nil => exact .pure rfl
  | cons arg rest ih =>
      apply (each arg List.mem_cons_self).bind
      intro v
      apply (follows_immediateToHandle v).bind
      intro h
      exact (ih fun e member => each e (List.mem_cons_of_mem _ member)).map fun _ => rfl

/-- The draft of the arguments of a SPAWN follows the generator. -/
theorem follows_compileSpawnArgs (buffer : Handle) (i : Nat) {args : List Expr}
    (each : ∀ e ∈ args, DraftsValue n (compileExpr e) (Draft.compileExpr e)) :
    Drafts n (compileSpawnArgs buffer i args) (Draft.compileSpawnArgs buffer.memory i args) id := by
  induction args generalizing i with
  | nil => exact .pure rfl
  | cons arg rest ih =>
      apply (each arg List.mem_cons_self).bind
      intro v
      apply (follows_spawnArg v).bind
      intro val
      apply (follows_store buffer (.immediate val) 8 (.const (i * 8))).bind
      intro _
      exact ih (i + 1) fun e member => each e (List.mem_cons_of_mem _ member)

/-- The draft of an offset follows the generator. -/
theorem follows_compileOffset {offset : Option Expr}
    (each : ∀ e ∈ offset, DraftsValue n (compileExpr e) (Draft.compileExpr e)) :
    Drafts n (compileOffset offset) (Draft.compileOffset offset) Offset.distance := by
  cases offset with
  | none => exact .pure rfl
  | some e =>
      unfold compileOffset Draft.compileOffset
      cases e.evalConstInt with
      | some n => exact .pure rfl
      | none =>
          apply (each e rfl).bind
          intro v
          apply (follows_asInt v).bind
          intro i
          exact .pure rfl

/-- The sketch of an expression follows its code. -/
theorem follows_compileExpr (e : Expr) : DraftsValue n (compileExpr e) (Draft.compileExpr e) := by
  induction e using Expr.inductionOnChildren with
  | step e operand =>
      cases e with
      | intLit n | floatLit bits => exact .pure rfl
      | stringLit s => exact follows_compileString s
      | var name => exact follows_getVar name
      | field base field => exact follows_compileField base field
      | alloc size typ shared => exact (follows_scopeAllocHandle _ _).bind fun _ => .pure rfl
      | load source size offset =>
          apply (operand source (by cases offset <;> simp [Expr.children])).bind
          intro v
          apply (follows_derefHandle _ v).bind
          intro h
          apply (follows_compileOffset fun e at_ => operand e (by
            cases at_
            simp [Expr.children])).bind
          intro off
          exact follows_load h size off
      | call behavior args =>
          exact follows_compileCall behavior (follows_compileArgs fun e member => operand e member)
      | intArith op a b size =>
          exact follows_compileIntBinop _ (operand a (by simp [Expr.children]))
            (operand b (by simp [Expr.children]))
      | bitwise op a b size =>
          exact follows_compileIntBinop _ (operand a (by simp [Expr.children]))
            (operand b (by simp [Expr.children]))
      | intCmp op a b size =>
          exact follows_compileIntCmp _ (operand a (by simp [Expr.children]))
            (operand b (by simp [Expr.children]))
      | floatArith op a b size =>
          exact follows_compileFloatBinop _ (operand a (by simp [Expr.children]))
            (operand b (by simp [Expr.children]))
      | floatCmp op a b size =>
          exact follows_compileFloatCmp _ (operand a (by simp [Expr.children]))
            (operand b (by simp [Expr.children]))
      | ineg a size => exact follows_compileIneg (operand a (by simp [Expr.children]))
      | not a size => exact follows_compileNot (operand a (by simp [Expr.children]))
      | fneg a size => exact follows_compileFneg (operand a (by simp [Expr.children]))
      | ftoi value floatSize intSize =>
          exact follows_compileFtoi (operand value (by simp [Expr.children])) intSize
      | itof value intSize floatSize =>
          exact follows_compileItof (operand value (by simp [Expr.children])) floatSize
      | atomicLoad source size =>
          apply (operand source (by simp [Expr.children])).bind
          intro v
          apply (follows_asHandle v).bind
          intro h
          exact follows_load h size (.const 0)
      | atomicStore target value size =>
          exact follows_compileAtomicStore (operand target (by simp [Expr.children]))
            (operand value (by simp [Expr.children])) size
      | cas addr expected new size =>
          exact follows_compileCas (operand addr (by simp [Expr.children]))
            (operand expected (by simp [Expr.children])) (operand new (by simp [Expr.children]))
      | atomicRmw op target value size =>
          exact follows_compileAtomicRmw op (operand target (by simp [Expr.children]))
            (operand value (by simp [Expr.children]))
      | spawn pattern args =>
          exact follows_compileSpawn pattern args.length fun h =>
            follows_compileSpawnArgs h 0 fun e member => operand e member
      | wait handle => exact follows_compileWait handle
      | channel typ capacity =>
          exact follows_compileChannel (operand capacity (by simp [Expr.children]))
      | channelReceive channel => exact follows_compileChannelReceive channel

end Expressions

end Gen

end Sigil
