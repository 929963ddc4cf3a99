import Sigil.Codegen.Sketch
import Sigil.Codegen.Steps

/-!
# The sketch of a generator

What a sketch says of a state of the generator, and that every step of the builder is
followed by its step on sketches.
-/

namespace Sigil

open Flow

def IntValue.scalar (a : IntValue) : Scalar := ⟨a.width, a.isConst⟩

def FloatValue.scalar (f : FloatValue) : Scalar := ⟨f.width, f.isConst⟩

def Handle.memory (h : Handle) : MemoryShape := ⟨h.size, h.typ, h.ptr.isConst⟩

def SigilValue.shape : SigilValue → Shape
  | handle h => .handle h.memory
  | immediate i => .int i.scalar
  | float f => .float f.scalar

def CallOutputs.layout (outputs : CallOutputs) : OutputLayout :=
  ⟨outputs.buffer.ptr.isConst, outputs.slots⟩

/-- The operands of an integer instruction have one width. -/
def Instr.isAligned : Instr → Bool
  | .intOp _ a b | .icmp _ a b | .cmpxchg _ a b => a.width = b.width
  | _ => true

def Item.isAligned : Item → Bool
  | instr _ i => i.isAligned
  | folded _ _ | term _ => true

namespace EmittedBlock

/-- A block takes instructions unless it ends in a terminator. -/
def isOpen (block : EmittedBlock) : Bool :=
  match block.emitted.getLast? with
  | some item => !item.isTerm
  | none => true

/-- No terminator of a block has anything after it. -/
def isClean (block : EmittedBlock) : Bool :=
  block.emitted.dropLast.all fun item => !item.isTerm

def isAligned (block : EmittedBlock) : Bool :=
  block.items.all Item.isAligned

/-- What putting an item at the end of a block leaves. -/
def push (block : EmittedBlock) (item : Item) : EmittedBlock :=
  { block with items := block.items ++ [item] }

variable {block : EmittedBlock} {item : Item}

/-- What a block has emitted after one item more. -/
theorem emitted_push : (block.push item).emitted =
    if item.isEmitted then block.emitted ++ [item] else block.emitted := by
  unfold emitted push
  rw [List.filter_append]
  cases emits : item.isEmitted <;> simp [emits]

/-- Whether a block is open after one item more. -/
theorem isOpen_push : (block.push item).isOpen =
    if item.isEmitted then !item.isTerm else block.isOpen := by
  unfold isOpen
  rw [emitted_push]
  cases item.isEmitted with
  | true => rw [if_pos rfl, if_pos rfl, List.getLast?_concat]
  | false => rfl

/-- Whether a block is aligned after one item more. -/
theorem isAligned_push : (block.push item).isAligned = (block.isAligned && item.isAligned) := by
  simp [isAligned, push]

/-- An item after a terminator leaves the block unclean for good. -/
theorem isClean_push : (block.push item).isClean =
    if item.isEmitted then block.isClean && block.isOpen else block.isClean := by
  unfold isClean isOpen
  rw [emitted_push]
  split
  · rw [List.dropLast_concat]
    cases ending : block.emitted.getLast? with
    | none =>
        rw [List.getLast?_eq_none_iff.mp ending]
        rfl
    | some last =>
        obtain ⟨front, same⟩ := List.getLast?_eq_some_iff.mp ending
        rw [same]
        simp
  · rfl

end EmittedBlock

/-- What is known of a state of the generator. -/
def CodeGen.sketch (cg : CodeGen) : Sketch where
  platform := cg.platform
  opens := cg.blocks.map EmittedBlock.isOpen
  current := cg.current
  clean := cg.blocks.all EmittedBlock.isClean
  aligned := cg.blocks.all EmittedBlock.isAligned
  moduleFns := cg.moduleFns
  behaviorSigs := cg.behaviorSigs
  behaviorFns := cg.behaviorFns
  inFunction := cg.inFunction
  isScoped := cg.currentScope.isSome
  reassignedLocals := cg.reassignedLocals
  vars name := (cg.vars.lookup name).map SigilValue.shape
  outputs name := (cg.callOutputs.lookup name).map CallOutputs.layout
  slots name := (cg.mutableSlots.lookup name).map Prod.snd

/-- The insertion point is in a block, of no less than `n` blocks. -/
def CodeGen.InRange (n : Nat) (cg : CodeGen) : Prop :=
  n ≤ cg.blocks.length ∧ cg.current < cg.blocks.length

/-- A computation on sketches follows the generator. -/
abbrev Drafts {α β : Type} (n : Nat) (x : Gen α) (y : Draft β) (of : α → β) : Prop :=
  Follows (CodeGen.InRange n) CodeGen.sketch x y of

section Modify

variable {α β : Type} {l : List α} {n : Nat} {f : α → α}

/-- A test of all elements after one of them has changed. -/
theorem all_modify {p : α → Bool} {b : Bool} (bound : n < l.length)
    (here : p (f l[n]) = (p l[n] && b)) : (l.modify n f).all p = (l.all p && b) := by
  rw [List.modify_eq_take_cons_drop bound, List.all_append, List.all_cons, here]
  conv_rhs => rw [← List.take_append_drop n l, List.drop_eq_getElem_cons bound, List.all_append,
    List.all_cons]
  ac_rfl

/-- Mapping a list with one element changed. -/
theorem map_modify {g : α → β} {v : β} (bound : n < l.length) (here : g (f l[n]) = v) :
    (l.modify n f).map g = (l.map g).set n v := by
  rw [List.modify_eq_take_cons_drop bound, List.set_eq_take_append_cons_drop,
    if_pos (by simpa using bound), List.map_append, List.map_cons, here, List.map_take,
    List.map_drop]

/-- A change that the map does not see changes nothing. -/
theorem map_modify_same {g : α → β} (same : ∀ a, g (f a) = g a) :
    (l.modify n f).map g = l.map g := by
  apply List.ext_getElem?
  intro j
  rw [List.getElem?_map, List.getElem?_map, List.getElem?_modify]
  cases l[j]? with
  | none => rfl
  | some a =>
      by_cases here : n = j
      · simp [here, same]
      · simp [here]

end Modify

namespace CodeGen

variable {n : Nat} {cg : CodeGen}

/-- The sketch is open when the current block is. -/
theorem isOpen_sketch (inRange : cg.InRange n) :
    cg.sketch.isOpen = (cg.blocks.get ⟨cg.current, inRange.2⟩).isOpen := by
  simp [Sketch.isOpen, sketch, List.getD_eq_getElem?_getD, List.getElem?_eq_getElem inRange.2]

/-- An instruction is sketched by whether its operands have one width. -/
theorem sketch_push_instr (inRange : cg.InRange n) (id : Nat) (i : Instr) :
    (cg.push (.instr id i)).sketch = cg.sketch.emit i.isAligned := by
  have opens : (cg.push (.instr id i)).sketch.opens = cg.sketch.opens.set cg.current true :=
    map_modify inRange.2 EmittedBlock.isOpen_push
  have clean : (cg.push (.instr id i)).sketch.clean = (cg.sketch.clean && cg.sketch.isOpen) := by
    rw [isOpen_sketch inRange]
    exact all_modify inRange.2 EmittedBlock.isClean_push
  have aligned : (cg.push (.instr id i)).sketch.aligned = (cg.sketch.aligned && i.isAligned) :=
    all_modify inRange.2 EmittedBlock.isAligned_push
  change { cg.sketch with
    opens := (cg.push (.instr id i)).sketch.opens
    clean := (cg.push (.instr id i)).sketch.clean
    aligned := (cg.push (.instr id i)).sketch.aligned } = _
  rw [opens, clean, aligned]
  rfl

/-- A terminator closes the sketch. -/
theorem sketch_push_term (inRange : cg.InRange n) (e : BlockEnd) :
    (cg.push (.term e)).sketch = cg.sketch.close := by
  have opens : (cg.push (.term e)).sketch.opens = cg.sketch.opens.set cg.current false :=
    map_modify inRange.2 EmittedBlock.isOpen_push
  have clean : (cg.push (.term e)).sketch.clean = (cg.sketch.clean && cg.sketch.isOpen) := by
    rw [isOpen_sketch inRange]
    exact all_modify inRange.2 EmittedBlock.isClean_push
  have aligned : (cg.push (.term e)).sketch.aligned = (cg.sketch.aligned && true) :=
    all_modify inRange.2 EmittedBlock.isAligned_push
  rw [Bool.and_true] at aligned
  change { cg.sketch with
    opens := (cg.push (.term e)).sketch.opens
    clean := (cg.push (.term e)).sketch.clean
    aligned := (cg.push (.term e)).sketch.aligned } = _
  rw [opens, clean, aligned]
  rfl

/-- A folded constant is not part of the code. -/
theorem sketch_push_folded (inRange : cg.InRange n) (id : Nat) (i : Instr) :
    (cg.push (.folded id i)).sketch = cg.sketch := by
  have opens : (cg.push (.folded id i)).sketch.opens = cg.sketch.opens :=
    map_modify_same fun _ => EmittedBlock.isOpen_push
  have clean : (cg.push (.folded id i)).sketch.clean = (cg.sketch.clean && true) :=
    all_modify inRange.2 (EmittedBlock.isClean_push.trans (Bool.and_true _).symm)
  have aligned : (cg.push (.folded id i)).sketch.aligned = (cg.sketch.aligned && true) :=
    all_modify inRange.2 EmittedBlock.isAligned_push
  rw [Bool.and_true] at clean aligned
  change { cg.sketch with
    opens := (cg.push (.folded id i)).sketch.opens
    clean := (cg.push (.folded id i)).sketch.clean
    aligned := (cg.push (.folded id i)).sketch.aligned } = _
  rw [opens, clean, aligned]

/-- Pushing keeps the blocks in range. -/
theorem inRange_push (item : Item) (inRange : cg.InRange n) : (cg.push item).InRange n := by
  have length : (cg.push item).blocks.length = cg.blocks.length := List.length_modify ..
  exact ⟨length ▸ inRange.1, length ▸ inRange.2⟩

/-- The sketch after a built instruction. -/
theorem sketch_built (inRange : cg.InRange n) (i : Instr) :
    (cg.built i).sketch = if i.folds then cg.sketch else cg.sketch.emit i.isAligned := by
  change (cg.push (if i.folds then .folded cg.nextId i else .instr cg.nextId i)).sketch = _
  split
  · exact sketch_push_folded inRange _ i
  · exact sketch_push_instr inRange _ i

end CodeGen

namespace Gen

variable {n width : Nat} {i : Instr}

/-- The draft of an instruction follows the generator. -/
theorem follows_build (i : Instr) :
    Drafts n (build i) (Draft.build i.folds i.isAligned) fun _ => () := by
  intro s inRange
  refine ⟨?_, CodeGen.inRange_push _ inRange⟩
  have sketched := s.sketch_built inRange i
  change Draft.build i.folds i.isAligned s.sketch = some ((), (s.built i).sketch)
  rw [sketched]
  unfold Draft.build
  split
  · rfl
  · rfl

/-- The draft of an integer instruction follows the generator. -/
theorem follows_buildInt {folds aligned : Bool} (width : Nat) (i : Instr) (sameFolds : i.folds = folds)
    (same : i.isAligned = aligned) :
    Drafts n (buildInt width i) (Draft.scalar width folds aligned) IntValue.scalar := by
  subst sameFolds same
  exact (follows_build i).bind fun _ => .pure rfl

/-- The draft of a float instruction follows the generator. -/
theorem follows_buildFloat {folds : Bool} (width : Nat) (i : Instr) (sameFolds : i.folds = folds)
    (same : i.isAligned = true) :
    Drafts n (buildFloat width i) (Draft.scalar width folds true) FloatValue.scalar := by
  subst sameFolds
  rw [← same]
  exact (follows_build i).bind fun _ => .pure rfl

/-- The draft of a pointer instruction follows the generator. -/
theorem follows_buildPtr {folds : Bool} (i : Instr) (sameFolds : i.folds = folds)
    (same : i.isAligned = true) :
    Drafts n (buildPtr i) (Draft.pointer folds) PtrValue.isConst := by
  subst sameFolds
  rw [Draft.pointer, ← same]
  exact (follows_build i).bind fun _ => .pure rfl

/-- The draft of an instruction that is not folded follows the generator. -/
theorem follows_emit (i : Instr) (folds : i.folds = false) (same : i.isAligned = true) :
    Drafts n (build i) Draft.emit fun _ => () := by
  rw [Draft.emit, ← folds, ← same]
  exact follows_build i

/-- The draft of a declaration follows the generator. -/
theorem follows_declare (symbol : String) : Drafts n (declare symbol) (Draft.declare symbol) id :=
  .modify (fun _ _ => rfl) fun _ inRange => inRange

/-- The draft of a call of the runtime follows the generator. -/
theorem follows_callRuntime (symbol : String) (args : List CallArg) :
    Drafts n (callRuntime symbol args) (Draft.callRuntime symbol) fun _ => () :=
  (follows_declare symbol).bind fun _ => follows_emit _ rfl rfl

/-- An appended block is open. -/
theorem sketch_appended (cg : CodeGen) (name : String) :
    (cg.appended name).sketch = cg.sketch.append := by
  change { cg.sketch with
    opens := (cg.appended name).sketch.opens
    clean := (cg.appended name).sketch.clean
    aligned := (cg.appended name).sketch.aligned } = _
  simp [CodeGen.sketch, CodeGen.appended, Sketch.append, EmittedBlock.isOpen,
    EmittedBlock.isClean, EmittedBlock.isAligned, EmittedBlock.emitted]

/-- A new block keeps the blocks in range. -/
theorem inRange_appended {cg : CodeGen} (name : String) (inRange : cg.InRange n) :
    (cg.appended name).InRange n := by
  have length : (cg.appended name).blocks.length = cg.blocks.length + 1 := List.length_append
  exact ⟨length ▸ Nat.le_succ_of_le inRange.1, length ▸ Nat.lt_succ_of_lt inRange.2⟩

/-- The draft of the test for an integer follows the generator. -/
theorem follows_asInt (v : SigilValue) :
    Drafts n (asInt v) (Draft.asInt v.shape) IntValue.scalar := by
  cases v with
  | immediate i => exact .pure rfl
  | handle h | float f => exact .throw _

/-- The draft of the test for a float follows the generator. -/
theorem follows_asFloat (v : SigilValue) :
    Drafts n (asFloat v) (Draft.asFloat v.shape) FloatValue.scalar := by
  cases v with
  | float f => exact .pure rfl
  | handle h | immediate i => exact .throw _

/-- The draft of the test for a handle follows the generator. -/
theorem follows_asHandle (v : SigilValue) :
    Drafts n (asHandle v) (Draft.asHandle v.shape) Handle.memory := by
  cases v with
  | handle h => exact .pure rfl
  | immediate i | float f => exact .throw _

/-- The draft of two integers brought to one width follows the generator. -/
theorem follows_normalizeIntTypes (a b : IntValue) :
    Drafts n (normalizeIntTypes a b) (Draft.normalizeIntTypes a.scalar b.scalar)
      fun p => (p.1.scalar, p.2.scalar) := by
  unfold normalizeIntTypes Draft.normalizeIntTypes
  by_cases same : a.width = b.width
  · rw [if_pos same, if_pos (show a.scalar.width = b.scalar.width from same)]
    exact .pure rfl
  · rw [if_neg same, if_neg (show ¬ a.scalar.width = b.scalar.width from same)]
    by_cases wider : a.width > b.width
    · rw [if_pos wider, if_pos (show a.scalar.width > b.scalar.width from wider)]
      exact (follows_buildInt _ _ rfl rfl).bind fun _ => .pure rfl
    · rw [if_neg wider, if_neg (show ¬ a.scalar.width > b.scalar.width from wider)]
      exact (follows_buildInt _ _ rfl rfl).bind fun _ => .pure rfl

/-- After normalization the operands have one width. -/
theorem normalizeIntTypes_width {a b : IntValue} {p : IntValue × IntValue} {s t : CodeGen}
    (returned : Returns (normalizeIntTypes a b) s p t) : p.1.width = p.2.width := by
  unfold normalizeIntTypes at returned
  split at returned
  next same =>
    obtain ⟨rfl, rfl⟩ := returns_pure.mp returned
    exact same
  next =>
    split at returned
    all_goals
      simp only [returns_bind, returns_buildInt, returns_pure] at returned
      obtain ⟨_, _, ⟨rfl, rfl⟩, rfl, rfl⟩ := returned
      rfl

/-- The draft of a resized integer follows the generator. -/
theorem follows_resizeInt (a : IntValue) (width : Nat) :
    Drafts n (resizeInt a width) (Draft.resizeInt a.scalar width) IntValue.scalar := by
  unfold resizeInt Draft.resizeInt
  by_cases same : a.width = width
  · rw [if_pos same, if_pos (show a.scalar.width = width from same)]
    exact .pure rfl
  · rw [if_neg same, if_neg (show ¬ a.scalar.width = width from same)]
    split
    · exact follows_buildInt _ _ rfl rfl
    · exact follows_buildInt _ _ rfl rfl

/-- The blocks of a bounds check; the second takes the code that follows. -/
theorem follows_violationBlocks (isViolation : IntValue) :
    Drafts n (do
      let violationBlock ← appendBlock "bounds_violation"
      let continueBlock ← appendBlock "bounds_ok"
      terminate (.condBr isViolation violationBlock continueBlock)
      positionAtEnd violationBlock
      let _ ← callRuntime "abort" []
      terminate .unreachable
      positionAtEnd continueBlock)
    (do
      let violationBlock ← Draft.appendBlock
      let continueBlock ← Draft.appendBlock
      Draft.terminate
      Draft.positionAtEnd violationBlock
      Draft.callRuntime "abort"
      Draft.terminate
      Draft.positionAtEnd continueBlock) id := by
  apply Follows.of_returns
  intro s inRange
  let goesOn := (s.appended "bounds_violation").blocks.length
  let branch : BlockEnd := .condBr isViolation s.blocks.length goesOn
  let appended := (s.appended "bounds_violation").appended "bounds_ok"
  let violating := ((appended.push (.term branch)).positioned s.blocks.length).declared "abort"
  let aborted := (violating.built (.call "abort" [])).push (.term .unreachable)
  have next : goesOn = s.blocks.length + 1 := by simp [goesOn, CodeGen.appended]
  have length : appended.blocks.length = s.blocks.length + 2 := by
    simp [appended, CodeGen.appended]
  have inAppended : appended.InRange n := inRange_appended _ (inRange_appended _ inRange)
  have inPushed := CodeGen.inRange_push (.term branch) inAppended
  have inViolating : violating.InRange n := ⟨inPushed.1, by
    simp [violating, CodeGen.declared, CodeGen.positioned, CodeGen.push, length]⟩
  have inCalled : (violating.built (.call "abort" [])).InRange n :=
    CodeGen.inRange_push (.instr violating.nextId (.call "abort" [])) inViolating
  have inAborted := CodeGen.inRange_push (.term .unreachable) inCalled
  have sketch : (aborted.positioned goesOn).sketch =
      ((((s.sketch.append.append.close.position s.blocks.length).declare "abort").emit true).close
        ).position goesOn := by
    change aborted.sketch.position _ = _
    rw [CodeGen.sketch_push_term inCalled, CodeGen.sketch_built inViolating]
    change (((((appended.push (.term branch)).sketch.position _).declare "abort").emit true).close
      ).position _ = _
    rw [CodeGen.sketch_push_term inAppended, sketch_appended, sketch_appended]
    rfl
  refine ⟨(), aborted.positioned goesOn, ?_, ?_, ?_⟩
  · simp only [returns_bind, returns_appendBlock, returns_terminate, returns_positionAtEnd,
      returns_callRuntime]
    exact ⟨_, _, ⟨rfl, rfl⟩, _, _, ⟨rfl, rfl⟩, (), _, rfl, (), _, rfl, _, _, ⟨rfl, rfl⟩, (), _, rfl,
      rfl⟩
  · have first : s.sketch.opens.length = s.blocks.length := List.length_map _
    have second : s.sketch.append.opens.length = goesOn := by
      rw [next, ← first]
      simp [Sketch.append]
    rw [sketch, ← first, ← second]
    rfl
  · exact ⟨inAborted.1, by simp [aborted, violating, CodeGen.declared, CodeGen.positioned,
      CodeGen.push, CodeGen.built, CodeGen.fresh, length, next]⟩

/-- The draft of a bounds check follows the generator. -/
theorem follows_emitBoundsCheck (offset : IntValue) (accessSize allocatedSize : Nat) :
    Drafts n (emitBoundsCheck offset accessSize allocatedSize) (Draft.emitBoundsCheck offset.scalar)
      id := by
  have folds : (Instr.intOp .add offset (i64 accessSize)).folds = offset.isConst := Bool.and_true _
  unfold emitBoundsCheck Draft.emitBoundsCheck
  apply (follows_buildInt offset.width _ folds rfl).bind
  intro endOffset
  have folds : (Instr.icmp .ugt endOffset (i64 allocatedSize)).folds = endOffset.isConst :=
    Bool.and_true _
  exact (follows_buildInt 1 _ folds rfl).bind follows_violationBlocks

end Gen

end Sigil
