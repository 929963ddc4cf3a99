import Sigil.Codegen.StraightLine

/-!
# Where code for an expression goes

Code for an expression goes to the block at the insertion point and to blocks appended
on the way. A block that waits for its label stays as it is.
-/

namespace Sigil

open Flow

/-- Code has gone to the block at the insertion point or to new blocks, and there the
insertion point is. -/
structure Stretches (s t : CodeGen) : Prop where
  blocks : s.blocks.length ≤ t.blocks.length
  inRange : t.current < t.blocks.length
  current : t.current = s.current ∨ s.blocks.length ≤ t.current
  items : ∀ b < s.blocks.length, b ≠ s.current → t.items b = s.items b

namespace Stretches

variable {s t u : CodeGen}

/-- Nothing stretches nothing. -/
theorem refl (inRange : s.current < s.blocks.length) : Stretches s s :=
  ⟨le_rfl, inRange, .inl rfl, fun _ _ _ => rfl⟩

/-- Stretches follow each other. -/
theorem trans (first : Stretches s t) (second : Stretches t u) : Stretches s u where
  blocks := first.blocks.trans second.blocks
  inRange := second.inRange
  current := by
    obtain here | new := second.current
    · rw [here]
      exact first.current
    · exact .inr (first.blocks.trans new)
  items b old other := by
    have apart : b ≠ t.current := by
      obtain here | new := first.current
      · rw [here]
        exact other
      · exact Nat.ne_of_lt (old.trans_le new)
    rw [second.items b (old.trans_le first.blocks) apart, first.items b old other]

/-- A state with the blocks and the insertion point of another one. -/
theorem same (first : Stretches s t) (blocks : u.blocks = t.blocks)
    (current : u.current = t.current) :
    Stretches s u :=
  first.trans
    ⟨by rw [blocks], by rw [blocks, current]; exact first.inRange, .inl current, fun b _ _ => by
    rw [CodeGen.items, CodeGen.items, blocks]⟩

/-- A pushed item stretches the block. -/
theorem push (first : Stretches s t) (item : Item) : Stretches s (t.push item) :=
  first.trans ⟨by simp [CodeGen.push], by simpa [CodeGen.push] using first.inRange, .inl rfl,
    fun b _ other => by rw [t.items_push first.inRange, if_neg other]⟩

/-- A built instruction stretches the block. -/
theorem built (first : Stretches s t) (i : Instr) : Stretches s (t.built i) :=
  (first.push _).same rfl rfl

/-- A declaration stretches nothing. -/
theorem declared (first : Stretches s t) (symbol : String) : Stretches s (t.declared symbol) :=
  first.same rfl rfl

/-- A new block stretches the code. -/
theorem append (first : Stretches s t) (name : String) : Stretches s (t.appended name) := by
  refine first.trans ⟨by simp [CodeGen.appended], ?_, .inl rfl, fun b old _ => ?_⟩
  · have here := first.inRange
    simp only [CodeGen.appended, List.length_append]
    omega
  · simp [CodeGen.appended, CodeGen.items, List.getElem?_append_left old]

/-- Code in a new block, after which the insertion point goes to another new block. -/
theorem detour (first : Stretches s t) {b c : Nat} (inside : Stretches (t.positioned b) u)
    (new : s.blocks.length ≤ b) (new' : s.blocks.length ≤ c) (inRange : c < u.blocks.length) :
    Stretches s (u.positioned c) where
  blocks := first.blocks.trans inside.blocks
  inRange := inRange
  current := .inr new'
  items d old other := by
    have kept := inside.items d (old.trans_le first.blocks) (Nat.ne_of_lt (old.trans_le new))
    exact kept.trans (first.items d old other)

end Stretches

/-- Running a generator stretches the code. -/
class Confined {α : Type} (x : Gen α) : Prop where
  stretches : ∀ s a t, Returns x s a t → s.current < s.blocks.length → Stretches s t

namespace Gen

variable {α β : Type} {x y : Gen α} {f : α → Gen β} {width : Nat} {i : Instr} {e : CodeGenError}
  {s t : CodeGen}

section Operations

instance confined_pure (a : α) : Confined (pure a : Gen α) where
  stretches := by
    intro s b t returned inRange
    obtain ⟨_, rfl⟩ := returns_pure.mp returned
    exact .refl inRange

instance confined_bind [first : Confined x] [second : ∀ a, Confined (f a)] :
    Confined (x >>= f) where
  stretches := by
    intro s b t returned inRange
    obtain ⟨a, u, here, later⟩ := returns_bind.mp returned
    have start := first.stretches s a u here inRange
    exact start.trans ((second a).stretches u b t later start.inRange)

instance confined_get : Confined (get : Gen CodeGen) where
  stretches := by
    intro s a t returned inRange
    obtain ⟨_, rfl⟩ := returns_get.mp returned
    exact .refl inRange

/-- What reads the state is confined when each branch is. -/
theorem confined_get_bind {f : CodeGen → Gen β} (next : ∀ s, Confined (f s)) :
    Confined (get >>= f) :=
  inferInstance

instance confined_throw : Confined (throw e : Gen α) where
  stretches := fun _ _ _ returned => absurd returned not_returns_throw

instance confined_ite {c : Prop} [Decidable c] [yes : Confined x] [no : Confined y] :
    Confined (if c then x else y) := by
  split <;> infer_instance

/-- A change of the code that stretches it. -/
theorem confined_modify {g : CodeGen → CodeGen}
    (step : ∀ s, Stretches s s → Stretches s (g s)) : Confined (modify g : Gen PUnit) where
  stretches := by
    intro s a t returned inRange
    rw [returns_modify.mp returned]
    exact step s (.refl inRange)

/-- A change of anything else. -/
theorem confined_keep {g : CodeGen → CodeGen} (blocks : ∀ s, (g s).blocks = s.blocks)
    (current : ∀ s, (g s).current = s.current) : Confined (modify g : Gen PUnit) :=
  confined_modify fun s here => here.same (blocks s) (current s)

/-- Confined generators one after the other are confined. -/
theorem confined_bind_of [Confined x] (next : ∀ a, Confined (f a)) :
    Confined (x >>= f) := inferInstance

instance : Confined (build i) := by
  have pushed : ∀ item : Item, Confined (modify fun cg => (cg.push item).fresh : Gen PUnit) :=
    fun item => confined_modify fun _ here => (here.push item).same rfl rfl
  unfold build
  infer_instance

instance : Confined (buildInt width i) := by unfold buildInt; infer_instance
instance : Confined (buildFloat width i) := by unfold buildFloat; infer_instance
instance : Confined (buildPtr i) := by unfold buildPtr; infer_instance

instance (t : BlockEnd) : Confined (terminate t) := confined_modify fun _ here => here.push _

instance (symbol : String) : Confined (declare symbol) := confined_keep (fun _ => rfl) fun _ => rfl

instance (name : String) : Confined (appendBlock name) := by
  have appended : Confined
      (modify fun cg => { cg with blocks := cg.blocks ++ [{ name := name }] } : Gen PUnit) :=
    confined_modify fun _ here => here.append name
  unfold appendBlock
  infer_instance

instance (v : SigilValue) : Confined (asInt v) := by
  cases v <;> simp only [asInt, lift, SigilValue.asInt] <;> infer_instance

instance (v : SigilValue) : Confined (asFloat v) := by
  cases v <;> simp only [asFloat, lift, SigilValue.asFloat] <;> infer_instance

instance (v : SigilValue) : Confined (asHandle v) := by
  cases v <;> simp only [asHandle, lift, SigilValue.asHandle] <;> infer_instance

instance (a b : IntValue) : Confined (normalizeIntTypes a b) := by
  unfold normalizeIntTypes
  infer_instance

instance (a : IntValue) (width : Nat) : Confined (resizeInt a width) := by
  unfold resizeInt
  infer_instance

instance (size : Nat) (typ : HandleType) : Confined (allocHandle size typ) := by
  unfold allocHandle
  infer_instance

instance (name : String) (value : SigilValue) : Confined (bindVar name value) :=
  confined_keep (fun _ => rfl) fun _ => rfl

instance (h : Handle) (offset : Offset) : Confined (address h offset) := by
  unfold address
  split <;> infer_instance

instance (outputs : CallOutputs) (field : String) : Confined (getField outputs field) := by
  unfold getField
  split <;> infer_instance

instance (name : String) : Confined (getVar name) := by
  refine confined_get_bind fun s => ?_
  split
  · infer_instance
  · infer_instance
  · split <;> infer_instance

instance (name : String) : Confined (getBinding name) := by
  refine confined_get_bind fun s => ?_
  split <;> infer_instance

instance (role : String) (v : SigilValue) : Confined (derefHandle role v) := by
  cases v <;> simp only [derefHandle] <;> infer_instance

instance (v : SigilValue) : Confined (immediateToHandle v) := by
  cases v <;> simp only [immediateToHandle] <;> infer_instance

instance (v : SigilValue) : Confined (spawnArg v) := by
  cases v <;> simp only [spawnArg] <;> infer_instance

instance (buffer : Handle) (slots : List OutputSlot) : Confined (slotPointers buffer slots) := by
  induction slots with
  | nil => exact confined_pure _
  | cons slot rest ih =>
      unfold slotPointers
      infer_instance

instance (s : String) : Confined (compileString s) := by
  have added : ∀ bytes, Confined
      (modify fun cg => { cg with globals := cg.globals ++ [bytes] } : Gen PUnit) :=
    fun bytes => confined_keep (fun _ => rfl) fun _ => rfl
  unfold compileString
  infer_instance

instance (base : Expr) (field : String) : Confined (compileField base field) := by
  unfold compileField
  split
  · refine confined_get_bind fun s => ?_
    split <;> infer_instance
  · infer_instance

instance (symbol : String) (args : List CallArg) : Confined (callRuntime symbol args) := by
  unfold callRuntime
  infer_instance

/-- Both blocks of a bounds check are new. -/
instance (offset : IntValue) (accessSize allocatedSize : Nat) :
    Confined (emitBoundsCheck offset accessSize allocatedSize) where
  stretches := by
    intro s u t returned inRange
    unfold emitBoundsCheck at returned
    simp only [returns_bind, returns_buildInt, returns_appendBlock, returns_terminate,
      returns_positionAtEnd,
      returns_callRuntime] at returned
    obtain ⟨_, _, ⟨rfl, rfl⟩, _, _, ⟨rfl, rfl⟩, _, _, ⟨rfl, rfl⟩, _, _, ⟨rfl, rfl⟩, _, _, rfl,
      _, _, rfl,
      _, _, ⟨rfl, rfl⟩, _, _, rfl, rfl⟩ := returned
    refine Stretches.detour ?_ ((((Stretches.refl ?_).declared _).built _).push _) ?_ ?_ ?_
    · exact (((((Stretches.refl inRange).built _).built _).append _).append _).push _
    all_goals simp [CodeGen.positioned, CodeGen.appended, CodeGen.built, CodeGen.fresh,
      CodeGen.push, CodeGen.declared]

instance (size : Nat) (typ : HandleType) : Confined (scopeAllocHandle size typ) := by
  refine confined_get_bind fun s => ?_
  split <;> infer_instance

instance (h : Handle) (size : Nat) (offset : Offset) : Confined (checkOffset h size offset) := by
  cases offset <;> simp only [checkOffset] <;> infer_instance

instance (h : Handle) (size : Nat) (offset : Offset) : Confined (load h size offset) := by
  unfold load
  cases h.typ <;> infer_instance

instance (h : Handle) (v : SigilValue) (size : Nat) (offset : Offset) :
    Confined (store h v size offset) := by
  unfold store
  cases v <;> infer_instance

instance (handleName : String) : Confined (compileWait handleName) := by
  unfold compileWait
  infer_instance

instance (channelName : String) : Confined (compileChannelReceive channelName) := by
  unfold compileChannelReceive
  infer_instance

instance (behavior : String) : Confined (callee behavior) := by
  refine confined_get_bind fun s => ?_
  split
  · infer_instance
  · split <;> infer_instance

instance (pattern : String) (argCount : Nat) {args : Handle → Gen Unit}
    [passed : ∀ buffer, Confined (args buffer)] :
    Confined (compileSpawn pattern argCount args) := by
  unfold compileSpawn
  infer_instance

end Operations

section Expressions

/-- Arguments are confined when each is. -/
theorem confined_compileArgs {args : List Expr} (each : ∀ e ∈ args, Confined (compileExpr e)) :
    Confined (compileArgs args) := by
  induction args with
  | nil => exact confined_pure _
  | cons arg rest ih =>
      obtain ⟨here, later⟩ := List.forall_mem_cons.mp each
      have rest := ih later
      unfold compileArgs
      infer_instance

/-- The arguments of a SPAWN are confined when each is. -/
theorem confined_compileSpawnArgs {args : List Expr} (buffer : Handle) (i : Nat)
    (each : ∀ e ∈ args, Confined (compileExpr e)) :
    Confined (compileSpawnArgs buffer i args) := by
  induction args generalizing i with
  | nil => exact confined_pure _
  | cons arg rest ih =>
      obtain ⟨here, later⟩ := List.forall_mem_cons.mp each
      have rest := ih (i + 1) later
      unfold compileSpawnArgs
      infer_instance

/-- An offset is confined when its expression is. -/
theorem confined_compileOffset {offset : Option Expr}
    (each : ∀ e ∈ offset, Confined (compileExpr e)) : Confined (compileOffset offset) := by
  cases offset with
  | none =>
      unfold compileOffset
      infer_instance
  | some e =>
      have here := each e rfl
      unfold compileOffset
      split <;> infer_instance

/-- Code for an expression leaves all other blocks as they are. -/
instance confined_compileExpr (e : Expr) : Confined (compileExpr e) := by
  induction e using Expr.inductionOnChildren with
  | step e ih =>
      have operand : ∀ child ∈ e.children, Confined (compileExpr child) := ih
      cases e with
      | intLit n | floatLit bits | stringLit s | var name | field base field | wait handle
      | channelReceive channel | alloc size typ shared =>
          unfold compileExpr
          infer_instance
      | load source size offset =>
          have address := operand source (by cases offset <;> simp [Expr.children])
          have offset : Confined (compileOffset offset) :=
            confined_compileOffset fun e member => operand e (by
              cases member
              simp [Expr.children])
          unfold compileExpr
          infer_instance
      | intArith op a b size | bitwise op a b size =>
          have left := operand a (by simp [Expr.children])
          have right := operand b (by simp [Expr.children])
          unfold compileExpr compileIntBinop
          infer_instance
      | intCmp op a b size =>
          have left := operand a (by simp [Expr.children])
          have right := operand b (by simp [Expr.children])
          unfold compileExpr compileIntCmp
          infer_instance
      | floatArith op a b size =>
          have left := operand a (by simp [Expr.children])
          have right := operand b (by simp [Expr.children])
          unfold compileExpr compileFloatBinop
          infer_instance
      | floatCmp op a b size =>
          have left := operand a (by simp [Expr.children])
          have right := operand b (by simp [Expr.children])
          unfold compileExpr compileFloatCmp
          infer_instance
      | atomicStore a b size =>
          have left := operand a (by simp [Expr.children])
          have right := operand b (by simp [Expr.children])
          unfold compileExpr compileAtomicStore
          infer_instance
      | atomicRmw op a b size =>
          have left := operand a (by simp [Expr.children])
          have right := operand b (by simp [Expr.children])
          unfold compileExpr compileAtomicRmw
          dsimp only
          infer_instance
      | cas a b c size =>
          have address := operand a (by simp [Expr.children])
          have expected := operand b (by simp [Expr.children])
          have new := operand c (by simp [Expr.children])
          unfold compileExpr compileCas
          refine confined_bind_of fun _ => confined_bind_of fun handle => confined_bind_of fun _ =>
            confined_bind_of fun exp => confined_bind_of fun _ => confined_bind_of fun newVal => ?_
          dsimp only
          infer_instance
      | ineg a size =>
          have value := operand a (by simp [Expr.children])
          unfold compileExpr compileIneg
          infer_instance
      | not a size =>
          have value := operand a (by simp [Expr.children])
          unfold compileExpr compileNot
          infer_instance
      | fneg a size =>
          have value := operand a (by simp [Expr.children])
          unfold compileExpr compileFneg
          infer_instance
      | ftoi a from' size =>
          have value := operand a (by simp [Expr.children])
          unfold compileExpr compileFtoi
          infer_instance
      | itof a from' size =>
          have value := operand a (by simp [Expr.children])
          unfold compileExpr compileItof
          infer_instance
      | atomicLoad a size =>
          have value := operand a (by simp [Expr.children])
          unfold compileExpr
          infer_instance
      | channel typ capacity =>
          have value := operand capacity (by simp [Expr.children])
          unfold compileExpr compileChannel
          infer_instance
      | call behavior args =>
          have passed : Confined (compileArgs args) := confined_compileArgs operand
          have pending : ∀ outputs : CallOutputs, Confined (modify fun cg : CodeGen =>
              { cg with callOutputs := cg.callOutputs.insert "__pending" outputs } : Gen PUnit) :=
            fun _ => confined_keep (fun _ => rfl) fun _ => rfl
          unfold compileExpr compileCall
          infer_instance
      | spawn pattern args =>
          have passed : ∀ buffer, Confined (compileSpawnArgs buffer 0 args) :=
            fun buffer => confined_compileSpawnArgs buffer 0 operand
          unfold compileExpr
          infer_instance

end Expressions

end Gen

end Sigil
