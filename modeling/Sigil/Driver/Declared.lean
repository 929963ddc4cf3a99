import Sigil.Driver.Cache

/-!
# Declared names are found

The generator refuses a CALL or a SPAWN when its symbol is no function of the module. It takes
away no function, so what was declared before a body is found wherever the body names it.
-/

namespace Sigil

open Flow Gen

/-- Some symbols are functions of the module. -/
def Knows (symbols : Set String) (cg : CodeGen) : Prop := ∀ symbol ∈ symbols, symbol ∈ cg.moduleFns

/-- Known symbols stay known, and no behavior or pattern is missing. -/
class Finds {α : Type} (symbols : Set String) (x : Gen α) : Prop where
  kept : ∀ s a t, Returns x s a t → Knows symbols s → Knows symbols t
  found : ∀ s e, x s = .error e → Knows symbols s → ∀ name, e ≠ .undefinedBehavior name

/-- The symbols of what an expression CALLs and SPAWNs are among some. -/
def Expr.Named (symbols : Set String) (e : Expr) : Prop :=
  (∀ behavior ∈ e.calls, symbolOf behavior ∈ symbols) ∧
    ∀ pattern ∈ e.spawned, symbolOf pattern ∈ symbols

/-- The operands of a named expression are named. -/
theorem Expr.Named.child {symbols : Set String} {e child : Expr} (named : e.Named symbols)
    (operand : child ∈ e.children) : child.Named symbols := by
  refine ⟨fun behavior member => named.1 behavior ?_, fun pattern member => named.2 pattern ?_⟩
  · obtain ⟨x, inside, same⟩ := List.mem_filterMap.mp member
    exact List.mem_filterMap.mpr ⟨x, mem_subexprs_of_child operand inside, same⟩
  · obtain ⟨x, inside, same⟩ := List.mem_filterMap.mp member
    exact List.mem_filterMap.mpr ⟨x, mem_subexprs_of_child operand inside, same⟩

namespace Gen

variable {α β : Type} {symbols : Set String} {x y : Gen α} {f : α → Gen β} {width : Nat}
  {i : Instr} {e : CodeGenError} {s t : CodeGen}

/-- A sequence fails where its first part does or the second on its result. -/
theorem bind_error_iff : (x >>= f) s = .error e ↔
    x s = .error e ∨ ∃ a t, Returns x s a t ∧ f a t = .error e := by
  change (x s >>= fun result => f result.1 result.2) = .error e ↔ _
  unfold Returns
  cases x s with
  | error e' => simp [bind, Except.bind]
  | ok result =>
      change f result.1 result.2 = .error e ↔ _
      simp only [reduceCtorEq, false_or, Except.ok.injEq]
      exact ⟨fun failed => ⟨_, _, rfl, failed⟩, fun ⟨_, _, same, failed⟩ => by
        subst same
        exact failed⟩

section Operations

instance finds_pure (a : α) : Finds symbols (pure a : Gen α) where
  kept := by
    rintro s b t returned known
    obtain ⟨_, rfl⟩ := returns_pure.mp returned
    exact known
  found := by
    intro s e failed
    cases failed

instance finds_bind [first : Finds symbols x] [second : ∀ a, Finds symbols (f a)] :
    Finds symbols (x >>= f) where
  kept := by
    intro s b t returned known
    obtain ⟨a, u, here, later⟩ := returns_bind.mp returned
    exact (second a).kept u b t later (first.kept s a u here known)
  found := by
    intro s e failed known
    obtain here | ⟨a, u, here, later⟩ := bind_error_iff.mp failed
    · exact first.found s e here known
    · exact (second a).found u e later (first.kept s a u here known)

instance finds_get : Finds symbols (get : Gen CodeGen) where
  kept := by
    rintro s a t returned known
    obtain ⟨_, rfl⟩ := returns_get.mp returned
    exact known
  found := by
    intro s e failed
    cases failed

/-- What reads the state finds its symbols when each branch does. -/
theorem finds_get_bind {f : CodeGen → Gen β} (next : ∀ s, Finds symbols (f s)) :
    Finds symbols (get >>= f) := inferInstance

/-- Failing with an error other than an undefined behavior misses no symbol. -/
theorem finds_throw (other : ∀ name, e ≠ .undefinedBehavior name) :
    Finds symbols (throw e : Gen α) where
  kept := fun _ _ _ returned => absurd returned not_returns_throw
  found := by
    intro s e' failed _
    cases failed
    exact other

instance (message : String) : Finds symbols (throw (.typeError message) : Gen α) :=
  finds_throw (by simp)
instance (message : String) : Finds symbols (throw (.llvmError message) : Gen α) :=
  finds_throw (by simp)
instance (message : String) : Finds symbols (throw (.panicked message) : Gen α) :=
  finds_throw (by simp)
instance (name : String) : Finds symbols (throw (.undefinedVariable name) : Gen α) :=
  finds_throw (by simp)
instance (label : String) : Finds symbols (throw (.undefinedLabel label) : Gen α) :=
  finds_throw (by simp)
instance (base field : String) : Finds symbols (throw (.undefinedField base field) : Gen α) :=
  finds_throw (by simp)

instance finds_ite {c : Prop} [Decidable c] [yes : Finds symbols x] [no : Finds symbols y] :
    Finds symbols (if c then x else y) := by
  split <;> infer_instance

/-- A change that takes no function away. -/
theorem finds_modify {g : CodeGen → CodeGen}
    (more : ∀ s, ∀ symbol ∈ s.moduleFns, symbol ∈ (g s).moduleFns) :
    Finds symbols (modify g : Gen PUnit) where
  kept := by
    intro s a t returned known symbol member
    rw [returns_modify.mp returned]
    exact more s symbol (known symbol member)
  found := by
    intro s e failed
    cases failed

instance (symbol : String) : Finds symbols (declare symbol) :=
  finds_modify fun _ _ known => List.mem_insert_of_mem known

/-- Generators one after the other find their symbols. -/
theorem finds_bind_of [Finds symbols x] (next : ∀ a, Finds symbols (f a)) :
    Finds symbols (x >>= f) := inferInstance

instance : Finds symbols (build i) := by
  have pushed : ∀ item : Item, Finds symbols (modify fun cg => (cg.push item).fresh : Gen PUnit) :=
    fun item => finds_modify fun _ _ known => known
  unfold build
  infer_instance

instance : Finds symbols (buildInt width i) := by unfold buildInt; infer_instance
instance : Finds symbols (buildFloat width i) := by unfold buildFloat; infer_instance
instance : Finds symbols (buildPtr i) := by unfold buildPtr; infer_instance

instance (t : BlockEnd) : Finds symbols (terminate t) := finds_modify fun _ _ known => known
instance (b : Nat) : Finds symbols (positionAtEnd b) := finds_modify fun _ _ known => known

instance (name : String) : Finds symbols (appendBlock name) := by
  have appended : Finds symbols
      (modify fun cg => { cg with blocks := cg.blocks ++ [{ name := name }] } : Gen PUnit) :=
    finds_modify fun _ _ known => known
  unfold appendBlock
  infer_instance

instance (v : SigilValue) : Finds symbols (asInt v) := by
  cases v <;> simp only [asInt, lift, SigilValue.asInt] <;> infer_instance

instance (v : SigilValue) : Finds symbols (asFloat v) := by
  cases v <;> simp only [asFloat, lift, SigilValue.asFloat] <;> infer_instance

instance (v : SigilValue) : Finds symbols (asHandle v) := by
  cases v <;> simp only [asHandle, lift, SigilValue.asHandle] <;> infer_instance

instance (a b : IntValue) : Finds symbols (normalizeIntTypes a b) := by
  unfold normalizeIntTypes
  infer_instance

instance (a : IntValue) (width : Nat) : Finds symbols (resizeInt a width) := by
  unfold resizeInt
  infer_instance

instance (size : Nat) (typ : HandleType) : Finds symbols (allocHandle size typ) := by
  unfold allocHandle
  infer_instance

instance (name : String) (value : SigilValue) : Finds symbols (bindVar name value) :=
  finds_modify fun _ _ known => known

instance (h : Handle) (offset : Offset) : Finds symbols (address h offset) := by
  unfold address
  split <;> infer_instance

instance (outputs : CallOutputs) (field : String) : Finds symbols (getField outputs field) := by
  unfold getField
  split <;> infer_instance

instance (name : String) : Finds symbols (getVar name) := by
  refine finds_get_bind fun s => ?_
  split
  · infer_instance
  · infer_instance
  · split <;> infer_instance

instance (name : String) : Finds symbols (getBinding name) := by
  refine finds_get_bind fun s => ?_
  split <;> infer_instance

instance (role : String) (v : SigilValue) : Finds symbols (derefHandle role v) := by
  cases v <;> simp only [derefHandle] <;> infer_instance

instance (v : SigilValue) : Finds symbols (immediateToHandle v) := by
  cases v <;> simp only [immediateToHandle] <;> infer_instance

instance (v : SigilValue) : Finds symbols (spawnArg v) := by
  cases v <;> simp only [spawnArg] <;> infer_instance

instance (buffer : Handle) (slots : List OutputSlot) :
    Finds symbols (slotPointers buffer slots) := by
  induction slots with
  | nil => exact finds_pure _
  | cons slot rest ih =>
      unfold slotPointers
      infer_instance

instance (s : String) : Finds symbols (compileString s) := by
  have added : ∀ bytes, Finds symbols
      (modify fun cg => { cg with globals := cg.globals ++ [bytes] } : Gen PUnit) :=
    fun bytes => finds_modify fun _ _ known => known
  unfold compileString
  infer_instance

instance (base : Expr) (field : String) : Finds symbols (compileField base field) := by
  unfold compileField
  split
  · refine finds_get_bind fun s => ?_
    split <;> infer_instance
  · infer_instance

instance (symbol : String) (args : List CallArg) : Finds symbols (callRuntime symbol args) := by
  unfold callRuntime
  infer_instance

instance (offset : IntValue) (accessSize allocatedSize : Nat) :
    Finds symbols (emitBoundsCheck offset accessSize allocatedSize) := by
  unfold emitBoundsCheck
  infer_instance

instance (size : Nat) (typ : HandleType) : Finds symbols (scopeAllocHandle size typ) := by
  refine finds_get_bind fun s => ?_
  split <;> infer_instance

instance : Finds symbols createRootScope := by
  unfold createRootScope
  infer_instance

instance (scope : PtrValue) : Finds symbols (destroyRootScope scope) := by
  unfold destroyRootScope
  infer_instance

instance (h : Handle) (size : Nat) (offset : Offset) :
    Finds symbols (checkOffset h size offset) := by
  cases offset <;> simp only [checkOffset] <;> infer_instance

instance (h : Handle) (size : Nat) (offset : Offset) : Finds symbols (load h size offset) := by
  unfold load
  cases h.typ <;> infer_instance

instance (h : Handle) (v : SigilValue) (size : Nat) (offset : Offset) :
    Finds symbols (store h v size offset) := by
  unfold store
  cases v <;> infer_instance

instance (handleName : String) : Finds symbols (compileWait handleName) := by
  unfold compileWait
  infer_instance

instance (channelName : String) : Finds symbols (compileChannelReceive channelName) := by
  unfold compileChannelReceive
  infer_instance

end Operations

section Expressions

/-- The function of a CALL is found when its symbol is known. -/
theorem finds_callee {behavior : String} (known : symbolOf behavior ∈ symbols) :
    Finds symbols (callee behavior) where
  kept := by
    intro s a t returned
    unfold callee at returned
    obtain ⟨_, _, read, run⟩ := returns_bind.mp returned
    rw [(returns_get.mp read).1, (returns_get.mp read).2] at run
    cases registered : s.behaviorFns.lookup behavior with
    | some symbol =>
        simp only [registered, returns_pure] at run
        rw [run.2]
        exact id
    | none =>
        simp only [registered] at run
        split at run
        · obtain ⟨_, rfl⟩ := returns_pure.mp run
          exact id
        · exact absurd run not_returns_throw
  found := by
    intro s e failed knows
    obtain failed | ⟨_, _, read, run⟩ := bind_error_iff.mp failed
    · cases failed
    · rw [(returns_get.mp read).1, (returns_get.mp read).2] at run
      cases registered : s.behaviorFns.lookup behavior with
      | some symbol =>
          simp only [registered] at run
          cases run
      | none =>
          simp only [registered, if_pos (knows _ known)] at run
          cases run

/-- A SPAWN of a declared pattern finds its symbol. -/
theorem finds_compileSpawn {pattern : String} (argCount : Nat) {args : Handle → Gen Unit}
    (known : symbolOf pattern ∈ symbols) [passed : ∀ buffer, Finds symbols (args buffer)] :
    Finds symbols (compileSpawn pattern argCount args) := by
  have built : ∀ cg : CodeGen, Finds symbols (do
      let argsBuf ← allocHandle (spawnBufferSize cg pattern argCount) .bytes
      args argsBuf
      let passed := [.ptr (.function (symbolOf pattern)), .ptr argsBuf.ptr,
        .int (i64 (spawnBufferSize cg pattern argCount))]
      return .immediate (← buildInt 64 (.call "sigil_spawn" passed)) : Gen SigilValue) :=
    fun _ => inferInstance
  refine finds_bind_of fun _ => ⟨fun s a t returned knows => ?_, fun s e failed knows => ?_⟩
  · obtain ⟨_, _, read, run⟩ := returns_bind.mp returned
    obtain ⟨rfl, rfl⟩ := returns_get.mp read
    rw [if_neg (not_not_intro (knows _ known))] at run
    exact (built _).kept _ _ _ run knows
  · obtain failed | ⟨_, _, read, run⟩ := bind_error_iff.mp failed
    · cases failed
    · obtain ⟨rfl, rfl⟩ := returns_get.mp read
      rw [if_neg (not_not_intro (knows _ known))] at run
      exact (built _).found _ _ run knows

/-- Arguments find their symbols when each does. -/
theorem finds_compileArgs {args : List Expr} (each : ∀ e ∈ args, Finds symbols (compileExpr e)) :
    Finds symbols (compileArgs args) := by
  induction args with
  | nil => exact finds_pure _
  | cons arg rest ih =>
      obtain ⟨here, later⟩ := List.forall_mem_cons.mp each
      have rest := ih later
      unfold compileArgs
      infer_instance

/-- The arguments of a SPAWN find their symbols when each does. -/
theorem finds_compileSpawnArgs {args : List Expr} (buffer : Handle) (i : Nat)
    (each : ∀ e ∈ args, Finds symbols (compileExpr e)) :
    Finds symbols (compileSpawnArgs buffer i args) := by
  induction args generalizing i with
  | nil => exact finds_pure _
  | cons arg rest ih =>
      obtain ⟨here, later⟩ := List.forall_mem_cons.mp each
      have rest := ih (i + 1) later
      unfold compileSpawnArgs
      infer_instance

/-- An offset finds its symbols when its expression does. -/
theorem finds_compileOffset {offset : Option Expr}
    (each : ∀ e ∈ offset, Finds symbols (compileExpr e)) :
      Finds symbols (compileOffset offset) := by
  cases offset with
  | none =>
      unfold compileOffset
      infer_instance
  | some e =>
      have here := each e rfl
      unfold compileOffset
      split <;> infer_instance

/-- An expression whose CALLs and SPAWNs are known is not refused for one of them. -/
theorem finds_compileExpr (e : Expr) (named : e.Named symbols) : Finds symbols (compileExpr e) := by
  induction e using Expr.inductionOnChildren with
  | step e ih =>
      have operand : ∀ child ∈ e.children, Finds symbols (compileExpr child) :=
        fun child member => ih child member (named.child member)
      cases e with
      | intLit n | floatLit bits | stringLit s | var name | field base field | wait handle
      | channelReceive channel | alloc size typ shared =>
          unfold compileExpr
          infer_instance
      | load source size offset =>
          have address := operand source (by cases offset <;> simp [Expr.children])
          have offset : Finds symbols (compileOffset offset) :=
            finds_compileOffset fun e member => operand e (by
              cases member
              simp [Expr.children])
          unfold compileExpr
          infer_instance
      | intArith op a b size | bitwise op a b size =>
          have left := operand a (by simp [Expr.children])
          have right := operand b (by simp [Expr.children])
          unfold compileExpr compileIntBinop
          infer_instance
      | intCmp op a b size =>
          have left := operand a (by simp [Expr.children])
          have right := operand b (by simp [Expr.children])
          unfold compileExpr compileIntCmp
          infer_instance
      | floatArith op a b size =>
          have left := operand a (by simp [Expr.children])
          have right := operand b (by simp [Expr.children])
          unfold compileExpr compileFloatBinop
          infer_instance
      | floatCmp op a b size =>
          have left := operand a (by simp [Expr.children])
          have right := operand b (by simp [Expr.children])
          unfold compileExpr compileFloatCmp
          infer_instance
      | atomicStore a b size =>
          have left := operand a (by simp [Expr.children])
          have right := operand b (by simp [Expr.children])
          unfold compileExpr compileAtomicStore
          infer_instance
      | atomicRmw op a b size =>
          have left := operand a (by simp [Expr.children])
          have right := operand b (by simp [Expr.children])
          unfold compileExpr compileAtomicRmw
          dsimp only
          infer_instance
      | cas a b c size =>
          have address := operand a (by simp [Expr.children])
          have expected := operand b (by simp [Expr.children])
          have new := operand c (by simp [Expr.children])
          unfold compileExpr compileCas
          refine finds_bind_of fun _ => finds_bind_of fun handle => finds_bind_of fun _ =>
            finds_bind_of fun exp => finds_bind_of fun _ => finds_bind_of fun newVal => ?_
          dsimp only
          infer_instance
      | ineg a size =>
          have value := operand a (by simp [Expr.children])
          unfold compileExpr compileIneg
          infer_instance
      | not a size =>
          have value := operand a (by simp [Expr.children])
          unfold compileExpr compileNot
          infer_instance
      | fneg a size =>
          have value := operand a (by simp [Expr.children])
          unfold compileExpr compileFneg
          infer_instance
      | ftoi a from' size =>
          have value := operand a (by simp [Expr.children])
          unfold compileExpr compileFtoi
          infer_instance
      | itof a from' size =>
          have value := operand a (by simp [Expr.children])
          unfold compileExpr compileItof
          infer_instance
      | atomicLoad a size =>
          have value := operand a (by simp [Expr.children])
          unfold compileExpr
          infer_instance
      | channel typ capacity =>
          have value := operand capacity (by simp [Expr.children])
          unfold compileExpr compileChannel
          infer_instance
      | call behavior args =>
          have called := finds_callee (named.1 behavior
            (List.mem_filterMap.mpr ⟨_, Expr.self_mem_subexprs _, rfl⟩))
          have passed : Finds symbols (compileArgs args) := finds_compileArgs operand
          have pending : ∀ outputs : CallOutputs, Finds symbols (modify fun cg : CodeGen =>
              { cg with callOutputs := cg.callOutputs.insert "__pending" outputs } : Gen PUnit) :=
            fun _ => finds_modify fun _ _ known => known
          unfold compileExpr compileCall
          infer_instance
      | spawn pattern args =>
          have passed : ∀ buffer, Finds symbols (compileSpawnArgs buffer 0 args) :=
            fun buffer => finds_compileSpawnArgs buffer 0 operand
          unfold compileExpr
          exact finds_compileSpawn _ (named.2 pattern
            (List.mem_filterMap.mpr ⟨_, Expr.self_mem_subexprs _, rfl⟩))

end Expressions

section Statements

mutual

/-- Collecting labels looks for no symbol. -/
theorem finds_collectLabelBlocks (nodes : List Node) (labels : Labels) :
    Finds symbols (collectLabelBlocks nodes labels) := by
  cases nodes with
  | nil => exact finds_pure _
  | cons node rest =>
      have here := finds_labelBlocksOf node labels
      have later := fun labels => finds_collectLabelBlocks rest labels
      unfold collectLabelBlocks
      infer_instance

/-- The labels of a statement look for no symbol. -/
theorem finds_labelBlocksOf (node : Node) (labels : Labels) :
    Finds symbols (labelBlocksOf node labels) := by
  cases node with
  | label line name =>
      unfold labelBlocksOf
      infer_instance
  | scope line nodes => exact finds_collectLabelBlocks nodes labels
  | _ => exact finds_pure _

end

instance (nodes : List Node) (labels : Labels) :
    Finds symbols (collectLabelBlocks nodes labels) := finds_collectLabelBlocks nodes labels

instance (item : Item) : Finds symbols (prependEntry item) :=
  finds_modify fun _ _ known => known

instance (slot : SlotType) : Finds symbols (createEntryAlloca slot) := by
  have counted : Finds symbols (modify CodeGen.fresh : Gen PUnit) :=
    finds_modify fun _ _ known => known
  refine finds_get_bind fun cg => ?_
  dsimp only
  infer_instance

instance (v : SigilValue) : Finds symbols (slotTypeOf v) := by
  cases v <;> simp only [slotTypeOf] <;> infer_instance

instance (name : String) (v : SigilValue) : Finds symbols (slotOf name v) := by
  have kept : ∀ slot : PtrValue × SlotType, Finds symbols (modify fun cg : CodeGen =>
      { cg with mutableSlots := cg.mutableSlots.insert name slot } : Gen PUnit) :=
    fun _ => finds_modify fun _ _ known => known
  refine finds_get_bind fun cg => ?_
  split <;> infer_instance

instance (name : String) (v : SigilValue) : Finds symbols (storeMutableLocal name v) := by
  refine finds_bind_of fun slot => ?_
  dsimp only
  split <;> infer_instance

instance : Finds symbols takePending := by
  have erased : Finds symbols (modify fun cg : CodeGen =>
      { cg with callOutputs := cg.callOutputs.erase "__pending" } : Gen PUnit) :=
    finds_modify fun _ _ known => known
  unfold takePending
  infer_instance

instance (name : String) : Finds symbols (keepPending name) := by
  refine finds_bind_of fun pending => ?_
  split
  · exact finds_modify fun _ _ known => known
  · infer_instance

instance (labels : Labels) (label : String) : Finds symbols (labelBlock labels label) := by
  unfold labelBlock
  split <;> infer_instance

instance (labels : Labels) (name : String) : Finds symbols (compileLabel labels name) := by
  unfold compileLabel
  split <;> infer_instance

instance (array : PtrValue) (i : Nat) (handles : List String) :
    Finds symbols (storeHandles array i handles) := by
  induction handles generalizing i with
  | nil => exact finds_pure _
  | cons handleName rest ih =>
      unfold storeHandles
      infer_instance

instance (targets handles : List String) : Finds symbols (compileWaits targets handles) := by
  induction handles generalizing targets with
  | nil => exact finds_pure _
  | cons handleName rest ih =>
      unfold compileWaits
      refine finds_bind_of fun _ => finds_bind_of fun _ => finds_bind_of fun _ => ?_
      split <;> infer_instance

instance (v : SigilValue) : Finds symbols (branchCondition v) := by
  cases v <;> simp only [branchCondition] <;> infer_instance

instance (src : Handle) (slots : List (String × OutputSlot)) :
    Finds symbols (redirect src slots) := by
  induction slots with
  | nil => exact finds_pure _
  | cons slot rest ih =>
      refine finds_get_bind fun cg => ?_
      split <;> infer_instance

instance (name : String) : Finds symbols (compileFree name) := by
  refine finds_get_bind fun cg => ?_
  split <;> infer_instance

instance (channel : String) : Finds symbols (compileChannelClose channel) := by
  unfold compileChannelClose
  infer_instance

instance (result which : String) (handles : List String) :
    Finds symbols (compileWaitAny result which handles) := by
  unfold compileWaitAny
  infer_instance

/-- A statement whose CALLs and SPAWNs are known is not refused for one of them. -/
theorem finds_compileAssignment (name : String) {e : Expr} (named : e.Named symbols) :
    Finds symbols (compileAssignment name e) := by
  have value := finds_compileExpr e named
  refine finds_bind_of fun v => finds_get_bind fun cg => ?_
  dsimp only
  cases e <;> infer_instance

/-- A named STORE finds its symbols. -/
theorem finds_compileStore (name : String) {value : Expr} (size : Nat) {offset : Option Expr}
    (value' : value.Named symbols) (offset' : ∀ e ∈ offset, e.Named symbols) :
    Finds symbols (compileStore name value size offset) := by
  have stored := finds_compileExpr value value'
  have placed := finds_compileOffset fun e member => finds_compileExpr e (offset' e member)
  unfold compileStore
  infer_instance

/-- A named BRANCH finds its symbols. -/
theorem finds_compileBranch (labels : Labels) {condition : Expr} (onTrue onFalse : String)
    (named : condition.Named symbols) :
    Finds symbols (compileBranch labels condition onTrue onFalse) := by
  have value := finds_compileExpr condition named
  unfold compileBranch
  infer_instance

/-- A named SET finds its symbols. -/
theorem finds_compileSet (name : String) {value : Expr} (named : value.Named symbols) :
    Finds symbols (compileSet name value) := by
  have value := finds_compileExpr value named
  refine finds_bind_of fun v => finds_get_bind fun cg => ?_
  split
  · dsimp only
    cases v <;> infer_instance
  · infer_instance

/-- Redirecting outputs looks for no symbol. -/
theorem finds_redirects (v : SigilValue) (outputs : List String) : Finds symbols (do
      match ← takePending, v with
      | some callOutputs, .handle src => redirect src (outputs.zip callOutputs.slots)
      | _, _ => pure ()) := by
  refine finds_bind_of fun pending => ?_
  split <;> infer_instance

/-- A named CALL finds its symbols. -/
theorem finds_compileCallNode (result : Option String) {behavior : String} {args : List Expr}
    (outputs : List String) (named : (Expr.call behavior args).Named symbols) :
    Finds symbols (compileCallNode result behavior args outputs) := by
  have value := finds_compileExpr (.call behavior args) named
  refine finds_bind_of fun v => ?_
  have redirects := @finds_redirects symbols v outputs
  dsimp only
  cases result <;> infer_instance

/-- A named CHANNEL_SEND finds its symbols. -/
theorem finds_compileChannelSend (channel : String) {value : Expr} (named : value.Named symbols) :
    Finds symbols (compileChannelSend channel value) := by
  have value := finds_compileExpr value named
  unfold compileChannelSend
  infer_instance

/-- A SCOPE finds the symbols of its body. -/
theorem finds_compileScope {body : Gen Unit} [Finds symbols body] :
    Finds symbols (compileScope body) := by
  have entered : ∀ scope : PtrValue, Finds symbols (modify fun cg : CodeGen =>
      { cg with currentScope := some scope } : Gen PUnit) :=
    fun _ => finds_modify fun _ _ known => known
  have left : ∀ saved : CodeGen, Finds symbols (modify fun cg : CodeGen =>
      { cg with currentScope := saved.currentScope, vars := saved.vars } : Gen PUnit) :=
    fun _ => finds_modify fun _ _ known => known
  refine finds_get_bind fun saved => ?_
  dsimp only
  split <;> infer_instance

/-- The symbols of what statements CALL and SPAWN are among some. -/
def BodyNamed (symbols : Set String) (nodes : List Node) : Prop :=
  (∀ behavior ∈ bodyCalls nodes, symbolOf behavior ∈ symbols) ∧
    ∀ pattern ∈ bodySpawns nodes, symbolOf pattern ∈ symbols

/-- What an operand of a statement names is known, SCOPE, CALL and SPAWN apart. -/
theorem named_of_mem_exprs {node : Node} (calls : node.calls = node.exprs.flatMap Expr.calls)
    (spawns : node.spawns = node.exprs.flatMap Expr.spawned)
    (known : ∀ behavior ∈ node.calls, symbolOf behavior ∈ symbols)
    (spawned : ∀ pattern ∈ node.spawns, symbolOf pattern ∈ symbols) {e : Expr}
    (member : e ∈ node.exprs) : e.Named symbols :=
  ⟨fun behavior inside => known behavior (calls ▸ List.mem_flatMap.mpr ⟨e, member, inside⟩),
    fun pattern inside => spawned pattern (spawns ▸ List.mem_flatMap.mpr ⟨e, member, inside⟩)⟩

/-- A CALL spawns what its arguments do. -/
theorem spawned_call (behavior : String) (args : List Expr) :
    (Expr.call behavior args).spawned = args.flatMap Expr.spawned := by
  rw [Expr.spawned, Expr.subexprs_eq, List.filterMap_cons, Expr.children, List.filterMap_flatMap]
  rfl

/-- A SPAWN calls what its arguments do. -/
theorem calls_spawn (pattern : String) (args : List Expr) :
    (Expr.spawn pattern args).calls = args.flatMap Expr.calls := by
  rw [Expr.calls, Expr.subexprs_eq, List.filterMap_cons, Expr.children, List.filterMap_flatMap]
  rfl

mutual

/-- A named statement finds its symbols. -/
theorem finds_compileNode (labels : Labels) (node : Node)
    (known : ∀ behavior ∈ node.calls, symbolOf behavior ∈ symbols)
    (spawned : ∀ pattern ∈ node.spawns, symbolOf pattern ∈ symbols) :
    Finds symbols (compileNode labels node) := by
  cases node with
  | label line name | jump line name | free line name | discard line e | channelClose line name
  | waitAny line result which handles | waitAll line targets handles =>
      unfold compileNode
      infer_instance
  | wait line result handle =>
      unfold compileNode compileExpr
      infer_instance
  | assignment line name e =>
      exact finds_compileAssignment name
        (named_of_mem_exprs rfl rfl known spawned (List.mem_singleton_self e))
  | branch line condition onTrue onFalse =>
      exact finds_compileBranch labels onTrue onFalse
        (named_of_mem_exprs rfl rfl known spawned (List.mem_singleton_self condition))
  | set line name value =>
      exact finds_compileSet name
        (named_of_mem_exprs rfl rfl known spawned (List.mem_singleton_self value))
  | channelSend line channel value =>
      exact finds_compileChannelSend channel
        (named_of_mem_exprs rfl rfl known spawned (List.mem_singleton_self value))
  | store line name value size offset =>
      refine finds_compileStore name size (named_of_mem_exprs rfl rfl known spawned ?_) fun e
        member =>
        named_of_mem_exprs rfl rfl known spawned ?_
      · cases offset <;> simp [Node.exprs, Node.operands]
      · cases member
        simp [Node.exprs, Node.operands]
  | spawn line result pattern args =>
      have value : Finds symbols (compileExpr (.spawn pattern args)) := finds_compileExpr _
        ⟨by rw [calls_spawn]; exact known, spawned⟩
      unfold compileNode
      infer_instance
  | call line result behavior args outputs =>
      exact finds_compileCallNode result outputs ⟨known, by rw [spawned_call]; exact spawned⟩
  | scope line nodes =>
      have body := finds_compileNodes labels nodes ⟨known, spawned⟩
      unfold compileNode
      exact finds_compileScope

/-- A named body finds its symbols. -/
theorem finds_compileNodes (labels : Labels) (nodes : List Node) (named : BodyNamed symbols nodes) :
    Finds symbols (compileNodes labels nodes) := by
  cases nodes with
  | nil => exact finds_pure _
  | cons node rest =>
      obtain ⟨calls, laterCalls⟩ := List.forall_mem_append.mp named.1
      obtain ⟨spawns, laterSpawns⟩ := List.forall_mem_append.mp named.2
      have here := finds_compileNode labels node calls spawns
      have later := finds_compileNodes labels rest ⟨laterCalls, laterSpawns⟩
      unfold compileNodes
      infer_instance

end

end Statements

section Functions

/-- What a step has declared is known in what comes after it. -/
theorem finds_bind_adds (added : Set String) [first : Finds symbols x]
    (adds : ∀ s a t, Returns x s a t → Knows added t)
    (rest : ∀ a, Finds (symbols ∪ added) (f a)) : Finds symbols (x >>= f) := by
  have both : ∀ {s a t}, Returns x s a t → Knows symbols s → Knows (symbols ∪ added) t := by
    rintro s a t here known symbol (old | new)
    · exact first.kept s a t here known symbol old
    · exact adds s a t here symbol new
  refine ⟨fun s b t returned known => ?_, fun s e failed known => ?_⟩
  · obtain ⟨a, u, here, later⟩ := returns_bind.mp returned
    exact fun symbol member =>
      (rest a).kept u b t later (both here known) symbol (Set.mem_union_left _ member)
  · obtain here | ⟨a, u, here, later⟩ := bind_error_iff.mp failed
    · exact first.found s e here known
    · exact (rest a).found u e later (both here known)

instance : Finds symbols declareExternals := by
  unfold declareExternals
  infer_instance

instance (symbol : String) : Finds symbols (beginFunction symbol) := by
  have started : Finds symbols (modify fun cg : CodeGen => { cg with
      blocks := [{ name := "entry" }]
      current := 0
      vars := ∅
      callOutputs := ∅
      inFunction := true } : Gen PUnit) := finds_modify fun _ _ known => known
  unfold beginFunction
  infer_instance

instance (i : Nat) (params : List Parameter) : Finds symbols (mapParameters i params) := by
  induction params generalizing i with
  | nil => exact finds_pure _
  | cons param rest ih =>
      unfold mapParameters
      infer_instance

instance (offset : Nat) (decls : List MemoryDecl) : Finds symbols (mapMemory offset decls) := by
  induction decls generalizing offset with
  | nil => exact finds_pure _
  | cons decl rest ih =>
      unfold mapMemory
      infer_instance

instance (name symbol : String) (sig : BehaviorSig) : Finds symbols (register name symbol sig) :=
  finds_modify fun _ _ known => known

/-- A function is one of its module. -/
theorem beginFunction_adds {symbol : String} (s : CodeGen) (u : Unit) (t : CodeGen)
    (returned : Returns (beginFunction symbol) s u t) : Knows {symbol} t := by
  rintro _ rfl
  obtain ⟨_, _, declared, started⟩ := returns_bind.mp returned
  rw [returns_modify.mp started, returns_declare.mp declared]
  exact List.mem_insert_self

/-- A named implementation finds its symbols. -/
theorem finds_compileImpl {nodes : List Node} (named : BodyNamed symbols nodes) :
    Finds symbols (compileImpl nodes) := by
  have body := fun labels => finds_compileNodes labels nodes named
  unfold compileImpl
  infer_instance

/-- A behavior whose compiled body is named finds its symbols. -/
theorem finds_compileBody {behavior : Behavior}
    (named : ∀ platform nodes, compiledBody platform behavior = some nodes →
      BodyNamed symbols nodes) :
    Finds symbols (compileBody behavior) := by
  have fresh : Finds symbols (modify fun cg : CodeGen =>
      { cg with mutableSlots := ∅ } : Gen PUnit) := finds_modify fun _ _ known => known
  have reassigns : ∀ names : List String, Finds symbols (modify fun cg : CodeGen =>
      { cg with reassignedLocals := names } : Gen PUnit) :=
    fun _ => finds_modify fun _ _ known => known
  refine finds_bind_of fun _ => finds_get_bind fun cg => ?_
  cases body : compiledBody cg.platform behavior with
  | none => infer_instance
  | some nodes =>
      have compiled := finds_compileImpl (named _ _ body)
      dsimp only
      infer_instance

/-- A behavior whose bodies name known functions and itself is not refused for one. -/
theorem finds_compileFunction {behavior : Behavior} {name : String}
    (named : ∀ platform nodes, compiledBody platform behavior = some nodes →
      BodyNamed (symbols ∪ {symbolOf name}) nodes) :
    Finds symbols (compileFunction behavior name) := by
  have body := finds_compileBody named
  have entered : ∀ scope : PtrValue, Finds (symbols ∪ {symbolOf name}) (modify fun cg : CodeGen =>
      { cg with currentScope := some scope } : Gen PUnit) :=
    fun _ => finds_modify fun _ _ known => known
  have left : ∀ saved : CodeGen, Finds (symbols ∪ {symbolOf name}) (modify fun cg : CodeGen =>
      { cg with
        currentScope := saved.currentScope
        vars := saved.vars
        callOutputs := saved.callOutputs
        inFunction := saved.inFunction } : Gen PUnit) :=
    fun _ => finds_modify fun _ _ known => known
  unfold compileFunction
  dsimp only
  split
  · infer_instance
  · refine finds_bind_of fun _ => finds_get_bind fun saved =>
      finds_bind_adds _ beginFunction_adds fun _ => finds_bind_of fun root => finds_bind_of fun _ =>
        finds_bind_of fun _ => finds_bind_of fun _ => finds_bind_of fun _ =>
          finds_get_bind fun cg => ?_
    split <;> infer_instance

/-- The function of a pattern has the symbol its name has elsewhere, unless there is a slash
in it. -/
theorem patternSymbol_eq {name : String} (plain : '/' ∉ name.toList) :
    "sigil_" ++ String.ofList (name.toList.map fun c => if c = '-' then '_' else c) =
      symbolOf name := by
  unfold symbolOf
  congr 2
  refine List.map_congr_left fun c member => ?_
  have other : c ≠ '/' := fun same => plain (same ▸ member)
  simp [other]

/-- A pattern whose ON_CREATE names known functions and itself is not refused for one. -/
theorem finds_compilePattern {pattern : Pattern} (own : Set String)
    (known : ∀ symbol ∈ own, symbol = symbolOf pattern.name ∧ '/' ∉ pattern.name.toList)
    (named : BodyNamed (symbols ∪ own) pattern.onCreate) :
    Finds symbols (compilePattern pattern) := by
  have body := finds_compileImpl named
  have left : ∀ saved : CodeGen, Finds (symbols ∪ own) (modify fun cg : CodeGen =>
      { cg with
        vars := saved.vars
        callOutputs := saved.callOutputs
        inFunction := saved.inFunction } : Gen PUnit) :=
    fun _ => finds_modify fun _ _ known => known
  refine finds_bind_of fun _ => finds_get_bind fun saved =>
    finds_bind_adds own ?_ fun _ => finds_bind_of fun _ => finds_bind_of fun _ =>
      finds_get_bind fun cg => ?_
  · intro s u t returned symbol member
    obtain ⟨rfl, plain⟩ := known symbol member
    exact beginFunction_adds s u t returned _ (patternSymbol_eq plain).symm
  · dsimp only
    split <;> infer_instance

/-- ENTRY names only functions of other modules. -/
theorem finds_compileExecutableMain {executable : Executable}
    (named : BodyNamed symbols executable.entry) :
    Finds symbols (compileExecutableMain executable) := by
  have body := finds_compileImpl named
  have entered : ∀ scope : Option PtrValue, Finds symbols (modify fun cg : CodeGen =>
      { cg with currentScope := scope } : Gen PUnit) :=
    fun _ => finds_modify fun _ _ known => known
  refine finds_bind_of fun _ => finds_bind_of fun _ => finds_get_bind fun saved =>
    finds_bind_of fun root => finds_bind_of fun _ => finds_bind_of fun _ =>
      finds_get_bind fun cg => ?_
  dsimp only
  split <;> infer_instance

end Functions

end Gen

section Modules

variable {contracts : Contracts} {symbols : Set String} {s t : CodeGen} {u : Unit}

instance (name : String) (contract : Contract) :
    Finds symbols (declareExternalBehavior name contract) := by
  have kept : Finds symbols (modify fun cg : CodeGen =>
      { cg with behaviorSigs := cg.behaviorSigs.insert name (.ofContract name contract) } :
        Gen PUnit) :=
    finds_modify fun _ _ known => known
  unfold declareExternalBehavior
  infer_instance

instance (name : String) (pattern : Pattern) :
    Finds symbols (declareExternalPattern name pattern) := by
  have kept : Finds symbols (modify fun cg : CodeGen =>
      { cg with behaviorSigs := cg.behaviorSigs.insert name (patternSig name pattern) } :
        Gen PUnit) :=
    finds_modify fun _ _ known => known
  unfold declareExternalPattern
  infer_instance

/-- A symbol the module does not know yet is declared. -/
theorem declareUnknown_adds {symbol : String} {record : Gen Unit}
    (returned : Returns (do
      if symbol ∉ (← get).moduleFns then
        record
        declare symbol) s u t) : Knows {symbol} t := by
  rintro _ rfl
  obtain ⟨_, _, read, returned⟩ := returns_bind.mp returned
  rw [(returns_get.mp read).1, (returns_get.mp read).2] at returned
  split at returned
  · obtain ⟨_, _, _, declared⟩ := returns_bind.mp returned
    rw [returns_declare.mp declared]
    exact List.mem_insert_self
  next known =>
    rw [← (returns_pure.mp returned).2]
    exact not_not.mp known

/-- A declared behavior has its symbol. -/
theorem declareExternalBehavior_adds {name : String} {contract : Contract}
    (returned : Returns (declareExternalBehavior name contract) s u t) : Knows {symbolOf name} t :=
  declareUnknown_adds returned

/-- A declared pattern has its symbol. -/
theorem declareExternalPattern_adds {name : String} {pattern : Pattern}
    (returned : Returns (declareExternalPattern name pattern) s u t) : Knows {symbolOf name} t :=
  declareUnknown_adds returned

instance finds_declareRequired (reqs : List BehaviorRef) :
    Finds symbols (declareRequired contracts reqs) := by
  induction reqs with
  | nil => exact finds_pure _
  | cons req rest ih =>
      unfold declareRequired
      split <;> infer_instance

instance finds_declareBehaviors (entries : List (Sigma fun _ : String => Contract)) :
    Finds symbols (declareBehaviors entries) := by
  induction entries with
  | nil => exact finds_pure _
  | cons entry rest ih =>
      unfold declareBehaviors
      infer_instance

instance finds_declarePatterns (patterns : List (String × PatternFile)) :
    Finds symbols (declarePatterns patterns) := by
  induction patterns with
  | nil => exact finds_pure _
  | cons entry rest ih =>
      unfold declarePatterns
      infer_instance

/-- What REQUIRES has a contract for is declared. -/
theorem declareRequired_adds {reqs : List BehaviorRef}
    (returned : Returns (declareRequired contracts reqs) s u t) :
    ∀ req ∈ reqs, req.name ∈ contracts → symbolOf req.name ∈ t.moduleFns := by
  induction reqs generalizing s with
  | nil => simp
  | cons req rest ih =>
      unfold declareRequired at returned
      refine List.forall_mem_cons.mpr ?_
      cases found : contracts.lookup req.name with
      | none =>
          simp only [found] at returned
          exact ⟨fun known => by simp [← AList.lookup_isSome, found] at known, ih returned⟩
      | some contract =>
          simp only [found] at returned
          obtain ⟨_, _, here, later⟩ := returns_bind.mp returned
          have rest' : Finds {symbolOf req.name} (declareRequired contracts rest) := inferInstance
          have kept := rest'.kept _ _ _ later
            (declareExternalBehavior_adds here)
          exact ⟨fun _ => kept _ rfl, ih later⟩

/-- Every declared behavior has its symbol. -/
theorem declareBehaviors_adds {entries : List (Sigma fun _ : String => Contract)}
    (returned : Returns (declareBehaviors entries) s u t) :
    ∀ entry ∈ entries, symbolOf entry.1 ∈ t.moduleFns := by
  induction entries generalizing s with
  | nil => simp
  | cons entry rest ih =>
      obtain ⟨_, _, here, later⟩ := returns_bind.mp returned
      have rest' : Finds {symbolOf entry.1} (declareBehaviors rest) := inferInstance
      have kept := rest'.kept _ _ _ later
        (declareExternalBehavior_adds here)
      exact List.forall_mem_cons.mpr ⟨kept _ rfl, ih later⟩

/-- Every declared pattern has its symbol. -/
theorem declarePatterns_adds {patterns : List (String × PatternFile)}
    (returned : Returns (declarePatterns patterns) s u t) :
    ∀ entry ∈ patterns, symbolOf entry.1 ∈ t.moduleFns := by
  induction patterns generalizing s with
  | nil => simp
  | cons entry rest ih =>
      obtain ⟨_, _, here, later⟩ := returns_bind.mp returned
      have rest' : Finds {symbolOf entry.1} (declarePatterns rest) := inferInstance
      have kept := rest'.kept _ _ _ later
        (declareExternalPattern_adds here)
      exact List.forall_mem_cons.mpr ⟨kept _ rfl, ih later⟩

/-- A module whose names are found is not refused for one of them. -/
theorem compileModule_finds {platform : TargetPlatform} {name unit callee : String}
    {source : CodeUnit} {code : Gen EmittedFunction} (finds : Finds ∅ code) :
    compileModule platform name source code ≠ .error
      (.codegen unit (.undefinedBehavior callee)) := by
  intro failed
  unfold compileModule at failed
  split at failed
  · cases failed
  next e refused =>
    cases failed
    exact finds.found _ _ refused (by simp [Knows]) callee rfl

end Modules

end Sigil
