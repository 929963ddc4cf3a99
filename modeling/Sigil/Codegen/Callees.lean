import Sigil.Codegen.Steps

/-!
# Behaviors a body calls

A CALL is compiled when its symbol is a function of the module. While a body is compiled
these are the functions that were declared for it and those of the runtime.
-/

namespace Sigil

open Flow

/-- The functions the generator declares where it needs them. -/
def runtimeSymbols : List String :=
  ["abort", "sigil_scope_create", "sigil_scope_alloc", "sigil_scope_free", "sigil_scope_destroy",
    "sigil_spawn", "sigil_wait", "sigil_wait_any", "sigil_channel_create", "sigil_channel_receive",
    "sigil_channel_send", "sigil_channel_close"]

namespace Expr

/-- The behaviors an expression calls, wherever the CALL stands in it. -/
def calls (e : Expr) : List String :=
  e.subexprs.filterMap fun
    | .call behavior _ => some behavior
    | _ => none

/-- The patterns an expression SPAWNs, wherever the SPAWN stands in it. -/
def spawned (e : Expr) : List String :=
  e.subexprs.filterMap fun
    | .spawn pattern _ => some pattern
    | _ => none

mutual

/-- The behaviors an expression generates calls of. No code is generated for the size of an
ALLOC and for what a field is taken of. -/
def generatedCalls : Expr → List String
  | .intLit _ | .floatLit _ | .stringLit _ | .var _ | .field _ _ | .alloc _ _ _ | .wait _
  | .channelReceive _ => []
  | .load a _ none | .ineg a _ | .not a _ | .fneg a _ | .ftoi a _ _ | .itof a _ _
  | .atomicLoad a _ | .channel _ a => a.generatedCalls
  | .load a _ (some b) | .intArith _ a b _ | .floatArith _ a b _ | .intCmp _ a b _
  | .floatCmp _ a b _ | .bitwise _ a b _ | .atomicStore a b _ | .atomicRmw _ a b _ =>
      a.generatedCalls ++ b.generatedCalls
  | .cas a b c _ => a.generatedCalls ++ (b.generatedCalls ++ c.generatedCalls)
  | .call behavior args => behavior :: allGeneratedCalls args
  | .spawn _ args => allGeneratedCalls args

def allGeneratedCalls : List Expr → List String
  | [] => []
  | arg :: rest => arg.generatedCalls ++ allGeneratedCalls rest

end

end Expr

/-- The calls generated for arguments are those of each, in order. -/
theorem Expr.allGeneratedCalls_eq_flatMap (args : List Expr) :
    Expr.allGeneratedCalls args = args.flatMap Expr.generatedCalls := by
  induction args with
  | nil => rfl
  | cons arg rest ih => rw [Expr.allGeneratedCalls, ih, List.flatMap_cons]

mutual

/-- The behaviors a statement calls, in SCOPE too. -/
def Node.calls : Node → List String
  | .scope _ nodes => bodyCalls nodes
  | .call _ _ behavior args _ => (Expr.call behavior args).calls
  | node => node.exprs.flatMap Expr.calls

def bodyCalls : List Node → List String
  | [] => []
  | node :: rest => node.calls ++ bodyCalls rest

end

mutual

/-- The behaviors a statement generates calls of. -/
def Node.generatedCalls : Node → List String
  | .scope _ nodes => generatedBodyCalls nodes
  | .call _ _ behavior args _ => (Expr.call behavior args).generatedCalls
  | node => node.operands.flatMap Expr.generatedCalls

def generatedBodyCalls : List Node → List String
  | [] => []
  | node :: rest => node.generatedCalls ++ generatedBodyCalls rest

end

/-- All functions of the module are among the symbols, and none was registered under a
name. -/
structure Within (target : TargetPlatform) (symbols : Set String) (cg : CodeGen) : Prop where
  platform : cg.platform = target
  declared : ∀ symbol ∈ cg.moduleFns, symbol ∈ symbols
  unregistered : cg.behaviorFns = ∅

/-- Returning runs keep the functions of the module among the symbols. -/
class Stays {α : Type} (target : TargetPlatform) (symbols : Set String) (x : Gen α) : Prop where
  ensures : Ensures (Within target symbols) (fun _ => True) x

/-- The symbols of a module include those of the runtime. -/
class HasRuntime (symbols : Set String) : Prop where
  runtime : ∀ symbol ∈ runtimeSymbols, symbol ∈ symbols

namespace Gen

variable {α β : Type} {target : TargetPlatform} {symbols : Set String} {x y : Gen α}
  {f : α → Gen β} {width : Nat} {i : Instr}

section Operations

instance stays_pure (a : α) : Stays target symbols (pure a : Gen α) := ⟨.pure trivial⟩

instance stays_bind [first : Stays target symbols x] [second : ∀ a, Stays target symbols (f a)] :
    Stays target symbols (x >>= f) := ⟨.bind first.ensures fun a _ => (second a).ensures⟩

instance stays_get : Stays target symbols (get : Gen CodeGen) :=
  ⟨Ensures.get.weaken fun _ _ => trivial⟩

/-- Generators that stay, one after the other, stay. -/
theorem stays_bind_of [Stays target symbols x] (next : ∀ a, Stays target symbols (f a)) :
    Stays target symbols (x >>= f) := inferInstance

/-- What reads the state stays when each branch does. -/
theorem stays_get_bind {f : CodeGen → Gen β} (next : ∀ s, Stays target symbols (f s)) :
    Stays target symbols (get >>= f) := inferInstance

instance stays_throw (e : CodeGenError) : Stays target symbols (throw e : Gen α) := ⟨.throw e⟩

instance stays_ite {c : Prop} [Decidable c] [yes : Stays target symbols x]
    [no : Stays target symbols y] :
    Stays target symbols (if c then x else y) := ⟨.ite (fun _ => yes.ensures) fun _ => no.ensures⟩

/-- A change that leaves the platform and the functions alone. -/
theorem stays_modify {g : CodeGen → CodeGen} (platform : ∀ s, (g s).platform = s.platform)
    (declared : ∀ s, (g s).moduleFns = s.moduleFns)
    (unregistered : ∀ s, (g s).behaviorFns = s.behaviorFns) :
    Stays target symbols (modify g : Gen PUnit) where
  ensures := .modify fun s within => ⟨(platform s).trans within.platform,
    by rw [declared]; exact within.declared, (unregistered s).trans within.unregistered⟩

/-- Declaring a known symbol stays within the symbols. -/
theorem stays_declare {symbol : String} (known : symbol ∈ symbols) :
    Stays target symbols (declare symbol) where
  ensures := .modify fun s within => ⟨within.platform, fun other member => by
    obtain rfl | old := List.mem_insert_iff.mp member
    · exact known
    · exact within.declared other old, within.unregistered⟩

instance : Stays target symbols (build i) := by
  have pushed : ∀ item : Item, Stays target symbols
    (modify fun cg => (cg.push item).fresh : Gen PUnit) :=
    fun item => stays_modify (fun _ => rfl) (fun _ => rfl) fun _ => rfl
  unfold build
  infer_instance

instance : Stays target symbols (buildInt width i) := by unfold buildInt; infer_instance
instance : Stays target symbols (buildFloat width i) := by unfold buildFloat; infer_instance
instance : Stays target symbols (buildPtr i) := by unfold buildPtr; infer_instance

instance (t : BlockEnd) : Stays target symbols (terminate t) :=
    stays_modify (fun _ => rfl) (fun _ => rfl) fun _ => rfl
instance (b : Nat) : Stays target symbols (positionAtEnd b) :=
    stays_modify (fun _ => rfl) (fun _ => rfl) fun _ => rfl

instance (name : String) : Stays target symbols (appendBlock name) := by
  have appended : Stays target symbols
      (modify fun cg => { cg with blocks := cg.blocks ++ [{ name := name }] } : Gen PUnit) :=
    stays_modify (fun _ => rfl) (fun _ => rfl) fun _ => rfl
  unfold appendBlock
  infer_instance

instance (v : SigilValue) : Stays target symbols (asInt v) := by
  cases v <;> simp only [asInt, lift, SigilValue.asInt] <;> infer_instance

instance (v : SigilValue) : Stays target symbols (asFloat v) := by
  cases v <;> simp only [asFloat, lift, SigilValue.asFloat] <;> infer_instance

instance (v : SigilValue) : Stays target symbols (asHandle v) := by
  cases v <;> simp only [asHandle, lift, SigilValue.asHandle] <;> infer_instance

instance (a b : IntValue) : Stays target symbols (normalizeIntTypes a b) := by
  unfold normalizeIntTypes
  infer_instance

instance (a : IntValue) (width : Nat) : Stays target symbols (resizeInt a width) := by
  unfold resizeInt
  infer_instance

instance (size : Nat) (typ : HandleType) : Stays target symbols (allocHandle size typ) := by
  unfold allocHandle
  infer_instance

instance (name : String) (value : SigilValue) : Stays target symbols (bindVar name value) :=
  stays_modify (fun _ => rfl) (fun _ => rfl) fun _ => rfl

instance (h : Handle) (offset : Offset) : Stays target symbols (address h offset) := by
  unfold address
  split <;> infer_instance

instance (outputs : CallOutputs) (field : String) :
    Stays target symbols (getField outputs field) := by
  unfold getField
  split <;> infer_instance

instance (name : String) : Stays target symbols (getVar name) := by
  refine stays_get_bind fun s => ?_
  split
  · infer_instance
  · infer_instance
  · split <;> infer_instance

instance (name : String) : Stays target symbols (getBinding name) := by
  refine stays_get_bind fun s => ?_
  split <;> infer_instance

instance (role : String) (v : SigilValue) : Stays target symbols (derefHandle role v) := by
  cases v <;> simp only [derefHandle] <;> infer_instance

instance (v : SigilValue) : Stays target symbols (immediateToHandle v) := by
  cases v <;> simp only [immediateToHandle] <;> infer_instance

instance (v : SigilValue) : Stays target symbols (spawnArg v) := by
  cases v <;> simp only [spawnArg] <;> infer_instance

instance (buffer : Handle) (slots : List OutputSlot) :
    Stays target symbols (slotPointers buffer slots) := by
  induction slots with
  | nil => exact stays_pure _
  | cons slot rest ih =>
      unfold slotPointers
      infer_instance

instance (s : String) : Stays target symbols (compileString s) := by
  have added : ∀ bytes, Stays target symbols
      (modify fun cg => { cg with globals := cg.globals ++ [bytes] } : Gen PUnit) :=
    fun bytes => stays_modify (fun _ => rfl) (fun _ => rfl) fun _ => rfl
  unfold compileString
  infer_instance

instance (base : Expr) (field : String) : Stays target symbols (compileField base field) := by
  unfold compileField
  split
  · refine stays_get_bind fun s => ?_
    split <;> infer_instance
  · infer_instance

section Runtime

variable [HasRuntime symbols]

/-- Declaring a runtime symbol stays within the symbols. -/
theorem stays_runtime {symbol : String} (known : symbol ∈ runtimeSymbols) :
    Stays target symbols (declare symbol) :=
  stays_declare (HasRuntime.runtime symbol known)

/-- Calling a runtime function stays within the symbols. -/
theorem stays_callRuntime {symbol : String} {args : List CallArg}
    (known : symbol ∈ runtimeSymbols) :
    Stays target symbols (callRuntime symbol args) := by
  have declared : Stays target symbols (declare symbol) := stays_runtime known
  unfold callRuntime
  infer_instance

instance (offset : IntValue) (accessSize allocatedSize : Nat) :
    Stays target symbols (emitBoundsCheck offset accessSize allocatedSize) := by
  have abort : Stays target symbols (callRuntime "abort" []) :=
    stays_callRuntime (by simp [runtimeSymbols])
  unfold emitBoundsCheck
  infer_instance

instance (size : Nat) (typ : HandleType) : Stays target symbols (scopeAllocHandle size typ) := by
  have allocates : ∀ args, Stays target symbols (callRuntime "sigil_scope_alloc" args) :=
    fun _ => stays_callRuntime (by simp [runtimeSymbols])
  refine stays_get_bind fun s => ?_
  split <;> infer_instance

instance : Stays target symbols createRootScope := by
  have creates : ∀ args, Stays target symbols (callRuntime "sigil_scope_create" args) :=
    fun _ => stays_callRuntime (by simp [runtimeSymbols])
  unfold createRootScope
  infer_instance

instance (scope : PtrValue) : Stays target symbols (destroyRootScope scope) := by
  have destroys : ∀ args, Stays target symbols (callRuntime "sigil_scope_destroy" args) :=
    fun _ => stays_callRuntime (by simp [runtimeSymbols])
  unfold destroyRootScope
  infer_instance

instance (h : Handle) (size : Nat) (offset : Offset) :
    Stays target symbols (checkOffset h size offset) := by
  cases offset <;> simp only [checkOffset] <;> infer_instance

instance (h : Handle) (size : Nat) (offset : Offset) :
    Stays target symbols (load h size offset) := by
  unfold load
  cases h.typ <;> infer_instance

instance (h : Handle) (v : SigilValue) (size : Nat) (offset : Offset) :
    Stays target symbols (store h v size offset) := by
  unfold store
  cases v <;> infer_instance

instance (handleName : String) : Stays target symbols (compileWait handleName) := by
  have declared : Stays target symbols (declare "sigil_wait") :=
    stays_runtime (by simp [runtimeSymbols])
  unfold compileWait
  infer_instance

instance (channelName : String) : Stays target symbols (compileChannelReceive channelName) := by
  have declared : Stays target symbols (declare "sigil_channel_receive") :=
    stays_runtime (by simp [runtimeSymbols])
  unfold compileChannelReceive
  infer_instance

end Runtime

end Operations

/-- Returning runs also show that the symbols of some names are known. -/
def Resolves (target : TargetPlatform) (symbols : Set String) (names : List String)
    (x : Gen α) : Prop :=
  Ensures (Within target symbols) (fun _ => ∀ name ∈ names, symbolOf name ∈ symbols) x

namespace Resolves

variable {names names' : List String}

/-- A generator that stays resolves no name. -/
theorem stays (kept : Stays target symbols x) : Resolves target symbols [] x :=
  kept.ensures.weaken fun _ _ _ member => absurd member List.not_mem_nil

/-- What follows and stays resolves no more names. -/
theorem first (here : Resolves target symbols names x) (rest : ∀ a, Stays target symbols (f a)) :
    Resolves target symbols names (x >>= f) :=
  .bind here fun a resolved => (rest a).ensures.weaken fun _ _ => resolved

/-- What goes before and stays resolves no more names. -/
theorem after [kept : Stays target symbols x] (rest : ∀ a, Resolves target symbols names (f a)) :
    Resolves target symbols names (x >>= f) :=
  .bind kept.ensures fun a _ => rest a

/-- Generators one after the other resolve the names of both. -/
theorem both (here : Resolves target symbols names x)
    (rest : ∀ a, Resolves target symbols names' (f a)) :
    Resolves target symbols (names ++ names') (x >>= f) :=
  .bind here fun a resolved => (rest a).weaken fun _ resolved' =>
    List.forall_mem_append.mpr ⟨resolved, resolved'⟩

end Resolves

/-- A CALL that is compiled has its symbol among those of the module. -/
theorem resolves_callee (behavior : String) :
    Resolves target symbols [behavior] (callee behavior) := by
  intro s symbol t returned within
  unfold callee at returned
  obtain ⟨_, _, read, run⟩ := returns_bind.mp returned
  obtain ⟨rfl, rfl⟩ := returns_get.mp read
  rw [within.unregistered] at run
  dsimp only [AList.lookup_empty] at run
  split at run
  next known =>
    obtain ⟨_, rfl⟩ := returns_pure.mp run
    exact ⟨by simpa using within.declared _ known, within⟩
  next => exact absurd run not_returns_throw

section Expressions

variable {a b c : Gen SigilValue} {one two three : List String}

/-- An integer operation resolves the names of its operands. -/
theorem resolves_compileIntBinop (op : IntOp) (left : Resolves target symbols one a)
    (right : Resolves target symbols two b) :
      Resolves target symbols (one ++ two) (compileIntBinop op a b) :=
  left.both fun _ => .after fun _ => right.first fun _ => inferInstance

/-- An integer comparison resolves the names of its operands. -/
theorem resolves_compileIntCmp (pred : IntPredicate) (left : Resolves target symbols one a)
    (right : Resolves target symbols two b) :
      Resolves target symbols (one ++ two) (compileIntCmp pred a b) :=
  left.both fun _ => .after fun _ => right.first fun _ => inferInstance

/-- A float operation resolves the names of its operands. -/
theorem resolves_compileFloatBinop (op : FloatArith) (left : Resolves target symbols one a)
    (right : Resolves target symbols two b) :
      Resolves target symbols (one ++ two) (compileFloatBinop op a b) :=
  left.both fun _ => .after fun _ => right.first fun _ => inferInstance

/-- A float comparison resolves the names of its operands. -/
theorem resolves_compileFloatCmp (pred : Comparison) (left : Resolves target symbols one a)
    (right : Resolves target symbols two b) :
      Resolves target symbols (one ++ two) (compileFloatCmp pred a b) :=
  left.both fun _ => .after fun _ => right.first fun _ => inferInstance

/-- An atomic update resolves the names of its operands. -/
theorem resolves_compileAtomicRmw (op : AtomicRmw) (left : Resolves target symbols one a)
    (right : Resolves target symbols two b) :
      Resolves target symbols (one ++ two) (compileAtomicRmw op a b) :=
  left.both fun _ => .after fun _ => right.first fun _ => inferInstance

/-- A CAS resolves the names of its operands. -/
theorem resolves_compileCas (left : Resolves target symbols one a)
    (right : Resolves target symbols two b)
    (last : Resolves target symbols three c) :
    Resolves target symbols (one ++ (two ++ three)) (compileCas a b c) :=
  left.both fun _ => .after fun _ => right.both fun _ => .after fun _ =>
    last.first fun _ => inferInstance

/-- The arguments of a CALL. -/
theorem resolves_compileArgs {args : List Expr}
    (each : ∀ e ∈ args, Resolves target symbols e.generatedCalls (compileExpr e)) :
    Resolves target symbols (Expr.allGeneratedCalls args) (compileArgs args) := by
  induction args with
  | nil => exact .stays (stays_pure _)
  | cons arg rest ih =>
      obtain ⟨here, later⟩ := List.forall_mem_cons.mp each
      unfold compileArgs Expr.allGeneratedCalls
      exact here.both fun _ => .after fun _ => (ih later).first fun _ => inferInstance

/-- The offset of a LOAD or STORE; a literal calls nothing. -/
theorem resolves_compileOffset {offset : Expr}
    (here : Resolves target symbols offset.generatedCalls (compileExpr offset)) :
    Resolves target symbols offset.generatedCalls (compileOffset (some offset)) := by
  unfold compileOffset
  split
  next n literal =>
    cases offset with
    | intLit n => exact .stays (stays_pure _)
    | _ => cases literal
  next => exact here.first fun _ => inferInstance

variable [HasRuntime symbols]

/-- An ATOMIC_STORE resolves the names of its operands. -/
theorem resolves_compileAtomicStore (size : Nat) (left : Resolves target symbols one a)
    (right : Resolves target symbols two b) :
    Resolves target symbols (one ++ two) (compileAtomicStore a b size) :=
  left.both fun _ => .after fun _ => right.first fun _ => inferInstance

/-- The arguments of a SPAWN resolve their names. -/
theorem resolves_compileSpawnArgs {args : List Expr} (buffer : Handle) (i : Nat)
    (each : ∀ e ∈ args, Resolves target symbols e.generatedCalls (compileExpr e)) :
    Resolves target symbols (Expr.allGeneratedCalls args) (compileSpawnArgs buffer i args) := by
  induction args generalizing i with
  | nil => exact .stays (stays_pure _)
  | cons arg rest ih =>
      obtain ⟨here, later⟩ := List.forall_mem_cons.mp each
      unfold compileSpawnArgs Expr.allGeneratedCalls
      exact here.both fun _ => .after fun _ => .after fun _ => ih (i + 1) later

/-- A SPAWN resolves the names of its arguments. -/
theorem resolves_compileSpawn (pattern : String) (argCount : Nat) {args : Handle → Gen Unit}
    (passed : ∀ buffer, Resolves target symbols one (args buffer)) :
    Resolves target symbols one (compileSpawn pattern argCount args) := by
  have declared : Stays target symbols (declare "sigil_spawn") :=
    stays_runtime (by simp [runtimeSymbols])
  refine Resolves.after fun _ => .after fun cg => ?_
  dsimp only
  split
  · exact .after fun _ => .after fun buffer => (passed buffer).first fun _ => inferInstance
  · exact .after fun buffer => (passed buffer).first fun _ => inferInstance

/-- A CALL resolves its behavior and the names of its arguments. -/
theorem resolves_compileCall (behavior : String) {args : Gen (List CallArg)}
    (passed : Resolves target symbols one args) :
    Resolves target symbols (behavior :: one) (compileCall behavior args) := by
  have kept : ∀ outputs : CallOutputs, Stays target symbols (modify fun cg : CodeGen =>
      { cg with callOutputs := cg.callOutputs.insert "__pending" outputs } : Gen PUnit) :=
    fun _ => stays_modify (fun _ => rfl) (fun _ => rfl) fun _ => rfl
  refine Resolves.both (resolves_callee behavior) fun symbol => .after fun cg => ?_
  refine passed.first fun inputs => ?_
  dsimp only
  infer_instance

/-- Every CALL an expression generates has a known symbol. -/
theorem resolves_compileExpr (e : Expr) :
    Resolves target symbols e.generatedCalls (compileExpr e) := by
  induction e using Expr.inductionOnChildren with
  | step e ih =>
      cases e with
      | intLit n | floatLit bits => exact .stays (stays_pure _)
      | stringLit s | var name | field base field | wait handle | channelReceive channel =>
          unfold compileExpr
          exact .stays inferInstance
      | alloc size typ shared =>
          unfold compileExpr
          exact .stays inferInstance
      | load source size offset =>
          cases offset with
          | none =>
              have source := ih source (by simp [Expr.children])
              unfold compileExpr Expr.generatedCalls
              refine source.first fun v => ?_
              unfold compileOffset
              infer_instance
          | some offset =>
              have source := ih source (by simp [Expr.children])
              have offset := resolves_compileOffset (ih offset (by simp [Expr.children]))
              unfold compileExpr Expr.generatedCalls
              exact source.both fun _ => .after fun _ => offset.first fun _ => inferInstance
      | intArith op a b size =>
          exact resolves_compileIntBinop _ (ih a (by simp [Expr.children]))
            (ih b (by simp [Expr.children]))
      | bitwise op a b size =>
          exact resolves_compileIntBinop _ (ih a (by simp [Expr.children]))
            (ih b (by simp [Expr.children]))
      | intCmp op a b size =>
          exact resolves_compileIntCmp _ (ih a (by simp [Expr.children]))
            (ih b (by simp [Expr.children]))
      | floatArith op a b size =>
          exact resolves_compileFloatBinop _ (ih a (by simp [Expr.children]))
            (ih b (by simp [Expr.children]))
      | floatCmp op a b size =>
          exact resolves_compileFloatCmp _ (ih a (by simp [Expr.children]))
            (ih b (by simp [Expr.children]))
      | atomicStore a b size =>
          exact resolves_compileAtomicStore _ (ih a (by simp [Expr.children]))
            (ih b (by simp [Expr.children]))
      | atomicRmw op a b size =>
          exact resolves_compileAtomicRmw _ (ih a (by simp [Expr.children]))
            (ih b (by simp [Expr.children]))
      | cas a b c size =>
          exact resolves_compileCas (ih a (by simp [Expr.children]))
            (ih b (by simp [Expr.children]))
            (ih c (by simp [Expr.children]))
      | ineg a size | not a size | fneg a size | ftoi a from' size | itof a from' size
      | atomicLoad a size =>
          have operand := ih a (by simp [Expr.children])
          unfold compileExpr
          exact operand.first fun _ => inferInstance
      | channel typ capacity =>
          have operand := ih capacity (by simp [Expr.children])
          have declared : Stays target symbols (declare "sigil_channel_create") :=
            stays_runtime (by simp [runtimeSymbols])
          unfold compileExpr
          exact Resolves.after fun _ => operand.first fun _ => inferInstance
      | call behavior args =>
          exact resolves_compileCall behavior (resolves_compileArgs fun arg member =>
            ih arg (by simpa [Expr.children] using member))
      | spawn pattern args =>
          exact resolves_compileSpawn pattern _ fun buffer => resolves_compileSpawnArgs buffer 0
            fun arg member => ih arg (by simpa [Expr.children] using member)

end Expressions

section Statements

mutual

/-- Collecting labels stays within the symbols. -/
theorem stays_collectLabelBlocks (nodes : List Node) (labels : Labels) :
    Stays target symbols (collectLabelBlocks nodes labels) := by
  cases nodes with
  | nil => exact stays_pure _
  | cons node rest =>
      have here := stays_labelBlocksOf node labels
      have later := fun labels => stays_collectLabelBlocks rest labels
      unfold collectLabelBlocks
      infer_instance

/-- The labels of a statement stay within the symbols. -/
theorem stays_labelBlocksOf (node : Node) (labels : Labels) :
    Stays target symbols (labelBlocksOf node labels) := by
  cases node with
  | label line name =>
      unfold labelBlocksOf
      infer_instance
  | scope line nodes => exact stays_collectLabelBlocks nodes labels
  | _ => exact stays_pure _

end

instance (nodes : List Node) (labels : Labels) :
    Stays target symbols (collectLabelBlocks nodes labels) := stays_collectLabelBlocks nodes labels

instance (item : Item) : Stays target symbols (prependEntry item) :=
  stays_modify (fun _ => rfl) (fun _ => rfl) fun _ => rfl

instance (slot : SlotType) : Stays target symbols (createEntryAlloca slot) := by
  have counted : Stays target symbols (modify CodeGen.fresh : Gen PUnit) :=
    stays_modify (fun _ => rfl) (fun _ => rfl) fun _ => rfl
  refine stays_get_bind fun cg => ?_
  dsimp only
  infer_instance

instance (v : SigilValue) : Stays target symbols (slotTypeOf v) := by
  cases v <;> simp only [slotTypeOf] <;> infer_instance

instance (name : String) (v : SigilValue) : Stays target symbols (slotOf name v) := by
  have kept : ∀ slot : PtrValue × SlotType, Stays target symbols (modify fun cg : CodeGen =>
      { cg with mutableSlots := cg.mutableSlots.insert name slot } : Gen PUnit) :=
    fun _ => stays_modify (fun _ => rfl) (fun _ => rfl) fun _ => rfl
  refine stays_get_bind fun cg => ?_
  split <;> infer_instance

instance (name : String) (v : SigilValue) : Stays target symbols (storeMutableLocal name v) := by
  refine stays_bind_of fun slot => ?_
  dsimp only
  split <;> infer_instance

instance : Stays target symbols takePending := by
  have erased : Stays target symbols (modify fun cg : CodeGen =>
      { cg with callOutputs := cg.callOutputs.erase "__pending" } : Gen PUnit) :=
    stays_modify (fun _ => rfl) (fun _ => rfl) fun _ => rfl
  unfold takePending
  infer_instance

instance (name : String) : Stays target symbols (keepPending name) := by
  refine stays_bind_of fun pending => ?_
  split
  · exact stays_modify (fun _ => rfl) (fun _ => rfl) fun _ => rfl
  · infer_instance

instance (labels : Labels) (label : String) : Stays target symbols (labelBlock labels label) := by
  unfold labelBlock
  split <;> infer_instance

instance (labels : Labels) (name : String) : Stays target symbols (compileLabel labels name) := by
  unfold compileLabel
  split <;> infer_instance

instance (array : PtrValue) (i : Nat) (handles : List String) :
    Stays target symbols (storeHandles array i handles) := by
  induction handles generalizing i with
  | nil => exact stays_pure _
  | cons handleName rest ih =>
      unfold storeHandles
      infer_instance

instance (targets handles : List String) : Stays target symbols (compileWaits targets handles) := by
  induction handles generalizing targets with
  | nil => exact stays_pure _
  | cons handleName rest ih =>
      unfold compileWaits
      refine stays_bind_of fun _ => stays_bind_of fun _ => stays_bind_of fun _ => ?_
      split <;> infer_instance

section Runtime

variable [HasRuntime symbols]

instance (v : SigilValue) : Stays target symbols (branchCondition v) := by
  cases v <;> simp only [branchCondition] <;> infer_instance

instance (src : Handle) (slots : List (String × OutputSlot)) :
    Stays target symbols (redirect src slots) := by
  induction slots with
  | nil => exact stays_pure _
  | cons slot rest ih =>
      refine stays_get_bind fun cg => ?_
      split <;> infer_instance

instance (name : String) : Stays target symbols (compileFree name) := by
  have frees : ∀ args, Stays target symbols (callRuntime "sigil_scope_free" args) :=
    fun _ => stays_callRuntime (by simp [runtimeSymbols])
  refine stays_get_bind fun cg => ?_
  split <;> infer_instance

instance (channel : String) : Stays target symbols (compileChannelClose channel) := by
  have declared : Stays target symbols (declare "sigil_channel_close") :=
    stays_runtime (by simp [runtimeSymbols])
  unfold compileChannelClose
  infer_instance

instance (result which : String) (handles : List String) :
    Stays target symbols (compileWaitAny result which handles) := by
  have declared : Stays target symbols (declare "sigil_wait_any") :=
    stays_runtime (by simp [runtimeSymbols])
  unfold compileWaitAny
  infer_instance

/-- An assignment resolves the names of its expression. -/
theorem resolves_compileAssignment (name : String) (e : Expr) :
    Resolves target symbols e.generatedCalls (compileAssignment name e) := by
  refine (resolves_compileExpr e).first fun v => stays_get_bind fun cg => ?_
  dsimp only
  cases e <;> infer_instance

/-- A STORE resolves the names in it. -/
theorem resolves_compileStore (line : Nat) (name : String) (value : Expr) (size : Nat)
    (offset : Option Expr) :
    Resolves target symbols ((Node.store line name value size offset).operands.flatMap
      Expr.generatedCalls)
      (compileStore name value size offset) := by
  refine Resolves.after fun v => .after fun h => ?_
  cases offset with
  | none =>
      rw [Node.operands, List.flatMap_singleton]
      refine (resolves_compileExpr value).first fun val => ?_
      unfold compileOffset
      infer_instance
  | some offset =>
      rw [Node.operands, List.flatMap_cons, List.flatMap_singleton]
      exact (resolves_compileExpr value).both fun val =>
        (resolves_compileOffset (resolves_compileExpr offset)).first fun _ => inferInstance

/-- A BRANCH resolves the names of its condition. -/
theorem resolves_compileBranch (labels : Labels) (condition : Expr)
    (trueLabel falseLabel : String) :
    Resolves target symbols condition.generatedCalls
      (compileBranch labels condition trueLabel falseLabel) :=
  (resolves_compileExpr condition).first fun _ => inferInstance

/-- A SET resolves the names of its value. -/
theorem resolves_compileSet (name : String) (value : Expr) :
    Resolves target symbols value.generatedCalls (compileSet name value) := by
  refine (resolves_compileExpr value).first fun v => stays_get_bind fun cg => ?_
  split
  · dsimp only
    cases v <;> infer_instance
  · infer_instance

/-- Redirecting outputs stays within the symbols. -/
theorem stays_redirects (v : SigilValue) (outputs : List String) : Stays target symbols (do
      match ← takePending, v with
      | some callOutputs, .handle src => redirect src (outputs.zip callOutputs.slots)
      | _, _ => pure ()) := by
  refine stays_bind_of fun pending => ?_
  split <;> infer_instance

/-- A CALL statement resolves the names of its call. -/
theorem resolves_compileCallNode (result : Option String) (behavior : String) (args : List Expr)
    (outputs : List String) : Resolves target symbols (Expr.call behavior args).generatedCalls
      (compileCallNode result behavior args outputs) := by
  refine (resolves_compileExpr (.call behavior args)).first fun v => ?_
  have redirects := @stays_redirects target symbols _ v outputs
  dsimp only
  cases result <;> infer_instance

/-- A CHANNEL_SEND resolves the names of its value. -/
theorem resolves_compileChannelSend (channel : String) (value : Expr) :
    Resolves target symbols value.generatedCalls (compileChannelSend channel value) := by
  have declared : Stays target symbols (declare "sigil_channel_send") :=
    stays_runtime (by simp [runtimeSymbols])
  exact Resolves.after fun _ => .after fun _ => .after fun _ =>
    (resolves_compileExpr value).first fun _ => inferInstance

/-- A SCOPE resolves the names of its body. -/
theorem resolves_compileScope {names : List String} {body : Gen Unit}
    (here : Resolves target symbols names body) :
      Resolves target symbols names (compileScope body) := by
  have creates : ∀ args, Stays target symbols (callRuntime "sigil_scope_create" args) :=
    fun _ => stays_callRuntime (by simp [runtimeSymbols])
  have destroys : ∀ args, Stays target symbols (callRuntime "sigil_scope_destroy" args) :=
    fun _ => stays_callRuntime (by simp [runtimeSymbols])
  have entered : ∀ scope : PtrValue, Stays target symbols (modify fun cg : CodeGen =>
      { cg with currentScope := some scope } : Gen PUnit) :=
    fun _ => stays_modify (fun _ => rfl) (fun _ => rfl) fun _ => rfl
  have left : ∀ saved : CodeGen, Stays target symbols (modify fun cg : CodeGen =>
      { cg with currentScope := saved.currentScope, vars := saved.vars } : Gen PUnit) :=
    fun _ => stays_modify (fun _ => rfl) (fun _ => rfl) fun _ => rfl
  refine Resolves.after fun saved => ?_
  dsimp only
  split
  · exact .after fun child => .after fun _ => here.first fun _ => inferInstance
  · exact here.first fun _ => inferInstance

end Runtime

mutual

/-- Every CALL a statement generates has a known symbol. -/
theorem resolves_compileNode [HasRuntime symbols] (labels : Labels) (node : Node) :
    Resolves target symbols node.generatedCalls (compileNode labels node) := by
  cases node with
  | label line name | jump line name | free line name | discard line e | channelClose line name
  | waitAny line result which handles =>
      unfold compileNode
      exact .stays inferInstance
  | waitAll line targets handles =>
      have declared : Stays target symbols (declare "sigil_wait") :=
        stays_runtime (by simp [runtimeSymbols])
      unfold compileNode
      exact .stays inferInstance
  | wait line result handle =>
      unfold compileNode compileExpr
      exact .stays inferInstance
  | assignment line name e =>
      rw [Node.generatedCalls, Node.operands, List.flatMap_singleton]
      · exact resolves_compileAssignment name e
      all_goals simp
  | branch line condition trueLabel falseLabel =>
      rw [Node.generatedCalls, Node.operands, List.flatMap_singleton]
      · exact resolves_compileBranch labels condition trueLabel falseLabel
      all_goals simp
  | set line name value =>
      rw [Node.generatedCalls, Node.operands, List.flatMap_singleton]
      · exact resolves_compileSet name value
      all_goals simp
  | channelSend line channel value =>
      rw [Node.generatedCalls, Node.operands, List.flatMap_singleton]
      · exact resolves_compileChannelSend channel value
      all_goals simp
  | store line name value size offset =>
      rw [Node.generatedCalls]
      · exact @resolves_compileStore target symbols inferInstance line name value size offset
      all_goals simp
  | spawn line result pattern args =>
      rw [Node.generatedCalls, Node.operands, ← Expr.allGeneratedCalls_eq_flatMap]
      · have spawned := @resolves_compileExpr target symbols inferInstance (.spawn pattern args)
        rw [Expr.generatedCalls] at spawned
        unfold compileNode
        exact spawned.first fun _ => inferInstance
      all_goals simp
  | call line result behavior args outputs =>
      exact resolves_compileCallNode result behavior args outputs
  | scope line nodes => exact resolves_compileScope (resolves_compileNodes labels nodes)

/-- A body resolves the names of its statements. -/
theorem resolves_compileNodes [HasRuntime symbols] (labels : Labels) (nodes : List Node) :
    Resolves target symbols (generatedBodyCalls nodes) (compileNodes labels nodes) := by
  cases nodes with
  | nil => exact .stays (stays_pure _)
  | cons node rest =>
      exact (resolves_compileNode labels node).both fun _ => resolves_compileNodes labels rest

end

end Statements

section Functions

variable {name : String} {behavior : Behavior}

/-- Beginning a known function stays within the symbols. -/
theorem stays_beginFunction {symbol : String} (known : symbol ∈ symbols) :
    Stays target symbols (beginFunction symbol) := by
  have declared : Stays target symbols (declare symbol) := stays_declare known
  have started : Stays target symbols (modify fun cg : CodeGen => { cg with
      blocks := [{ name := "entry" }]
      current := 0
      vars := ∅
      callOutputs := ∅
      inFunction := true } : Gen PUnit) :=
    stays_modify (fun _ => rfl) (fun _ => rfl) fun _ => rfl
  unfold beginFunction
  infer_instance

instance (i : Nat) (params : List Parameter) : Stays target symbols (mapParameters i params) := by
  induction params generalizing i with
  | nil => exact stays_pure _
  | cons param rest ih =>
      unfold mapParameters
      infer_instance

/-- The C functions every module of a behavior has. -/
def crtSymbols (target : TargetPlatform) : List String := ["puts", crtName target "write"]

/-- Declaring the externals stays within the symbols. -/
theorem stays_declareExternals (known : ∀ symbol ∈ crtSymbols target, symbol ∈ symbols) :
    Stays target symbols declareExternals where
  ensures := by
    obtain ⟨puts, write, -⟩ : "puts" ∈ symbols ∧ crtName target "write" ∈ symbols ∧ True := by
      simpa [crtSymbols] using known
    refine .bind (stays_declare puts).ensures fun _ _ => .bind .get fun cg within => ?_
    rw [within.platform]
    exact (stays_declare write).ensures

/-- Declaring a known behavior stays within the symbols. -/
theorem stays_declareExternalBehavior {contract : Contract} (known : symbolOf name ∈ symbols) :
    Stays target symbols (declareExternalBehavior name contract) := by
  have declared : Stays target symbols (declare (symbolOf name)) := stays_declare known
  have kept : Stays target symbols (modify fun cg : CodeGen =>
      { cg with behaviorSigs := cg.behaviorSigs.insert name (.ofContract name contract) } :
        Gen PUnit) :=
    stays_modify (fun _ => rfl) (fun _ => rfl) fun _ => rfl
  unfold declareExternalBehavior
  infer_instance

/-- The body of a behavior calls functions of its module. -/
theorem resolves_compileBody [HasRuntime symbols] :
    Resolves target symbols (((compiledBody target behavior).map generatedBodyCalls).getD [])
      (compileBody behavior) := by
  have fresh : Stays target symbols (modify fun cg : CodeGen =>
      { cg with mutableSlots := ∅ } : Gen PUnit) :=
    stays_modify (fun _ => rfl) (fun _ => rfl) fun _ => rfl
  have reassigns : ∀ names : List String, Stays target symbols (modify fun cg : CodeGen =>
      { cg with reassignedLocals := names } : Gen PUnit) :=
    fun _ => stays_modify (fun _ => rfl) (fun _ => rfl) fun _ => rfl
  refine Resolves.after fun _ => .bind .get fun cg within => ?_
  rw [within.platform]
  cases compiledBody target behavior with
  | none => exact Resolves.stays (reassigns [])
  | some nodes =>
      refine Resolves.after fun _ => ?_
      have compiled : Resolves target symbols (generatedBodyCalls nodes) (compileImpl nodes) :=
        .after fun labels => resolves_compileNodes labels nodes
      exact compiled.first fun _ => inferInstance

end Functions

end Gen

end Sigil
