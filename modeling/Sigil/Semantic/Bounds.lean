import Sigil.Semantic.Accepted
import Sigil.Semantic.Names

/-!
# Static bounds

`Memory` is what a variable may denote, and `denotes` follows it along a walk, with the names
restored at END_SCOPE. The checker follows it along the text instead: it takes a variable to
denote what the textually last binding gave it. Where the memory the text attributes to a
variable is no larger than the memory it denotes, the accesses the checker looks at stay in
bounds; whether a body stays in bounds is a matter of the other accesses.
-/

namespace Sigil

/-- The memory a variable denotes: a parameter's, that of an ALLOC of some size, or one of
unknown size, the result of a CALL or a literal. -/
inductive Memory where
  | parameter (param : Parameter)
  | allocated (size : Expr)
  | other
  deriving Repr

/-- The size of a memory, where ALLOC allocates the constant value of its size. -/
def Memory.size : Memory → Option Nat
  | parameter param => some param.size
  | allocated size => size.tryEvalConst.map BitVec.toNat
  | other => none

/-- The memory that expressions bring. -/
def Memory.sources : Sources Memory := ⟨fun size _ => .allocated size, .other, .other⟩

/-- What each variable denotes, `none` for a plain value. -/
abbrev MemoryMap := String → Option Memory

namespace MemoryMap

/-- The memory the checker takes the value of an expression to denote. -/
def ofExpr (map : MemoryMap) : Expr → Option Memory
  | .var name => map name
  | .alloc size _ _ => some (.allocated size)
  | .call _ _ | .field _ _ => some .other
  | _ => none

/-- Bind a variable to the value of an expression. -/
def bind (map : MemoryMap) (target : String) (e : Expr) : MemoryMap :=
  Function.update map target (map.ofExpr e)

/-- What the linear pass takes a statement to do: only `x = e` and a CALL result
bind. -/
def scan (map : MemoryMap) : Node → MemoryMap
  | .assignment _ target e => map.bind target e
  | .call _ (some target) _ _ _ => Function.update map target (some .other)
  | _ => map

/-- Before a body runs its parameters denote their memory. -/
def init (contract : Contract) : MemoryMap :=
  (contract.inputs ++ contract.outputs).foldl
    (fun map param => Function.update map param.name (some (.parameter param))) fun _ => none

end MemoryMap

/-- What the variables denote where statement `i` stands, after a walk executed others. -/
def denotes (contract : Contract) (nodes : List Node) (executed : List Nat) (i : Nat) : MemoryMap :=
  (NameMap.after Memory.sources (collectReassigned nodes)
    (.ofParameters ((contract.inputs ++ contract.outputs).map fun param =>
      (param.name, .parameter param)))
    (spots nodes) executed i).lookup

/-- What a text attributes to the variables. -/
def attributed (contract : Contract) (text : List Node) : MemoryMap :=
  text.foldl MemoryMap.scan (.init contract)

/-- A LOAD or STORE through a variable. -/
structure Access where
  name : String
  size : Nat
  offset : Option Expr
  deriving Repr

/-- The access of a LOAD through a variable. -/
def Expr.access? : Expr → Option Access
  | load (var name) size offset => some ⟨name, size, offset⟩
  | _ => none

namespace Node

/-- The access of a STORE. -/
def storeAccess? : Node → Option Access
  | store _ target _ size offset => some ⟨target, size, offset⟩
  | _ => none

/-- The accesses running a statement makes. -/
def accesses (node : Node) : List Access :=
  node.storeAccess?.toList ++ (node.operands.flatMap Expr.subexprs).filterMap Expr.access?

/-- The accesses the checker looks at: not those in a CHANNEL capacity, nor those
in the arguments of a SPAWN statement. -/
inductive Inspects (node : Node) : Access → Prop
  | store {access : Access} (isStore : node.storeAccess? = some access) : Inspects node access
  | load {access : Access} {e x : Expr} (operand : e ∈ node.validatedOperands)
      (visited : e.Visits x) (isLoad : x.access? = some access) : Inspects node access

end Node

/-- An access at a constant offset lies inside a memory of known size. -/
def Access.InBounds (access : Access) (memory : Option Memory) : Prop :=
  ∀ size off, memory.bind Memory.size = some size →
    Analyzer.constOffset access.offset = some off →
    0 ≤ off.toInt ∧ off.toInt + access.size ≤ size

/-- The accesses of statement `i`, about to run after `executed`, are in bounds. -/
def BoundsSafe (contract : Contract) (nodes : List Node) (executed : List Nat) (i : Nat) : Prop :=
  ∀ node access, (flattenScopes nodes)[i]? = some node → access ∈ node.accesses →
    access.InBounds (denotes contract nodes executed i access.name)

/-- The checker sees an access for what it is: it looks at the place, and the text
attributes to the variable a memory of known size, below `2 ^ 63` and no larger
than the one it denotes. -/
structure BoundsVisible (denoted attributed : Option Memory) (node : Node) (access : Access) :
    Prop where
  place : node.Inspects access
  covered : ∃ size, attributed.bind Memory.size = some size ∧ size < 2 ^ 63 ∧
    ∀ actual, denoted.bind Memory.size = some actual → size ≤ actual

/-- The accesses of statement `i` that the checker does not see for what they are stay in
bounds. `earlier` is the text validated before the body. -/
def BoundsSafeUnseen (contract : Contract) (earlier nodes : List Node) (executed : List Nat)
    (i : Nat) : Prop :=
  ∀ node access, (flattenScopes nodes)[i]? = some node → access ∈ node.accesses →
    ¬ BoundsVisible (denotes contract nodes executed i access.name)
      (attributed contract (earlier ++ (flattenScopes nodes).take i) access.name) node access →
    access.InBounds (denotes contract nodes executed i access.name)

/-- Something holds of every step of every walk from the entry of a body. -/
def AlongWalks (text : List Node) (holds : List Nat → Nat → Prop) : Prop :=
  ∀ target visited, ControlWalk text 0 target visited →
    ∀ before i after, visited = before ++ i :: after → holds before i

/-- What holds alike holds along the same walks. -/
theorem AlongWalks.congr {text : List Node} {holds holds' : List Nat → Nat → Prop}
    (same : ∀ before i, holds before i ↔ holds' before i) :
    AlongWalks text holds ↔ AlongWalks text holds' := by
  unfold AlongWalks
  simp only [same]

section Attribution

variable {ctx : AnalysisContext} {map : MemoryMap} {name target : String}

/-- The checker has recorded the size of every memory of known size. -/
def Records (ctx : AnalysisContext) (map : MemoryMap) : Prop :=
  ∀ name size, (map name).bind Memory.size = some size → ctx.recordedSize name = some size

/-- A definition records the size of its name. -/
theorem recordedSize_defineVar (info : VarInfo) :
    (ctx.defineVar target info).recordedSize name =
      if name = target then info.allocatedSize else ctx.recordedSize name := by
  unfold AnalysisContext.recordedSize AnalysisContext.getVar AnalysisContext.defineVar
  split
  next same => rw [same, AList.lookup_insert, Option.bind_some]
  next other => rw [AList.lookup_insert_ne other]

/-- Binding a variable to an expression keeps the sizes recorded. -/
theorem Records.bind (records : Records ctx map) (e : Expr) (elementType : Option AstType) :
    Records (ctx.defineVar target ((ctx.inferExprInfo e).toVar elementType))
      (map.bind target e) := by
  intro name size known
  rw [recordedSize_defineVar]
  by_cases same : name = target
  · rw [if_pos same]
    rw [same, MemoryMap.bind, Function.update_self] at known
    cases e with
    | var source =>
        have recorded := records source size known
        unfold AnalysisContext.recordedSize at recorded
        obtain ⟨info, found, allocated⟩ := Option.bind_eq_some_iff.mp recorded
        simpa [AnalysisContext.inferExprInfo, found, ExprInfo.toVar, VarInfo.allocatedSize]
          using allocated
    | alloc amount typ shared =>
        simpa [MemoryMap.ofExpr, Memory.size, AnalysisContext.inferExprInfo, ExprInfo.toVar,
          VarInfo.allocatedSize] using known
    | _ => simp [MemoryMap.ofExpr, Memory.size] at known
  · rw [if_neg same]
    rw [MemoryMap.bind, Function.update_of_ne same] at known
    exact records name size known

/-- Recording a statement keeps the sizes recorded. -/
theorem Records.record (records : Records ctx map) (node : Node) :
    Records (ctx.record node) (map.scan node) := by
  cases node with
  | assignment line target e => exact records.bind e _
  | call line target behavior args outputs =>
      cases target with
      | none => exact records
      | some target =>
          intro name size known
          rw [AnalysisContext.record, recordedSize_defineVar]
          by_cases same : name = target
          · simp [same, MemoryMap.scan, Memory.size] at known
          · rw [if_neg same]
            rw [MemoryMap.scan, Function.update_of_ne same] at known
            exact records name size known
  | _ => exact records

/-- The text records the sizes that the map attributes. -/
theorem Records.foldl (records : Records ctx map) (text : List Node) :
    Records (text.foldl AnalysisContext.record ctx) (text.foldl MemoryMap.scan map) := by
  induction text generalizing ctx map with
  | nil => exact records
  | cons node rest ih => exact ih (records.record node)

/-- An INPUT has its declared size. -/
theorem recordedSize_addInput (param : Parameter) :
    (ctx.addInput param).recordedSize name =
      if name = param.name then some param.size else ctx.recordedSize name :=
  recordedSize_defineVar _

/-- An OUTPUT has its declared size. -/
theorem recordedSize_addOutput (param : Parameter) :
    (ctx.addOutput param).recordedSize name =
      if name = param.name then some param.size else ctx.recordedSize name :=
  recordedSize_defineVar _

/-- Registering parameters records their sizes. -/
theorem Records.parameters {add : AnalysisContext → Parameter → AnalysisContext}
    (adds : ∀ ctx param name, (add ctx param).recordedSize name =
      if name = param.name then some param.size else ctx.recordedSize name)
    (records : Records ctx map) (params : List Parameter) :
    Records (params.foldl add ctx) (params.foldl
      (fun map param => Function.update map param.name (some (.parameter param))) map) := by
  induction params generalizing ctx map with
  | nil => exact records
  | cons param rest ih =>
      apply ih
      intro name size known
      dsimp only at known
      rw [adds]
      by_cases same : name = param.name
      · rw [same, Function.update_self] at known
        rwa [if_pos same]
      · rw [Function.update_of_ne same] at known
        rw [if_neg same]
        exact records name size known

/-- Validation starts with the sizes of the parameters recorded. -/
theorem records_labelled (sha256 : List UInt8 → List UInt8) (behavior : Behavior)
    (dependencies : Contracts) (patterns : List String) :
    Records (behavior.labelled sha256 dependencies patterns).ctx (.init behavior.contract) := by
  suffices start : Records (.new behavior dependencies patterns) (.init behavior.contract) by
    intro name size known
    rw [← start name size known, AnalysisContext.recordedSize, AnalysisContext.recordedSize,
      AnalysisContext.getVar, AnalysisContext.getVar, Behavior.vars_labelled]
  rw [MemoryMap.init, List.foldl_append]
  apply Records.parameters fun _ _ _ => recordedSize_addOutput _
  apply Records.parameters fun _ _ _ => recordedSize_addInput _
  exact fun name size known => by simp at known

end Attribution

section Soundness

variable {behavior : Behavior} {sha256 : List UInt8 → List UInt8} {dependencies : Contracts}
  {patterns : List String} {earlier nodes : List Node}

/-- A valid statement keeps every access the checker looks at within the recorded
size. -/
theorem Node.Inspects.withinRecorded {ctx : AnalysisContext} {node : Node} {access : Access}
    (inspects : node.Inspects access) (valid : node.Valid ctx) :
    ctx.WithinRecorded access.name access.size access.offset := by
  cases inspects with
  | store isStore =>
      cases node with
      | store line target value size offset =>
          obtain rfl := Option.some.inj isStore
          exact valid.own.2.2.2.2.1
      | _ => simp [storeAccess?] at isStore
  | load operand visited isLoad =>
      have checked := valid.operands _ operand _ visited
      revert checked
      unfold Expr.access? at isLoad
      split at isLoad
      next name size offset =>
        obtain rfl := Option.some.inj isLoad
        exact fun ⟨_, _, access⟩ => (access name rfl).1
      next => simp at isLoad

/-- An access within a size below `2 ^ 63` starts at no negative offset and ends
within it. -/
theorem inBounds_of_saturatingAdd {off : BitVec 64} {n size : Nat} (small : size < 2 ^ 63)
    (within : Analyzer.saturatingAdd off.toNat n ≤ size) :
    0 ≤ off.toInt ∧ off.toInt + n ≤ size := by
  unfold Analyzer.saturatingAdd at within
  have ends : off.toNat + n ≤ size := by omega
  rw [BitVec.toInt_eq_toNat_of_lt (by omega)]
  omega

/-- In an accepted body an access that the checker sees for what it is stays in bounds. -/
theorem BoundsVisible.inBounds (accepted : behavior.Accepted sha256 dependencies patterns)
    (body : behavior.HasBody earlier nodes) {i : Nat} {node : Node} {access : Access}
    {denoted : Option Memory} (at_ : (flattenScopes nodes)[i]? = some node)
    (visible : BoundsVisible denoted
      (attributed behavior.contract (earlier ++ (flattenScopes nodes).take i) access.name) node
        access) :
    access.InBounds denoted := by
  intro size off known constant
  obtain ⟨inspected, recorded, attributed, small, covered⟩ := visible
  have valid := (accepted.allValid body).at at_
  have records := ((records_labelled sha256 behavior dependencies patterns).foldl earlier).foldl
    ((flattenScopes nodes).take i)
  rw [← List.foldl_append, ← List.foldl_append] at records
  rw [← List.foldl_append] at valid
  have within := inspected.withinRecorded valid recorded off
    (records access.name recorded attributed)
    constant
  have ends := inBounds_of_saturatingAdd small within
  exact ⟨ends.1, ends.2.trans (by exact_mod_cast covered size known)⟩

end Soundness

/-- A leaf without parameters. -/
def leaf (nodes : List Node) : Behavior where
  name := "leaf"
  contract := { inputs := [], outputs := [], guarantees := [] }
  hash := ""
  implementations := [⟨none, nodes⟩]
  composition := none

/-- `h = ALLOC 16 bytes`, `LABEL again`, `SCOPE`, `k = h`, `STORE k 1 8 8`, `END_SCOPE`,
`BRANCH 1 again done`, `LABEL done`, `STORE h 1 8`, `FREE h`. -/
def storeInScope : List Node :=
  [.assignment 1 "h" (.alloc (.intLit 16) .bytes false), .label 2 "again",
    .scope 3 [.assignment 4 "k" (.var "h"), .store 5 "k" (.intLit 1) 8 (some (.intLit 8))],
    .branch 6 (.intLit 1) "again" "done", .label 7 "done", .store 8 "h" (.intLit 1) 8 none,
      .free 9 "h"]

/-- `BRANCH 1 small big`, `LABEL small`, `h = ALLOC 8 bytes`, `JUMP done`, `LABEL big`,
`h = ALLOC 100 bytes`, `LABEL done`, `STORE h 1 8 50`, `FREE h`. -/
def allocTwice : List Node :=
  [.branch 1 (.intLit 1) "small" "big", .label 2 "small",
    .assignment 3 "h" (.alloc (.intLit 8) .bytes false), .jump 4 "done", .label 5 "big",
    .assignment 6 "h" (.alloc (.intLit 100) .bytes false), .label 7 "done",
    .store 8 "h" (.intLit 1) 8 (some (.intLit 50)), .free 9 "h"]

/-- `h = ALLOC 8 bytes`, `k = ALLOC 100 bytes`, `SCOPE`, `h = k`, `END_SCOPE`, `STORE h 1 8 50`. -/
def reboundInScope : List Node :=
  [.assignment 1 "h" (.alloc (.intLit 8) .bytes false),
    .assignment 2 "k" (.alloc (.intLit 100) .bytes false),
    .scope 3 [.assignment 4 "h" (.var "k")], .store 5 "h" (.intLit 1) 8 (some (.intLit 50))]

-- Behind END_SCOPE the name is again that of the 8 bytes.
example : (denotes (leaf reboundInScope).contract reboundInScope [0, 1, 2] 3 "h").bind
  Memory.size = some 8 := by
  rfl

end Sigil
