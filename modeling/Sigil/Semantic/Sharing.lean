import Sigil.Semantic.Bounds

/-!
# SHARED memory

`shares` follows along a walk which variables denote SHARED memory, with the names restored at
END_SCOPE; `flagged` follows it along the text, where the last binding wins. An access that the
checker looks at, through a variable the text takes to be SHARED whenever it is, is atomic in an
accepted body.
-/

namespace Sigil

/-- What each variable denotes: memory that is SHARED or not, or a plain value. -/
abbrev SharingMap := String → Option Bool

namespace SharingMap

/-- Whether the checker takes the value of an expression to denote SHARED memory. A copied
variable shares its memory. -/
def ofExpr (map : SharingMap) : Expr → Option Bool
  | .var name => map name
  | .alloc _ _ shared => some shared
  | .call _ _ | .field _ _ => some false
  | _ => none

def bind (map : SharingMap) (target : String) (e : Expr) : SharingMap :=
  Function.update map target (map.ofExpr e)

/-- What the linear pass takes a statement to do. -/
def scan (map : SharingMap) : Node → SharingMap
  | .assignment _ target e => map.bind target e
  | .call _ (some target) _ _ _ => Function.update map target (some false)
  | _ => map

/-- Parameters are not SHARED. -/
def init (contract : Contract) : SharingMap :=
  fun name => if name ∈ (contract.inputs ++ contract.outputs).map Parameter.name then some false
    else none

end SharingMap

/-- Whether the memory that expressions bring is SHARED. -/
def sharedSources : Sources Bool := ⟨fun _ shared => shared, false, false⟩

/-- Which variables denote SHARED memory where statement `i` stands, after a walk executed
others. -/
def shares (contract : Contract) (nodes : List Node) (executed : List Nat) (i : Nat) : SharingMap :=
  (NameMap.after sharedSources (collectReassigned nodes)
    (.ofParameters ((contract.inputs ++ contract.outputs).map fun param => (param.name, false)))
    (spots nodes) executed i).lookup

/-- Which variables a text takes to be SHARED. -/
def flagged (contract : Contract) (text : List Node) : SharingMap :=
  text.foldl SharingMap.scan (.init contract)

/-- Statement `i`, about to run after `executed`, makes no LOAD or STORE through a
variable that denotes SHARED memory. -/
def SharingSafe (contract : Contract) (nodes : List Node) (executed : List Nat) (i : Nat) : Prop :=
  ∀ node access, (flattenScopes nodes)[i]? = some node → access ∈ node.accesses →
    shares contract nodes executed i access.name ≠ some true

/-- The checker looks at the place of an access, and the text takes the variable to be SHARED. -/
structure SharingVisible (flag : Option Bool) (node : Node) (access : Access) : Prop where
  place : node.Inspects access
  flag : flag = some true

/-- No LOAD or STORE of statement `i` that the checker does not see goes through a variable that
denotes SHARED memory. -/
def SharingSafeUnseen (contract : Contract) (earlier nodes : List Node) (executed : List Nat)
    (i : Nat) : Prop :=
  ∀ node access, (flattenScopes nodes)[i]? = some node → access ∈ node.accesses →
    ¬ SharingVisible (flagged contract (earlier ++ (flattenScopes nodes).take i) access.name)
      node access →
    shares contract nodes executed i access.name ≠ some true

section Flags

variable {ctx : AnalysisContext} {map : SharingMap} {name target : String}

/-- The checker has flagged every variable the text takes to be SHARED. -/
def Flags (ctx : AnalysisContext) (map : SharingMap) : Prop :=
  ∀ name, map name = some true → ∃ info, ctx.getVar name = some info ∧ info.shared = true

/-- A definition is what its name means from then on. -/
theorem getVar_defineVar (info : VarInfo) :
    (ctx.defineVar target info).getVar name =
      if name = target then some info else ctx.getVar name := by
  unfold AnalysisContext.getVar AnalysisContext.defineVar
  split
  next same => rw [same, AList.lookup_insert]
  next other => rw [AList.lookup_insert_ne other]

/-- Binding a variable to an expression keeps the flags. -/
theorem Flags.bind (flags : Flags ctx map) (e : Expr) (elementType : Option AstType) :
    Flags (ctx.defineVar target ((ctx.inferExprInfo e).toVar elementType)) (map.bind target e) := by
  intro name shared
  rw [getVar_defineVar]
  by_cases same : name = target
  · rw [if_pos same]
    rw [same, SharingMap.bind, Function.update_self] at shared
    refine ⟨_, rfl, ?_⟩
    cases e with
    | var source =>
        obtain ⟨info, found, flag⟩ := flags source shared
        simpa [AnalysisContext.inferExprInfo, found, ExprInfo.toVar] using flag
    | alloc amount typ flag => exact Option.some.inj shared
    | _ => simp [SharingMap.ofExpr] at shared
  · rw [if_neg same]
    rw [SharingMap.bind, Function.update_of_ne same] at shared
    exact flags name shared

/-- Recording a statement keeps the flags. -/
theorem Flags.record (flags : Flags ctx map) (node : Node) :
    Flags (ctx.record node) (map.scan node) := by
  cases node with
  | assignment line target e => exact flags.bind e _
  | call line target behavior args outputs =>
      cases target with
      | none => exact flags
      | some target =>
          intro name shared
          rw [AnalysisContext.record, getVar_defineVar]
          by_cases same : name = target
          · simp [same, SharingMap.scan] at shared
          · rw [if_neg same]
            rw [SharingMap.scan, Function.update_of_ne same] at shared
            exact flags name shared
  | _ => exact flags

/-- The text records the flags that the map attributes. -/
theorem Flags.foldl (flags : Flags ctx map) (text : List Node) :
    Flags (text.foldl AnalysisContext.record ctx) (text.foldl SharingMap.scan map) := by
  induction text generalizing ctx map with
  | nil => exact flags
  | cons node rest ih => exact ih (flags.record node)

/-- Nothing is SHARED before a body runs. -/
theorem flags_init (ctx : AnalysisContext) (contract : Contract) : Flags ctx (.init contract) := by
  intro name shared
  unfold SharingMap.init at shared
  split at shared <;> simp at shared

end Flags

section Soundness

variable {behavior : Behavior} {sha256 : List UInt8 → List UInt8} {dependencies : Contracts}
  {patterns : List String} {earlier nodes : List Node}

/-- A valid statement accesses no flagged variable where the checker looks. -/
theorem Node.Inspects.notShared {ctx : AnalysisContext} {node : Node} {access : Access}
    (inspects : node.Inspects access) (valid : node.Valid ctx) : ctx.NotShared access.name := by
  cases inspects with
  | store isStore =>
      cases node with
      | store line target value size offset =>
          obtain rfl := Option.some.inj isStore
          exact valid.own.2.1
      | _ => simp [storeAccess?] at isStore
  | load operand visited isLoad =>
      have checked := valid.operands _ operand _ visited
      revert checked
      unfold Expr.access? at isLoad
      split at isLoad
      next name size offset =>
        obtain rfl := Option.some.inj isLoad
        exact fun checked => (checked.2.2 name rfl).2
      next => simp at isLoad

/-- An accepted body makes no LOAD and no STORE that the checker sees for one to SHARED memory. -/
theorem SharingVisible.absurd (accepted : behavior.Accepted sha256 dependencies patterns)
    (body : behavior.HasBody earlier nodes) {i : Nat} {node : Node} {access : Access}
    (at_ : (flattenScopes nodes)[i]? = some node)
    (visible : SharingVisible
      (flagged behavior.contract (earlier ++ (flattenScopes nodes).take i) access.name) node
        access) : False := by
  obtain ⟨inspected, flag⟩ := visible
  have valid := (accepted.allValid body).at at_
  have flags := ((flags_init (behavior.labelled sha256 dependencies patterns).ctx
    behavior.contract).foldl earlier).foldl ((flattenScopes nodes).take i)
  rw [flagged, List.foldl_append] at flag
  obtain ⟨info, found, isShared⟩ := flags access.name flag
  have unshared := inspected.notShared valid info found
  exact Bool.false_ne_true (unshared.symm.trans isShared)

end Soundness

/-- `h = ALLOC 8 bytes SHARED`, `LABEL again`, `SCOPE`, `k = h`, `x = ATOMIC_STORE k 1 8`,
`END_SCOPE`, `BRANCH 1 again done`, `LABEL done`, `FREE h`. -/
def storeAtomically : List Node :=
  [.assignment 1 "h" (.alloc (.intLit 8) .bytes true), .label 2 "again",
    .scope 3 [.assignment 4 "k" (.var "h"),
      .assignment 5 "x" (.atomicStore (.var "k") (.intLit 1) 8)],
    .branch 6 (.intLit 1) "again" "done", .label 7 "done", .free 8 "h"]

/-- `BRANCH 1 racy plain`, `LABEL racy`, `h = ALLOC 8 bytes SHARED`, `JUMP done`,
`LABEL plain`, `h = ALLOC 8 bytes`, `LABEL done`, `STORE h 1 8`, `FREE h`. -/
def sharedOnOneArm : List Node :=
  [.branch 1 (.intLit 1) "racy" "plain", .label 2 "racy",
    .assignment 3 "h" (.alloc (.intLit 8) .bytes true), .jump 4 "done", .label 5 "plain",
    .assignment 6 "h" (.alloc (.intLit 8) .bytes false), .label 7 "done",
    .store 8 "h" (.intLit 1) 8 none, .free 9 "h"]

end Sigil
