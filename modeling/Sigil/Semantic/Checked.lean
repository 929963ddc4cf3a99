import Sigil.Semantic.Validate

/-!
# What expression validation checks

Validation of an expression reports errors and binds nothing. It reports none
exactly when every expression it reaches passes its own check, and each such check
depends on the names alone.
-/

namespace Sigil

/-- Two contexts with the same names in them. -/
structure AnalysisContext.Agree (c d : AnalysisContext) : Prop where
  vars : c.vars = d.vars
  labels : c.labels = d.labels
  inputs : c.inputs = d.inputs
  outputs : c.outputs = d.outputs
  dependencyContracts : c.dependencyContracts = d.dependencyContracts
  patternNames : c.patternNames = d.patternNames

namespace AnalysisContext

variable {c d e : AnalysisContext} {name : String}

namespace Agree

/-- Every context agrees with itself. -/
theorem refl (c : AnalysisContext) : Agree c c := ⟨rfl, rfl, rfl, rfl, rfl, rfl⟩

/-- Agreement is transitive. -/
theorem trans (first : Agree c d) (second : Agree d e) : Agree c e :=
  ⟨first.vars.trans second.vars, first.labels.trans second.labels,
    first.inputs.trans second.inputs, first.outputs.trans second.outputs,
    first.dependencyContracts.trans second.dependencyContracts,
    first.patternNames.trans second.patternNames⟩

/-- Agreement is symmetric. -/
theorem symm (agree : Agree c d) : Agree d c :=
  ⟨agree.vars.symm, agree.labels.symm, agree.inputs.symm, agree.outputs.symm,
    agree.dependencyContracts.symm, agree.patternNames.symm⟩

/-- Contexts that agree record the same of every variable. -/
theorem getVar (agree : Agree c d) : c.getVar name = d.getVar name := by
  rw [AnalysisContext.getVar, AnalysisContext.getVar, agree.vars]

/-- Contexts that agree know the same variables. -/
theorem varExists (agree : Agree c d) : c.varExists name = d.varExists name := by
  rw [AnalysisContext.varExists, AnalysisContext.varExists, agree.vars]

/-- Contexts that agree know the same labels. -/
theorem labelExists (agree : Agree c d) : c.labelExists name = d.labelExists name := by
  rw [AnalysisContext.labelExists, AnalysisContext.labelExists, agree.labels]

/-- Inference only looks at the variables. -/
theorem inferExprInfo (agree : Agree c d) (e : Expr) : c.inferExprInfo e = d.inferExprInfo e := by
  cases e <;> simp only [AnalysisContext.inferExprInfo, agree.getVar]

/-- Contexts that agree give an operand the same kind of handle. -/
theorem operandHandleKind (agree : Agree c d) (e : Expr) :
    c.operandHandleKind e = d.operandHandleKind e := by
  cases e <;> simp only [AnalysisContext.operandHandleKind, agree.getVar]

/-- Defining the same variable keeps contexts in agreement. -/
theorem defineVar (agree : Agree c d) (name : String) (info : VarInfo) :
    Agree (c.defineVar name info) (d.defineVar name info) :=
  ⟨congrArg (fun vars => vars.insert name info) agree.vars, agree.labels, agree.inputs,
    agree.outputs, agree.dependencyContracts, agree.patternNames⟩

end Agree

/-- The size the analyzer has recorded for the memory of a variable. -/
def recordedSize (ctx : AnalysisContext) (name : String) : Option Nat :=
  (ctx.getVar name).bind VarInfo.allocatedSize

/-- An access at a constant offset stays within the recorded size, if there is
one. -/
def WithinRecorded (ctx : AnalysisContext) (handle : String) (size : Nat) (offset : Option Expr) :
    Prop :=
  ∀ allocated off, ctx.recordedSize handle = some allocated →
    Analyzer.constOffset offset = some off →
    Analyzer.saturatingAdd off.toNat size ≤ allocated

/-- An operand that compiles to a value. -/
def IsValue (ctx : AnalysisContext) (e : Expr) : Prop :=
  ctx.operandHandleKind e = none

def NotShared (ctx : AnalysisContext) (name : String) : Prop :=
  ∀ info, ctx.getVar name = some info → info.shared = false

/-- An argument that may be passed for a parameter. -/
def Passes (ctx : AnalysisContext) (arg : Expr) (param : Parameter) : Prop :=
  (∀ found, (ctx.inferExprInfo arg).typ = some found → found = param.typ) ∧
    Analyzer.sizeMismatch param (ctx.inferExprInfo arg).size = false

/-- Arguments that may be passed to a behavior, if its contract is known. -/
def ArgsPass (ctx : AnalysisContext) (behavior : String) (args : List Expr) : Prop :=
  ∀ callee, ctx.dependencyContracts.lookup behavior = some callee →
    callee.inputs.length = args.length ∧
      ∀ pair ∈ args.zip callee.inputs, ctx.Passes pair.1 pair.2

namespace Agree

/-- Contexts that agree accept the same accesses of a recorded size. -/
theorem withinRecorded (agree : Agree c d) {size : Nat} {offset : Option Expr} :
    c.WithinRecorded name size offset ↔ d.WithinRecorded name size offset := by
  simp only [WithinRecorded, recordedSize, agree.getVar]

/-- Contexts that agree take the same operands for values. -/
theorem isValue (agree : Agree c d) {e : Expr} : c.IsValue e ↔ d.IsValue e := by
  rw [IsValue, IsValue, agree.operandHandleKind]

/-- Contexts that agree take the same names for SHARED. -/
theorem notShared (agree : Agree c d) : c.NotShared name ↔ d.NotShared name := by
  simp only [NotShared, agree.getVar]

/-- Contexts that agree accept the same arguments of a CALL. -/
theorem argsPass (agree : Agree c d) {args : List Expr} :
    c.ArgsPass name args ↔ d.ArgsPass name args := by
  simp only [ArgsPass, Passes, agree.dependencyContracts, agree.inferExprInfo]

end Agree

end AnalysisContext

def IsIntSize (size : Nat) : Prop := size ∈ [1, 2, 4, 8]

def IsFloatSize (size : Nat) : Prop := size ∈ [4, 8]

namespace Expr

/-- The operands validation descends into. A CHANNEL capacity is not among them. -/
def validatedOperands : Expr → List Expr
  | channel _ _ => []
  | e => e.children

/-- Validating `e` validates `x`. -/
inductive Visits : Expr → Expr → Prop
  | self (e : Expr) : Visits e e
  | operand {e child x : Expr} (operand : child ∈ e.validatedOperands) (inside : Visits child x) :
      Visits e x

/-- The check an expression makes besides validating its operands. -/
def OwnChecks (ctx : AnalysisContext) : Expr → Prop
  | var name | wait name | channelReceive name => ctx.varExists name = true
  | load source size offset => IsIntSize size ∧ (∀ off ∈ offset, ctx.IsValue off) ∧
      ∀ name, source = var name → ctx.WithinRecorded name size offset ∧ ctx.NotShared name
  | call behavior args => ctx.ArgsPass behavior args
  | intArith _ a b size | intCmp _ a b size | bitwise _ a b size =>
      ctx.IsValue a ∧ ctx.IsValue b ∧ IsIntSize size
  | floatArith _ a b size | floatCmp _ a b size =>
      ctx.IsValue a ∧ ctx.IsValue b ∧ IsFloatSize size
  | ineg a size | not a size => ctx.IsValue a ∧ IsIntSize size
  | fneg a size => ctx.IsValue a ∧ IsFloatSize size
  | ftoi value floatSize intSize | itof value intSize floatSize =>
      ctx.IsValue value ∧ IsIntSize intSize ∧ IsFloatSize floatSize
  | atomicLoad _ size | atomicStore _ _ size | cas _ _ _ size | atomicRmw _ _ _ size =>
      IsIntSize size
  | spawn pattern _ => pattern ∈ ctx.patternNames ∨ ctx.dependencyContracts.lookup pattern = none
  | intLit _ | floatLit _ | stringLit _ | field _ _ | alloc _ _ _ | channel _ _ => True

/-- Every expression that validation reaches passes its own check. -/
def Valid (ctx : AnalysisContext) (e : Expr) : Prop :=
  ∀ x, Visits e x → OwnChecks ctx x

variable {ctx c d : AnalysisContext} {e : Expr}

/-- An operand is valid when it passes its own checks and those in it are valid. -/
theorem valid_iff :
    Valid ctx e ↔ OwnChecks ctx e ∧ ∀ child ∈ e.validatedOperands, Valid ctx child := by
  constructor
  · intro valid
    exact ⟨valid e (.self e), fun child operand x inside => valid x (.operand operand inside)⟩
  · rintro ⟨own, operands⟩ x visited
    cases visited with
    | self => exact own
    | operand operand inside => exact operands _ operand x inside

/-- An operand's own checks give the same answer in contexts that agree. -/
theorem ownChecks_congr (agree : c.Agree d) : OwnChecks c e ↔ OwnChecks d e := by
  cases e <;>
    simp only [OwnChecks, agree.varExists, agree.withinRecorded, agree.isValue, agree.notShared,
      agree.argsPass, agree.dependencyContracts, agree.patternNames]

/-- An operand is valid in both of two contexts that agree, or in neither. -/
theorem valid_congr (agree : c.Agree d) : Valid c e ↔ Valid d e := by
  simp only [Valid, ownChecks_congr agree]

end Expr

namespace Analyzer

open AnalysisContext

variable {s : Analyzer} {kind : ErrorKind} {line size : Nat} {ok : Bool} {context : Option String}

section Checks

@[simp] theorem error_ctx : (s.error kind line context).ctx = s.ctx := rfl

@[simp] theorem error_errors_ne : (s.error kind line context).errors ≠ [] := by
  simp [error]

@[simp] theorem require_ctx : (s.require ok kind line context).ctx = s.ctx := by
  unfold require
  split <;> rfl

@[simp] theorem require_quiet :
    (s.require ok kind line context).errors = [] ↔ s.errors = [] ∧ ok = true := by
  unfold require
  split <;> simp_all

@[simp] theorem validateIntSize_ctx {context : String} :
    (s.validateIntSize size line context).ctx = s.ctx := require_ctx

@[simp] theorem validateIntSize_quiet {context : String} :
    (s.validateIntSize size line context).errors = [] ↔ s.errors = [] ∧ IsIntSize size := by
  simp [validateIntSize, IsIntSize]

@[simp] theorem validateFloatSize_ctx {context : String} :
    (s.validateFloatSize size line context).ctx = s.ctx := require_ctx

@[simp] theorem validateFloatSize_quiet {context : String} :
    (s.validateFloatSize size line context).errors = [] ↔ s.errors = [] ∧ IsFloatSize size := by
  simp [validateFloatSize, IsFloatSize]

@[simp] theorem checkValueOperand_ctx {e : Expr} {op : String} :
    (s.checkValueOperand e op).ctx = s.ctx := by
  unfold checkValueOperand
  split <;> rfl

@[simp] theorem checkValueOperand_quiet {e : Expr} {op : String} :
    (s.checkValueOperand e op).errors = [] ↔ s.errors = [] ∧ s.ctx.IsValue e := by
  unfold checkValueOperand IsValue
  split <;> simp_all

@[simp] theorem checkBounds_ctx {handle operation : String} {offset : Option Expr} :
    (s.checkBounds handle size offset line operation).ctx = s.ctx := by
  unfold checkBounds
  split
  · rfl
  · split
    · rfl
    · exact require_ctx

@[simp] theorem checkBounds_quiet {handle operation : String} {offset : Option Expr} :
    (s.checkBounds handle size offset line operation).errors = [] ↔
      s.errors = [] ∧ s.ctx.WithinRecorded handle size offset := by
  unfold checkBounds WithinRecorded recordedSize
  split
  next unknown => simp [unknown]
  next allocated recorded =>
    split
    next dynamic => simp [recorded, dynamic, warn]
    next off constant => simp [recorded, constant]

@[simp] theorem checkNotShared_ctx {handle operation context : String} :
    (s.checkNotShared handle operation line context).ctx = s.ctx := by
  unfold checkNotShared
  split
  · exact require_ctx
  · rfl

@[simp] theorem checkNotShared_quiet {handle operation context : String} :
    (s.checkNotShared handle operation line context).errors = [] ↔
      s.errors = [] ∧ s.ctx.NotShared handle := by
  unfold checkNotShared NotShared
  split <;> simp_all

@[simp] theorem validateCallArg_ctx {behavior : String} {numbered : (Expr × Parameter) × Nat} :
    (validateCallArg behavior line s numbered).ctx = s.ctx := by
  unfold validateCallArg
  dsimp only
  split <;> simp

@[simp] theorem validateCallArg_quiet {behavior : String} {numbered : (Expr × Parameter) × Nat} :
    (validateCallArg behavior line s numbered).errors = [] ↔
      s.errors = [] ∧ s.ctx.Passes numbered.1.1 numbered.1.2 := by
  unfold validateCallArg AnalysisContext.Passes
  dsimp only
  split <;> simp_all [and_assoc]

/-- Checking the arguments of a CALL leaves the context and accepts exactly fitting ones. -/
theorem foldl_validateCallArg {behavior : String} (numbered : List ((Expr × Parameter) × Nat)) :
    (numbered.foldl (validateCallArg behavior line) s).ctx = s.ctx ∧
      ((numbered.foldl (validateCallArg behavior line) s).errors = [] ↔
        s.errors = [] ∧ ∀ arg ∈ numbered, s.ctx.Passes arg.1.1 arg.1.2) := by
  induction numbered generalizing s with
  | nil => simp
  | cons arg rest ih =>
      obtain ⟨ctx, quiet⟩ := ih (s := validateCallArg behavior line s arg)
      refine ⟨by simpa using ctx, ?_⟩
      simp [quiet, and_assoc]

@[simp] theorem validateCallee_ctx {behavior : String} {args : List Expr} :
    (s.validateCallee behavior args line).ctx = s.ctx := by
  unfold validateCallee
  split
  · rw [validateCallArgs, (foldl_validateCallArg _).1, require_ctx]
  · rfl

@[simp] theorem validateCallee_quiet {behavior : String} {args : List Expr} :
    (s.validateCallee behavior args line).errors = [] ↔
      s.errors = [] ∧ s.ctx.ArgsPass behavior args := by
  unfold validateCallee ArgsPass
  split
  next callee known =>
    rw [validateCallArgs, (foldl_validateCallArg _).2, require_ctx, require_quiet, and_assoc]
    have numbered : (∀ arg ∈ (args.zip callee.inputs).zipIdx, s.ctx.Passes arg.1.1 arg.1.2) ↔
        ∀ pair ∈ args.zip callee.inputs, s.ctx.Passes pair.1 pair.2 := by
      constructor
      · intro each pair member
        obtain ⟨i, at_⟩ := List.mem_iff_getElem?.mp member
        exact each (pair, i) (List.mem_zipIdx_iff_getElem?.mpr at_)
      · intro each arg member
        exact each arg.1 (List.mem_of_getElem? (List.mem_zipIdx_iff_getElem?.mp member))
    rw [numbered]
    simp only [known, Option.some.injEq, forall_eq', decide_eq_true_eq]
  next unknown => simp [unknown]

end Checks

section Expressions

/-- Validating operands one after the other binds nothing if validating each does
not. -/
theorem agree_validateExprs {es : List Expr}
    (each : ∀ e ∈ es, ∀ s : Analyzer, s.ctx.Agree (validateExpr e s).ctx) (s : Analyzer) :
    s.ctx.Agree (validateExprs es s).ctx := by
  induction es generalizing s with
  | nil => exact .refl s.ctx
  | cons e rest ih =>
      have here := each e List.mem_cons_self s
      exact here.trans (ih (fun e member => each e (List.mem_cons_of_mem _ member)) _)

/-- Validating an expression binds nothing. -/
theorem agree_validateExpr (e : Expr) : ∀ s : Analyzer, s.ctx.Agree (validateExpr e s).ctx := by
  induction e using Expr.inductionOnChildren with
  | step e ih =>
    intro s
    cases e with
    | load source size offset =>
        have inSource := ih source (by cases offset <;> simp [Expr.children]) s
        have inOffset : ∀ s : Analyzer, s.ctx.Agree (validateOffset offset s).ctx := by
          intro s
          cases offset with
          | none => exact .refl s.ctx
          | some off => simpa [validateOffset] using ih off (by simp [Expr.children]) s
        have both := inOffset ((validateExpr source s).validateIntSize size s.ctx.currentLine "LOAD")
        rw [validateIntSize_ctx] at both
        simp only [validateExpr]
        split <;> simpa using inSource.trans both
    | call behavior args =>
        have inArgs : s.ctx.Agree (validateExprs args s).ctx :=
          agree_validateExprs (fun e member => ih e member) s
        simpa [validateExpr] using inArgs
    | spawn pattern args =>
        have inArgs : s.ctx.Agree (validateExprs args s).ctx :=
          agree_validateExprs (fun e member => ih e member) s
        simp only [validateExpr]
        split <;> simpa using inArgs
    | wait handle =>
        simp only [validateExpr]
        split
        · exact ⟨rfl, rfl, rfl, rfl, rfl, rfl⟩
        · exact .refl s.ctx
    | alloc size typ shared =>
        apply (ih size (by simp [Expr.children]) s).trans
        simp only [validateExpr, modify]
        split <;> exact ⟨rfl, rfl, rfl, rfl, rfl, rfl⟩
    | intArith op a b size | intCmp op a b size | bitwise op a b size | floatArith op a b size
    | floatCmp op a b size | atomicRmw op a b size | atomicStore a b size =>
        have inA := ih a (by simp [Expr.children]) s
        simpa [validateExpr] using inA.trans (ih b (by simp [Expr.children]) _)
    | cas a b c size =>
        have inA := ih a (by simp [Expr.children]) s
        have inB := inA.trans (ih b (by simp [Expr.children]) _)
        simpa [validateExpr] using inB.trans (ih c (by simp [Expr.children]) _)
    | field a _ | ineg a _ | not a _ | fneg a _ | ftoi a _ _ | itof a _ _ | atomicLoad a _ =>
        simpa [validateExpr] using ih a (by simp [Expr.children]) s
    | var _ | intLit _ | floatLit _ | stringLit _ =>
        simpa [validateExpr] using AnalysisContext.Agree.refl s.ctx
    | channel _ _ | channelReceive _ =>
        simp only [validateExpr, require_ctx]
        exact ⟨rfl, rfl, rfl, rfl, rfl, rfl⟩

/-- Checking an offset leaves the facts of the context as they are. -/
theorem agree_validateOffset (offset : Option Expr) (s : Analyzer) :
    s.ctx.Agree (validateOffset offset s).ctx := by
  cases offset with
  | none => exact .refl s.ctx
  | some off => simpa [validateOffset] using agree_validateExpr off s

@[simp] theorem valid_validateExpr {e x : Expr} :
    Expr.Valid (validateExpr e s).ctx x ↔ Expr.Valid s.ctx x :=
  (Expr.valid_congr (agree_validateExpr e s)).symm

@[simp] theorem isValue_validateExpr {e x : Expr} :
    (validateExpr e s).ctx.IsValue x ↔ s.ctx.IsValue x :=
  (agree_validateExpr e s).isValue.symm

/-- Validating operands one after the other reports nothing exactly when all are
valid, if that is so for each. -/
theorem validateExprs_quiet_of {es : List Expr}
    (each : ∀ e ∈ es, ∀ s : Analyzer,
      (validateExpr e s).errors = [] ↔ s.errors = [] ∧ Expr.Valid s.ctx e) (s : Analyzer) :
    (validateExprs es s).errors = [] ↔ s.errors = [] ∧ ∀ e ∈ es, Expr.Valid s.ctx e := by
  induction es generalizing s with
  | nil => simp [validateExprs]
  | cons e rest ih =>
      have later := ih (fun e member => each e (List.mem_cons_of_mem _ member)) (validateExpr e s)
      simp only [validateExprs, later, each e List.mem_cons_self s, valid_validateExpr,
        List.forall_mem_cons, and_assoc]

/-- An offset passes exactly when it is valid, given that its operands are checked so. -/
theorem validateOffset_quiet_of (offset : Option Expr)
    (each : ∀ e ∈ offset, ∀ s : Analyzer,
      (validateExpr e s).errors = [] ↔ s.errors = [] ∧ Expr.Valid s.ctx e) (s : Analyzer) :
    (validateOffset offset s).errors = [] ↔
      s.errors = [] ∧ (∀ e ∈ offset, Expr.Valid s.ctx e) ∧ ∀ e ∈ offset, s.ctx.IsValue e := by
  cases offset with
  | none => simp [validateOffset]
  | some off => simp [validateOffset, each off rfl s, and_assoc]

/-- The operands of a LOAD, as validation reaches them. -/
theorem load_operands_valid_iff {ctx : AnalysisContext} {source : Expr} {size : Nat}
    {offset : Option Expr} :
    (∀ child ∈ (Expr.load source size offset).validatedOperands, Expr.Valid ctx child) ↔
      Expr.Valid ctx source ∧ ∀ off ∈ offset, Expr.Valid ctx off := by
  cases offset <;> simp [Expr.validatedOperands, Expr.children]

/-- Validating an expression reports nothing exactly when it is valid. -/
theorem validateExpr_quiet (e : Expr) :
    ∀ s : Analyzer, (validateExpr e s).errors = [] ↔ s.errors = [] ∧ Expr.Valid s.ctx e := by
  induction e using Expr.inductionOnChildren with
  | step e ih =>
    intro s
    rw [Expr.valid_iff]
    cases e with
    | load source size offset =>
        have inSource := ih source (by cases offset <;> simp [Expr.children])
        have inOffset := validateOffset_quiet_of offset fun e member =>
          ih e (by cases offset <;> simp_all [Expr.children])
        -- what is known before the access itself is checked
        have operands : (validateOffset offset
            ((validateExpr source s).validateIntSize size s.ctx.currentLine "LOAD")).errors = [] ↔
            s.errors = [] ∧ Expr.Valid s.ctx source ∧ IsIntSize size ∧
              (∀ off ∈ offset, Expr.Valid s.ctx off) ∧ ∀ off ∈ offset, s.ctx.IsValue off := by
          simp only [inOffset, validateIntSize_quiet, validateIntSize_ctx, inSource,
            valid_validateExpr, isValue_validateExpr, and_assoc]
        have agree : s.ctx.Agree (validateOffset offset
            ((validateExpr source s).validateIntSize size s.ctx.currentLine "LOAD")).ctx := by
          apply (agree_validateExpr source s).trans
          simpa using agree_validateOffset offset
            ((validateExpr source s).validateIntSize size s.ctx.currentLine "LOAD")
        rw [load_operands_valid_iff]
        cases source with
        | var name =>
            simp only [validateExpr] at operands agree ⊢
            simp only [Expr.OwnChecks, checkNotShared_quiet, checkBounds_quiet, checkBounds_ctx,
              Expr.var.injEq, forall_eq', ← agree.notShared, ← agree.withinRecorded, operands]
            tauto
        | _ =>
            simp only [validateExpr] at operands ⊢
            simp only [Expr.OwnChecks, reduceCtorEq, false_implies, implies_true, operands]
            tauto
    | call behavior args =>
        have inArgs := validateExprs_quiet_of (fun e member => ih e member) s
        have agree : s.ctx.Agree (validateExprs args s).ctx :=
          agree_validateExprs (fun e _ => agree_validateExpr e) s
        simp only [validateExpr, validateCallee_quiet, ← agree.argsPass]
        simp only [Expr.children, Expr.OwnChecks, Expr.validatedOperands] at inArgs ⊢
        tauto
    | spawn pattern args =>
        have inArgs := validateExprs_quiet_of (fun e member => ih e member) s
        have agree : s.ctx.Agree (validateExprs args s).ctx :=
          agree_validateExprs (fun e _ => agree_validateExpr e) s
        simp only [validateExpr, ← agree.patternNames, ← agree.dependencyContracts]
        simp only [Expr.children, Expr.OwnChecks, Expr.validatedOperands] at inArgs ⊢
        split
        next known => tauto
        next unknown =>
          simp only [require_quiet, Option.isNone_iff_eq_none]
          tauto
    | intArith op a b size | intCmp op a b size | bitwise op a b size | floatArith op a b size
    | floatCmp op a b size | atomicRmw op a b size | atomicStore a b size =>
        have inA := ih a (by simp [Expr.children])
        have inB := ih b (by simp [Expr.children])
        simp only [validateExpr, Expr.OwnChecks, Expr.validatedOperands, Expr.children,
          validateIntSize_quiet, validateFloatSize_quiet, checkValueOperand_quiet,
          checkValueOperand_ctx, inA, inB, valid_validateExpr, isValue_validateExpr,
          List.forall_mem_cons, List.not_mem_nil]
        tauto
    | cas a b c size =>
        have inA := ih a (by simp [Expr.children])
        have inB := ih b (by simp [Expr.children])
        have inC := ih c (by simp [Expr.children])
        simp only [validateExpr, Expr.OwnChecks, Expr.validatedOperands, Expr.children,
          validateIntSize_quiet, inA, inB, inC, valid_validateExpr, List.forall_mem_cons,
          List.not_mem_nil]
        tauto
    | field a _ | ineg a _ | not a _ | fneg a _ | ftoi a _ _ | itof a _ _ | atomicLoad a _ =>
        have inA := ih a (by simp [Expr.children])
        simp only [validateExpr, Expr.OwnChecks, Expr.validatedOperands, Expr.children,
          validateIntSize_quiet, validateFloatSize_quiet, checkValueOperand_quiet,
          inA, isValue_validateExpr, List.forall_mem_cons, List.not_mem_nil]
        tauto
    | alloc a _ _ =>
        have inA := ih a (by simp [Expr.children])
        simp only [validateExpr, modify, Expr.OwnChecks, Expr.validatedOperands, Expr.children, inA,
          List.forall_mem_cons, List.not_mem_nil]
        tauto
    | wait handle =>
        simp only [validateExpr, Expr.OwnChecks, Expr.validatedOperands, Expr.children]
        split <;> simp_all [modify]
    | var _ | intLit _ | floatLit _ | stringLit _ | channel _ _ | channelReceive _ =>
        simp [validateExpr, modify, Expr.OwnChecks, Expr.validatedOperands, Expr.children]

end Expressions

end Analyzer

end Sigil
