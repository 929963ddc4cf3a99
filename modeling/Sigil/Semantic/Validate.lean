import Sigil.Semantic.Infer

/-!
# Linear validation

The pass that walks a body in textual order. An `Analyzer` is what it has
reported so far and what it knows about the names; each check maps one to the
next.
-/

namespace Sigil

/-- The state of the analyzer. -/
structure Analyzer where
  errors : List SemanticError := []
  warnings : List SemanticWarning := []
  ctx : AnalysisContext

namespace Analyzer

def error (s : Analyzer) (kind : ErrorKind) (line : Nat) (context : Option String := none) :
    Analyzer :=
  { s with errors := s.errors ++ [⟨kind, line, context⟩] }

def warn (s : Analyzer) (message : String) (line : Nat) : Analyzer :=
  { s with warnings := s.warnings ++ [⟨message, line⟩] }

/-- Report an error unless a condition holds. -/
def require (s : Analyzer) (ok : Bool) (kind : ErrorKind) (line : Nat)
    (context : Option String := none) : Analyzer :=
  if ok then s else s.error kind line context

/-- Update what is known about the names. -/
def modify (s : Analyzer) (f : AnalysisContext → AnalysisContext) : Analyzer :=
  { s with ctx := f s.ctx }

def validateIntSize (s : Analyzer) (size line : Nat) (context : String) : Analyzer :=
  s.require (size ∈ [1, 2, 4, 8]) (.invalidIntSize size) line context

def validateFloatSize (s : Analyzer) (size line : Nat) (context : String) : Analyzer :=
  s.require (size ∈ [4, 8]) (.invalidFloatSize size) line context

/-- `usize::saturating_add`. -/
def saturatingAdd (a b : Nat) : Nat :=
  min (a + b) (2 ^ 64 - 1)

/-- The constant value of an offset, zero if it is absent. -/
def constOffset : Option Expr → Option (BitVec 64)
  | none => some 0
  | some e => e.tryEvalConst

/-- Check that a constant offset and an access size stay within the memory of a
variable, where its size is known. -/
def checkBounds (s : Analyzer) (handle : String) (size : Nat) (offset : Option Expr) (line : Nat)
    (operation : String) : Analyzer :=
  match (s.ctx.getVar handle).bind VarInfo.allocatedSize with
  | none => s
  | some allocated => match constOffset offset with
    | none => s.warn (s!"{operation} with dynamic offset on '{handle}': " ++
        "bounds cannot be verified at compile time") line
    | some off =>
        let last := saturatingAdd off.toNat size
        s.require (last ≤ allocated) (.possibleBoundsViolation handle off.toNat size) line
          (some s!"{operation}: access at [{off.toNat}:{last}] exceeds allocation size {allocated}")

/-- The name an operand is reported under. -/
def operandName : Expr → String
  | .var name => name
  | .field (.var base) field => base ++ "." ++ field
  | .field _ field => field
  | _ => "operand"

/-- Reject a handle where a primitive expects a value. -/
def checkValueOperand (s : Analyzer) (e : Expr) (op : String) : Analyzer :=
  match s.ctx.operandHandleKind e with
  | some kind => s.error (.handleUsedAsValue (operandName e) kind op) s.ctx.currentLine
  | none => s

/-- The size an argument may not have: a `bytes` buffer above the declared size,
a number of another size. -/
def sizeMismatch (param : Parameter) (size : Nat) : Bool :=
  match param.typ with
  | .bytes => size > param.size
  | .string => false
  | .int | .float => size ≠ param.size

/-- Check one argument against the parameter it is passed for. -/
def validateCallArg (behavior : String) (line : Nat) (s : Analyzer)
    (numbered : (Expr × Parameter) × Nat) : Analyzer :=
  let ((arg, param), i) := numbered
  let info := s.ctx.inferExprInfo arg
  let context := some s!"argument {i + 1} ('{param.name}')"
  let s := match info.typ with
    | some found => s.require (found = param.typ)
        (.callArgTypeMismatch behavior param.name param.typ.toString found.toString) line context
    | none => s
  s.require (!sizeMismatch param info.size)
    (.callArgSizeMismatch behavior param.name param.size info.size) line context

/-- Check the arguments of a CALL against the callee's contract. -/
def validateCallArgs (s : Analyzer) (behavior : String) (args : List Expr) (callee : Contract)
    (line : Nat) : Analyzer :=
  let s := s.require (callee.inputs.length = args.length)
    (.callArgCountMismatch behavior callee.inputs.length args.length) line
  ((args.zip callee.inputs).zipIdx).foldl (validateCallArg behavior line) s

/-- The check of a CALL whose callee is known. -/
def validateCallee (s : Analyzer) (behavior : String) (args : List Expr) (line : Nat) : Analyzer :=
  match s.ctx.dependencyContracts.lookup behavior with
  | some callee => s.validateCallArgs behavior args callee line
  | none => s

/-- Non-atomic access to SHARED memory is forbidden. -/
def checkNotShared (s : Analyzer) (handle operation : String) (line : Nat) (context : String) :
    Analyzer :=
  match s.ctx.getVar handle with
  | some info => s.require (!info.shared) (.nonAtomicSharedAccess handle operation) line context
  | none => s

mutual

/-- Validate an expression on the current line. -/
def validateExpr : Expr → Analyzer → Analyzer
  | .var name, s =>
      s.require (s.ctx.varExists name) (.undefinedVariable name) s.ctx.currentLine
  | .field base _, s => validateExpr base s
  | .load source size offset, s =>
      let s := (validateExpr source s).validateIntSize size s.ctx.currentLine "LOAD"
      let s := validateOffset offset s
      match source with
      | .var name =>
          (s.checkBounds name size offset s.ctx.currentLine "LOAD").checkNotShared name "LOAD"
            s.ctx.currentLine "use ATOMIC_LOAD for SHARED handles"
      | _ => s
  | .alloc size _ _, s =>
      (validateExpr size s).modify fun ctx =>
        if ctx.scopeDepth = 0 then { ctx with hasUnscopedAlloc := true } else ctx
  | .call behavior args, s =>
      (validateExprs args s).validateCallee behavior args s.ctx.currentLine
  | .intArith _ a b size, s =>
      let s := validateExpr b (validateExpr a s)
      ((s.checkValueOperand a "integer arithmetic").checkValueOperand b
        "integer arithmetic").validateIntSize size s.ctx.currentLine "integer operation"
  | .intCmp _ a b size, s =>
      let s := validateExpr b (validateExpr a s)
      ((s.checkValueOperand a "integer comparison").checkValueOperand b
        "integer comparison").validateIntSize size s.ctx.currentLine "comparison"
  | .floatArith _ a b size, s =>
      let s := validateExpr b (validateExpr a s)
      ((s.checkValueOperand a "float arithmetic").checkValueOperand b
        "float arithmetic").validateFloatSize size s.ctx.currentLine "float operation"
  | .floatCmp _ a b size, s =>
      let s := validateExpr b (validateExpr a s)
      ((s.checkValueOperand a "float comparison").checkValueOperand b
        "float comparison").validateFloatSize size s.ctx.currentLine "float comparison"
  | .ineg a size, s | .not a size, s =>
      ((validateExpr a s).checkValueOperand a "this operation").validateIntSize size
        s.ctx.currentLine "unary operation"
  | .fneg a size, s =>
      ((validateExpr a s).checkValueOperand a "float negation").validateFloatSize size
        s.ctx.currentLine "float negation"
  | .bitwise _ a b size, s =>
      let s := validateExpr b (validateExpr a s)
      ((s.checkValueOperand a "bitwise op").checkValueOperand b "bitwise op").validateIntSize size
        s.ctx.currentLine "bitwise operation"
  | .ftoi value floatSize intSize, s =>
      (((validateExpr value s).checkValueOperand value "FTOI").validateFloatSize floatSize
        s.ctx.currentLine "FTOI source").validateIntSize intSize s.ctx.currentLine "FTOI target"
  | .itof value intSize floatSize, s =>
      (((validateExpr value s).checkValueOperand value "ITOF").validateIntSize intSize
        s.ctx.currentLine "ITOF source").validateFloatSize floatSize s.ctx.currentLine "ITOF target"
  | .atomicLoad source size, s =>
      (validateExpr source s).validateIntSize size s.ctx.currentLine "ATOMIC_LOAD"
  | .atomicStore target value size, s =>
      (validateExpr value (validateExpr target s)).validateIntSize size s.ctx.currentLine
        "ATOMIC_STORE"
  | .cas addr expected new size, s =>
      (validateExpr new (validateExpr expected (validateExpr addr s))).validateIntSize size
        s.ctx.currentLine "CAS"
  | .atomicRmw _ target value size, s =>
      (validateExpr value (validateExpr target s)).validateIntSize size s.ctx.currentLine
        "atomic operation"
  | .spawn pattern args, s =>
      let s := validateExprs args s
      if pattern ∈ s.ctx.patternNames then s
      else s.require (s.ctx.dependencyContracts.lookup pattern).isNone
        (.spawnRequiresPattern pattern) s.ctx.currentLine
  | .wait handle, s =>
      if s.ctx.varExists handle then s.modify fun ctx => ctx.releaseSpawnBorrows handle
      else s.error (.undefinedVariable handle) s.ctx.currentLine "WAIT handle"
  | .channel _ _, s => s.modify fun ctx => { ctx with hasChannelOps := true }
  | .channelReceive channel, s =>
      (s.modify fun ctx => { ctx with hasChannelOps := true }).require (s.ctx.varExists channel)
        (.undefinedVariable channel) s.ctx.currentLine "CHANNEL_RECEIVE channel"
  | .intLit _, s | .floatLit _, s | .stringLit _, s => s

/-- Validate expressions from left to right. -/
def validateExprs : List Expr → Analyzer → Analyzer
  | [], s => s
  | e :: rest, s => validateExprs rest (validateExpr e s)

/-- Validate an offset, which is a value position. -/
def validateOffset : Option Expr → Analyzer → Analyzer
  | some off, s => (validateExpr off s).checkValueOperand off "a dynamic offset"
  | none, s => s

end

/-- The element type of a channel that is created here. -/
def channelElementType : Expr → Option AstType
  | .channel typ _ => some typ
  | _ => none

/-- A handle passed to SPAWN is borrowed until the WAIT. -/
def spawnBorrows (line : Nat) (target : String) (e : Expr) (ctx : AnalysisContext) :
    AnalysisContext :=
  match e with
  | .spawn pattern args => args.foldl (fun ctx arg => match arg with
      | .var name => ctx.addSpawnBorrow name pattern line target
      | _ => ctx) ctx
  | _ => ctx

/-- A STORE at offset zero writes the whole of an OUTPUT. -/
def checkOutputSize (s : Analyzer) (target : String) (size : Nat) (offset : Option Expr)
    (line : Nat) : Analyzer :=
  match offset, s.ctx.outputs.lookup target with
  | none, some output =>
      s.require (size = output.size) (.outputSizeMismatch target output.size size) line
  | _, _ => s

/-- The target of a STORE exists and is not SHARED. One that is no OUTPUT is
noted. -/
def checkStoreTarget (s : Analyzer) (line : Nat) (target : String) : Analyzer :=
  let s := s.modify fun ctx =>
    if ctx.isOutput target then ctx else { ctx with hasNonOutputWrites := true }
  if s.ctx.varExists target then
    s.checkNotShared target "STORE" line "use ATOMIC_STORE for SHARED handles"
  else s.error (.undefinedVariable target) line "STORE target"

def validateStore (s : Analyzer) (line : Nat) (target : String) (value : Expr) (size : Nat)
    (offset : Option Expr) : Analyzer :=
  let s := validateOffset offset (validateExpr value (s.checkStoreTarget line target))
  let s := (s.validateIntSize size line "STORE").checkBounds target size offset line "STORE"
  (s.checkOutputSize target size offset line).modify fun ctx => ctx.markOutputWritten target

/-- A SET of an OUTPUT has the type of the OUTPUT, or builds a string from
bytes. -/
def checkSetType (s : Analyzer) (line : Nat) (target : String) (value : Expr) : Analyzer :=
  match s.ctx.outputs.lookup target, (s.ctx.inferExprInfo value).typ with
  | some output, some found =>
      s.require (found = output.typ || (output.typ = .string && found = .bytes))
        (.callArgTypeMismatch "SET" target output.typ.toString found.toString) line
        (some s!"output '{target}' type mismatch")
  | _, _ => s

def validateSet (s : Analyzer) (line : Nat) (target : String) (value : Expr) : Analyzer :=
  let s := s.require (s.ctx.varExists target) (.undefinedVariable target) line "SET target"
  ((validateExpr value s).checkSetType line target value).modify
    fun ctx => ctx.markOutputWritten target

def requireLabel (s : Analyzer) (name : String) (line : Nat) (context : String) : Analyzer :=
  s.require (s.ctx.labelExists name) (.undefinedLabel name) line context

def validateCall (s : Analyzer) (line : Nat) (target : Option String) (behavior : String)
    (args : List Expr) : Analyzer :=
  let s := (validateExprs args s).validateCallee behavior args line
  match target with
  | some name =>
      let totalSize := (s.ctx.dependencyContracts.lookup behavior).map
        fun callee => (callee.outputs.map Parameter.size).sum
      s.modify fun ctx => ctx.defineVar name (ExprInfo.toVar
        { typ := none, size := 8, origin := .callResult totalSize } none)
  | none => s

/-- Only an owner frees, and no handle that a spawned pattern borrows. -/
def validateFree (s : Analyzer) (line : Nat) (name : String) : Analyzer :=
  match s.ctx.getVar name with
  | none => s.error (.undefinedVariable name) line "FREE"
  | some info => match info.state with
    | .owned => match s.ctx.getActiveBorrow name with
      | some borrow => s.error (.freeWhileBorrowed name borrow.patternName) line
          (some s!"spawned at line {borrow.spawnLine}")
      | none => s
    | .borrowed => s.error (.freeBorrowedHandle name) line "cannot FREE handle borrowed from caller"
    | .freed _ => s
    | .notAHandle => s.error (.typeMismatch "handle" "value") line
        (some s!"'{name}' is not a handle")

/-- A sent value has the element type of the channel. -/
def checkSendType (s : Analyzer) (line : Nat) (channel : String) (value : Expr) : Analyzer :=
  match (s.ctx.getVar channel).bind VarInfo.channelElementType,
      (s.ctx.inferExprInfo value).typ with
  | some expected, some found =>
      s.require (found = expected) (.channelSendTypeMismatch channel expected.debug found.debug)
        line "Per Section 14.5: Channel send type must match declaration"
  | _, _ => s

def validateChannelSend (s : Analyzer) (line : Nat) (channel : String) (value : Expr) : Analyzer :=
  let s := s.modify fun ctx => { ctx with hasChannelOps := true }
  if s.ctx.varExists channel then (validateExpr value s).checkSendType line channel value
  else s.error (.undefinedVariable channel) line "CHANNEL_SEND"

def validateAssignment (s : Analyzer) (line : Nat) (target : String) (e : Expr) : Analyzer :=
  let s := validateExpr e s
  let info := s.ctx.inferExprInfo e
  s.modify fun ctx =>
    spawnBorrows line target e (ctx.defineVar target (info.toVar (channelElementType e)))

mutual

/-- Validate one statement. -/
def validateNode : Node → Analyzer → Analyzer
  | .label _ _, s => s
  | .assignment line target e, s => s.validateAssignment line target e
  | .store line target value size offset, s => s.validateStore line target value size offset
  | .set line target value, s => s.validateSet line target value
  | .branch line condition trueLabel falseLabel, s =>
      ((validateExpr condition s).requireLabel trueLabel line "BRANCH true target").requireLabel
        falseLabel line "BRANCH false target"
  | .jump line target, s => s.requireLabel target line "JUMP target"
  | .call line target behavior args _, s => s.validateCall line target behavior args
  | .free line name, s => s.validateFree line name
  | .scope _ nodes, s =>
      (validateNodes nodes (s.modify fun ctx => { ctx with scopeDepth := ctx.scopeDepth + 1 })).modify
        fun ctx => { ctx with scopeDepth := ctx.scopeDepth - 1 }
  | .channelSend line channel value, s => s.validateChannelSend line channel value
  | .channelClose line channel, s =>
      (s.modify fun ctx => { ctx with hasChannelOps := true }).require (s.ctx.varExists channel)
        (.undefinedVariable channel) line "CHANNEL_CLOSE"
  | .discard _ e, s => validateExpr e s
  | .spawn _ _ _ _, s | .wait _ _ _, s | .waitAll _ _ _, s | .waitAny _ _ _ _, s => s

/-- Validate statements in textual order. -/
def validateNodes : List Node → Analyzer → Analyzer
  | [], s => s
  | node :: rest, s =>
      validateNodes rest
        (validateNode node (s.modify fun ctx => { ctx with currentLine := node.line }))

end

end Analyzer

end Sigil
