import Sigil.Semantic.Context

/-!
# Expression facts

What the analyzer reads off an expression without walking the body: its constant
value, the type, size and origin of its result, whether it stands for a handle,
and which primitive a composite may not use.
-/

namespace Sigil

namespace Expr

/-- The constant value of an expression as a `usize`, declared sizes ignored. -/
def tryEvalConst : Expr → Option (BitVec 64)
  | intLit n => some n
  | intArith .add a b _ => do return (← a.tryEvalConst) + (← b.tryEvalConst)
  | intArith .sub a b _ => do return (← a.tryEvalConst) - (← b.tryEvalConst)
  | intArith .mul a b _ => do return (← a.tryEvalConst) * (← b.tryEvalConst)
  | _ => none

end Expr

/-- Type, size, origin, ownership state and shared flag of a result. -/
structure ExprInfo where
  typ : Option AstType
  size : Nat
  origin : VarOrigin := .computed
  state : HandleState := .notAHandle
  shared : Bool := false
  deriving DecidableEq, Repr

/-- A variable that holds a result. -/
def ExprInfo.toVar (info : ExprInfo) (channelElementType : Option AstType) : VarInfo where
  typ := info.typ
  size := info.size
  origin := info.origin
  state := info.state
  shared := info.shared
  channelElementType := channelElementType

namespace AnalysisContext

/-- Infer type, size, origin, ownership state and shared flag of an expression. -/
def inferExprInfo (ctx : AnalysisContext) : Expr → ExprInfo
  | .intLit _ => { typ := some .int, size := 8 }
  | .floatLit _ => { typ := some .float, size := 8 }
  | .stringLit s => { typ := some .string, size := s.utf8ByteSize + 8 }
  | .var name => match ctx.getVar name with
    | some info => ⟨info.typ, info.size, info.origin, info.state, info.shared⟩
    | none => { typ := none, size := 8 }
  | .alloc size typ shared =>
      let allocated := size.tryEvalConst.map BitVec.toNat
      ⟨some typ, allocated.getD 8, .alloc allocated, .owned, shared⟩
  | .load _ size _ => { typ := some .int, size := size, origin := .loadResult }
  | .call _ _ => { typ := none, size := 8, origin := .callResult none }
  | .intArith _ _ _ size | .ineg _ size | .bitwise _ _ _ size | .not _ size =>
      { typ := some .int, size := size }
  | .intCmp _ _ _ _ | .floatCmp _ _ _ _ => { typ := some .int, size := 8 }
  | .floatArith _ _ _ size | .fneg _ size => { typ := some .float, size := size }
  | .ftoi _ _ intSize => { typ := some .int, size := intSize }
  | .itof _ _ floatSize => { typ := some .float, size := floatSize }
  | .atomicLoad _ size => { typ := some .int, size := size, origin := .loadResult }
  | .atomicStore _ _ size | .cas _ _ _ size | .atomicRmw _ _ _ size =>
      { typ := some .int, size := size }
  | .spawn _ _ | .channel _ _ => { typ := some .int, size := 8, state := .owned }
  | .wait _ => { typ := some .int, size := 8 }
  | .channelReceive channel =>
      match (ctx.getVar channel).bind VarInfo.channelElementType with
      | some elementType => { typ := some elementType, size := 8 }
      | none => { typ := some .int, size := 8 }
  | .field _ _ => { typ := none, size := 8 }

/-- What kind of handle an operand compiles to, if it does not compile to a
value. -/
def operandHandleKind (ctx : AnalysisContext) : Expr → Option String
  | .field _ _ => some "CALL-result field"
  | .alloc _ _ _ => some "ALLOC handle"
  | .var name => match (ctx.getVar name).map VarInfo.origin with
    | some (.input _) => some "INPUT"
    | some (.output _) => some "OUTPUT"
    | some (.alloc _) => some "ALLOC handle"
    | some (.callResult _) => some "CALL result"
    | _ => none
  | _ => none

end AnalysisContext

def AstType.toString : AstType → String
  | .int => "int"
  | .float => "float"
  | .bytes => "bytes"
  | .string => "string"

/-- The `Debug` text of a type. -/
def AstType.debug : AstType → String
  | .int => "Int"
  | .float => "Float"
  | .bytes => "Bytes"
  | .string => "String"

mutual

/-- The primitive a composite may not use that an expression contains, looking
into field bases and arguments only. -/
def Expr.forbiddenComputeOp : Expr → Option String
  | .alloc _ _ _ => some "ALLOC"
  | .intArith _ _ _ _ | .ineg _ _ => some "integer arithmetic"
  | .intCmp _ _ _ _ => some "integer comparison"
  | .floatArith _ _ _ _ | .fneg _ _ => some "float arithmetic"
  | .floatCmp _ _ _ _ => some "float comparison"
  | .ftoi _ _ _ | .itof _ _ _ => some "conversion"
  | .bitwise _ _ _ _ | .not _ _ => some "bitwise op"
  | .atomicLoad _ _ | .atomicStore _ _ _ | .cas _ _ _ _ | .atomicRmw _ _ _ _ => some "atomic op"
  | .load _ _ _ => some "LOAD"
  | .field base _ => base.forbiddenComputeOp
  | .call _ args | .spawn _ args => argsForbiddenComputeOp args
  | .intLit _ | .floatLit _ | .stringLit _ | .var _ | .wait _ | .channel _ _
  | .channelReceive _ => none

/-- The first forbidden primitive among arguments. -/
def argsForbiddenComputeOp : List Expr → Option String
  | [] => none
  | arg :: rest => match arg.forbiddenComputeOp with
    | some op => some op
    | none => argsForbiddenComputeOp rest

end

/-- A produced value: a variable, or a field of one. -/
abbrev Place := String × Option String

mutual

/-- The places a composition expression references. -/
def Expr.places : Expr → List Place
  | .var name => [(name, none)]
  | .field (.var name) field => [(name, some field)]
  | .field base _ => base.places
  | .call _ args | .spawn _ args => argsPlaces args
  | _ => []

/-- The places arguments reference. -/
def argsPlaces : List Expr → List Place
  | [] => []
  | arg :: rest => arg.places ++ argsPlaces rest

end

end Sigil
