import Sigil.Parser

/-!
# Parser of statements

The statements of an IMPLEMENTATION or COMPOSITION section and their expressions. Every
operator comes before its operands, and the kind of the token at hand decides what is read;
the steps bound the nesting and the loops, by the number of tokens left.
-/

namespace Sigil.Parser

/-- A list of expressions up to a token that ends it. -/
def parseArgs (operand : Parser Expr) (ends : TokenKind → Bool) : Nat → Parser (List Expr)
  | 0 => fail .stepsExhausted
  | steps + 1 => do
      let kind ← peekKind
      if ends kind then return []
      else
        let arg ← operand
        let rest ← parseArgs operand ends steps
        return arg :: rest

/-- What ends the arguments of a CALL. -/
def endsCall : TokenKind → Bool
  | .newline | .eof | .arrow => true
  | _ => false

/-- What ends the arguments of a SPAWN. -/
def endsSpawn : TokenKind → Bool
  | .newline | .eof => true
  | _ => false

/-- The names of handles, as many as there are. -/
def parseHandles : Nat → Parser (List String)
  | 0 => fail .stepsExhausted
  | steps + 1 => do
      match ← peekKind with
      | .identifier _ =>
          let handle ← expectIdentifier
          let rest ← parseHandles steps
          return handle :: rest
      | _ => return []

/-- A name and more of them. -/
def parseSomeHandles : Parser (List String) := do
  let handle ← expectIdentifier
  let rest ← parseHandles ((← get).length + 1)
  return handle :: rest

/-- `, name` as often as it comes. -/
def parseMoreNames : Nat → Parser (List String)
  | 0 => fail .stepsExhausted
  | steps + 1 => do
      match ← peekKind with
      | .comma =>
          advance
          let name ← expectIdentifier
          let rest ← parseMoreNames steps
          return name :: rest
      | _ => return []

/-- `-> name, name`, or nothing. -/
def parseOutputs : Parser (List String) := do
  match ← peekKind with
  | .arrow =>
      advance
      let name ← expectIdentifier
      let rest ← parseMoreNames ((← get).length + 1)
      return name :: rest
  | _ => return []

/-- The offset of LOAD and STORE is read when a number or a name follows the size. -/
def parseOffset (operand : Parser Expr) : Parser (Option Expr) := do
  match ← peekKind with
  | .integer _ | .identifier _ =>
      let offset ← operand
      return some offset
  | _ => return none

def parseSizeOf : Parser Nat := do
  let n ← parseInteger
  return n.toNat

def parseUnaryOp (operand : Parser Expr) (constructor : Expr → Nat → Expr) : Parser Expr := do
  advance
  let a ← operand
  let size ← parseSizeOf
  return constructor a size

def parseBinaryOp (operand : Parser Expr) (constructor : Expr → Expr → Nat → Expr) : Parser Expr := do
  advance
  let a ← operand
  let b ← operand
  let size ← parseSizeOf
  return constructor a b size

/-- A conversion, with the size of its operand and that of its result. -/
def parseConversion (operand : Parser Expr) (constructor : Expr → Nat → Nat → Expr) : Parser Expr := do
  advance
  let value ← operand
  let fromSize ← parseSizeOf
  let toSize ← parseSizeOf
  return constructor value fromSize toSize

/-- The name at hand, with the field after a dot. -/
def parseVar : Parser Expr := do
  let name ← expectIdentifier
  match ← peekKind with
  | .dot =>
      advance
      let field ← expectIdentifier
      return .field (.var name) field
  | _ => return .var name

/-- The expressions that begin with a keyword. -/
def parseKeyword (operand : Parser Expr) (word : Keyword) : Parser Expr :=
  match word with
  | .load => do
      advance
      let source ← operand
      let size ← parseSizeOf
      let offset ← parseOffset operand
      return .load source size offset
  | .alloc => do
      advance
      let size ← operand
      let typ ← parseType
      match ← peekKind with
      | .keyword .shared =>
          advance
          return .alloc size typ true
      | _ => return .alloc size typ false
  | .intArith op => parseBinaryOp operand (.intArith op)
  | .ineg => parseUnaryOp operand .ineg
  | .intCmp op => parseBinaryOp operand (.intCmp op)
  | .bitwise op => parseBinaryOp operand (.bitwise op)
  | .not => parseUnaryOp operand .not
  | .floatArith op => parseBinaryOp operand (.floatArith op)
  | .fneg => parseUnaryOp operand .fneg
  | .floatCmp op => parseBinaryOp operand (.floatCmp op)
  | .atomicLoad => parseUnaryOp operand .atomicLoad
  | .atomicStore => parseBinaryOp operand .atomicStore
  | .cas => do
      advance
      let addr ← operand
      let expected ← operand
      let new ← operand
      let size ← parseSizeOf
      return .cas addr expected new size
  | .atomicRmw op => parseBinaryOp operand (.atomicRmw op)
  | .ftoi => parseConversion operand .ftoi
  | .itof => parseConversion operand .itof
  | .call => do
      advance
      let behavior ← expectIdentifier
      let args ← parseArgs operand endsCall ((← get).length + 1)
      return .call behavior args
  | .channelReceive => do
      advance
      let channel ← expectIdentifier
      return .channelReceive channel
  | .channel => do
      advance
      let typ ← parseType
      let capacity ← operand
      return .channel typ capacity
  | .spawn => do
      advance
      let pattern ← expectIdentifier
      let args ← parseArgs operand endsSpawn ((← get).length + 1)
      return .spawn pattern args
  | .wait => do
      advance
      let handle ← expectIdentifier
      return .wait handle
  | _ => fail (.unexpectedInExpression (.keyword word))

/-- `double` is the value of the text of a float literal. -/
def parseExprWithin (double : String → BitVec 64) : Nat → Parser Expr
  | 0 => fail .stepsExhausted
  | steps + 1 => do
      match ← peekKind with
      | .integer n =>
          advance
          return .intLit n
      | .floatLit text =>
          advance
          return .floatLit (double text)
      | .stringLit s =>
          advance
          return .stringLit s
      | .identifier _ => parseVar
      | .keyword word => parseKeyword (parseExprWithin double steps) word
      | got => fail (.unexpectedInExpression got)

def parseExpr (double : String → BitVec 64) : Parser Expr := do
  parseExprWithin double ((← get).length + 1)

def currentLine : Parser Nat := do
  return (peek (← get)).span.line

/-- What follows `name =`. -/
def parseAssigned (double : String → BitVec 64) (line : Nat) (name : String) : Parser Node := do
  match ← peekKind with
  | .keyword .waitAll =>
      advance
      let handles ← parseSomeHandles
      return .waitAll line [name] handles
  | _ =>
      let expr ← parseExpr double
      return .assignment line name expr

def expectEquals : Parser Unit := do
  match ← peekKind with
  | .equals => advance
  | got => fail (.expectedEquals got)

/-- What follows `name, name, ...` up to the first name. -/
def parseTargets (line : Nat) (name : String) : Parser Node := do
  let more ← parseMoreNames ((← get).length + 1)
  expectEquals
  match ← peekKind with
  | .keyword .waitAny =>
      advance
      match more with
      | [which] =>
          let handles ← parseHandles ((← get).length + 1)
          return .waitAny line name which handles
      | _ => fail .waitAnyTargets
  | .keyword .waitAll =>
      advance
      let handles ← parseSomeHandles
      return .waitAll line (name :: more) handles
  | _ => fail .expectedWait

/-- A statement that begins with a keyword; `body` reads the statements of a SCOPE. -/
def parseStatement (double : String → BitVec 64) (body : Parser (List Node)) (line : Nat) (word : Keyword) :
    Parser Node :=
  match word with
  | .label => do
      advance
      let name ← expectIdentifier
      return .label line name
  | .scope => do
      advance
      skipNewlines
      let nodes ← body
      return .scope line nodes
  | .branch => do
      advance
      let condition ← parseExpr double
      let trueLabel ← expectIdentifier
      let falseLabel ← expectIdentifier
      return .branch line condition trueLabel falseLabel
  | .jump => do
      advance
      let target ← expectIdentifier
      return .jump line target
  | .set => do
      advance
      let target ← expectIdentifier
      let value ← parseExpr double
      return .set line target value
  | .discard => do
      advance
      let value ← parseVar
      return .discard line value
  | .store => do
      advance
      let target ← expectIdentifier
      let value ← parseExpr double
      let size ← parseSizeOf
      let offset ← parseOffset (parseExpr double)
      return .store line target value size offset
  | .free => do
      advance
      let name ← expectIdentifier
      return .free line name
  | .channelSend => do
      advance
      let channel ← expectIdentifier
      let value ← parseExpr double
      return .channelSend line channel value
  | .channelClose => do
      advance
      let channel ← expectIdentifier
      return .channelClose line channel
  | .waitAll => do
      advance
      let handles ← parseSomeHandles
      return .waitAll line [] handles
  | .call => do
      advance
      let behavior ← expectIdentifier
      let args ← parseArgs (parseExpr double) endsCall ((← get).length + 1)
      let outputs ← parseOutputs
      return .call line none behavior args outputs
  | _ => fail (.unexpectedStatement (.keyword word))

/-- Past the indentation of a statement. -/
def skipIndent : Parser Unit := do
  match ← peekKind with
  | .indent _ => advance
  | _ => return

/-- A statement by its first token. -/
def parseUnindented (double : String → BitVec 64) (body : Parser (List Node)) (line : Nat) : Parser Node := do
  match ← peekKind with
  | .keyword word => parseStatement double body line word
  | .identifier name =>
      advance
      match ← peekKind with
      | .equals =>
          advance
          parseAssigned double line name
      | .comma => parseTargets line name
      | got => fail (.unexpectedAfterIdentifier name got)
  | got => fail (.unexpectedStatement got)

def parseNode (double : String → BitVec 64) (body : Parser (List Node)) : Parser Node := do
  skipIndent
  let line ← currentLine
  parseUnindented double body line

/-- Statements up to the end of the section or, inside a SCOPE, up to END_SCOPE. -/
def parseNodes (double : String → BitVec 64) (inScope : Bool) : Nat → Parser (List Node)
  | 0 => fail .stepsExhausted
  | steps + 1 => do
      skipNewlines
      let kind ← peekKind
      if kind = .keyword .endBehavior ∨ kind = .eof then return []
      else if inScope ∧ kind = .keyword .endScope then
        advance
        return []
      else
        let node ← parseNode double (parseNodes double true steps)
        let rest ← parseNodes double inScope steps
        return node :: rest

/-- The statements after IMPLEMENTATION or COMPOSITION. -/
def parseImplementation (double : String → BitVec 64) : Parser (List Node) := do
  parseNodes double false ((← get).length + 1)

end Sigil.Parser
