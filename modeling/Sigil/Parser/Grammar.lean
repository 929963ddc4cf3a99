import Sigil.Parser.Statement

/-!
# The documented statement grammar

Derivations of the reference's productions for the statements of an IMPLEMENTATION or
COMPOSITION body: the tokens each has, the statement of the syntax tree it stands for, and
which of them the parser has a branch for. Words are written by the kinds of their tokens, and
integers and hexadecimal numbers alike.
-/

namespace Sigil

/-- `value`, where a name with a field is a `field_access`. -/
inductive Value where
  | name (name : String)
  | field (base field : String)
  | int (n : BitVec 64)
  | string (s : String)
  deriving DecidableEq, Repr

/-- `argument`; a size is an integer. -/
inductive Argument where
  | value (value : Value)
  | interpretation (typ : AstType)
  deriving DecidableEq, Repr

/-- `primitive_call`: each primitive with its own operands. Sizes are integers, and the other
operands values. -/
inductive PrimitiveCall where
  | alloc (size : Value) (typ : AstType) (shared : Bool)
  | load (handle : Value) (size : BitVec 64) (offset : Option Value)
  | store (handle value : Value) (size : BitVec 64) (offset : Option Value)
  | free (handle : Value)
  | atomicLoad (handle : Value) (size : BitVec 64)
  | atomicStore (handle value : Value) (size : BitVec 64)
  | cas (handle expected new : Value) (size : BitVec 64)
  | atomicRmw (op : AtomicRmw) (handle value : Value) (size : BitVec 64)
  | intArith (op : IntArith) (a b : Value) (size : BitVec 64)
  | ineg (a : Value) (size : BitVec 64)
  | intCmp (op : Comparison) (a b : Value) (size : BitVec 64)
  | floatArith (op : FloatArith) (a b : Value) (size : BitVec 64)
  | fneg (a : Value) (size : BitVec 64)
  | floatCmp (op : Comparison) (a b : Value) (size : BitVec 64)
  | ftoi (value : Value) (floatSize intSize : BitVec 64)
  | itof (value : Value) (intSize floatSize : BitVec 64)
  | bitwise (op : Bitwise) (a b : Value) (size : BitVec 64)
  | not (a : Value) (size : BitVec 64)
  deriving DecidableEq, Repr

/-- A statement on one line: `impl_statement`, `comp_statement` and `concurrency_stmt` without
`scope`. -/
inductive LineForm where
  | assignment (target : String) (call : PrimitiveCall)
  | primitive (call : PrimitiveCall)
  | label (name : String)
  | branch (condition : Value) (trueLabel falseLabel : String)
  | jump (target : String)
  | call (target : Option String) (behavior : String) (args : List Argument) (outputs : List String)
  | set (target : String) (value : Value)
  | bind (target : String) (value : Value)
  | discard (name : String) (field : Option String)
  | spawn (target pattern : String) (args : List Argument)
  | wait (target handle : String)
  | waitAll (targets : List String) (handle : String) (handles : List String)
  | waitAny (result which : String) (handles : List String)
  | channel (target : String) (typ : AstType) (capacity : Value)
  | channelSend (channel : String) (value : Value)
  | channelReceive (target channel : String)
  | channelClose (channel : String)
  deriving DecidableEq, Repr

/-- A statement and the line it starts on; SCOPEs nest. -/
inductive Statement where
  | line (line : Nat) (form : LineForm)
  | scope (line : Nat) (body : List Statement)

namespace Value

/-- The tokens of a value. -/
def kinds : Value → List TokenKind
  | name n => [.identifier n]
  | field base f => [.identifier base, .dot, .identifier f]
  | int n => [.integer n]
  | string s => [.stringLit s]

def expr : Value → Expr
  | name n => .var n
  | field base f => .field (.var base) f
  | int n => .intLit n
  | string s => .stringLit s

def isName : Value → Bool
  | name _ => true
  | _ => false

def isString : Value → Bool
  | string _ => true
  | _ => false

end Value

def Argument.kinds : Argument → List TokenKind
  | value v => v.kinds
  | interpretation typ => [.keyword (.typ typ)]

def Argument.expr? : Argument → Option Expr
  | value v => some v.expr
  | interpretation _ => none

namespace PrimitiveCall

/-- The tokens of an optional offset. -/
def offsetKinds (offset : Option Value) : List TokenKind := (offset.map Value.kinds).getD []

/-- The tokens of an operator with its operands and sizes. -/
def operation (word : Keyword) (operands : List Value) (sizes : List (BitVec 64)) :
    List TokenKind :=
  .keyword word :: (operands.flatMap Value.kinds ++ sizes.map .integer)

def kinds : PrimitiveCall → List TokenKind
  | alloc size typ shared =>
      .keyword .alloc :: (size.kinds ++ .keyword (.typ typ) :: if shared then
        [.keyword .shared] else [])
  | load handle size offset => operation .load [handle] [size] ++ offsetKinds offset
  | store handle value size offset => operation .store [handle, value] [size] ++ offsetKinds offset
  | free handle => operation .free [handle] []
  | atomicLoad handle size => operation .atomicLoad [handle] [size]
  | atomicStore handle value size => operation .atomicStore [handle, value] [size]
  | cas handle expected new size => operation .cas [handle, expected, new] [size]
  | atomicRmw op handle value size => operation (.atomicRmw op) [handle, value] [size]
  | intArith op a b size => operation (.intArith op) [a, b] [size]
  | ineg a size => operation .ineg [a] [size]
  | intCmp op a b size => operation (.intCmp op) [a, b] [size]
  | floatArith op a b size => operation (.floatArith op) [a, b] [size]
  | fneg a size => operation .fneg [a] [size]
  | floatCmp op a b size => operation (.floatCmp op) [a, b] [size]
  | ftoi value floatSize intSize => operation .ftoi [value] [floatSize, intSize]
  | itof value intSize floatSize => operation .itof [value] [intSize, floatSize]
  | bitwise op a b size => operation (.bitwise op) [a, b] [size]
  | not a size => operation .not [a] [size]

/-- The expression of a primitive call; STORE and FREE are none. -/
def expr? : PrimitiveCall → Option Expr
  | alloc size typ shared => some (.alloc size.expr typ shared)
  | load handle size offset => some (.load handle.expr size.toNat (offset.map Value.expr))
  | store .. | free _ => none
  | atomicLoad handle size => some (.atomicLoad handle.expr size.toNat)
  | atomicStore handle value size => some (.atomicStore handle.expr value.expr size.toNat)
  | cas handle expected new size => some (.cas handle.expr expected.expr new.expr size.toNat)
  | atomicRmw op handle value size => some (.atomicRmw op handle.expr value.expr size.toNat)
  | intArith op a b size => some (.intArith op a.expr b.expr size.toNat)
  | ineg a size => some (.ineg a.expr size.toNat)
  | intCmp op a b size => some (.intCmp op a.expr b.expr size.toNat)
  | floatArith op a b size => some (.floatArith op a.expr b.expr size.toNat)
  | fneg a size => some (.fneg a.expr size.toNat)
  | floatCmp op a b size => some (.floatCmp op a.expr b.expr size.toNat)
  | ftoi value floatSize intSize => some (.ftoi value.expr floatSize.toNat intSize.toNat)
  | itof value intSize floatSize => some (.itof value.expr intSize.toNat floatSize.toNat)
  | bitwise op a b size => some (.bitwise op a.expr b.expr size.toNat)
  | not a size => some (.not a.expr size.toNat)

/-- The statement of a primitive call without a target; the tree has none but STORE and FREE. -/
def node? (line : Nat) : PrimitiveCall → Option Node
  | store (.name target) value size offset =>
      some (.store line target value.expr size.toNat (offset.map Value.expr))
  | free (.name name) => some (.free line name)
  | _ => none

/-- The parser reads the call after `name =`. -/
def Assignable : PrimitiveCall → Bool
  | store .. | free _ => false
  | load _ _ (some offset) => !offset.isString
  | _ => true

/-- The parser reads the call as a statement. -/
def Standalone : PrimitiveCall → Bool
  | store handle _ _ (some offset) => handle.isName && !offset.isString
  | store handle .. | free handle => handle.isName
  | _ => false

end PrimitiveCall

namespace LineForm

/-- Names with commas between them. -/
def commaKinds : List String → List TokenKind
  | [] => []
  | name :: rest => .identifier name :: rest.flatMap fun name => [.comma, .identifier name]

def argKinds (args : List Argument) : List TokenKind := args.flatMap Argument.kinds

/-- `name, name =`, or nothing. -/
def targetKinds : List String → List TokenKind
  | [] => []
  | targets => commaKinds targets ++ [.equals]

def outputKinds : List String → List TokenKind
  | [] => []
  | outputs => .arrow :: commaKinds outputs

/-- The tokens of a statement. -/
def kinds : LineForm → List TokenKind
  | assignment target prim => .identifier target :: .equals :: prim.kinds
  | primitive prim => prim.kinds
  | label n => [.keyword .label, .identifier n]
  | branch condition trueLabel falseLabel =>
      .keyword .branch :: (condition.kinds ++ [.identifier trueLabel, .identifier falseLabel])
  | jump target => [.keyword .jump, .identifier target]
  | call target behavior args outputs =>
      targetKinds target.toList ++
        .keyword .call :: .identifier behavior :: (argKinds args ++ outputKinds outputs)
  | set target value => .keyword .set :: .identifier target :: value.kinds
  | bind target value => .identifier target :: .equals :: value.kinds
  | discard name field =>
      .keyword .discard :: .identifier name ::
        (field.map fun field => [.dot, .identifier field]).getD []
  | spawn target pattern args =>
      .identifier target :: .equals :: .keyword .spawn :: .identifier pattern :: argKinds args
  | wait target handle => [.identifier target, .equals, .keyword .wait, .identifier handle]
  | waitAll targets handle handles =>
      targetKinds targets ++ .keyword .waitAll :: .identifier handle :: handles.map .identifier
  | waitAny result which handles =>
      targetKinds [result, which] ++ .keyword .waitAny :: handles.map .identifier
  | channel target typ capacity =>
      .identifier target :: .equals :: .keyword .channel :: .keyword (.typ typ) :: capacity.kinds
  | channelSend ch value => .keyword .channelSend :: .identifier ch :: value.kinds
  | channelReceive target ch =>
      [.identifier target, .equals, .keyword .channelReceive, .identifier ch]
  | channelClose ch => [.keyword .channelClose, .identifier ch]

/-- The statement of the syntax tree, if the tree has one for the derivation. -/
def node? (line : Nat) : LineForm → Option Node
  | assignment target prim => prim.expr?.map (.assignment line target)
  | primitive prim => prim.node? line
  | label name => some (.label line name)
  | branch condition trueLabel falseLabel => some (.branch line condition.expr trueLabel falseLabel)
  | jump target => some (.jump line target)
  | call none behavior args outputs =>
      do return .call line none behavior (← args.mapM Argument.expr?) outputs
  | call (some target) behavior args [] => do
      return .assignment line target (.call behavior (← args.mapM Argument.expr?))
  | call target behavior args outputs => do
      return .call line target behavior (← args.mapM Argument.expr?) outputs
  | set target value => some (.set line target value.expr)
  | bind target value => some (.assignment line target value.expr)
  | discard name none => some (.discard line (.var name))
  | discard name (some field) => some (.discard line (.field (.var name) field))
  | spawn target pattern args => do
      return .assignment line target (.spawn pattern (← args.mapM Argument.expr?))
  | wait target handle => some (.assignment line target (.wait handle))
  | waitAll targets handle handles => some (.waitAll line targets (handle :: handles))
  | waitAny result which handles => some (.waitAny line result which handles)
  | channel target typ capacity => some (.assignment line target (.channel typ capacity.expr))
  | channelSend ch value => some (.channelSend line ch value.expr)
  | channelReceive target ch => some (.assignment line target (.channelReceive ch))
  | channelClose ch => some (.channelClose line ch)

/-- The parser has a branch for the statement. -/
def Read : LineForm → Bool
  | assignment _ prim => prim.Assignable
  | primitive prim => prim.Standalone
  | call target _ args outputs =>
      args.all (fun arg => arg.expr?.isSome) && (target.isNone || outputs.isEmpty)
  | spawn _ _ args => args.all fun arg => arg.expr?.isSome
  | _ => true

end LineForm

namespace Statement

mutual

/-- The statement of the syntax tree a derivation stands for. -/
def node? : Statement → Option Node
  | line n form => form.node? n
  | scope n body => (nodes? body).map (.scope n)

def nodes? : List Statement → Option (List Node)
  | [] => some []
  | statement :: rest =>
      match statement.node?, nodes? rest with
      | some node, some nodes => some (node :: nodes)
      | _, _ => none

end

mutual

/-- The parser has a branch for every statement of a derivation. -/
def Read : Statement → Bool
  | line _ form => form.Read
  | scope _ body => readAll body

def readAll : List Statement → Bool
  | [] => true
  | statement :: rest => statement.Read && readAll rest

end

/-- The tokens of a body, one statement on a line with indentation and empty lines around. -/
inductive Derives : List Statement → List Token → Prop where
  | nil {blanks : List Token} (blank : ∀ token ∈ blanks, Parser.isBlank token.kind) :
    Derives [] blanks
  | line {blanks tokens rest : List Token} {stop : Token} {form : LineForm}
    {statements : List Statement}
      (blank : ∀ token ∈ blanks, Parser.isBlank token.kind)
        (spelled : tokens.map (·.kind) = form.kinds)
      (ends : stop.kind = .newline) (later : Derives statements rest) :
      Derives (.line (Parser.peek tokens).span.line form :: statements)
        (blanks ++ (tokens ++ stop :: rest))
  | scope {blanks inner rest : List Token} {first last stop : Token}
    {body statements : List Statement}
      (blank : ∀ token ∈ blanks, Parser.isBlank token.kind) (opens : first.kind = .keyword .scope)
      (inside : Derives body inner) (closes : last.kind = .keyword .endScope)
      (ends : stop.kind = .newline) (later : Derives statements rest) :
      Derives (.scope first.span.line body :: statements)
        (blanks ++ (first :: (inner ++ last :: stop :: rest)))

end Statement

end Sigil
