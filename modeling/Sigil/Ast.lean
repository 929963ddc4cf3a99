import Mathlib

/-!
# Abstract syntax

The expressions, statements and contracts the parser hands to the analyzer and
the code generator. Operator families share one constructor with the operator
as data; a statement carries the line of its span. An `i64` literal is a 64-bit
word and a float literal the 64 bits of its double.
-/

namespace Sigil

/-- Interpretation of bytes: `bytes`, `int`, `float` or `string`. -/
inductive AstType where
  | bytes
  | int
  | float
  | string
  deriving DecidableEq, Repr

/-- An INPUT or OUTPUT declaration. -/
structure Parameter where
  name : String
  typ : AstType
  size : Nat
  deriving DecidableEq, Repr

/-- A word of a GUARANTEES clause. -/
inductive Guarantee where
  | pure
  | noAlloc
  | writesOutput
  deriving DecidableEq, Repr

/-- A REQUIRES reference, `name@hash`. -/
structure BehaviorRef where
  name : String
  hash : String
  deriving DecidableEq, Repr

/-- What a REQUIRES clause lists. -/
structure Requirements where
  behaviors : List BehaviorRef := []
  memory : List String := []
  deriving DecidableEq, Repr

/-- The CONTRACT section of a behavior. -/
structure Contract where
  inputs : List Parameter
  outputs : List Parameter
  requires : Requirements := {}
  guarantees : List Guarantee
  deriving DecidableEq, Repr

/-- `Iadd`, `Isub`, `Imul`, `Idiv`, `Imod`. -/
inductive IntArith where
  | add
  | sub
  | mul
  | div
  | mod
  deriving DecidableEq, Repr

/-- `And`, `Or`, `Xor`, `Shl`, `Shr`, `Sar`. -/
inductive Bitwise where
  | and
  | or
  | xor
  | shl
  | shr
  | sar
  deriving DecidableEq, Repr

/-- `Fadd`, `Fsub`, `Fmul`, `Fdiv`. -/
inductive FloatArith where
  | add
  | sub
  | mul
  | div
  deriving DecidableEq, Repr

/-- The comparisons, integer (`Ieq` to `Ige`) and float (`Feq` to `Fge`). -/
inductive Comparison where
  | eq
  | ne
  | lt
  | gt
  | le
  | ge
  deriving DecidableEq, Repr

/-- `AtomicAdd`, `AtomicSub`. -/
inductive AtomicRmw where
  | add
  | sub
  deriving DecidableEq, Repr

/-- The expressions of a body. -/
inductive Expr where
  | intLit (n : BitVec 64)
  | floatLit (bits : BitVec 64)
  | stringLit (s : String)
  | var (name : String)
  | field (base : Expr) (field : String)
  | load (source : Expr) (size : Nat) (offset : Option Expr)
  | alloc (size : Expr) (typ : AstType) (shared : Bool)
  | intArith (op : IntArith) (a b : Expr) (size : Nat)
  | ineg (a : Expr) (size : Nat)
  | floatArith (op : FloatArith) (a b : Expr) (size : Nat)
  | fneg (a : Expr) (size : Nat)
  | intCmp (op : Comparison) (a b : Expr) (size : Nat)
  | floatCmp (op : Comparison) (a b : Expr) (size : Nat)
  | bitwise (op : Bitwise) (a b : Expr) (size : Nat)
  | not (a : Expr) (size : Nat)
  | atomicLoad (source : Expr) (size : Nat)
  | atomicStore (target value : Expr) (size : Nat)
  | cas (addr expected new : Expr) (size : Nat)
  | atomicRmw (op : AtomicRmw) (target value : Expr) (size : Nat)
  | ftoi (value : Expr) (floatSize intSize : Nat)
  | itof (value : Expr) (intSize floatSize : Nat)
  | call (behavior : String) (args : List Expr)
  | channel (typ : AstType) (capacity : Expr)
  | channelReceive (channel : String)
  | spawn (pattern : String) (args : List Expr)
  | wait (handle : String)
  deriving Repr, Inhabited

/-- A statement and the line it starts on. -/
inductive Node where
  | assignment (line : Nat) (target : String) (expr : Expr)
  | label (line : Nat) (name : String)
  | scope (line : Nat) (nodes : List Node)
  | branch (line : Nat) (condition : Expr) (trueLabel falseLabel : String)
  | jump (line : Nat) (target : String)
  | set (line : Nat) (target : String) (value : Expr)
  | discard (line : Nat) (expr : Expr)
  | store (line : Nat) (target : String) (value : Expr) (size : Nat) (offset : Option Expr)
  | free (line : Nat) (name : String)
  | spawn (line : Nat) (target pattern : String) (args : List Expr)
  | wait (line : Nat) (target handle : String)
  | waitAll (line : Nat) (targets handles : List String)
  | waitAny (line : Nat) (result which : String) (handles : List String)
  | channelSend (line : Nat) (channel : String) (value : Expr)
  | channelClose (line : Nat) (channel : String)
  | call (line : Nat) (target : Option String) (behavior : String) (args : List Expr)
      (outputs : List String)
  deriving Repr, Inhabited

/-- An IMPLEMENTATION block; `none` applies to every platform. -/
structure PlatformImpl where
  platform : Option String
  nodes : List Node
  deriving Repr

/-- The COMPOSITION section of a behavior. -/
structure Composition where
  nodes : List Node
  deriving Repr

/-- A behavior as the parser returns it. -/
structure Behavior where
  name : String
  contract : Contract
  hash : String
  implementations : List PlatformImpl
  composition : Option Composition
  isNative : Bool := false
  deriving Repr

/-- A MEMORY declaration of a pattern. -/
structure MemoryDecl where
  name : String
  typ : AstType
  size : Nat
  deriving DecidableEq, Repr

/-- A pattern; its nested behaviors and ON_DESTROY block are never compiled. -/
structure Pattern where
  name : String
  memory : List MemoryDecl
  onCreate : List Node
  deriving Repr

/-- An executable: its name and the body of its ENTRY. -/
structure Executable where
  name : String
  entry : List Node
  deriving Repr

namespace Expr

/-- The operand expressions of an expression, left to right. -/
def children : Expr → List Expr
  | intLit _ | floatLit _ | stringLit _ | var _ | channelReceive _ | wait _ => []
  | field e _ | alloc e _ _ | ineg e _ | fneg e _ | not e _ | atomicLoad e _ | ftoi e _ _
  | itof e _ _ | channel _ e | load e _ none => [e]
  | load e _ (some offset) => [e, offset]
  | intArith _ a b _ | floatArith _ a b _ | intCmp _ a b _ | floatCmp _ a b _
  | bitwise _ a b _ | atomicStore a b _ | atomicRmw _ a b _ => [a, b]
  | cas a b c _ => [a, b, c]
  | call _ args | spawn _ args => args

/-- An operand is smaller than the expression it stands in. -/
theorem sizeOf_lt_of_mem_children {child e : Expr} (member : child ∈ e.children) :
    sizeOf child < sizeOf e := by
  cases e with
  | load source size offset =>
      cases offset <;> simp [children] at member <;> rcases member with rfl | rfl <;>
        simp <;> omega
  | call behavior args | spawn pattern args =>
      have smaller : sizeOf child < sizeOf args := List.sizeOf_lt_of_mem member
      simp
      omega
  | _ => simp_all [children] <;> grind

/-- Structural induction with one hypothesis for all operands. -/
@[elab_as_elim]
theorem inductionOnChildren {P : Expr → Prop} (e : Expr)
    (step : ∀ e : Expr, (∀ child ∈ e.children, P child) → P e) : P e :=
  step e fun child member =>
    have := sizeOf_lt_of_mem_children member
    inductionOnChildren child step
termination_by sizeOf e

mutual

/-- Every expression inside an expression, itself first. -/
def subexprs : Expr → List Expr
  | e@(intLit _) | e@(floatLit _) | e@(stringLit _) | e@(var _) | e@(channelReceive _)
  | e@(wait _) => [e]
  | e@(field a _) | e@(alloc a _ _) | e@(ineg a _) | e@(fneg a _) | e@(not a _)
  | e@(atomicLoad a _) | e@(ftoi a _ _) | e@(itof a _ _) | e@(channel _ a)
  | e@(load a _ none) => e :: a.subexprs
  | e@(load a _ (some b)) | e@(intArith _ a b _) | e@(floatArith _ a b _)
  | e@(intCmp _ a b _) | e@(floatCmp _ a b _) | e@(bitwise _ a b _) | e@(atomicStore a b _)
  | e@(atomicRmw _ a b _) => e :: (a.subexprs ++ b.subexprs)
  | e@(cas a b c _) => e :: (a.subexprs ++ b.subexprs ++ c.subexprs)
  | e@(call _ args) | e@(spawn _ args) => e :: listSubexprs args

/-- Every expression inside the expressions of a list. -/
def listSubexprs : List Expr → List Expr
  | [] => []
  | e :: rest => e.subexprs ++ listSubexprs rest

end

/-- The subexpressions of a list are those of its members, in order. -/
theorem listSubexprs_eq_flatMap (es : List Expr) : listSubexprs es = es.flatMap subexprs := by
  induction es with
  | nil => rfl
  | cons e es ih => simp [listSubexprs, ih]

/-- An expression and then the subexpressions of its operands. -/
theorem subexprs_eq (e : Expr) : e.subexprs = e :: e.children.flatMap subexprs := by
  cases e with
  | load source size offset => cases offset <;> simp [subexprs, children]
  | _ => simp [subexprs, children, listSubexprs_eq_flatMap]

@[simp] theorem self_mem_subexprs (e : Expr) : e ∈ e.subexprs := by
  rw [subexprs_eq]
  exact List.mem_cons_self

/-- The expressions inside an operand are inside the expression. -/
theorem mem_subexprs_of_child {x child e : Expr} (operand : child ∈ e.children)
    (inside : x ∈ child.subexprs) : x ∈ e.subexprs := by
  rw [subexprs_eq]
  exact List.mem_cons_of_mem _ (List.mem_flatMap.mpr ⟨child, operand, inside⟩)

end Expr

namespace Node

/-- The line of a statement's span. -/
def line : Node → Nat
  | assignment l _ _ | label l _ | scope l _ | branch l _ _ _ | jump l _ | set l _ _
  | discard l _ | store l _ _ _ _ | free l _ | spawn l _ _ _ | wait l _ _ | waitAll l _ _
  | waitAny l _ _ _ | channelSend l _ _ | channelClose l _ | call l _ _ _ _ => l

/-- The expressions a statement evaluates. `DISCARD` evaluates nothing. -/
def operands : Node → List Expr
  | assignment _ _ e | branch _ e _ _ | set _ _ e | channelSend _ _ e | store _ _ e _ none => [e]
  | store _ _ e _ (some offset) => [e, offset]
  | spawn _ _ _ args | call _ _ _ args _ => args
  | label _ _ | scope _ _ | jump _ _ | discard _ _ | free _ _ | wait _ _ _ | waitAll _ _ _
  | waitAny _ _ _ _ | channelClose _ _ => []

/-- The expressions a statement contains, `DISCARD`'s included. -/
def exprs : Node → List Expr
  | discard _ e => [e]
  | node => node.operands

end Node

end Sigil
