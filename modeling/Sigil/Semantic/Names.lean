import Sigil.Cfg.Scopes
import Sigil.Codegen.Node

/-!
# NameMap and what they stand for

The code generator binds names to memory or to plain values. END_SCOPE restores the names as
they were before the SCOPE. A local that is assigned more than once and holds a plain value is
kept in a slot of the function, which no END_SCOPE takes back and which hides every binding.
`after` follows this along any list of executed statements: along a walk, or along the text.
-/

namespace Sigil

/-- What expressions that bring memory of their own denote: an ALLOC, the result of a CALL, a
literal string. -/
structure Sources (α : Type) where
  alloc (size : Expr) (shared : Bool) : α
  result : α
  literal : α

/-- The bindings, the last one first, each with the SCOPE it was made in and nothing for a plain
value, and the names that are kept in slots. -/
structure NameMap (α : Type) where
  bindings : List (List Nat × String × Option α)
  slots : List String := []

namespace NameMap

variable {α : Type} (sources : Sources α) (reassigned : List String)

/-- The parameters of a behavior, a later one in front of an earlier one of the same name. -/
def ofParameters (params : List (String × α)) : NameMap α where
  bindings := params.reverse.map fun param => ([], param.1, some param.2)

/-- Control is in a SCOPE: what was bound in the SCOPEs it has left is gone. -/
def enter (names : NameMap α) (scope : List Nat) : NameMap α :=
  { names with bindings := names.bindings.filter fun binding => binding.1 <:+ scope }

/-- The memory a name is bound to. -/
def bound (names : NameMap α) (name : String) : Option α :=
  (names.bindings.find? fun binding => binding.2.1 = name).bind fun binding => binding.2.2

/-- The memory a name stands for where it is read: `get_var` looks at the slots first. -/
def lookup (names : NameMap α) (name : String) : Option α :=
  if name ∈ names.slots then none else names.bound name

def insert (names : NameMap α) (scope : List Nat) (name : String) (memory : Option α) : NameMap α :=
  { names with bindings := (scope, name, memory) :: names.bindings }

/-- Bind names to plain values. -/
def insertValues (names : NameMap α) (scope : List Nat) (targets : List String) : NameMap α :=
  targets.foldl (fun names target => names.insert scope target none) names

/-- The memory that the value of an expression denotes. A copied name shares its memory. -/
def valueOf (names : NameMap α) : Expr → Option α
  | .var name => names.lookup name
  | .alloc size _ shared => some (sources.alloc size shared)
  | .call _ _ | .field _ _ => some sources.result
  | .stringLit _ => some sources.literal
  | _ => none

/-- What a statement in a SCOPE does to the names. A SET writes into a name that is bound to
memory and rebinds one that is not; `->` of a CALL likewise. -/
def run (scope : List Nat) (names : NameMap α) : Node → NameMap α
  | .assignment _ target e =>
      match names.valueOf sources e with
      | some memory => names.insert scope target (some memory)
      | none =>
          if target ∈ reassigned then { names with slots := target :: names.slots }
          else names.insert scope target none
  | .set _ target value =>
      if (names.bound target).isSome then names
      else names.insert scope target (names.valueOf sources value)
  | .call _ (some target) _ _ _ => names.insert scope target (some sources.result)
  | .call _ none _ _ outputs => names.insertValues scope (outputs.filter fun out => (names.bound out).isNone)
  | .spawn _ target _ _ | .wait _ target _ => names.insertValues scope [target]
  | .waitAll _ targets handles => names.insertValues scope (targets.take handles.length)
  | .waitAny _ result which _ => names.insertValues scope [result, which]
  | .label _ _ | .scope _ _ | .branch _ _ _ _ | .jump _ _ | .discard _ _ | .store _ _ _ _ _
  | .free _ _ | .channelSend _ _ _ | .channelClose _ _ => names

/-- Running a statement of a text. -/
def step (names : NameMap α) (spot : Spot) : NameMap α :=
  (names.enter spot.path).run sources reassigned spot.path spot.node

/-- The names where statement `i` of a text stands, after others were executed. -/
def after (start : NameMap α) (text : List Spot) (executed : List Nat) (i : Nat) : NameMap α :=
  ((executed.filterMap (text[·]?)).foldl (step sources reassigned) start).enter
    ((text[i]?).elim [] Spot.path)

end NameMap

end Sigil
