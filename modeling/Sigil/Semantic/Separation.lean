import Sigil.Semantic.Accepted
import Sigil.Codegen.Function

/-!
# Leaves compute, composites wire

The role checks look at one body of a behavior, statement by statement and not at
every place of a statement. Where everything forbidden in the body that is compiled
is at a place they look at, an accepted behavior keeps its role.
-/

namespace Sigil

mutual

/-- A statement and, for a SCOPE, every statement inside it. -/
def Node.within : Node → List Node
  | .scope line nodes => .scope line nodes :: allWithin nodes
  | node => [node]

/-- Every statement of a body, at any SCOPE depth. -/
def allWithin : List Node → List Node
  | [] => []
  | node :: rest => node.within ++ allWithin rest

end

namespace Expr

/-- A memory, arithmetic, comparison, bitwise, conversion or atomic operation. -/
def computes : Expr → Bool
  | load _ _ _ | alloc _ _ _ | intArith _ _ _ _ | ineg _ _ | floatArith _ _ _ _ | fneg _ _
  | intCmp _ _ _ _ | floatCmp _ _ _ _ | bitwise _ _ _ _ | not _ _ | atomicLoad _ _
  | atomicStore _ _ _ | cas _ _ _ _ | atomicRmw _ _ _ _ | ftoi _ _ _ | itof _ _ _ => true
  | intLit _ | floatLit _ | stringLit _ | var _ | field _ _ | call _ _ | channel _ _
  | channelReceive _ | spawn _ _ | wait _ => false

def isCall : Expr → Bool
  | call _ _ => true
  | _ => false

end Expr

namespace Node

/-- A STORE or FREE, or an operation in some expression of the statement. -/
def Computes : Node → Prop
  | store _ _ _ _ _ | free _ _ => True
  | node => ∃ e ∈ node.exprs, ∃ x ∈ e.subexprs, x.computes = true

/-- A CALL, or one in some expression of the statement. -/
def Calls : Node → Prop
  | call _ _ _ _ _ => True
  | node => ∃ e ∈ node.exprs, ∃ x ∈ e.subexprs, x.isCall = true

/-- What the purity check sees in a statement. -/
def showsCompute : Node → Bool
  | store _ _ _ _ _ | free _ _ | scope _ _ => true
  | assignment _ _ e | set _ _ e | branch _ e _ _ | channelSend _ _ e => e.forbiddenComputeOp.isSome
  | call _ _ _ args _ => args.any fun arg => arg.forbiddenComputeOp.isSome
  | label _ _ | jump _ _ | discard _ _ | spawn _ _ _ _ | wait _ _ _ | waitAll _ _ _
  | waitAny _ _ _ _ | channelClose _ _ => false

/-- What the check of a leaf sees in a statement. -/
def showsCall : Node → Bool
  | call _ _ _ _ _ => true
  | assignment _ _ e => e.isCall
  | _ => false

end Node

/-- The body that is compiled keeps its role: a leaf calls nothing, a composite
computes nothing. -/
def RoleSeparated (platform : TargetPlatform) (behavior : Behavior) : Prop :=
  match selectImplementation platform behavior, behavior.compBody with
  | some impl, _ => ∀ node ∈ allWithin impl.nodes, ¬ node.Calls
  | none, some nodes => ∀ node ∈ allWithin nodes, ¬ node.Computes
  | none, none => True

/-- What the compiled body does against its role, the checks see: a leaf is only
checked if it is the first IMPLEMENTATION and there is no COMPOSITION. -/
def RoleInReach (platform : TargetPlatform) (behavior : Behavior) : Prop :=
  match selectImplementation platform behavior, behavior.compBody with
  | some impl, composition => ∀ node ∈ allWithin impl.nodes, node.Calls →
      composition = none ∧ behavior.implBody = some impl.nodes ∧ node.showsCall = true
  | none, some nodes => ∀ node ∈ allWithin nodes, node.Computes → node.showsCompute = true
  | none, none => True

namespace Analyzer

/-- The wire check reports nothing exactly where an operand computes nothing. -/
theorem checkWires_quiet {line : Nat} {s : Analyzer} {e : Expr} :
    (checkWires line s e).errors = [] ↔ s.errors = [] ∧ e.forbiddenComputeOp.isSome = false := by
  unfold checkWires compositeViolation
  split <;> simp_all

/-- The wire check of several operands reports nothing exactly where none computes. -/
theorem foldl_checkWires_quiet {line : Nat} {s : Analyzer} {es : List Expr} :
    (es.foldl (checkWires line) s).errors = [] ↔
      s.errors = [] ∧ es.any (fun e => e.forbiddenComputeOp.isSome) = false := by
  induction es generalizing s with
  | nil => simp
  | cons e rest ih =>
      rw [List.foldl_cons, ih, checkWires_quiet, List.any_cons, Bool.or_eq_false_iff, and_assoc]

mutual

/-- The purity check is quiet only about statements that show it nothing. -/
theorem showsCompute_of_checkCompositeNode (node : Node) (s : Analyzer)
    (quiet : (checkCompositeNode node s).errors = []) :
    s.errors = [] ∧ ∀ inner ∈ node.within, inner.showsCompute = false := by
  cases node with
  | store _ _ _ _ _ | free _ _ => exact absurd quiet error_errors_ne
  | scope line nodes =>
      obtain ⟨before, _⟩ := showsCompute_of_checkCompositePurity nodes _ quiet
      exact absurd before error_errors_ne
  | assignment _ _ e | set _ _ e | branch _ e _ _ | channelSend _ _ e =>
      have checked := checkWires_quiet.mp quiet
      exact ⟨checked.1, by simpa [Node.within, Node.showsCompute] using checked.2⟩
  | call _ _ _ args _ =>
      have checked := foldl_checkWires_quiet.mp quiet
      exact ⟨checked.1, by simpa [Node.within, Node.showsCompute] using checked.2⟩
  | label _ _ | jump _ _ | discard _ _ | spawn _ _ _ _ | wait _ _ _ | waitAll _ _ _
  | waitAny _ _ _ _ | channelClose _ _ =>
      exact ⟨quiet, by simp [Node.within, Node.showsCompute]⟩

/-- Where `check_composite_purity` reports nothing, no statement at any depth computes. -/
theorem showsCompute_of_checkCompositePurity (nodes : List Node) (s : Analyzer)
    (quiet : (checkCompositePurity nodes s).errors = []) :
    s.errors = [] ∧ ∀ node ∈ allWithin nodes, node.showsCompute = false := by
  cases nodes with
  | nil => exact ⟨quiet, by simp [allWithin]⟩
  | cons node rest =>
      obtain ⟨middle, later⟩ := showsCompute_of_checkCompositePurity rest _ quiet
      obtain ⟨before, here⟩ := showsCompute_of_checkCompositeNode node s middle
      refine ⟨before, fun inner member => ?_⟩
      cases List.mem_append.mp member with
      | inl first => exact here inner first
      | inr second => exact later inner second

end

mutual

/-- The check of a leaf is quiet only about statements that show it no CALL. -/
theorem showsCall_of_checkLeafNode (node : Node) (s : Analyzer)
    (quiet : (checkLeafNode node s).errors = []) :
    s.errors = [] ∧ ∀ inner ∈ node.within, inner.showsCall = false := by
  cases node with
  | call _ _ _ _ _ => exact absurd quiet error_errors_ne
  | assignment line target e =>
      cases e with
      | call behavior args => exact absurd quiet error_errors_ne
      | _ => exact ⟨quiet, by simp [Node.within, Node.showsCall, Expr.isCall]⟩
  | scope line nodes =>
      obtain ⟨before, inside⟩ := showsCall_of_checkLeafNoCall nodes s quiet
      refine ⟨before, fun inner member => ?_⟩
      cases List.mem_cons.mp member with
      | inl itself => exact itself ▸ rfl
      | inr within => exact inside inner within
  | _ => exact ⟨quiet, by simp [Node.within, Node.showsCall]⟩

/-- Where `check_leaf_no_call` reports nothing, no statement at any depth CALLs. -/
theorem showsCall_of_checkLeafNoCall (nodes : List Node) (s : Analyzer)
    (quiet : (checkLeafNoCall nodes s).errors = []) :
    s.errors = [] ∧ ∀ node ∈ allWithin nodes, node.showsCall = false := by
  cases nodes with
  | nil => exact ⟨quiet, by simp [allWithin]⟩
  | cons node rest =>
      obtain ⟨middle, later⟩ := showsCall_of_checkLeafNoCall rest _ quiet
      obtain ⟨before, here⟩ := showsCall_of_checkLeafNode node s middle
      refine ⟨before, fun inner member => ?_⟩
      cases List.mem_append.mp member with
      | inl first => exact here inner first
      | inr second => exact later inner second

end

end Analyzer

namespace Behavior

open Analyzer

variable {behavior : Behavior} {sha256 : List UInt8 → List UInt8} {dependencies : Contracts}
  {patterns : List String} {nodes : List Node}

/-- In an accepted behavior the role check reports nothing. -/
theorem Accepted.role (accepted : Accepted sha256 behavior dependencies patterns) :
    ∃ s, (behavior.checkRole s).errors = [] := by
  unfold Accepted analysis at accepted
  exact ⟨_, OnlyAdds.onBody onlyAdds_checkOutputsConsumed behavior.compBody _
    (onlyAdds_validateGuarantees behavior _ accepted)⟩

/-- The COMPOSITION of an accepted behavior shows the purity check nothing. -/
theorem Accepted.showsCompute (accepted : Accepted sha256 behavior dependencies patterns)
    (body : behavior.compBody = some nodes) :
    ∀ node ∈ allWithin nodes, node.showsCompute = false := by
  obtain ⟨s, quiet⟩ := accepted.role
  simp only [checkRole, body] at quiet
  exact (showsCompute_of_checkCompositePurity nodes s quiet).2

/-- The first IMPLEMENTATION of an accepted behavior without COMPOSITION shows no
CALL. -/
theorem Accepted.showsCall (accepted : Accepted sha256 behavior dependencies patterns)
    (noComposition : behavior.compBody = none) (body : behavior.implBody = some nodes) :
    ∀ node ∈ allWithin nodes, node.showsCall = false := by
  obtain ⟨s, quiet⟩ := accepted.role
  simp only [checkRole, noComposition, body, onBody] at quiet
  exact (showsCall_of_checkLeafNoCall nodes s quiet).2

/-- An accepted behavior keeps its role exactly when what its compiled body does
against it is in reach of the checks. -/
theorem roleSeparated_iff_inReach (platform : TargetPlatform)
    (accepted : Accepted sha256 behavior dependencies patterns) :
    RoleSeparated platform behavior ↔ RoleInReach platform behavior := by
  unfold RoleSeparated RoleInReach
  cases selectImplementation platform behavior with
  | some impl =>
      constructor
      · intro separated node member calls
        exact absurd calls (separated node member)
      · intro inReach node member calls
        obtain ⟨noComposition, checked, shown⟩ := inReach node member calls
        have hidden := accepted.showsCall noComposition checked node member
        exact Bool.false_ne_true (hidden.symm.trans shown)
  | none =>
      cases body : behavior.compBody with
      | none => exact Iff.rfl
      | some nodes =>
          constructor
          · intro separated node member computes
            exact absurd computes (separated node member)
          · intro inReach node member computes
            have hidden := accepted.showsCompute body node member
            exact Bool.false_ne_true (hidden.symm.trans (inReach node member computes))

end Behavior

/-- A behavior with an IMPLEMENTATION for linux that binds a constant, and one for
windows that is `CALL log`. -/
def callsOnWindows : Behavior where
  name := "calls-on-windows"
  contract := { inputs := [], outputs := [], guarantees := [] }
  hash := ""
  implementations :=
    [⟨some "linux", [.assignment 1 "x" (.intLit 1)]⟩, ⟨some "windows", [.call 3 none "log" [] []]⟩]
  composition := none

/-- The CALL in the body of the other platform is out of reach. -/
theorem roleSeparated_iff_inReach_callsOnWindows :
    RoleSeparated .linux callsOnWindows ↔ RoleInReach .linux callsOnWindows :=
  have accepted : callsOnWindows.Accepted (fun _ => []) ∅ [] :=
    Behavior.accepted_of_noHash (by decide) (by decide)
  Behavior.roleSeparated_iff_inReach .linux accepted

/-- Only the first IMPLEMENTATION is checked, the one for windows is compiled
there. -/
theorem callsOnWindows_accepted_and_mixed :
    (∀ sha256, callsOnWindows.Accepted sha256 ∅ []) ∧ ¬ RoleSeparated .windows callsOnWindows := by
  refine ⟨fun _ => Behavior.accepted_of_noHash (by decide) (by decide), fun separated => ?_⟩
  exact separated (.call 3 none "log" [] []) (by simp [allWithin, Node.within]) trivial

end Sigil
