import Sigil.ContractHash
import Sigil.Semantic.Ownership
import Sigil.Semantic.Roles

/-!
# Semantic analysis

The phases of the analyzer in the order they run. A behavior is accepted when no
phase reports an error.
-/

namespace Sigil

namespace Analyzer

def validateParamSize (s : Analyzer) (param : Parameter) : Analyzer :=
  match param.typ with
  | .int => s.require (param.size ∈ [1, 2, 4, 8]) (.invalidIntSize param.size) 0
      (some s!"Parameter '{param.name}'")
  | .float => s.require (param.size ∈ [4, 8]) (.invalidFloatSize param.size) 0
      (some s!"Parameter '{param.name}'")
  | .bytes => if param.size = 0 then s.warn s!"Parameter '{param.name}' has size 0" 0 else s
  | .string => s

/-- Sizes of the parameters, and the declared hash if there is one. -/
def validateContract (sha256 : List UInt8 → List UInt8) (behavior : Behavior) (s : Analyzer) :
    Analyzer :=
  let contract := behavior.contract
  let s := contract.outputs.foldl validateParamSize (contract.inputs.foldl validateParamSize s)
  let computed := computeContractHash sha256 contract
  if behavior.hash.isEmpty then s
  else s.require (behavior.hash = computed) (.hashMismatch behavior.hash computed) 0
    "update HASH to the computed value to fix"

/-- Define a label, or report that it is defined already. -/
def collectLabel (s : Analyzer) (name : String) (line : Nat) : Analyzer :=
  match s.ctx.defineLabel name line with
  | (_, some firstLine) => s.error (.duplicateLabel name firstLine) line
  | (ctx, none) => { s with ctx := ctx }

mutual

/-- Collect the labels of one statement. -/
def collectNodeLabels : Node → Analyzer → Analyzer
  | .label line name, s => s.collectLabel name line
  | .scope _ nodes, s => collectLabelsFromNodes nodes s
  | _, s => s

/-- Collect the labels of statements, SCOPE bodies included. -/
def collectLabelsFromNodes : List Node → Analyzer → Analyzer
  | [], s => s
  | node :: rest, s => collectLabelsFromNodes rest (collectNodeLabels node s)

end

/-- Add the errors of the path analysis. -/
def validateOwnership (nodes : List Node) (s : Analyzer) : Analyzer :=
  { s with errors := s.errors ++ validateOwnershipCfg nodes s.ctx }

def checkTermination (nodes : List Node) (s : Analyzer) : Analyzer :=
  s.require (CFG.build (flattenScopes nodes)).allPathsTerminate .pathDoesNotTerminate 0
    "control flow cannot reach END (exit-less loop)"

/-- The linear pass over a body, then the path analysis of it. -/
def validateBody (nodes : List Node) (s : Analyzer) : Analyzer :=
  validateOwnership nodes (validateNodes nodes s)

def validateGuarantees (behavior : Behavior) (s : Analyzer) : Analyzer :=
  let isPure := s.ctx.hasGuarantee .pure
  let s := s.require (!(isPure && s.ctx.hasChannelOps))
    (.pureViolation "contains CHANNEL operations") 0
  let s := s.require (!(isPure && s.ctx.hasNonOutputWrites))
    (.pureViolation "contains writes to non-OUTPUT variables") 0
  let s := s.require (!(isPure && !behavior.contract.requires.memory.isEmpty))
    (.pureViolation "accesses pattern MEMORY") 0
  s.require (!(s.ctx.hasGuarantee .noAlloc && s.ctx.hasUnscopedAlloc))
    (.noAllocViolation "contains ALLOC outside SCOPE") 0

/-- Apply a phase to a body if the behavior has it. -/
def onBody (phase : List Node → Analyzer → Analyzer) (body : Option (List Node)) (s : Analyzer) :
    Analyzer :=
  match body with
  | some nodes => phase nodes s
  | none => s

end Analyzer

namespace Behavior

/-- The body of the first IMPLEMENTATION, the only one that is analyzed. -/
def implBody (behavior : Behavior) : Option (List Node) :=
  behavior.implementations.head?.map PlatformImpl.nodes

def compBody (behavior : Behavior) : Option (List Node) :=
  behavior.composition.map Composition.nodes

/-- A composite only wires, a leaf calls nothing. -/
def checkRole (behavior : Behavior) (s : Analyzer) : Analyzer :=
  match behavior.compBody with
  | some nodes => Analyzer.checkCompositePurity nodes s
  | none => s.onBody Analyzer.checkLeafNoCall behavior.implBody

/-- All phases of the analysis. -/
def analysis (sha256 : List UInt8 → List UInt8) (behavior : Behavior) (dependencies : Contracts)
    (patterns : List String) : Analyzer :=
  let s : Analyzer := { ctx := .new behavior dependencies patterns }
  let s := s.validateContract sha256 behavior
  let s := (s.onBody .collectLabelsFromNodes behavior.implBody).onBody .collectLabelsFromNodes
    behavior.compBody
  let s := (s.onBody .validateBody behavior.implBody).onBody .validateBody behavior.compBody
  let s := (s.onBody .checkTermination behavior.implBody).onBody .checkTermination behavior.compBody
  let s := behavior.checkRole s
  let s := s.onBody .checkOutputsConsumed behavior.compBody
  s.validateGuarantees behavior

/-- Analyze a behavior against the contracts it requires and the known patterns. -/
def analyze (sha256 : List UInt8 → List UInt8) (behavior : Behavior) (dependencies : Contracts)
    (patterns : List String) : Except (List SemanticError) Unit :=
  let s := behavior.analysis sha256 dependencies patterns
  if s.errors.isEmpty then .ok () else .error s.errors

end Behavior

end Sigil
