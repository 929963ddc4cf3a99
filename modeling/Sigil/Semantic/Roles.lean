import Sigil.Semantic.Validate

/-!
# Leaf and composite roles

A composition only wires behaviors: no primitive computation, and every output a
CALL produces is consumed. An implementation is the bottom of the call graph and
calls nothing.
-/

namespace Sigil

namespace Analyzer

def compositeViolation (s : Analyzer) (op : String) (line : Nat) : Analyzer :=
  s.error (.compositeComputes op) line "composite behaviors wire; they don't compute"

/-- Report the forbidden primitive of an expression. -/
def checkWires (line : Nat) (s : Analyzer) (e : Expr) : Analyzer :=
  match e.forbiddenComputeOp with
  | some op => s.compositeViolation op line
  | none => s

mutual

/-- Report what one statement of a composite may not do. -/
def checkCompositeNode : Node → Analyzer → Analyzer
  | .store line _ _ _ _, s => s.compositeViolation "STORE" line
  | .free line _, s => s.compositeViolation "FREE" line
  | .scope line nodes, s => checkCompositePurity nodes (s.compositeViolation "SCOPE" line)
  | .assignment line _ e, s | .set line _ e, s | .branch line e _ _, s
  | .channelSend line _ e, s => checkWires line s e
  | .call line _ _ args _, s => args.foldl (checkWires line) s
  | .label _ _, s | .jump _ _, s | .discard _ _, s | .spawn _ _ _ _, s | .wait _ _ _, s
  | .waitAll _ _ _, s | .waitAny _ _ _ _, s | .channelClose _ _, s => s

/-- Report what the statements of a composite may not do. -/
def checkCompositePurity : List Node → Analyzer → Analyzer
  | [], s => s
  | node :: rest, s => checkCompositePurity rest (checkCompositeNode node s)

end

mutual

/-- Report a CALL in a leaf. -/
def checkLeafNode : Node → Analyzer → Analyzer
  | .call line _ behavior _ _, s => s.error (.leafCalls behavior) line
  | .assignment line _ (.call behavior _), s => s.error (.leafCalls behavior) line
  | .scope _ nodes, s => checkLeafNoCall nodes s
  | _, s => s

/-- Report the CALLs of a leaf. -/
def checkLeafNoCall : List Node → Analyzer → Analyzer
  | [], s => s
  | node :: rest, s => checkLeafNoCall rest (checkLeafNode node s)

end

end Analyzer

/-- An output a CALL produces: where it is bound, its name in a report, its
callee and the line. -/
structure Obligation where
  place : Place
  display : String
  behavior : String
  line : Nat
  deriving DecidableEq, Repr

/-- The places consumed, the assignment chains and the produced outputs of a
composition, and the errors of its bare CALLs. -/
structure Consumption where
  live : List Place := []
  edges : List (String × List Place) := []
  obligations : List Obligation := []
  dropped : List SemanticError := []

namespace Consumption

/-- Consume the places an expression references. -/
def sink (c : Consumption) (e : Expr) : Consumption :=
  { c with live := e.places.foldl (fun live p => live.insert p) c.live }

/-- A bare CALL drops its outputs; one with redirects obliges those that are no
OUTPUT of the composition. -/
def collectCall (ctx : AnalysisContext) (line : Nat) (behavior : String) (outputs : List String)
    (c : Consumption) : Consumption :=
  if outputs.isEmpty then
    match ctx.dependencyContracts.lookup behavior with
    | some callee => { c with dropped := c.dropped ++ callee.outputs.map fun o =>
        ⟨.unconsumedOutput behavior o.name, line,
          some "bare CALL drops this output; bind it and consume it, or DISCARD it"⟩ }
    | none => c
  else { c with obligations := c.obligations ++
    (outputs.filter fun o => !ctx.isOutput o).map fun o => ⟨(o, none), o, behavior, line⟩ }

/-- An assigned CALL obliges every output of the callee. -/
def collectResult (ctx : AnalysisContext) (line : Nat) (target behavior : String)
    (c : Consumption) : Consumption :=
  match ctx.dependencyContracts.lookup behavior with
  | some callee => { c with obligations := c.obligations ++ callee.outputs.map fun o =>
      ⟨(target, some o.name), target ++ "." ++ o.name, behavior, line⟩ }
  | none => c

/-- What one statement consumes and produces. -/
def collect (ctx : AnalysisContext) (c : Consumption) : Node → Consumption
  | .call line _ behavior args outputs => (args.foldl sink c).collectCall ctx line behavior outputs
  | .assignment line target (.call behavior args) =>
      (args.foldl sink c).collectResult ctx line target behavior
  | .assignment _ _ (.spawn _ args) => args.foldl sink c
  | .assignment _ target e => { c with edges := c.edges ++ [(target, e.places)] }
  | .branch _ e _ _ | .set _ _ e | .discard _ e | .channelSend _ _ e => c.sink e
  | .store _ _ value _ offset => offset.toList.foldl sink (c.sink value)
  | .spawn _ _ _ args => args.foldl sink c
  | .label _ _ | .scope _ _ | .jump _ _ | .free _ _ | .wait _ _ _ | .waitAll _ _ _
  | .waitAny _ _ _ _ | .channelClose _ _ => c

/-- Whether a variable, or a field of it, is consumed. -/
def targetLive (live : List Place) (target : String) : Bool :=
  (target, none) ∈ live || live.any fun p => p.1 = target && p.2.isSome

/-- One round over the assignment chains. -/
def propagateRound (edges : List (String × List Place)) (live : List Place) : List Place :=
  edges.foldl (fun live (target, places) =>
    if targetLive live target then places.foldl (fun live p => live.insert p) live else live) live

/-- Repeat rounds until one adds nothing. -/
def propagate (edges : List (String × List Place)) : Nat → List Place → List Place
  | 0, live => live
  | fuel + 1, live =>
      let next := propagateRound edges live
      if next.length = live.length then live else propagate edges fuel next

/-- Whether an obligation reaches a sink. -/
def consumed (live : List Place) (o : Obligation) : Bool :=
  o.place ∈ live || (o.place.2.isSome && (o.place.1, none) ∈ live)

end Consumption

/-- Report every output of a CALL that reaches no sink. A changing round adds a
place of some chain, which bounds the rounds. -/
def Analyzer.checkOutputsConsumed (nodes : List Node) (s : Analyzer) : Analyzer :=
  let c := nodes.foldl (Consumption.collect s.ctx) {}
  let live := Consumption.propagate c.edges ((c.edges.flatMap Prod.snd).length + 1) c.live
  let unconsumed := c.obligations.filter fun o => !Consumption.consumed live o
  { s with errors := s.errors ++ c.dropped ++ unconsumed.map fun o =>
      ⟨.unconsumedOutput o.behavior o.display, o.line, none⟩ }

end Sigil
