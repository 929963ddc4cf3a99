import Sigil.Semantic.Bounds
import Sigil.Semantic.Effects
import Sigil.Semantic.Separation

/-!
# Pure leaves

`regions` is whose memory the names denote in the code of a statement: the code generator binds
names in the order of the text. `effects` is what the statement then does to memory, channels
and tasks. The analyzer looks for CHANNEL operations and for STOREs to names that are no OUTPUT,
and at no other effect.
-/

namespace Sigil

/-- Whose memory a value denotes. A plain value used as an address may be anyone's. -/
inductive Region where
  | input
  | output
  | own
  | anywhere
  deriving DecidableEq, Repr

/-- Memory that a pure behavior may write. -/
def Region.Writable (region : Region) : Prop := region = .output ∨ region = .own

/-- The memory that expressions bring. A literal is a constant of the module. -/
def Region.sources : Sources Region := ⟨fun _ _ => .own, .own, .anywhere⟩

/-- The statements of a body in textual order, with the SCOPEs they stand in. -/
def textSpots (nodes : List Node) : List Spot := (spots nodes).filter fun spot => !spot.synthetic

mutual

/-- Without the ends of scopes the spots spell the text. -/
theorem map_textSpotsIn (path : List Nat) (k : Nat) (nodes : List Node) :
    ((spotsIn path k nodes).filter fun spot => !spot.synthetic).map Spot.node =
      inlineScopes nodes := by
  cases nodes with
  | nil => rfl
  | cons node rest =>
      rw [spotsIn, List.filter_append, List.map_append, map_textSpotsOf path k node,
        map_textSpotsIn path (k + 1) rest, inlineScopes]

/-- Without the ends of scopes the spots of a statement spell it. -/
theorem map_textSpotsOf (path : List Nat) (k : Nat) (node : Node) :
    ((spotsOf path k node).filter fun spot => !spot.synthetic).map Spot.node =
      inlineScope node := by
  cases node with
  | scope line inner =>
      rw [spotsOf, List.filter_append, List.map_append, map_textSpotsIn (k :: path) 0 inner,
        inlineScope]
      simp [List.filter_map, Function.comp_def]
  | _ => rfl

end

/-- The places are those of the statements of the body with its SCOPEs spliced in. -/
theorem map_textSpots (nodes : List Node) : (textSpots nodes).map Spot.node = inlineScopes nodes :=
  map_textSpotsIn [] 0 nodes

/-- Whose memory the names denote in the code of statement `i`. -/
def regions (contract : Contract) (nodes : List Node) (i : Nat) : NameMap Region :=
  .after Region.sources (collectReassigned nodes)
    (.ofParameters (contract.inputs.map (fun param => (param.name, Region.input)) ++
      contract.outputs.map fun param => (param.name, Region.output)))
    (textSpots nodes) (List.range i) i

/-- What running a statement does besides computing: a STORE through a name, another write
into memory, the use of a channel or of a task, a CALL. -/
inductive Effect where
  | store (target : String) (region : Region)
  | write (region : Region)
  | channel
  | task
  | call (behavior : String)
  deriving DecidableEq, Repr

/-- The effect of an expression besides those of its operands. -/
def Expr.ownEffects (names : NameMap Region) : Expr → List Effect
  | .atomicStore target _ _ | .atomicRmw _ target _ _ | .cas target _ _ _ =>
      [.write ((names.valueOf Region.sources target).getD .anywhere)]
  | .channel _ _ | .channelReceive _ => [.channel]
  | .spawn _ _ | .wait _ => [.task]
  | .call behavior _ => [.call behavior]
  | _ => []

/-- The effects of a statement besides those of its operands. SET and `->` write where a name is
bound to memory, FREE releases only what the SCOPEs of the behavior own. -/
def Node.ownEffects (names : NameMap Region) : Node → List Effect
  | .store _ target _ _ _ => [.store target ((names.lookup target).getD .anywhere)]
  | .set _ target _ => (names.bound target).toList.map .write
  | .channelSend _ _ _ | .channelClose _ _ => [.channel]
  | .spawn _ _ _ _ | .wait _ _ _ | .waitAll _ _ _ | .waitAny _ _ _ _ => [.task]
  | .call _ (some _) behavior _ _ => [.call behavior]
  | .call _ none behavior _ outputs => .call behavior :: (outputs.filterMap names.bound).map .write
  | .label _ _ | .scope _ _ | .branch _ _ _ _ | .jump _ _ | .discard _ _ | .assignment _ _ _
  | .free _ _ => []

/-- Everything running a statement does. -/
def Node.effects (names : NameMap Region) (node : Node) : List Effect :=
  node.ownEffects names ++ (node.operands.flatMap Expr.subexprs).flatMap (Expr.ownEffects names)

/-- A behavior that promises to be pure, by its contract. -/
def PromisesPure (dependencies : Contracts) (behavior : String) : Prop :=
  ∃ contract, dependencies.lookup behavior = some contract ∧ Guarantee.pure ∈ contract.guarantees

/-- An effect that a pure behavior may have. -/
def Effect.Harmless (dependencies : Contracts) : Effect → Prop
  | .store _ region | .write region => region.Writable
  | .channel | .task => False
  | .call behavior => PromisesPure dependencies behavior

/-- An effect is harmless unless the analyzer looks for it: it need not be if it is on a
channel, and if it is a STORE only when the name is an OUTPUT. -/
def Effect.HarmlessUnseen (contract : Contract) (dependencies : Contracts) : Effect → Prop
  | .store target region => target ∈ contract.outputs.map Parameter.name → region.Writable
  | .channel => True
  | effect => effect.Harmless dependencies

/-- Statement `i` modifies no memory but that of OUTPUTs and of its own, and touches no channel
and no task. -/
def PureAt (contract : Contract) (dependencies : Contracts) (nodes : List Node) (i : Nat) : Prop :=
  ∀ node effect, (inlineScopes nodes)[i]? = some node →
    effect ∈ node.effects (regions contract nodes i) →
    effect.Harmless dependencies

/-- What statement `i` does unseen by the analyzer is harmless: a STORE through the name of
an OUTPUT still finds memory of an OUTPUT or of its own there, so does every SET into memory
and atomic write, there is no SPAWN and no WAIT, and every CALL is to a behavior that
promises to be pure. -/
def PureUnseenAt (contract : Contract) (dependencies : Contracts) (nodes : List Node)
    (i : Nat) : Prop :=
  ∀ node effect, (inlineScopes nodes)[i]? = some node →
    effect ∈ node.effects (regions contract nodes i) →
    effect.HarmlessUnseen contract dependencies

/-- A behavior uses no pattern MEMORY, and every step of its walks is pure. -/
def PureOnWalks (contract : Contract) (dependencies : Contracts) (nodes : List Node) : Prop :=
  contract.requires.memory = [] ∧
    AlongWalks (inlineScopes nodes) fun _ i => PureAt contract dependencies nodes i

section Noted

variable {e x : Expr} {node : Node}

/-- A CHANNEL operation anywhere in an expression is one that validation reaches, or inside
of one. -/
theorem Expr.opsChannel_of_subexprs {names : NameMap Region} (inside : x ∈ e.subexprs)
    (isChannel : Effect.channel ∈ x.ownEffects names) : e.opsChannel = true := by
  have ofList : ∀ es : List Expr,
      (∀ e ∈ es, x ∈ e.subexprs → e.opsChannel = true) → x ∈ es.flatMap subexprs →
        anyOpsChannel es = true := by
    intro es each member
    induction es with
    | nil => cases member
    | cons e rest ih =>
        rw [List.flatMap_cons, List.mem_append] at member
        rw [anyOpsChannel, Bool.or_eq_true]
        refine member.imp (each e List.mem_cons_self) fun later => ih (fun e listed =>
          each e (List.mem_cons_of_mem _ listed)) later
  induction e using Expr.inductionOnChildren with
  | step e ih =>
      rw [Expr.subexprs_eq, List.mem_cons] at inside
      obtain rfl | below := inside
      · cases x <;> simp_all [Expr.ownEffects, Expr.opsChannel]
      · have children := ofList e.children (fun child member within => ih child member within) below
        cases e with
        | load source size offset =>
            cases offset <;> simpa [Expr.children, Expr.opsChannel, anyOpsChannel] using children
        | call _ args | spawn _ args => simpa [Expr.children, Expr.opsChannel] using children
        | channel _ _ => rfl
        | intLit _ | floatLit _ | stringLit _ | var _ | channelReceive _ | wait _ => cases below
        | _ => simpa [Expr.children, Expr.opsChannel, anyOpsChannel, Bool.or_assoc] using children

/-- One channel operation is some channel operation. -/
theorem anyOpsChannel_of_mem {es : List Expr} (member : e ∈ es) (ops : e.opsChannel = true) :
    anyOpsChannel es = true := by
  induction es with
  | nil => cases member
  | cons first rest ih =>
      rw [anyOpsChannel, Bool.or_eq_true]
      obtain rfl | later := List.mem_cons.mp member
      · exact .inl ops
      · exact .inr (ih later)

mutual

/-- A body operates on a channel where one of its statements does. -/
theorem opsChannel_of_inlineScope (node : Node) {inner : Node} (member : inner ∈ inlineScope node)
    (ops : inner.opsChannel = true) : node.opsChannel = true := by
  cases node with
  | scope line nodes => exact bodyOpsChannel_of_inlineScopes nodes member ops
  | _ =>
      obtain rfl := List.mem_singleton.mp member
      exact ops

/-- A channel operation inside a scope is one of the body. -/
theorem bodyOpsChannel_of_inlineScopes (nodes : List Node) {inner : Node}
    (member : inner ∈ inlineScopes nodes) (ops : inner.opsChannel = true) :
    bodyOpsChannel nodes = true := by
  cases nodes with
  | nil => cases member
  | cons node rest =>
      rw [bodyOpsChannel, Bool.or_eq_true]
      obtain here | later := List.mem_append.mp member
      · exact .inl (opsChannel_of_inlineScope node here ops)
      · exact .inr (bodyOpsChannel_of_inlineScopes rest later ops)

end

mutual

/-- A body has a STORE to another name where one of its statements is one. -/
theorem storesOther_of_inlineScope {outputs : AList fun _ : String => Parameter} (node : Node)
    {inner : Node} (member : inner ∈ inlineScope node) (stores : inner.storesOther outputs = true) :
    node.storesOther outputs = true := by
  cases node with
  | scope line nodes => exact bodyStoresOther_of_inlineScopes nodes member stores
  | _ =>
      obtain rfl := List.mem_singleton.mp member
      exact stores

/-- A STORE inside a scope is one of the body. -/
theorem bodyStoresOther_of_inlineScopes {outputs : AList fun _ : String => Parameter}
    (nodes : List Node) {inner : Node} (member : inner ∈ inlineScopes nodes)
    (stores : inner.storesOther outputs = true) : bodyStoresOther outputs nodes = true := by
  cases nodes with
  | nil => cases member
  | cons node rest =>
      rw [bodyStoresOther, Bool.or_eq_true]
      obtain here | later := List.mem_append.mp member
      · exact .inl (storesOther_of_inlineScope node here stores)
      · exact .inr (bodyStoresOther_of_inlineScopes rest later stores)

end

/-- A statement that uses a channel is one the analyzer takes note of, unless it is a SPAWN
statement, whose arguments it does not look at. -/
theorem Node.opsChannel_of_effects {names : NameMap Region}
    (uses : Effect.channel ∈ node.effects names) :
    node.opsChannel = true ∨ Effect.task ∈ node.effects names := by
  have operands : ∀ {es : List Expr}, Effect.channel ∈ (es.flatMap Expr.subexprs).flatMap
      (Expr.ownEffects names) → anyOpsChannel es = true := by
    intro es member
    obtain ⟨x, inside, isChannel⟩ := List.mem_flatMap.mp member
    obtain ⟨e, listed, within⟩ := List.mem_flatMap.mp inside
    exact anyOpsChannel_of_mem listed (Expr.opsChannel_of_subexprs within isChannel)
  obtain own | inside := List.mem_append.mp uses
  · cases node with
    | channelSend _ _ _ | channelClose _ _ => exact .inl rfl
    | call line target behavior args outputs => cases target <;> simp [Node.ownEffects] at own
    | _ => simp [Node.ownEffects] at own
  · have ops := operands inside
    cases node with
    | spawn _ _ _ _ | wait _ _ _ | waitAll _ _ _ | waitAny _ _ _ _ =>
        exact .inr (List.mem_append_left _ (List.mem_singleton_self _))
    | channelSend _ _ _ | channelClose _ _ => exact .inl rfl
    | store line target value size offset => cases offset <;> exact .inl ops
    | label _ _ | scope _ _ | jump _ _ | discard _ _ | free _ _ => cases ops
    | _ => exact .inl ops

/-- Only a STORE statement stores. -/
theorem Node.storesOther_of_effects {names : NameMap Region} {target : String} {region : Region}
    (stores : Effect.store target region ∈ node.effects names)
    {outputs : AList fun _ : String => Parameter} (other : outputs.lookup target = none) :
    node.storesOther outputs = true := by
  obtain own | inside := List.mem_append.mp stores
  · cases node with
    | store line target' value size offset =>
        cases List.mem_singleton.mp own
        simp [Node.storesOther, other]
    | call line target' behavior args outputs => cases target' <;> simp [Node.ownEffects] at own
    | _ => simp [Node.ownEffects] at own
  · obtain ⟨x, _, effect⟩ := List.mem_flatMap.mp inside
    cases x <;> simp [Expr.ownEffects] at effect

end Noted

section Soundness

variable {behavior : Behavior} {sha256 : List UInt8 → List UInt8} {dependencies : Contracts}
  {patterns : List String} {nodes : List Node}

/-- In an accepted leaf that promises to be pure, a statement keeps the promise exactly when
what the analyzer does not look for is harmless. -/
theorem pureAt_iff_unseen (accepted : behavior.Accepted sha256 dependencies patterns)
    (leaf : behavior.compBody = none) (body : behavior.implBody = some nodes)
    (promised : .pure ∈ behavior.contract.guarantees) {i : Nat} :
    PureAt behavior.contract dependencies nodes i ↔
      PureUnseenAt behavior.contract dependencies nodes i := by
  obtain ⟨_, noChannel, noStore⟩ := accepted.pureLeaf leaf body promised
  constructor
  · intro pure node effect at_ member
    have harmless := pure node effect at_ member
    cases effect with
    | store target region => exact fun _ => harmless
    | channel => trivial
    | write _ | task | call _ => exact harmless
  · intro unseen node effect at_ member
    have listed := List.mem_of_getElem? at_
    have harmless := unseen node effect at_ member
    cases effect with
    | write _ | task | call _ => exact harmless
    | store target region =>
        by_cases known : target ∈ behavior.contract.outputs.map Parameter.name
        · exact harmless known
        · have stores := Node.storesOther_of_effects member
            (@Behavior.lookup_outputs_new behavior dependencies patterns target |>.mpr known)
          have noted := bodyStoresOther_of_inlineScopes nodes listed stores
          exact absurd (noted.symm.trans noStore) (by decide)
    | channel =>
        obtain ops | task := Node.opsChannel_of_effects member
        · have noted := bodyOpsChannel_of_inlineScopes nodes listed ops
          exact absurd (noted.symm.trans noChannel) (by decide)
        · exact unseen node .task at_ task

end Soundness

/-- A leaf with one INPUT and one OUTPUT that promises to be pure. -/
def pureLeaf (nodes : List Node) : Behavior where
  name := "leaf"
  contract := { inputs := [⟨"a", .int, 8⟩], outputs := [⟨"r", .int, 8⟩], guarantees := [.pure] }
  hash := ""
  implementations := [⟨none, nodes⟩]
  composition := none

/-- `x = LOAD a 8`, `SCOPE`, `h = ALLOC 8 int`, `y = ATOMIC_STORE h x 8`, `END_SCOPE`, `STORE r
x 8`. -/
def copyInput : List Node :=
  [.assignment 1 "x" (.load (.var "a") 8 none),
    .scope 2 [.assignment 3 "h" (.alloc (.intLit 8) .int true),
      .assignment 4 "y" (.atomicStore (.var "h") (.var "x") 8)],
    .store 5 "r" (.var "x") 8 none]

/-- `x = ATOMIC_STORE a 1 8`, `SET r 0`. -/
def storeIntoInput : List Node :=
  [.assignment 1 "x" (.atomicStore (.var "a") (.intLit 1) 8), .set 2 "r" (.intLit 0)]

/-- `r = a`, `SCOPE`, `h = ALLOC 8 int`, `r = h`, `END_SCOPE`, `STORE r 1 8`. -/
def reboundOutput : List Node :=
  [.assignment 1 "r" (.var "a"),
    .scope 2 [.assignment 3 "h" (.alloc (.intLit 8) .int false), .assignment 4 "r" (.var "h")],
    .store 5 "r" (.intLit 1) 8 none]

-- Behind END_SCOPE the name of the OUTPUT is again that of the INPUT.
example : (regions (pureLeaf reboundOutput).contract reboundOutput 3).lookup "r" =
  some .input := by rfl

end Sigil
