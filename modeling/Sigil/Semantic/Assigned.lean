import Sigil.Flow.Saturate
import Sigil.Semantic.InOrder
import Sigil.Semantic.Lifetime
import Sigil.Semantic.Bounds

/-!
# Definite assignment

The checker asks that a variable is bound somewhere in the text before its use. Where it looks
at the use, and no jump leads over the binding, an accepted body never uses a variable that was
not assigned. For the other uses a search says whether control can come to them past every
assignment.
-/

namespace Sigil

namespace Node

/-- The variables a statement gives a value, in whatever form. -/
def gives : Node → List String
  | set _ target _ => [target]
  | call _ target _ _ outputs => target.toList ++ outputs
  | node => node.assigned

/-- The variables whose binding the checker records. -/
def recorded : Node → List String
  | assignment _ target _ | call _ (some target) _ _ _ => [target]
  | _ => []

/-- The variables a statement reads by name: STORE and FREE targets, the handles of
WAITs, channels. -/
def handles : Node → List String
  | store _ target _ _ _ => [target]
  | free _ name => [name]
  | wait _ _ handle => [handle]
  | waitAll _ _ handles | waitAny _ _ _ handles => handles
  | channelSend _ channel _ | channelClose _ channel => [channel]
  | _ => []

/-- The variables a statement uses, at any depth. -/
def uses (node : Node) : List String :=
  node.handles ++ (node.operands.flatMap Expr.subexprs).flatMap Expr.ownNames

/-- The uses the checker looks up: not the handles of a WAIT statement, WAIT_ALL and
WAIT_ANY, nor what is in the arguments of a SPAWN statement or a CHANNEL capacity. -/
inductive LooksUp (node : Node) : String → Prop
  | handle {name : String} (reads : name ∈ node.handles)
      (noWait : node.storeTarget? = some name ∨ node.freed? = some name ∨
        ∃ line value, node = .channelSend line name value ∨ node = .channelClose line name) :
      LooksUp node name
  | operand {name : String} {e x : Expr} (operand : e ∈ node.validatedOperands)
      (visited : e.Visits x) (named : name ∈ x.ownNames) : LooksUp node name

end Node

/-- The names of the parameters of a contract. -/
def Contract.parameterNames (contract : Contract) : List String :=
  (contract.inputs ++ contract.outputs).map Parameter.name

/-- A variable was given a value by one of the executed statements. -/
def Assigned (nodes : List Node) (executed : List Nat) (name : String) : Prop :=
  ∃ j ∈ executed, Holds nodes (name ∈ ·.gives) j

/-- Statement `i`, about to run after `executed`, uses only parameters and variables
that were assigned. -/
def UsesAssigned (contract : Contract) (nodes : List Node) (executed : List Nat) (i : Nat) : Prop :=
  ∀ node name, nodes[i]? = some node → name ∈ node.uses →
    name ∈ contract.parameterNames ∨ Assigned nodes executed name

/-- No step of control leads from before a statement to behind it. -/
def Uncrossed (text : List Node) (j : Nat) : Prop := ∀ a b, b ∈ next text a → a < j → b ≤ j

/-- The checker looks up a use, and if the text before binds the variable then this body has a
binding of it before the use that no jump leads over. `earlier` is the text validated before
the body. -/
structure UseVisible (earlier text : List Node) (i : Nat) (node : Node) (name : String) : Prop where
  place : node.LooksUp name
  met : (∃ binder ∈ earlier ++ text.take i, name ∈ binder.recorded) →
    ∃ j < i, Holds text (name ∈ ·.recorded) j ∧ Uncrossed text j

/-- Where control can go on to without having been given a value of a variable. -/
def nextWithout (text : List Node) (name : String) (j : Nat) : List Nat :=
  match text[j]? with
  | some node => if name ∈ node.gives then [] else next text j
  | none => []

/-- Control can come from the entry to statement `i` past every assignment to a variable: a
search backward from the statement meets the entry. -/
def Bypasses (text : List Node) (name : String) (i : Nat) : Prop :=
  0 ∈ Flow.saturate (nextWithout text name) (List.range text.length) text.length [i]

instance (text : List Node) (name : String) (i : Nat) : Decidable (Bypasses text name i) :=
  inferInstanceAs (Decidable (_ ∈ _))

/-- No use of a variable that the checker does not see can be come to past every assignment. -/
def NoUnseenBypass (contract : Contract) (earlier text : List Node) : Prop :=
  ∀ i node name, text[i]? = some node → name ∈ node.uses → name ∉ contract.parameterNames →
    ¬ UseVisible earlier text i node name → ¬ Bypasses text name i

section Names

variable {ctx : AnalysisContext} {name : String}

/-- A defined variable exists, and so do those before. -/
theorem varExists_defineVar {target : String} {info : VarInfo} :
    (ctx.defineVar target info).varExists name = true ↔ name = target ∨ ctx.varExists name =
      true := by
  unfold AnalysisContext.varExists AnalysisContext.defineVar
  by_cases same : name = target
  · subst same
    simp
  · simp [AList.lookup_insert_ne same, same]

/-- A statement brings the names it records into existence. -/
theorem varExists_record {node : Node} :
    (ctx.record node).varExists name = true ↔
      name ∈ node.recorded ∨ ctx.varExists name = true := by
  cases node with
  | assignment line target e =>
      simp [AnalysisContext.record, Node.recorded, varExists_defineVar]
  | call line target behavior args outputs =>
      cases target <;> simp [AnalysisContext.record, Node.recorded, varExists_defineVar]
  | _ => simp [AnalysisContext.record, Node.recorded]

/-- A text makes known the names it records. -/
theorem varExists_foldl_track (text : List Node) :
    (text.foldl AnalysisContext.track ctx).varExists name = true ↔
      (∃ binder ∈ text, name ∈ binder.recorded) ∨ ctx.varExists name = true := by
  induction text generalizing ctx with
  | nil => simp
  | cons node rest ih =>
      rw [List.foldl_cons, ih, ← (AnalysisContext.agree_track ctx node).varExists,
        varExists_record]
      simp only [List.mem_cons, exists_eq_or_imp]
      rw [or_assoc, or_left_comm]

/-- The parameters exist. -/
theorem varExists_parameters {add : AnalysisContext → Parameter → AnalysisContext}
    (adds : ∀ ctx param, (add ctx param).varExists name = true ↔
      name = param.name ∨ ctx.varExists name = true) (params : List Parameter) :
    (params.foldl add ctx).varExists name = true ↔
      name ∈ params.map Parameter.name ∨ ctx.varExists name = true := by
  induction params generalizing ctx with
  | nil => simp
  | cons param rest ih =>
      rw [List.foldl_cons, ih, adds, List.map_cons, List.mem_cons]
      tauto

/-- Validation starts with the parameters as the only names. -/
theorem varExists_labelled (sha256 : List UInt8 → List UInt8) (behavior : Behavior)
    (dependencies : Contracts) (patterns : List String) :
    (behavior.labelled sha256 dependencies patterns).ctx.varExists name = true ↔
      name ∈ behavior.contract.parameterNames := by
  have input : ∀ (ctx : AnalysisContext) (param : Parameter),
      (ctx.addInput param).varExists name = true ↔
        name = param.name ∨ ctx.varExists name = true := fun _ _ => varExists_defineVar
  have output : ∀ (ctx : AnalysisContext) (param : Parameter),
      (ctx.addOutput param).varExists name = true ↔
        name = param.name ∨ ctx.varExists name = true := fun _ _ => varExists_defineVar
  rw [AnalysisContext.varExists, Behavior.vars_labelled, ← AnalysisContext.varExists,
    AnalysisContext.new, varExists_parameters output, varExists_parameters input,
    Contract.parameterNames, List.map_append, List.mem_append, or_comm]
  simp [AnalysisContext.varExists]

end Names

section Soundness

variable {behavior : Behavior} {sha256 : List UInt8 → List UInt8} {dependencies : Contracts}
  {patterns : List String} {earlier nodes : List Node}

/-- A variable that the checker looks up and finds is known to it. -/
theorem Node.LooksUp.known {ctx : AnalysisContext} {node : Node} {name : String}
    (looksUp : node.LooksUp name) (valid : node.Valid ctx) (free : node.FreeChecks ctx) :
    ctx.varExists name = true := by
  cases looksUp with
  | handle reads noWait =>
      cases node with
      | store line target value size offset =>
          obtain rfl : name = target := by simpa [handles] using reads
          exact valid.own.1
      | free line freed =>
          obtain rfl : name = freed := by simpa [handles] using reads
          obtain ⟨info, known, _⟩ := free
          exact Option.isSome_of_eq_some known
      | channelSend line channel value =>
          obtain rfl : name = channel := by simpa [handles] using reads
          exact valid.own.1
      | channelClose line channel =>
          obtain rfl : name = channel := by simpa [handles] using reads
          exact valid.own
      | _ => simp [storeTarget?, freed?] at noWait
  | operand operand visited named =>
      have checked := valid.operands _ operand _ visited
      revert named
      cases ‹Expr› with
      | var _ | wait _ | channelReceive _ =>
          intro named
          obtain rfl := List.mem_singleton.mp named
          exact checked
      | _ => simp [Expr.ownNames]

/-- What the checker records of a statement it gives a value. -/
theorem Node.gives_of_recorded {node : Node} {name : String} (recorded : name ∈ node.recorded) :
    name ∈ node.gives := by
  cases node with
  | call line target behavior args outputs =>
      cases target <;> simp_all [Node.recorded, Node.gives]
  | assignment line target e => simpa [Node.recorded, Node.gives, Node.assigned] using recorded
  | _ => simp [Node.recorded] at recorded

/-- A step past an assignment is a step. -/
theorem mem_next_of_without {text : List Node} {name : String} {a b : Nat}
    (edge : b ∈ nextWithout text name a) : b ∈ next text a := by
  unfold nextWithout at edge
  split at edge
  · split_ifs at edge
    · cases edge
    · exact edge
  · cases edge

/-- A walk that does not give the variable a value is one of the search. -/
theorem walk_without {text : List Node} {name : String} {a i : Nat} {before : List Nat}
    (walk : ControlWalk text a i (before ++ [i]))
    (quiet : ∀ j ∈ before, ¬ Holds text (name ∈ ·.gives) j) :
    Flow.Walk (fun a b => b ∈ nextWithout text name a) a i (before ++ [i]) := by
  induction before generalizing a with
  | nil =>
      obtain rfl := walk.source_eq
      exact .single a
  | cons v before ih =>
      obtain rfl := walk.source_eq
      obtain ⟨b, edge, rest⟩ := walk.tail (by simp)
      refine .cons ?_ (ih rest fun j member => quiet j (List.mem_cons_of_mem a member))
      unfold nextWithout
      cases at_ : text[a]? with
      | none => simp [next, at_] at edge
      | some node =>
          have silent : name ∉ node.gives := fun gives =>
            quiet a List.mem_cons_self ⟨node, at_, gives⟩
          simpa [silent] using edge

/-- The search finds the statements that control can come to past every assignment. -/
theorem bypasses_iff {text : List Node} {name : String} {i : Nat} (inside : i < text.length) :
    Bypasses text name i ↔
      ∃ before, ControlWalk text 0 i (before ++ [i]) ∧ ¬ Assigned text before name := by
  have found : Bypasses text name i ↔
      ∃ w ∈ [i], Relation.ReflTransGen (fun a b => b ∈ nextWithout text name a) 0 w := by
    refine Flow.mem_saturate_iff (List.nodup_singleton i) (fun v member => ⟨v, member, .refl⟩)
      (fun _ => id)
      (fun v member => ?_) (by simp) fun v leads => ?_
    · obtain rfl := List.mem_singleton.mp member
      exact List.mem_range.mpr inside
    · by_contra outside
      have past : text[v]? = none := List.getElem?_eq_none (by simpa using outside)
      exact leads (by rw [nextWithout, past])
  rw [found]
  simp only [List.mem_singleton, exists_eq_left]
  rw [← Flow.Walk.exists_iff_reflTransGen]
  constructor
  · rintro ⟨visited, walk⟩
    obtain ⟨before, rfl⟩ := walk.last
    refine ⟨before, ?_, ?_⟩
    · have same := walk.map (S := fun a b => b ∈ next text a) id fun edge =>
        mem_next_of_without edge
      simpa using same
    · rintro ⟨j, member, node, at_, gives⟩
      obtain ⟨front, back, rfl⟩ := List.append_of_mem member
      rw [List.append_assoc, List.cons_append] at walk
      obtain ⟨b, edge, -⟩ := walk.split.2.tail (by simp)
      rw [nextWithout, at_] at edge
      simp [gives] at edge
  · rintro ⟨before, walk, unassigned⟩
    exact ⟨_, walk_without walk fun j member gives => unassigned ⟨j, member, gives⟩⟩

/-- A walk from the entry to behind a statement that no step leads over has executed it. -/
theorem mem_of_uncrossed {text : List Node} {a i j : Nat} {before : List Nat}
    (uncrossed : Uncrossed text j)
    (walk : ControlWalk text a i (before ++ [i])) (from_ : a ≤ j) (behind : j < i) :
      j ∈ before := by
  induction before generalizing a with
  | nil =>
      obtain rfl := walk.source_eq
      omega
  | cons v before ih =>
      obtain rfl := walk.source_eq
      obtain rfl | earlier := Nat.eq_or_lt_of_le from_
      · exact List.mem_cons_self
      · obtain ⟨b, edge, rest⟩ := walk.tail (by simp)
        exact List.mem_cons_of_mem _ (ih rest (uncrossed a b edge earlier))

/-- An accepted body uses on every walk only what was assigned exactly when control can come to
no use past every assignment that the checker does not see. -/
theorem usesAssigned_iff_noUnseenBypass (accepted : behavior.Accepted sha256 dependencies patterns)
    (text : behavior.HasText earlier nodes) :
    AlongWalks nodes (UsesAssigned behavior.contract nodes) ↔
      NoUnseenBypass behavior.contract earlier nodes := by
  constructor
  · intro safe i node name at_ uses parameter _ bypasses
    obtain ⟨before, walk, unassigned⟩ :=
      (bypasses_iff (List.getElem?_eq_some_iff.mp at_).1).mp bypasses
    obtain known | assigned := safe i _ walk before i [] rfl node name at_ uses
    · exact parameter known
    · exact unassigned assigned
  · rintro none_ target visited walk before i after rfl node name at_ uses
    by_cases parameter : name ∈ behavior.contract.parameterNames
    · exact .inl parameter
    have here := walk.split.1
    refine .inr (by_contra fun unassigned => ?_)
    have bypasses := (bypasses_iff (List.getElem?_eq_some_iff.mp at_).1).mpr
      ⟨before, here, unassigned⟩
    by_cases visible : UseVisible earlier nodes i node name
    · obtain ⟨valid, free⟩ := (accepted.allChecked text).at at_
      have known := visible.place.known valid free
      rw [← List.foldl_append, varExists_foldl_track, varExists_labelled] at known
      obtain ⟨j, below, ⟨binder, there, recorded⟩, uncrossed⟩ :=
        visible.met (known.resolve_right parameter)
      exact unassigned ⟨j, mem_of_uncrossed uncrossed here (Nat.zero_le j) below, binder, there,
        Node.gives_of_recorded recorded⟩
    · exact none_ i node name at_ uses parameter visible bypasses

end Soundness

/-- `x = 1`, `LABEL again`, `x = IADD x 1 8`, `BRANCH x again done`, `LABEL done`, `y = x`. -/
def countUp : List Node :=
  [.assignment 1 "x" (.intLit 1), .label 2 "again",
    .assignment 3 "x" (.intArith .add (.var "x") (.intLit 1) 8),
    .branch 4 (.var "x") "again" "done", .label 5 "done", .assignment 6 "y" (.var "x")]

/-- A loop that counts up. -/
theorem usesAssigned_iff_noUnseenBypass_countUp :
    AlongWalks (inlineScopes countUp) (UsesAssigned (leaf countUp).contract
      (inlineScopes countUp)) := by
  have accepted : (leaf countUp).Accepted (fun _ => []) ∅ [] :=
    Behavior.accepted_of_noHash (by decide) (by decide)
  refine (usesAssigned_iff_noUnseenBypass accepted (.implementation rfl)).mpr ?_
  intro i node name at_ uses _ _
  have inside : i < 6 := (List.getElem?_eq_some_iff.mp at_).1
  interval_cases i <;> obtain rfl := Option.some.inj at_ <;>
    simp [Node.uses, Node.handles, Node.operands, Expr.subexprs, Expr.ownNames] at uses
      <;> subst uses <;> decide

/-- `BRANCH 1 skip set`, `LABEL set`, `x = 1`, `LABEL skip`, `y = IADD x 1 8`. -/
def skipAssignment : List Node :=
  [.branch 1 (.intLit 1) "skip" "set", .label 2 "set", .assignment 3 "x" (.intLit 1),
    .label 4 "skip", .assignment 5 "y" (.intArith .add (.var "x") (.intLit 1) 8)]

/-- The BRANCH leads past the only assignment to `x`. -/
theorem skipAssignment_accepted_and_unassigned :
    (∀ sha256, (leaf skipAssignment).Accepted sha256 ∅ []) ∧
      ¬ AlongWalks (inlineScopes skipAssignment)
        (UsesAssigned (leaf skipAssignment).contract (inlineScopes skipAssignment)) := by
  refine ⟨fun _ => Behavior.accepted_of_noHash (by decide) (by decide), fun safe => ?_⟩
  have walk : ControlWalk (inlineScopes skipAssignment) 0 4 [0, 3, 4] :=
    .cons (by decide) (.cons (by decide) (.single 4))
  have uses := safe 4 _ walk [0, 3] 4 [] rfl _ "x" rfl
    (by simp [Node.uses, Node.handles, Node.operands, Expr.subexprs, Expr.ownNames])
  rcases uses with parameter | ⟨j, executed, node, at_, gives⟩
  · simp [Contract.parameterNames, leaf] at parameter
  · fin_cases executed <;> obtain rfl := Option.some.inj at_ <;>
      simp [Node.gives, Node.assigned] at gives

end Sigil
