import Sigil.Cfg.Graph

/-!
# Control flow of a flat body

`next` steps from statement to statement: JUMP to its label, BRANCH to either
label, anything else to the following index; the index past the end is where a
body finishes. This is the control flow a body has by itself, before any block
is cut.
-/

namespace Sigil

namespace Node

/-- The name a LABEL statement defines. -/
def labelName? : Node → Option String
  | .label _ name => some name
  | _ => none

/-- The labels a statement transfers control to. -/
def jumpTargets : Node → List String
  | .jump _ target => [target]
  | .branch _ _ trueLabel falseLabel => [trueLabel, falseLabel]
  | _ => []

/-- Whether a statement is a JUMP or a BRANCH. -/
def transfers : Node → Bool
  | .jump _ _ | .branch _ _ _ _ => true
  | _ => false

def isScope : Node → Bool
  | .scope _ _ => true
  | _ => false

end Node

/-- Index of the LABEL statement that defines a name. -/
def labelIndex (nodes : List Node) (name : String) : Option Nat :=
  nodes.findIdx? fun node => node.labelName? = some name

/-- The statement indices control can reach from index `i` in one step. -/
def next (nodes : List Node) (i : Nat) : List Nat :=
  match nodes[i]? with
  | some (.jump _ target) => (labelIndex nodes target).toList
  | some (.branch _ _ trueLabel falseLabel) =>
      (labelIndex nodes trueLabel).toList ++ (labelIndex nodes falseLabel).toList
  | some _ => [i + 1]
  | none => []

/-- A walk of the control flow. The last index is where control stands now, the
indices before it have been executed. -/
abbrev ControlWalk (nodes : List Node) : Nat → Nat → List Nat → Prop :=
  Flow.Walk fun i j => j ∈ next nodes i

/-- A body without SCOPE whose labels are unique and whose targets are defined. -/
structure FlatBody (nodes : List Node) : Prop where
  flat : ∀ node ∈ nodes, node.isScope = false
  unique : (nodes.filterMap Node.labelName?).Nodup
  defined : ∀ node ∈ nodes, ∀ name ∈ node.jumpTargets,
    name ∈ nodes.filterMap Node.labelName?

instance (nodes : List Node) : Decidable (FlatBody nodes) :=
  decidable_of_iff
    ((∀ node ∈ nodes, node.isScope = false) ∧ (nodes.filterMap Node.labelName?).Nodup ∧
      ∀ node ∈ nodes, ∀ name ∈ node.jumpTargets, name ∈ nodes.filterMap Node.labelName?)
    ⟨fun ⟨flat, unique, defined⟩ => ⟨flat, unique, defined⟩,
      fun body => ⟨body.flat, body.unique, body.defined⟩⟩

/-- A flat body is its own flattening. -/
theorem flattenScopes_of_flat {nodes : List Node}
    (flat : ∀ node ∈ nodes, node.isScope = false) : flattenScopes nodes = nodes := by
  induction nodes with
  | nil => rfl
  | cons node rest ih =>
      have restFlat := ih fun other member => flat other (List.mem_cons_of_mem _ member)
      have nodeFlat := flat node List.mem_cons_self
      cases node <;> simp_all [flattenScopes, flattenScope, Node.isScope]

namespace FlatBody

variable {nodes : List Node} {name : String} {i j : Nat}

/-- Labels are unique: two LABEL statements of one name are one statement. -/
theorem label_unique (body : FlatBody nodes) {left right : Node}
    (leftAt : nodes[i]? = some left) (rightAt : nodes[j]? = some right)
    (leftName : left.labelName? = some name) (rightName : right.labelName? = some name) :
    i = j := by
  have pairwise := List.pairwise_filterMap.mp body.unique
  by_contra different
  rcases Nat.lt_or_gt_of_ne different with before | after
  · have apart := List.pairwise_iff_getElem.mp pairwise i j
      (List.getElem?_eq_some_iff.mp leftAt).1 (List.getElem?_eq_some_iff.mp rightAt).1 before
    rw [(List.getElem?_eq_some_iff.mp leftAt).2, (List.getElem?_eq_some_iff.mp rightAt).2] at apart
    exact apart name leftName name rightName rfl
  · have apart := List.pairwise_iff_getElem.mp pairwise j i
      (List.getElem?_eq_some_iff.mp rightAt).1 (List.getElem?_eq_some_iff.mp leftAt).1 after
    rw [(List.getElem?_eq_some_iff.mp leftAt).2, (List.getElem?_eq_some_iff.mp rightAt).2] at apart
    exact apart name rightName name leftName rfl

/-- `labelIndex` finds exactly the LABEL statement of a name. -/
theorem labelIndex_eq_some_iff (body : FlatBody nodes) :
    labelIndex nodes name = some i ↔
      ∃ node, nodes[i]? = some node ∧ node.labelName? = some name := by
  constructor
  · intro found
    obtain ⟨inRange, isLabel, _⟩ := List.findIdx?_eq_some_iff_getElem.mp found
    exact ⟨nodes[i], List.getElem?_eq_getElem inRange, by simpa using isLabel⟩
  · rintro ⟨node, at_, isLabel⟩
    cases found : labelIndex nodes name with
    | none =>
        have noLabel := List.findIdx?_eq_none_iff.mp found node (List.mem_of_getElem? at_)
        simp [isLabel] at noLabel
    | some k =>
        obtain ⟨inRange, label, _⟩ := List.findIdx?_eq_some_iff_getElem.mp found
        rw [body.label_unique (List.getElem?_eq_getElem inRange) at_ (by simpa using label) isLabel]

/-- Every target of a JUMP or BRANCH has a LABEL. -/
theorem target_defined (body : FlatBody nodes) {node : Node} (at_ : nodes[i]? = some node)
    (target : name ∈ node.jumpTargets) : ∃ j, labelIndex nodes name = some j := by
  have present := body.defined node (List.mem_of_getElem? at_) name target
  obtain ⟨label, member, isLabel⟩ := List.mem_filterMap.mp present
  obtain ⟨j, inRange, rfl⟩ := List.getElem_of_mem member
  exact ⟨j, body.labelIndex_eq_some_iff.mpr ⟨_, List.getElem?_eq_getElem inRange, isLabel⟩⟩

/-- A statement that does not transfer control falls through. -/
theorem next_of_not_transfers {node : Node} (at_ : nodes[i]? = some node)
    (plain : node.transfers = false) : next nodes i = [i + 1] := by
  cases node <;> simp_all [next, Node.transfers]

end FlatBody

end Sigil
