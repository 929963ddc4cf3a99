import Sigil.Codegen.Branches
import Sigil.Codegen.Confined

/-!
# Code for bodies with jumps

A body that binds no name: STORE, SET of memory, DISCARD, LABEL, JUMP and BRANCH. Its
statements are executed from one to the next or on from a label, as often as they ask for;
the code does the same.
-/

namespace Sigil

open Flow Relation

/-- STORE, SET of a name bound to memory, DISCARD, LABEL, JUMP and BRANCH. -/
def CodeGen.Steady (cg : CodeGen) : Node → Prop
  | .store _ _ _ _ _ | .discard _ _ | .label _ _ | .jump _ _ | .branch _ _ _ _ => True
  | .set _ target _ => ∃ h, cg.vars.lookup target = some (.handle h)
  | _ => False

def Node.labelName : Node → Option String
  | .label _ name => some name
  | _ => none

/-- The statements behind a label. -/
def behind (name : String) : List Node → Option (List Node)
  | [] => none
  | node :: rest => if node.labelName = some name then some rest else behind name rest

/-- The statements still to be executed, and memory. -/
abbrev Point := List Node × AddressSpace

/-- What the next statement of a body does. -/
def flowStep (body : List Node) (names : Readings) : Point → Meaning Point
  | ([], _) => .error .undefined
  | (.label _ _ :: rest, space) => .ok (rest, space)
  | (node :: rest, space) =>
      if node.isTransfer then do
        let label ← node.chosen ⟨names, space⟩
        return (← defined (behind label body), space)
      else do
        let left ← node.meaning ⟨names, space⟩
        return (rest, left.space)

/-- Executing statements of a body gets from one point to another. -/
def Flows (body : List Node) (names : Readings) : Point → Point → Prop :=
  ReflTransGen fun p q => flowStep body names p = .ok q

section Statements

variable {v w : CodeGen} {labels : Labels} {u : Unit}

/-- A block that takes an instruction goes on. -/
theorem CodeGen.needsTerminator_built {i : Instr} (inRange : v.current < v.blocks.length)
    (emits : i.folds = false) :
    (v.built i).needsTerminator = true := by
  unfold CodeGen.needsTerminator
  rw [CodeGen.current_built, v.items_built inRange, if_pos rfl, emits]
  simp [Item.isEmitted, Item.isTerm]

/-- Behind a store the block is still open. -/
theorem needsTerminator_store {h : Handle} {value : SigilValue} {size : Nat} {off : Offset}
    (returned : Returns (Gen.store h value size off) v u w)
      (inRange : v.current < v.blocks.length) :
    w.needsTerminator = true := by
  unfold Gen.store at returned
  simp only [returns_bind] at returned
  obtain ⟨_, m, check, p, n, address, put⟩ := returned
  have here := ((Gen.grows_checkOffset check).trans (Gen.grows_address address)).current inRange
  cases value with
  | immediate i =>
      simp only [returns_bind, Gen.returns_build, returns_pure] at put
      obtain ⟨r, q, resize, _, _, ⟨rfl, rfl⟩, _, rfl⟩ := put
      exact CodeGen.needsTerminator_built ((Gen.grows_resizeInt resize).current here) rfl
  | handle src =>
      simp only [returns_bind, Gen.returns_build, Gen.returns_buildInt, returns_pure] at put
      obtain ⟨_, _, ⟨rfl, rfl⟩, r, q, resize, _, _, ⟨rfl, rfl⟩, _, rfl⟩ := put
      have converted := (Grows.ofStep (.build (.ptrtoint src.ptr) fun _ _ => trivial) :
        Grows Set.univ n (n.built (.ptrtoint src.ptr))).current here
      exact CodeGen.needsTerminator_built ((Gen.grows_resizeInt resize).current converted) rfl
  | float f =>
      simp only [returns_bind, Gen.returns_build, returns_pure] at put
      obtain ⟨_, _, ⟨rfl, rfl⟩, _, rfl⟩ := put
      exact CodeGen.needsTerminator_built here rfl

/-- Behind a STORE the generator goes on in an open block. -/
theorem goesOn_compileStore {target : String} {value : Expr} {size : Nat} {offset : Option Expr}
    (inRange : v.current < v.blocks.length)
      (returned : Returns (Gen.compileStore target value size offset) v u w) :
    Grows Set.univ v w ∧ w.needsTerminator = true := by
  unfold Gen.compileStore at returned
  simp only [returns_bind] at returned
  obtain ⟨vt, m₁, read, h, m₂, deref, x, m₃, run, off, m₄, distance, put⟩ := returned
  have place := (Gen.grows_getVar read).trans (Gen.grows_derefHandle deref)
  have operands :=
    place.trans ((Gen.grows_compileExpr run).trans (Gen.grows_compileOffset distance))
  exact ⟨operands.trans (Gen.grows_store put), needsTerminator_store put (operands.current inRange)⟩

/-- A name bound to memory takes the value into its memory. -/
theorem goesOn_assign {target : String} {value : SigilValue} {h : Handle}
    (memory : v.vars.lookup target = some (.handle h)) (inRange : v.current < v.blocks.length)
    (returned : Returns (Gen.assign target value) v u w) :
      Grows Set.univ v w ∧ w.needsTerminator = true := by
  obtain ⟨other, _⟩ | ⟨h, _, ⟨_, put⟩ | ⟨_, _, put⟩ | ⟨_, src, toStore, m, _, load, put⟩⟩ :=
    Gen.returns_assign returned
  · exact absurd memory (other h)
  · exact ⟨Gen.grows_store put, needsTerminator_store put inRange⟩
  · exact ⟨Gen.grows_store put, needsTerminator_store put inRange⟩
  · have grows := Gen.grows_load load
    exact ⟨grows.trans (Gen.grows_store put), needsTerminator_store put (grows.current inRange)⟩

instance (offset : Option Expr) : Confined (Gen.compileOffset offset) :=
  Gen.confined_compileOffset fun _ _ => inferInstance

instance (target : String) (value : Expr) (size : Nat) (offset : Option Expr) :
    Confined (Gen.compileStore target value size offset) := by
  unfold Gen.compileStore
  infer_instance

instance (target : String) (value : SigilValue) : Confined (Gen.assign target value) := by
  refine Gen.confined_get_bind fun v => ?_
  split
  · split
    · infer_instance
    · cases value <;> infer_instance
  · infer_instance

instance (value : SigilValue) : Confined (Gen.branchCondition value) := by
  cases value <;> simp only [Gen.branchCondition] <;> infer_instance

instance (label : String) : Confined (Gen.labelBlock labels label) := by
  unfold Gen.labelBlock
  split <;> infer_instance

/-- What a statement that binds no name and goes on to the next one leaves of the generator. -/
structure GoesOn (v w : CodeGen) : Prop where
  grows : Grows Set.univ v w
  stretches : Stretches v w
  needsTerminator : v.needsTerminator = true → w.needsTerminator = true

/-- Behind a straight statement the generator goes on in an open block. -/
theorem goesOn_compileNode {node : Node} (steady : v.Steady node) (straight : node.isStraight)
    (inRange : v.current < v.blocks.length)
      (returned : Returns (Gen.compileNode labels node) v u w) : GoesOn v w := by
  cases node with
  | store line target value size offset =>
      have stretches : Confined (Gen.compileStore target value size offset) := inferInstance
      obtain ⟨grows, goes⟩ := goesOn_compileStore inRange returned
      exact ⟨grows, stretches.stretches _ _ _ returned inRange, fun _ => goes⟩
  | set line target value =>
      obtain ⟨h, memory⟩ := steady
      rw [show Gen.compileNode labels (.set line target value) =
        _ from Gen.compileSet_eq target value] at returned
      have stretches : Confined (Gen.compileExpr value >>= Gen.assign target) := inferInstance
      have stretched := stretches.stretches _ _ _ returned inRange
      obtain ⟨x, m, run, rest⟩ := returns_bind.mp returned
      have grows := Gen.grows_compileExpr run
      obtain ⟨later, goes⟩ := goesOn_assign (grows.vars ▸ memory) (grows.current inRange) rest
      exact ⟨grows.trans later, stretched, fun _ => goes⟩
  | discard line expr =>
      obtain ⟨_, rfl⟩ := returns_pure.mp returned
      exact ⟨.refl v, .refl inRange, id⟩
  | assignment => exact absurd steady id
  | _ => cases straight

/-- A statement that hands control on only adds code. -/
theorem stretches_transfer {last : Node} (transfers : last.isTransfer)
    (inRange : v.current < v.blocks.length)
    (returned : Returns (Gen.compileNode labels last) v u w) : Stretches v w := by
  cases last with
  | jump line goal =>
      unfold Gen.compileNode at returned
      simp only [returns_bind, Gen.returns_labelBlock, Gen.returns_terminate] at returned
      obtain ⟨b, _, ⟨_, rfl⟩, rfl⟩ := returned
      exact (Stretches.refl inRange).push _
  | branch line condition trueLabel falseLabel =>
      have stretches : Confined (Gen.compileBranch labels condition trueLabel falseLabel) := by
        unfold Gen.compileBranch
        infer_instance
      exact stretches.stretches _ _ _ returned inRange
  | _ => cases transfers

end Statements

section Stages

/-- The generator before the statements `rest` of a body that begins at `s` and ends at `t`. The
blocks of their labels are still empty. -/
structure Stage (labels : Labels) (s t : CodeGen) (rest : List Node) (v : CodeGen) : Prop where
  returned : Returns (Gen.compileNodes labels rest) v () t
  ready : v.Ready
  vars : v.vars = s.vars
  mutableSlots : v.mutableSlots = ∅
  nextId : s.nextId ≤ v.nextId
  waiting : ∀ name ∈ rest.filterMap Node.labelName, ∀ b, labels.lookup name = some b →
    b < v.blocks.length ∧ b ≠ v.current ∧ v.items b = []

/-- Labels have blocks of their own. -/
def Labels.Distinct (labels : Labels) : Prop :=
  ∀ {name name' b}, labels.lookup name = some b → labels.lookup name' = some b → name = name'

variable {labels : Labels} {s t v w : CodeGen} {node : Node} {rest : List Node}

/-- Blocks that wait stay empty while code stretches. -/
theorem Stage.waiting_stretches (stage : Stage labels s t (node :: rest) v)
    (stretches : Stretches v w)
    {name : String} (member : name ∈ rest.filterMap Node.labelName) {b : Nat}
      (known : labels.lookup name = some b) :
    b < w.blocks.length ∧ b ≠ w.current ∧ w.items b = [] := by
  have member : name ∈ (node :: rest).filterMap Node.labelName :=
    (List.sublist_cons_self node rest).filterMap Node.labelName |>.subset member
  obtain ⟨old, apart, empty⟩ := stage.waiting name member b known
  refine ⟨old.trans_le stretches.blocks, ?_, (stretches.items b old apart).trans empty⟩
  obtain here | new := stretches.current
  · rw [here]
    exact apart
  · exact Nat.ne_of_lt (old.trans_le new)

/-- What a LABEL leaves: the block before it is closed where it is open. -/
def CodeGen.labelled (v : CodeGen) (b : Nat) : CodeGen :=
  (if v.needsTerminator then v.push (.term (.br b)) else v).positioned b

/-- A LABEL moves to its block. -/
theorem returns_compileLabel {name : String} {b : Nat} {u : Unit}
    (known : labels.lookup name = some b) :
    Returns (Gen.compileLabel labels name) v u w ↔ w = v.labelled b := by
  unfold Gen.compileLabel CodeGen.labelled
  rw [known]
  simp only [returns_bind, returns_get]
  have close : Returns (if v.needsTerminator = true then do
      Gen.terminate (.br b)
      Gen.positionAtEnd b else Gen.positionAtEnd b) v u w ↔
      w = (if v.needsTerminator then v.push (.term (.br b)) else v).positioned b := by
    split
    · simp
    · exact Gen.returns_positionAtEnd
  rw [← close]
  constructor
  · rintro ⟨_, _, ⟨rfl, rfl⟩, run⟩
    exact run
  · exact fun run => ⟨_, _, ⟨rfl, rfl⟩, run⟩

/-- A LABEL without a block has no code. -/
theorem eq_of_unlabelled {name : String} {u : Unit} (unknown : labels.lookup name = none)
    (returned : Returns (Gen.compileLabel labels name) v u w) : w = v := by
  unfold Gen.compileLabel at returned
  rw [unknown] at returned
  exact (returns_pure.mp returned).2.symm

/-- A label declared once is not declared again behind it. -/
theorem not_mem_of_once {line : Nat} {name : String}
    (once : ((Node.label line name :: rest).filterMap Node.labelName).Nodup) :
      name ∉ rest.filterMap Node.labelName := by
  simp only [List.filterMap_cons, Node.labelName] at once
  exact (List.nodup_cons.mp once).1

/-- Labels declared once are so behind a statement. -/
theorem once_tail (once : ((node :: rest).filterMap Node.labelName).Nodup) :
    (rest.filterMap Node.labelName).Nodup :=
  once.sublist ((List.sublist_cons_self node rest).filterMap _)

/-- A terminator only adds code. -/
theorem CodeGen.grows_pushTerm (v : CodeGen) (e : BlockEnd) : Grows Set.univ v (v.push (.term e)) :=
  .ofStep (.terminate e fun _ _ => trivial)

/-- The code of a statement is there before that of the statements behind it. -/
theorem Stage.ofGrows (stage : Stage labels s t (node :: rest) v) (grows : Grows Set.univ v w)
    (later : Returns (Gen.compileNodes labels rest) w () t)
    (waiting : ∀ name ∈ rest.filterMap Node.labelName, ∀ b, labels.lookup name = some b →
      b < w.blocks.length ∧ b ≠ w.current ∧ w.items b = []) : Stage labels s t rest w where
  returned := later
  ready := stage.ready.grows grows
  vars := grows.vars.trans stage.vars
  mutableSlots := grows.mutableSlots.trans stage.mutableSlots
  nextId := stage.nextId.trans grows.nextId
  waiting := waiting

/-- A statement is steady in a state with the same bindings. -/
theorem CodeGen.Steady.of_vars (steady : s.Steady node) (same : v.vars = s.vars) :
    v.Steady node := by
  cases node with
  | set line target value =>
      obtain ⟨h, memory⟩ := steady
      exact ⟨h, same ▸ memory⟩
  | _ => exact steady

/-- A steady statement is straight, transfers control or is a LABEL. -/
theorem CodeGen.Steady.cases (steady : s.Steady node) :
    node.isStraight ∨ node.isTransfer ∨ ∃ line name, node = .label line name := by
  cases node with
  | store | set | discard => exact .inl rfl
  | jump | branch => exact .inr (.inl rfl)
  | label line name => exact .inr (.inr ⟨line, name, rfl⟩)
  | _ => exact absurd steady id

/-- The block of a LABEL is entered empty. -/
theorem Stage.labelled {line : Nat} {name : String} {b : Nat}
    (stage : Stage labels s t (.label line name :: rest) v)
    (known : labels.lookup name = some b) (distinct : labels.Distinct)
      (fresh : name ∉ rest.filterMap Node.labelName) :
    Stage labels s t rest (v.labelled b) ∧ Grows Set.univ v (v.labelled b) ∧
      (v.labelled b).items b = [] := by
  obtain ⟨old, apart, empty⟩ := stage.waiting name (by simp [Node.labelName]) b known
  have both := stage.returned
  unfold Gen.compileNodes at both
  obtain ⟨_, w, first, later⟩ := returns_bind.mp both
  obtain rfl := (returns_compileLabel known).mp first
  have closes : ∃ m, v.labelled b = m.positioned b ∧ Grows Set.univ v m ∧ Stretches v m := by
    unfold CodeGen.labelled
    split
    · exact ⟨_, rfl, v.grows_pushTerm _, (Stretches.refl stage.ready.inRange).push _⟩
    · exact ⟨v, rfl, .refl v, .refl stage.ready.inRange⟩
  obtain ⟨m, same, grows, stretches⟩ := closes
  have grows : Grows Set.univ v (v.labelled b) := by
    rw [same]
    exact grows.trans (.ofStep (.position b (old.trans_le stretches.blocks)))
  refine ⟨stage.ofGrows grows later ?_, grows, ?_⟩
  · intro other member b' known'
    obtain ⟨inside, _, empty'⟩ := stage.waiting_stretches stretches member known'
    rw [same]
    refine ⟨inside, fun here => fresh ?_, empty'⟩
    obtain rfl : b' = b := here
    exact distinct known' known ▸ member
  · rw [same]
    exact (stretches.items b old apart).trans empty

/-- From the generator before a statement to the one behind it. -/
theorem Stage.next (stage : Stage labels s t (node :: rest) v) (steady : s.Steady node)
    (distinct : labels.Distinct)
    (once : ((node :: rest).filterMap Node.labelName).Nodup) :
    ∃ w, Returns (Gen.compileNode labels node) v () w ∧ Stage labels s t rest w ∧
      Grows Set.univ v w := by
  have both := stage.returned
  unfold Gen.compileNodes at both
  obtain ⟨_, w, first, later⟩ := returns_bind.mp both
  have inRange := stage.ready.inRange
  refine ⟨w, first, ?_⟩
  obtain straight | transfers | ⟨line, name, rfl⟩ := steady.cases
  · have goesOn := goesOn_compileNode (steady.of_vars stage.vars) straight inRange first
    exact ⟨stage.ofGrows goesOn.grows later fun _ member _ known =>
      stage.waiting_stretches goesOn.stretches member known, goesOn.grows⟩
  · have stretches := stretches_transfer transfers inRange first
    obtain ⟨r, e, rfl, grows, _⟩ := handsOver_transfer transfers first
    have grows := grows.trans (r.grows_pushTerm e)
    exact ⟨stage.ofGrows grows later fun _ member _ known =>
      stage.waiting_stretches stretches member known, grows⟩
  · cases known : labels.lookup name with
    | none =>
        rw [eq_of_unlabelled known first] at later ⊢
        exact ⟨stage.ofGrows (.refl v) later fun _ member _ known' =>
          stage.waiting_stretches (.refl inRange) member known', .refl v⟩
    | some b =>
        obtain rfl := (returns_compileLabel known).mp first
        obtain ⟨staged, grows, _⟩ := stage.labelled known distinct (not_mem_of_once once)
        exact ⟨staged, grows⟩

/-- All code of the statements ahead is only added. -/
theorem Stage.grows_end (stage : Stage labels s t rest v) (steady : ∀ node ∈ rest, s.Steady node)
    (distinct : labels.Distinct) (once : (rest.filterMap Node.labelName).Nodup) :
      Grows Set.univ v t := by
  induction rest generalizing v with
  | nil =>
      obtain ⟨_, rfl⟩ := returns_pure.mp stage.returned
      exact .refl _
  | cons node rest ih =>
      obtain ⟨here, later⟩ := List.forall_mem_cons.mp steady
      obtain ⟨w, _, staged, grows⟩ := stage.next here distinct once
      exact grows.trans (ih staged later (once_tail once))

/-- The block of a label is where the code behind the label begins. -/
theorem Stage.behind (stage : Stage labels s t rest v) (steady : ∀ node ∈ rest, s.Steady node)
    (distinct : labels.Distinct) (once : (rest.filterMap Node.labelName).Nodup) {name : String}
      {b : Nat}
    (known : labels.lookup name = some b) {ahead : List Node}
      (found : behind name rest = some ahead) :
    ∃ w, Stage labels s t ahead w ∧ w.current = b ∧ w.items b = [] ∧ ahead <:+ rest := by
  induction rest generalizing v with
  | nil => cases found
  | cons node rest ih =>
      obtain ⟨here, later⟩ := List.forall_mem_cons.mp steady
      unfold Sigil.behind at found
      by_cases named : node.labelName = some name
      · rw [if_pos named] at found
        obtain rfl := Option.some.inj found
        cases node with
        | label line other =>
            obtain rfl : other = name := Option.some.inj named
            obtain ⟨staged, _, empty⟩ := stage.labelled known distinct (not_mem_of_once once)
            exact ⟨_, staged, rfl, empty, List.suffix_cons _ _⟩
        | _ => cases named
      · rw [if_neg named] at found
        obtain ⟨w, _, staged, _⟩ := stage.next here distinct once
        obtain ⟨w', staged', current, empty, suffix⟩ := ih staged later (once_tail once) found
        exact ⟨w', staged', current, empty, suffix.trans (List.suffix_cons _ _)⟩

/-- Names stand for what they stood for. -/
theorem Stage.readings_eq {placement : Placement} {results results' : Results}
    {space space' : AddressSpace}
    (stage : Stage labels s t rest v) (ready : s.Ready) (unslotted : s.mutableSlots = ∅)
    (agree : AgreeBelow s.nextId results results') :
    v.readings placement results' space' = s.readings placement results space := by
  funext name
  rw [CodeGen.readings_unslotted stage.mutableSlots, CodeGen.readings_unslotted unslotted,
    stage.vars]
  cases bound : s.vars.lookup name with
  | none => rfl
  | some value => exact SigilValue.datum_agree agree (ready.vars bound)

end Stages

section Runs

/-- A body without SCOPE and its code, from the state `m` in which the blocks of its labels have
been
appended to those of `s`. -/
structure Bodied (labels : Labels) (s m t : CodeGen) (body : List Node) : Prop where
  ready : s.Ready
  unslotted : s.mutableSlots = ∅
  steady : ∀ node ∈ body, s.Steady node
  once : (body.filterMap Node.labelName).Nodup
  distinct : labels.Distinct
  stage : Stage labels s t body m

/-- The machine is where the code of the next statement begins. -/
def Tracks (labels : Labels) (s t : CodeGen) (body : List Node) (results : Results) (p : Point)
    (machine : Machine) : Prop :=
  ∃ v results', Stage labels s t p.1 v ∧ p.1 <:+ body ∧ v.needsTerminator = true ∧
    AgreeBelow s.nextId results results' ∧ machine = v.machine results' p.2

/-- The machine gets where a statement gets, or aborts with it. It executes something unless
statements are left behind. -/
def Advances (placement : Placement) (code : Nat → List Item) (tracks : Point → Machine → Prop)
    (p : Point)
    (machine : Machine) : Meaning Point → Prop
  | .ok q => ∃ machine', Machine.Reaches placement code machine machine' ∧ tracks q machine' ∧
      (p.1.length ≤ q.1.length → TransGen (fun m n => m.step placement code = some n) machine
        machine')
  | .error .aborted => ∃ stop, Machine.Reaches placement code machine stop ∧ stop.Aborts code
  | .error .undefined => True

variable {placement : Placement} {labels : Labels} {s m t v w : CodeGen} {body rest : List Node}
  {node : Node}
  {results results' : Results} {space space' : AddressSpace} {code : Nat → List Item}
    {names : Readings}

/-- A straight statement is run and the next one follows. -/
theorem flowStep_straight (straight : node.isStraight) : flowStep body names (node :: rest, space) =
    (do return (rest, (← node.meaning ⟨names, space⟩).space)) := by
  cases node with
  | assignment | store | set | discard => rfl
  | _ => cases straight

/-- A statement that transfers control goes to the label it chooses. -/
theorem flowStep_transfer (transfers : node.isTransfer) :
    flowStep body names (node :: rest, space) = (do
    let label ← node.chosen ⟨names, space⟩
    return (← defined (behind label body), space)) := by
  cases node with
  | jump | branch => rfl
  | _ => cases transfers

/-- An empty block needs a terminator. -/
theorem needsTerminator_of_empty (empty : v.items v.current = []) : v.needsTerminator = true := by
  unfold CodeGen.needsTerminator
  rw [empty]
  rfl

/-- A statement and its code. -/
theorem Bodied.advances (bodied : Bodied labels s m t body) (contains : Contains code t) {p : Point}
    {machine : Machine} (tracks : Tracks labels s t body results p machine) :
    Advances placement code (Tracks labels s t body results) p machine
      (flowStep body (s.readings placement results space) p) := by
  obtain ⟨ahead, space'⟩ := p
  obtain ⟨v, results', stage, suffix, goes, agree, rfl⟩ := tracks
  cases ahead with
  | nil => exact trivial
  | cons node rest =>
      have steady : ∀ other ∈ node :: rest, s.Steady other := fun other member =>
        bodied.steady other (suffix.subset member)
      have once := bodied.once.sublist (suffix.sublist.filterMap Node.labelName)
      have tail : rest <:+ body := (List.suffix_cons node rest).trans suffix
      obtain ⟨here, later⟩ := List.forall_mem_cons.mp steady
      obtain ⟨w, first, staged, grows⟩ := stage.next here bodied.distinct once
      have contains :=
        contains.before (staged.grows_end later bodied.distinct (once_tail once)).precedes
      have names : v.readings placement results' space' = s.readings placement results space :=
        stage.readings_eq bodied.ready bodied.unslotted agree
      have shorter : ∀ {r : Prop}, (node :: rest).length ≤ rest.length → r := fun le =>
        absurd le (Nat.not_succ_le_self _)
      obtain straight | transfers | ⟨line, name, rfl⟩ := here.cases
      · have goesOn := goesOn_compileNode (here.of_vars stage.vars) straight stage.ready.inRange
          first
        have binds : ∀ name ∈ node.assignmentTarget, name ∉ v.reassignedLocals := by
          cases node with
          | assignment => exact absurd here id
          | store | set | discard => simp [Node.assignmentTarget]
          | _ => cases straight
        have ends : Ends placement code v w results' space' (Situated placement w)
            (node.meaning ⟨v.readings placement results' space', space'⟩) :=
          realizes_compileNode straight binds stage.ready stage.mutableSlots first code contains
        rw [flowStep_straight straight]
        rw [names] at ends
        cases value : node.meaning ⟨s.readings placement results space, space'⟩ with
        | ok left =>
            rw [value] at ends
            obtain ⟨results'', _, reached, agree', ⟨rfl, _⟩⟩ := ends
            exact ⟨_, reached, ⟨w, results'', staged, tail, goesOn.needsTerminator goes,
              agree.trans agree' stage.nextId, rfl⟩, shorter⟩
        | error fault =>
            rw [value] at ends
            cases fault <;> exact ends
      · obtain ⟨r, e, rfl, ahead, leads⟩ := handsOver_transfer transfers first
        have ends : Ends placement code v r results' space' _
            (node.chosen ⟨v.readings placement results' space', space'⟩) :=
          leads placement results' space' stage.ready code (contains.before (r.precedes_push _))
        rw [flowStep_transfer transfers]
        rw [names] at ends
        cases value : node.chosen ⟨s.readings placement results space, space'⟩ with
        | ok label =>
            rw [value] at ends
            obtain ⟨results'', space', reached, agree', rfl, b, known, target⟩ := ends
            change Advances placement code _ _ _
              ((defined (behind label body)).map fun next => (next, space'))
            cases found : behind label body with
            | none => exact trivial
            | some next =>
                obtain ⟨w', staged', rfl, empty, suffix'⟩ :=
                  bodied.stage.behind bodied.steady bodied.distinct
                  bodied.once known found
                have step : (r.machine results'' space').step placement code =
                  some ⟨w'.current, 0, results'', space'⟩ :=
                  r.step_terminated contains (ahead.current stage.ready.inRange) target
                refine ⟨_, reached.tail step, ⟨w', results'', staged', suffix',
                  needsTerminator_of_empty empty,
                  agree.trans agree' stage.nextId, ?_⟩, fun _ => .tail' reached step⟩
                rw [CodeGen.machine, empty]
                rfl
        | error fault =>
            rw [value] at ends
            cases fault <;> exact ends
      · cases known : labels.lookup name with
        | none =>
            rw [eq_of_unlabelled known first] at staged
            exact ⟨_, .refl, ⟨v, results', staged, tail, goes, agree, rfl⟩, shorter⟩
        | some b =>
            obtain rfl := (returns_compileLabel known).mp first
            obtain ⟨_, _, empty⟩ := stage.labelled known bodied.distinct (not_mem_of_once once)
            have closed : v.labelled b = (v.push (.term (.br b))).positioned b := by
              rw [CodeGen.labelled, if_pos goes]
            have contains : Contains code (v.push (.term (.br b))) := by
              rw [closed] at contains
              exact contains
            refine ⟨_, .single (v.step_terminated contains stage.ready.inRange rfl),
              ⟨v.labelled b, results', staged,
              tail, needsTerminator_of_empty empty, agree, ?_⟩, shorter⟩
            rw [CodeGen.machine, show (v.labelled b).current = b from rfl, empty]
            rfl

/-- A run of a body and its code. -/
theorem Bodied.reaches (bodied : Bodied labels s m t body) (contains : Contains code t)
    {p q : Point}
    (flows : Flows body (s.readings placement results space) p q) {machine : Machine}
    (tracks : Tracks labels s t body results p machine) :
    ∃ machine', Machine.Reaches placement code machine machine' ∧
      Tracks labels s t body results q machine' := by
  induction flows with
  | refl => exact ⟨machine, .refl, tracks⟩
  | tail _ steps ih =>
      obtain ⟨between, reached, tracks'⟩ := ih
      have advances : Advances placement code (Tracks labels s t body results) _ between
          (flowStep body (s.readings placement results space) _) := bodied.advances contains tracks'
      rw [steps] at advances
      obtain ⟨machine', reached', tracks'', _⟩ := advances
      exact ⟨machine', reached.trans reached', tracks''⟩

/-- A statement that aborts does so in the code. -/
theorem Bodied.aborts (bodied : Bodied labels s m t body) (contains : Contains code t) {p : Point}
    (aborted : flowStep body (s.readings placement results space) p = .error .aborted)
      {machine : Machine}
    (tracks : Tracks labels s t body results p machine) :
    ∃ stop, Machine.Reaches placement code machine stop ∧ stop.Aborts code := by
  have advances : Advances placement code (Tracks labels s t body results) p machine
      (flowStep body (s.readings placement results space) p) := bodied.advances contains tracks
  rw [aborted] at advances
  exact advances

/-- A machine that tracks a point has its memory. -/
theorem Tracks.memory {p : Point} {machine : Machine}
    (tracks : Tracks labels s t body results p machine) :
    machine.memory = p.2 := by
  obtain ⟨v, results', _, _, _, _, rfl⟩ := tracks
  rfl

/-- After the last statement the machine is at the end of the code. -/
theorem Tracks.ended {p : Point} {machine : Machine}
    (tracks : Tracks labels s t body results p machine)
    (ended : p.1 = []) : ∃ results', machine = t.machine results' p.2 ∧ t.needsTerminator = true ∧
      t.current < t.blocks.length := by
  obtain ⟨v, results', staged, _, goes, _, rfl⟩ := tracks
  rw [ended] at staged
  obtain ⟨_, rfl⟩ := returns_pure.mp staged.returned
  exact ⟨results', rfl, goes, staged.ready.inRange⟩

/-- A machine that gets on from every point of a set to another one of it never stops. -/
theorem infinite_of_progress {α : Type} {r : α → α → Prop} {holds : α → Prop}
    (progress : ∀ a, holds a → ∃ b, TransGen r a b ∧ holds b) {a : α} (start : holds a) :
    ∃ run : Nat → α, run 0 = a ∧ ∀ n, r (run n) (run (n + 1)) := by
  let Ahead (a : α) : Prop := ∃ b, ReflTransGen r a b ∧ holds b
  have next : ∀ a : {a // Ahead a}, ∃ b : {a // Ahead a}, r a.1 b.1 := by
    rintro ⟨a, b, reached, holding⟩
    obtain ⟨c, further, holding'⟩ := progress b holding
    obtain ⟨first, step, rest⟩ := TransGen.head'_iff.mp (TransGen.trans_right reached further)
    exact ⟨⟨first, c, rest, holding'⟩, step⟩
  choose follow steps using next
  refine ⟨fun n => (follow^[n] ⟨a, a, .refl, start⟩).1, rfl, fun n => ?_⟩
  have step := steps (follow^[n] ⟨a, a, .refl, start⟩)
  rw [← Function.iterate_succ_apply' follow] at step
  exact step

/-- A run that does not end keeps the machine going. -/
theorem Bodied.progress (bodied : Bodied labels s m t body) (contains : Contains code t)
    {points : Nat → Point}
    (endless : ∀ n, flowStep body (s.readings placement results space) (points n) =
      .ok (points (n + 1))) {n : Nat}
    {machine : Machine} (tracks : Tracks labels s t body results (points n) machine) :
    ∃ machine', TransGen (fun m n => m.step placement code = some n) machine machine' ∧
      ∃ n, Tracks labels s t body results (points n) machine' := by
  -- By the number of statements left: a step without code leaves one of them behind.
  induction left : (points n).1.length using Nat.strong_induction_on generalizing n machine with
  | _ count ih =>
      have advances : Advances placement code (Tracks labels s t body results) (points n) machine
          (flowStep body (s.readings placement results space) (points n)) :=
            bodied.advances contains tracks
      rw [endless n] at advances
      obtain ⟨machine', reached, tracks', moves⟩ := advances
      by_cases le : (points n).1.length ≤ (points (n + 1)).1.length
      · exact ⟨machine', moves le, n + 1, tracks'⟩
      · obtain ⟨machine'', further, later⟩ := ih _ (left ▸ Nat.lt_of_not_le le) tracks' rfl
        exact ⟨machine'', TransGen.trans_right reached further, later⟩

end Runs

section Labels

/-- Labels of blocks from the first `n` on, no two of one block. -/
structure Labels.Laid (labels : Labels) (n : Nat) (cg : CodeGen) : Prop where
  distinct : labels.Distinct
  bounded : ∀ {name b}, labels.lookup name = some b → n ≤ b ∧ b < cg.blocks.length

/-- `t` is `s` with empty blocks behind its own. -/
structure CodeGen.Extended (s t : CodeGen) : Prop where
  grows : Grows Set.univ s t
  current : t.current = s.current
  items : ∀ b, t.items b = s.items b

variable {labels found : Labels} {s t v w : CodeGen} {n : Nat}

/-- Extension is transitive. -/
theorem CodeGen.Extended.trans {u : CodeGen} (first : s.Extended t) (second : t.Extended u) :
    s.Extended u :=
  ⟨first.grows.trans second.grows, second.current.trans first.current,
    fun b => (second.items b).trans (first.items b)⟩

/-- A block for one more label. -/
theorem laid_append {name : String} (laid : labels.Laid n v) (enough : n ≤ v.blocks.length) :
    Labels.Laid (labels.insert name v.blocks.length) n (v.appended name) ∧
      v.Extended (v.appended name) := by
  have appended : (v.appended name).blocks.length = v.blocks.length + 1 := by
    simp [CodeGen.appended]
  have split : ∀ {other b}, (labels.insert name v.blocks.length).lookup other = some b →
      (other = name ∧ b = v.blocks.length) ∨ (other ≠ name ∧ labels.lookup other = some b) := by
    intro other b known
    by_cases same : other = name
    · subst same
      rw [AList.lookup_insert] at known
      exact .inl ⟨rfl, (Option.some.inj known).symm⟩
    · rw [AList.lookup_insert_ne same] at known
      exact .inr ⟨same, known⟩
  refine ⟨⟨?_, ?_⟩, ⟨.ofStep (.append name), rfl, fun b => ?_⟩⟩
  · intro name' name'' b known known'
    obtain ⟨rfl, rfl⟩ | ⟨_, old⟩ := split known
    · obtain ⟨rfl, _⟩ | ⟨_, old'⟩ := split known'
      · rfl
      · exact absurd (laid.bounded old').2 (lt_irrefl _)
    · obtain ⟨rfl, rfl⟩ | ⟨_, old'⟩ := split known'
      · exact absurd (laid.bounded old).2 (lt_irrefl _)
      · exact laid.distinct old old'
  · intro other b known
    rw [appended]
    obtain ⟨_, rfl⟩ | ⟨_, known⟩ := split known
    · exact ⟨enough, Nat.lt_succ_self _⟩
    · exact ⟨(laid.bounded known).1, (laid.bounded known).2.trans (Nat.lt_succ_self _)⟩
  · unfold CodeGen.appended CodeGen.items
    by_cases inRange : b < v.blocks.length
    · simp [List.getElem?_append_left inRange]
    · have outside := Nat.le_of_not_lt inRange
      rw [List.getElem?_append_right outside, List.getElem?_eq_none outside]
      cases b - v.blocks.length <;> simp

/-- Collecting labels lays a block for each. -/
theorem laid_collectLabelBlocks {nodes : List Node} (steady : ∀ node ∈ nodes, s.Steady node)
    (laid : labels.Laid n v) (enough : n ≤ v.blocks.length)
    (returned : Returns (Gen.collectLabelBlocks nodes labels) v found w) :
      found.Laid n w ∧ v.Extended w := by
  induction nodes generalizing labels v with
  | nil =>
      obtain ⟨rfl, rfl⟩ := returns_pure.mp returned
      exact ⟨laid, .refl _, rfl, fun _ => rfl⟩
  | cons node rest ih =>
      obtain ⟨here, later⟩ := List.forall_mem_cons.mp steady
      unfold Gen.collectLabelBlocks at returned
      obtain ⟨labels', m, first, second⟩ := returns_bind.mp returned
      have step : labels'.Laid n m ∧ v.Extended m := by
        cases node with
        | label line name =>
            unfold Gen.labelBlocksOf at first
            simp only [returns_bind, Gen.returns_appendBlock, returns_pure] at first
            obtain ⟨_, _, ⟨rfl, rfl⟩, rfl, rfl⟩ := first
            exact laid_append laid enough
        | store | set | discard | jump | branch =>
            unfold Gen.labelBlocksOf at first
            obtain ⟨rfl, rfl⟩ := returns_pure.mp first
            exact ⟨laid, .refl _, rfl, fun _ => rfl⟩
        | _ => exact absurd here id
      obtain ⟨laid', extended⟩ := ih later step.1 (enough.trans step.2.grows.blocks) second
      exact ⟨laid', step.2.trans extended⟩

end Labels

/-- A body begins where the machine is before its code. -/
theorem Gen.bodied_compileImpl {body : List Node} {s t : CodeGen} {u : Unit}
    (returned : Returns (Gen.compileImpl body) s u t) (ready : s.Ready)
      (unslotted : s.mutableSlots = ∅)
    (goes : s.needsTerminator = true) (steady : ∀ node ∈ body, s.Steady node)
    (once : (body.filterMap Node.labelName).Nodup) :
      ∃ labels m, Bodied labels s m t body ∧ Precedes s t ∧
      ∀ results space, Tracks labels s t body results (body, space) (s.machine results space) := by
  unfold Gen.compileImpl at returned
  obtain ⟨labels, m, collected, compiled⟩ := returns_bind.mp returned
  have unlabelled : (∅ : Labels).Laid s.blocks.length s :=
    ⟨fun known => absurd known (by simp), fun known => absurd known (by simp)⟩
  obtain ⟨laid, extended⟩ := laid_collectLabelBlocks steady unlabelled le_rfl collected
  have stage : Stage labels s t body m := {
    returned := compiled
    ready := ready.grows extended.grows
    vars := extended.grows.vars
    mutableSlots := extended.grows.mutableSlots.trans unslotted
    nextId := extended.grows.nextId
    waiting := by
      intro name _ b known
      obtain ⟨new, inside⟩ := laid.bounded known
      refine ⟨inside, ?_, ?_⟩
      · rw [extended.current]
        exact Nat.ne_of_gt (ready.inRange.trans_le new)
      · rw [extended.items, CodeGen.items, List.getElem?_eq_none new] }
  have goes : m.needsTerminator = true := by
    rw [← goes, CodeGen.needsTerminator, CodeGen.needsTerminator, extended.current, extended.items]
  have later := stage.grows_end steady laid.distinct once
  refine ⟨labels, m, ⟨ready, unslotted, steady, once, laid.distinct, stage⟩,
    (extended.grows.trans later).precedes, fun results space =>
      ⟨m, results, stage, List.suffix_rfl, goes, .refl _ _, ?_⟩⟩
  rw [CodeGen.machine, CodeGen.machine, extended.current, extended.items]

/-- `b` counted down to zero. -/
def countdown : List Node :=
  [.label 1 "more",
    .set 2 "b" (.intArith .sub (.load (.var "b") 8 (some (.intLit 0))) (.intLit 1) 8),
    .branch 3 (.load (.var "b") 8 (some (.intLit 0))) "more" "done",
    .label 4 "done"]

def countdownCode : CodeGen :=
  match Gen.compileImpl countdown indexedGenerator with
  | .ok (_, t) => t
  | .error _ => indexedGenerator

/-- Two at address 4096. -/
def countdownSpace : AddressSpace := fun a => if a = 4096 then 2 else 0

/-- A JUMP back to the LABEL before it. -/
def spin : List Node :=
  [.label 1 "again", .jump 2 "again"]

def spinCode : CodeGen :=
  match Gen.compileImpl spin indexedGenerator with
  | .ok (_, t) => t
  | .error _ => indexedGenerator

def spinPoints (n : Nat) : Point := (if n = 0 then spin else [.jump 2 "again"], fun _ => 0)

end Sigil
