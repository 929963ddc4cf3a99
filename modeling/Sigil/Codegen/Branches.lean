import Sigil.Codegen.StraightLine

/-!
# Where code goes at the end of a block

Statements one after the other and a JUMP or BRANCH behind them. The terminator hands
control to the block of a label, for a BRANCH the one its condition chooses. A condition
that is memory counts by its first bytes.
-/

namespace Sigil

open Flow Relation

/-- The label a BRANCH takes. -/
def Situation.choose (at_ : Situation) (condition : Expr) (trueLabel falseLabel : String) :
    Meaning String := do
  match ← (← condition.meaning at_.names at_.space).content at_.space with
  | .int n => return if n.bits = 0 then falseLabel else trueLabel
  | .memory _ _ _ => .error .undefined

/-- JUMP and BRANCH. -/
def Node.isTransfer : Node → Bool
  | .jump _ _ | .branch _ _ _ _ => true
  | _ => false

/-- The label a statement goes to. -/
def Node.chosen (at_ : Situation) : Node → Meaning String
  | .jump _ goal => .ok goal
  | .branch _ condition trueLabel falseLabel => at_.choose condition trueLabel falseLabel
  | _ => .error .undefined

/-- What statements do up to the label they go to. -/
def transferMeaning (nodes : List Node) (last : Node) (at_ : Situation) :
    Meaning (Situation × String) := do
  let left ← nodesMeaning nodes at_
  return (left, ← last.chosen left)

section Terminators

variable {placement : Placement} {s t : CodeGen} {results : Results} {space : AddressSpace}
  {labels : Labels} {u : Unit}

/-- A pushed item comes behind the code. -/
theorem CodeGen.precedes_push (s : CodeGen) (item : Item) : Precedes s (s.push item) where
  items b := by
    obtain added | same := Grows.items_push_cases s item b
    · exact ⟨[item], added.symm⟩
    · exact ⟨[], by rw [same, List.append_nil]⟩
  nextId := le_rfl

/-- The machine executes a terminator. -/
theorem CodeGen.step_terminated {code : Nat → List Item} {e : BlockEnd} {b : Nat}
    (contains : Contains code (s.push (.term e))) (inRange : s.current < s.blocks.length)
    (target : e.target results = some b) :
    (s.machine results space).step placement code = some ⟨b, 0, results, space⟩ := by
  have here : (s.push (.term e)).items s.current = s.items s.current ++ .term e :: [] := by
    rw [s.items_push inRange, if_pos rfl]
  unfold Machine.step CodeGen.machine
  rw [contains.next here]
  simp [target]

/-- A label's block is the one recorded. -/
@[simp] theorem Gen.returns_labelBlock {label : String} {b : Nat} :
    Returns (Gen.labelBlock labels label) s b t ↔ labels.lookup label = some b ∧ t = s := by
  unfold Gen.labelBlock
  cases labels.lookup label with
  | none => simp
  | some block =>
      rw [returns_pure, Option.some.injEq]
      exact and_congr_right fun _ => eq_comm

/-- The integer a condition comes down to. -/
def Decides (space : AddressSpace) (i : IntValue) (bound : Nat) (d : Datum) (results' : Results)
    (space' : AddressSpace) : Prop :=
  space' = space ∧ d = .int (i.quantity results') ∧ ∀ r ∈ i.regs, r < bound

/-- Computing a condition only adds code. -/
theorem Gen.grows_branchCondition {v : SigilValue} {i : IntValue}
    (returned : Returns (Gen.branchCondition v) s i t) : Grows Set.univ s t := by
  cases v with
  | immediate j =>
      obtain ⟨_, rfl⟩ := returns_pure.mp returned
      exact .refl s
  | handle h =>
      unfold Gen.branchCondition at returned
      simp only [returns_bind, Gen.returns_asInt] at returned
      obtain ⟨_, _, load, _, rfl⟩ := returned
      exact Gen.grows_load load
  | float f => exact absurd returned not_returns_throw

/-- The code of a condition computes the integer that decides it. -/
theorem realizes_branchCondition {v : SigilValue} {i : IntValue} {d : Datum} (ready : s.Ready)
    (returned : Returns (Gen.branchCondition v) s i t) (datum : v.datum placement results = some d)
    (below : ∀ r ∈ v.regs, r < s.nextId) :
    Realizes placement s t results space (d.content space) (Decides space i t.nextId) := by
  cases v with
  | immediate j =>
      obtain ⟨rfl, rfl⟩ := returns_pure.mp returned
      obtain rfl := SigilValue.datum_int datum
      exact .done ⟨rfl, rfl, below⟩
  | handle h =>
      obtain rfl := Option.some.inj datum
      unfold Gen.branchCondition Gen.load at returned
      simp only [returns_bind, Gen.returns_asInt] at returned
      obtain ⟨_, _, ⟨_, _, check, _, _, address, read⟩, rfl, rfl⟩ := returned
      obtain ⟨rfl, rfl⟩ := returns_pure.mp check
      obtain ⟨rfl, rfl⟩ := returns_pure.mp address
      have fetched : Realizes placement s t results space
          ((Datum.memory (h.ptr.eval placement results) h.size h.typ).fetch space
            (min h.size 8) (h.ptr.eval placement results)) _ :=
        realizes_fetch ready.inRange read
      change Realizes placement s t results space ((Datum.memory _ h.size h.typ).fetch space _ _) _
      cases value : (Datum.memory (h.ptr.eval placement results) h.size h.typ).fetch space
          (min h.size 8) (h.ptr.eval placement results) with
      | error fault =>
          rw [value] at fetched
          cases fault <;> exact fetched
      | ok content =>
          rw [value] at fetched
          refine fetched.mapped fun results' space' carried => ?_
          obtain ⟨rfl, datum', below'⟩ := carried
          exact ⟨rfl, SigilValue.datum_int datum', below'⟩
  | float f => cases datum

/-- A bit that tells a number from zero chooses between two blocks. -/
theorem target_nonzero {w onTrue onFalse id : Nat} {folded : Bool} (x : BitVec w) :
    (BlockEnd.condBr (.reg 1 id folded) onTrue onFalse).target
        (Function.update results id (IntPredicate.ne.holds x 0).toNat) =
      some (if x = 0 then onFalse else onTrue) := by
  rw [BlockEnd.target_bit]
  by_cases zero : x = 0 <;> simp [IntPredicate.holds, zero]

/-- The code between two states and a terminator behind it go to the block of a label. -/
def HandsOver (labels : Labels) (s r : CodeGen) (e : BlockEnd)
    (goal : Situation → Meaning String) : Prop :=
  ∀ placement results space, s.Ready → Realizes placement s r results space
    (goal ⟨s.readings placement results space, space⟩) fun label results' space' =>
      space' = space ∧ ∃ b, labels.lookup label = some b ∧ e.target results' = some b

/-- A BRANCH hands control to one of its labels. -/
theorem handsOver_branch {condition : Expr} {trueLabel falseLabel : String}
    (returned : Returns (Gen.compileBranch labels condition trueLabel falseLabel) s u t) :
    ∃ r e, t = r.push (.term e) ∧ Grows Set.univ s r ∧
      HandsOver labels s r e fun at_ => at_.choose condition trueLabel falseLabel := by
  unfold Gen.compileBranch at returned
  simp only [returns_bind, Gen.returns_buildInt, Gen.returns_labelBlock,
    Gen.returns_terminate] at returned
  obtain ⟨v, m, run, cond, n, decide, _, _, ⟨rfl, rfl⟩, onTrue, _, ⟨known, rfl⟩, onFalse, _,
    ⟨known', rfl⟩, rfl⟩ := returned
  have grows := Gen.grows_compileExpr run
  have grows' := Gen.grows_branchCondition decide
  have last : Grows Set.univ n (n.built (.icmp .ne cond (.const cond.width 0))) :=
    .ofStep (.build _ fun _ _ => trivial)
  refine ⟨_, _, rfl, (grows.trans grows').trans last, fun placement results space ready => ?_⟩
  unfold Situation.choose
  refine (preserves placement condition results space run ready).bindNames ready grows
    (grows'.precedes.trans last.precedes) ?_
  intro d results' _ datum below readyM _
  refine (realizes_branchCondition readyM decide datum below).bind grows'.precedes last.precedes ?_
  rintro _ results'' space - _ ⟨rfl, rfl, _⟩
  have bit : (Instr.icmp .ne cond (.const cond.width 0)).execute placement results'' space =
      some ((IntPredicate.ne.holds (cond.eval results'') 0).toNat, space) := by
    have zero : (IntValue.const cond.width 0).quantity results'' = ⟨cond.width, 0⟩ := rfl
    change ((Instr.icmp .ne cond _).compute results'').map _ = _
    rw [Instr.compute_icmp rfl zero]
    rfl
  change Realizes placement n _ results'' space
    (.ok (if cond.eval results'' = 0 then falseLabel else trueLabel)) _
  refine .built (readyM.grows grows').inRange bit ⟨rfl, _, ?_, target_nonzero (cond.eval results'')⟩
  by_cases zero : cond.eval results'' = 0
  · exact (congrArg labels.lookup (if_pos zero)).trans
      (known'.trans (congrArg some (if_pos zero).symm))
  · exact (congrArg labels.lookup (if_neg zero)).trans
      (known.trans (congrArg some (if_neg zero).symm))

/-- The code of a JUMP or BRANCH ends in a terminator that goes where the statement goes. -/
theorem handsOver_transfer {last : Node} (transfers : last.isTransfer)
    (returned : Returns (Gen.compileNode labels last) s u t) :
    ∃ r e, t = r.push (.term e) ∧ Grows Set.univ s r ∧
      HandsOver labels s r e fun at_ => last.chosen at_ := by
  cases last with
  | jump line goal =>
      unfold Gen.compileNode at returned
      simp only [returns_bind, Gen.returns_labelBlock, Gen.returns_terminate] at returned
      obtain ⟨b, _, ⟨known, rfl⟩, rfl⟩ := returned
      exact ⟨_, _, rfl, .refl _, fun _ _ _ _ => .done ⟨rfl, b, known, rfl⟩⟩
  | branch line condition trueLabel falseLabel => exact handsOver_branch returned
  | _ => cases transfers

/-- A body is compiled up to its last statement and then that. -/
theorem returns_compileNodes_concat {nodes : List Node} {last : Node} :
    Returns (Gen.compileNodes labels (nodes ++ [last])) s u t ↔
      ∃ m, Returns (Gen.compileNodes labels nodes) s () m ∧
        Returns (Gen.compileNode labels last) m u t := by
  induction nodes generalizing s with
  | nil =>
      simp only [List.nil_append, Gen.compileNodes, returns_bind, returns_pure, true_and]
      constructor
      · rintro ⟨_, _, first, rfl⟩
        exact ⟨s, rfl, first⟩
      · rintro ⟨_, rfl, first⟩
        exact ⟨u, t, first, rfl⟩
  | cons node rest ih =>
      simp only [List.cons_append, Gen.compileNodes, returns_bind, ih]
      constructor
      · rintro ⟨_, n, first, m, later, final⟩
        exact ⟨m, ⟨_, n, first, later⟩, final⟩
      · rintro ⟨m, ⟨_, n, first, later⟩, final⟩
        exact ⟨_, n, first, m, later, final⟩

end Terminators

/-- `STORE b i 8 0`. -/
def keepIndex : List Node :=
  [.store 1 "b" (.var "i") 8 (some (.intLit 0))]

/-- `BRANCH (LOAD b 8 0) more done`. -/
def branchOnMemory : Node :=
  .branch 2 (.load (.var "b") 8 (some (.intLit 0))) "more" "done"

def branchLabels : Labels :=
  ((∅ : Labels).insert "more" 1).insert "done" 2

def branchCode : CodeGen :=
  match Gen.compileNodes branchLabels (keepIndex ++ [branchOnMemory]) indexedGenerator with
  | .ok (_, t) => t
  | .error _ => indexedGenerator

end Sigil
