import Sigil.Codegen.Emits

/-!
# Generating an expression only adds code

Whatever the generator does for an expression, it binds no name and moves no slot,
takes no item back and gives no number twice. New items only mention registers that
were known before or are new.
-/

namespace Sigil

open Flow Relation

/-- `t` has the names of `s` and all of its code. What it has besides gives new numbers
to its results and reads registers of `ok`. -/
structure Grows (ok : Set Nat) (s t : CodeGen) : Prop where
  platform : t.platform = s.platform
  vars : t.vars = s.vars
  mutableSlots : t.mutableSlots = s.mutableSlots
  reassignedLocals : t.reassignedLocals = s.reassignedLocals
  currentScope : t.currentScope = s.currentScope
  inFunction : t.inFunction = s.inFunction
  behaviorSigs : t.behaviorSigs = s.behaviorSigs
  behaviorFns : t.behaviorFns = s.behaviorFns
  moduleFns : s.moduleFns ⊆ t.moduleFns
  nextId : s.nextId ≤ t.nextId
  blocks : s.blocks.length ≤ t.blocks.length
  current : s.current < s.blocks.length → t.current < t.blocks.length
  items : ∀ b, ∃ new, t.items b = s.items b ++ new ∧ ∀ item ∈ new, (∀ r ∈ item.regs, r ∈ ok) ∧
    ∀ id ∈ item.result, s.nextId ≤ id ∧ id < t.nextId

namespace Grows

variable {ok : Set Nat} {s t u : CodeGen}

/-- Nothing is added to any block. -/
theorem ofItems (same : ∀ b, t.items b = s.items b) (b : Nat) :
    ∃ new, t.items b = s.items b ++ new ∧ ∀ item ∈ new, (∀ r ∈ item.regs, r ∈ ok) ∧
      ∀ id ∈ item.result, s.nextId ≤ id ∧ id < t.nextId :=
  ⟨[], by rw [same, List.append_nil], by simp⟩

/-- Every state grows to itself. -/
theorem refl (s : CodeGen) : Grows ok s s where
  platform := rfl
  vars := rfl
  mutableSlots := rfl
  reassignedLocals := rfl
  currentScope := rfl
  inFunction := rfl
  behaviorSigs := rfl
  behaviorFns := rfl
  moduleFns := List.Subset.refl _
  nextId := le_rfl
  blocks := le_rfl
  current := id
  items := ofItems fun _ => rfl

/-- Growth is transitive. -/
theorem trans (first : Grows ok s t) (second : Grows ok t u) : Grows ok s u where
  platform := second.platform.trans first.platform
  vars := second.vars.trans first.vars
  mutableSlots := second.mutableSlots.trans first.mutableSlots
  reassignedLocals := second.reassignedLocals.trans first.reassignedLocals
  currentScope := second.currentScope.trans first.currentScope
  inFunction := second.inFunction.trans first.inFunction
  behaviorSigs := second.behaviorSigs.trans first.behaviorSigs
  behaviorFns := second.behaviorFns.trans first.behaviorFns
  moduleFns _ member := second.moduleFns (first.moduleFns member)
  nextId := first.nextId.trans second.nextId
  blocks := first.blocks.trans second.blocks
  current inRange := second.current (first.current inRange)
  items := by
    intro b
    obtain ⟨new, here, known⟩ := first.items b
    obtain ⟨new', here', known'⟩ := second.items b
    refine ⟨new ++ new', by rw [here', here, List.append_assoc], ?_⟩
    intro item member
    cases List.mem_append.mp member with
    | inl early =>
        obtain ⟨reads, writes⟩ := known item early
        exact ⟨reads, fun id result => ⟨(writes id result).1,
          (writes id result).2.trans_le second.nextId⟩⟩
    | inr late =>
        obtain ⟨reads, writes⟩ := known' item late
        exact ⟨reads, fun id result => ⟨first.nextId.trans (writes id result).1,
          (writes id result).2⟩⟩

/-- An item goes to the end of one block, or nowhere. -/
theorem items_push_cases (s : CodeGen) (item : Item) (b : Nat) :
    (s.push item).items b = s.items b ++ [item] ∨ (s.push item).items b = s.items b := by
  by_cases inRange : s.current < s.blocks.length
  · rw [s.items_push inRange]
    split
    · exact .inl rfl
    · exact .inr rfl
  · right
    unfold CodeGen.push CodeGen.items
    rw [List.getElem?_modify]
    by_cases here : s.current = b
    · subst here
      simp [List.getElem?_eq_none (Nat.le_of_not_lt inRange)]
    · simp [here]

/-- A pushed item only adds code. -/
theorem push (item : Item) (reads : ∀ r ∈ item.regs, r ∈ ok)
    (writes : ∀ id ∈ item.result, s.nextId ≤ id ∧ id < u.nextId)
    (b : Nat) : ∃ new, (s.push item).items b = s.items b ++ new ∧
      ∀ item ∈ new, (∀ r ∈ item.regs, r ∈ ok) ∧ ∀ id ∈ item.result, s.nextId ≤ id ∧ id < u.nextId := by
  cases items_push_cases s item b with
  | inl added => exact ⟨[item], added, by simpa using ⟨reads, writes⟩⟩
  | inr same => exact ⟨[], by rw [same, List.append_nil], by simp⟩

/-- One step only adds code. -/
theorem ofStep (step : ExprStep ok s t) : Grows ok s t := by
  cases step with
  | build i operands =>
      exact { (refl s : Grows ok s s) with
        nextId := Nat.le_succ _
        blocks := by simp [CodeGen.built, CodeGen.fresh, CodeGen.push]
        current := by simp [CodeGen.built, CodeGen.fresh, CodeGen.push]
        items := by
          apply push (u := s.built i)
          · split <;> exact operands
          · split <;> simp [Item.result, CodeGen.built, CodeGen.fresh, CodeGen.push] }
  | declare symbol =>
      exact { (refl s : Grows ok s s) with moduleFns := fun _ member => List.mem_insert_of_mem member }
  | constant bytes => exact { (refl s : Grows ok s s) with }
  | append name =>
      exact { (refl s : Grows ok s s) with
        blocks := by simp [CodeGen.appended]
        current := by
          simp only [CodeGen.appended, List.length_append]
          omega
        items := by
          apply ofItems
          intro b
          unfold CodeGen.appended CodeGen.items
          by_cases inRange : b < s.blocks.length
          · simp [List.getElem?_append_left inRange]
          · have outside := Nat.le_of_not_lt inRange
            rw [List.getElem?_append_right outside, List.getElem?_eq_none outside]
            cases b - s.blocks.length <;> simp }
  | terminate e operands =>
      exact { (refl s : Grows ok s s) with
        blocks := by simp [CodeGen.push]
        current := by simp [CodeGen.push]
        items := push (u := s) (.term e) operands (by simp [Item.result]) }
  | position b inRange => exact { (refl s : Grows ok s s) with current := fun _ => inRange }
  | outputs outputs buffer => exact { (refl s : Grows ok s s) with }

end Grows

/-- Code for an expression only adds code. -/
theorem ExprSteps.grows {ok : Set Nat} {s t : CodeGen} (steps : ExprSteps ok s t) :
    Grows ok s t := by
  induction steps with
  | refl => exact .refl _
  | tail _ step ih => exact ih.trans (.ofStep step)

/-- Without a bound on registers, every run only adds code. -/
theorem CodeGen.uses_univ (cg : CodeGen) : cg.Uses Set.univ where
  vars _ _ _ := trivial
  outputs _ _ _ := trivial
  slots _ _ _ := trivial
  scope _ _ _ := trivial
  fresh _ := trivial

/-- The code of an expression is only added. -/
theorem Gen.grows_compileExpr {e : Expr} {s t : CodeGen} {v : SigilValue}
    (returned : Returns (Gen.compileExpr e) s v t) : Grows Set.univ s t :=
  (Gen.emits_compileExpr _ e s v t returned s.uses_univ).1.grows

/-- The code of the arguments of a SPAWN is only added. -/
theorem Gen.grows_compileSpawnArgs {buffer : Handle} {i : Nat} {args : List Expr} {s t : CodeGen}
    {u : Unit} (returned : Returns (Gen.compileSpawnArgs buffer i args) s u t) :
    Grows Set.univ s t :=
  (Gen.emits_compileSpawnArgs (fun _ _ => trivial) i (fun e _ => Gen.emits_compileExpr _ e) s u t
    returned s.uses_univ).1.grows

end Sigil
