import Sigil.Codegen.Steps
import Sigil.Reference
import Sigil.Semantic.Bounds

/-!
# The size of an ALLOC

The checker folds sums, differences and products of literals; the generator only
knows a literal, and asks for 64 bytes where the size is anything else.
-/

namespace Sigil

open Flow

/-- The bytes the generator asks for. -/
def Expr.requestedBytes (size : Expr) : Nat :=
  (size.evalConstInt.map BitVec.toNat).getD 64

/-- Generating `ALLOC size typ` puts one call of the scope allocator at the insertion
point, for a number of bytes. -/
def Requests (cg : CodeGen) (size : Expr) (typ : AstType) (shared : Bool) (bytes : Nat) : Prop :=
  ∃ scope value cg', cg.currentScope = some scope ∧
    Returns (Gen.compileExpr (.alloc size typ shared)) cg value cg' ∧
    cg'.items cg.current = cg.items cg.current ++ [.instr cg.nextId
      (.call "sigil_scope_alloc" [.ptr scope, .int (Gen.i64 bytes)])]

/-- An ALLOC of the generator agrees with the checker and with the run: it asks for
the constant size the checker computed, and for no less than the size is worth. -/
def AllocAgrees (cg : CodeGen) (σ : Valuation) (size : Expr) (typ : AstType) (shared : Bool) :
    Prop :=
  ∃ bytes, Requests cg size typ shared bytes ∧
    (∀ k, size.tryEvalConst = some k → bytes = k.toNat) ∧
    ∀ n, size.value σ = some n → n ≤ bytes

section Agreement

variable {cg : CodeGen} {σ : Valuation} {size : Expr} {typ : AstType} {shared : Bool}
  {scope : PtrValue} {bytes : Nat}

/-- The generator asks for `requestedBytes`, and for nothing else. -/
theorem requests_iff (inScope : cg.currentScope = some scope)
    (inRange : cg.current < cg.blocks.length) :
    Requests cg size typ shared bytes ↔ bytes = size.requestedBytes := by
  let called := cg.declared "sigil_scope_alloc"
  let call : Instr := .call "sigil_scope_alloc" [.ptr scope, .int (Gen.i64 size.requestedBytes)]
  have emits : (called.built call).items cg.current =
      cg.items cg.current ++ [.instr cg.nextId call] :=
    (called.items_push inRange).trans (if_pos rfl)
  have returned : ∀ value cg', Returns (Gen.compileExpr (.alloc size typ shared)) cg value cg' ↔
      value = .handle ⟨.reg cg.nextId false, size.requestedBytes, .ofAst typ⟩ ∧
        cg' = called.built call := by
    intro value cg'
    simp only [Gen.compileExpr, returns_bind, Gen.returns_scopeAllocHandle, returns_pure,
      Gen.scopeAllocated, inScope]
    constructor
    · rintro ⟨_, _, ⟨rfl, rfl⟩, rfl, rfl⟩
      exact ⟨rfl, rfl⟩
    · rintro ⟨rfl, rfl⟩
      exact ⟨_, _, ⟨rfl, rfl⟩, rfl, rfl⟩
  constructor
  · rintro ⟨scope', value, cg', inScope', run, emitted⟩
    obtain ⟨rfl, rfl⟩ := (returned value cg').mp run
    have same := List.append_cancel_left (emits.symm.trans emitted)
    simp only [call, Gen.i64, List.cons.injEq, Item.instr.injEq, Instr.call.injEq, CallArg.int.injEq,
      IntValue.const.injEq, Nat.cast_inj] at same
    tauto
  · rintro rfl
    exact ⟨scope, _, _, inScope, (returned _ _).mpr ⟨rfl, rfl⟩, emits⟩

/-- A literal is worth no more than the bytes it stands for. -/
theorem value_intLit_le (k : BitVec 64) {n : Int} (worth : (Expr.intLit k).value σ = some n) :
    n ≤ k.toNat := by
  obtain rfl := Option.some.inj worth
  rw [BitVec.toInt_eq_toNat_cond]
  split <;> omega

/-- An ALLOC agrees exactly when the requested bytes do. -/
theorem allocAgrees_requestedBytes (inScope : cg.currentScope = some scope)
    (inRange : cg.current < cg.blocks.length) :
    AllocAgrees cg σ size typ shared ↔
      (∀ k, size.tryEvalConst = some k → size.requestedBytes = k.toNat) ∧
        ∀ n, size.value σ = some n → n ≤ size.requestedBytes := by
  simp only [AllocAgrees, requests_iff inScope inRange, exists_eq_left]

/-- The generator, the checker and the run agree on the size of an ALLOC exactly when
the size is a literal, or the checker knows 64 or nothing and the run needs no more
than 64. -/
theorem allocAgrees_iff (inScope : cg.currentScope = some scope)
    (inRange : cg.current < cg.blocks.length) :
    AllocAgrees cg σ size typ shared ↔ (∃ k, size = .intLit k) ∨
      ((∀ k, size.tryEvalConst = some k → k = 64) ∧ ∀ n, size.value σ = some n → n ≤ 64) := by
  rw [allocAgrees_requestedBytes inScope inRange]
  by_cases literal : ∃ k, size = .intLit k
  · obtain ⟨k, rfl⟩ := literal
    refine iff_of_true ⟨fun l known => ?_, fun n worth => value_intLit_le k worth⟩ (.inl ⟨k, rfl⟩)
    rw [← Option.some.inj known]
    rfl
  · have fallback : size.requestedBytes = 64 := by
      cases size with
      | intLit k => exact absurd ⟨k, rfl⟩ literal
      | _ => rfl
    have same : ∀ k : BitVec 64, 64 = k.toNat ↔ k = 64 := fun k =>
      ⟨fun same => BitVec.eq_of_toNat_eq same.symm, fun same => same ▸ rfl⟩
    simp only [fallback, same, literal, false_or, Nat.cast_ofNat]

end Agreement

/-- A generator inside a function with a scope. -/
def scopedGenerator : CodeGen :=
  { blocks := [{ name := "entry" }], inFunction := true, currentScope := some (.reg 0 false) }

/-- No variable has a value, and memory is zero. -/
def noVariables : Valuation where
  int _ := none
  handle _ := none
  memory _ := 0

/-- A literal size is the size the checker records. -/
theorem allocAgrees_iff_eight :
    AllocAgrees scopedGenerator noVariables (.intLit 8) .bytes false ↔
      (∃ k, Expr.intLit 8 = .intLit k) ∨ ((∀ k, (Expr.intLit 8).tryEvalConst = some k → k = 64) ∧
        ∀ n, (Expr.intLit 8).value noVariables = some n → n ≤ 64) :=
  allocAgrees_iff rfl (by decide)

/-- `h = ALLOC IADD 100 100 8 bytes`, `FREE h`. -/
def allocSum : List Node :=
  [.assignment 1 "h" (.alloc (.intArith .add (.intLit 100) (.intLit 100) 8) .bytes false),
    .free 2 "h"]

/-- The checker takes the memory to have 200 bytes, the generator asks for 64. -/
theorem allocSum_accepted_and_disagrees :
    (∀ sha256, (leaf allocSum).Accepted sha256 ∅ []) ∧
      ¬ AllocAgrees scopedGenerator noVariables (.intArith .add (.intLit 100) (.intLit 100) 8)
        .bytes false := by
  refine ⟨fun _ => Behavior.accepted_of_noHash (by decide) (by decide), fun agrees => ?_⟩
  have ⟨known, _⟩ := (allocAgrees_requestedBytes rfl (by decide)).mp agrees
  exact absurd (known 200 (by decide)) (by decide)

end Sigil
