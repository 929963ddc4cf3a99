import Sigil.Codegen.Run
import Sigil.Codegen.Spawn
import Sigil.Codegen.AllocSize

/-!
# The run-time bounds check

LOAD and STORE at a dynamic offset compare the end of the access, computed modulo the
width of the offset, with the size of the memory as unsigned numbers. An access that
begins up to its own size below the memory ends inside it and goes through.
-/

namespace Sigil

open Flow

namespace CodeGen

variable (s : CodeGen) {b : Nat}

/-- A new block is empty. -/
@[simp] theorem items_appended (name : String) : (s.appended name).items b = s.items b := by
  unfold appended items
  by_cases inRange : b < s.blocks.length
  · simp [List.getElem?_append_left inRange]
  · have outside := Nat.le_of_not_lt inRange
    rw [List.getElem?_append_right outside, List.getElem?_eq_none outside]
    cases b - s.blocks.length <;> simp

/-- A built instruction stands at the end of the current block. -/
theorem items_built {i : Instr} (inRange : s.current < s.blocks.length) :
    (s.built i).items b = if b = s.current then
      s.items b ++ [if i.folds then .folded s.nextId i else .instr s.nextId i] else s.items b :=
  s.items_push inRange

/-- Moving to a block changes no code. -/
@[simp] theorem items_positioned (target : Nat) : (s.positioned target).items b = s.items b := rfl

/-- A declaration changes no code. -/
@[simp] theorem items_declared (symbol : String) : (s.declared symbol).items b = s.items b := rfl

/-- The block moved to is the current one. -/
@[simp] theorem current_positioned (target : Nat) : (s.positioned target).current = target := rfl

/-- A new block is not moved to. -/
@[simp] theorem current_appended (name : String) : (s.appended name).current = s.current := rfl

/-- Building stays in the block. -/
@[simp] theorem current_built (i : Instr) : (s.built i).current = s.current := rfl

/-- Declaring stays in the block. -/
@[simp] theorem current_declared (symbol : String) : (s.declared symbol).current = s.current := rfl

/-- Pushing stays in the block. -/
@[simp] theorem current_push (item : Item) : (s.push item).current = s.current := rfl

/-- Pushing adds no block. -/
@[simp] theorem length_blocks_push (item : Item) : (s.push item).blocks.length = s.blocks.length := by
  simp [push]

/-- Building adds no block. -/
@[simp] theorem length_blocks_built (i : Instr) : (s.built i).blocks.length = s.blocks.length := by
  simp [built, fresh]

/-- A new block is one more. -/
@[simp] theorem length_blocks_appended (name : String) :
    (s.appended name).blocks.length = s.blocks.length + 1 := by
  simp [appended]

/-- Moving adds no block. -/
@[simp] theorem length_blocks_positioned (target : Nat) :
    (s.positioned target).blocks.length = s.blocks.length := rfl

/-- Declaring adds no block. -/
@[simp] theorem length_blocks_declared (symbol : String) :
    (s.declared symbol).blocks.length = s.blocks.length := rfl

/-- Outside the blocks there is no code. -/
theorem items_eq_nil (outside : s.blocks.length ≤ b) : s.items b = [] := by
  rw [items, List.getElem?_eq_none outside]

end CodeGen

namespace Gen

variable {s t : CodeGen} {offset : IntValue} {size allocated : Nat} {u : Unit}

/-- The comparison of a bounds check: the end of the access, then whether it lies beyond
the memory. -/
def comparison (s : CodeGen) (offset : IntValue) (size allocated : Nat) : CodeGen :=
  let ended : Instr := .intOp .add offset (i64 size)
  (s.built ended).built
    (.icmp .ugt (.reg offset.width s.nextId ended.folds) (i64 allocated))

/-- What a branch on a violation leaves. -/
def guarded (s : CodeGen) (isViolation : IntValue) : CodeGen :=
  let branched := ((s.appended "bounds_violation").appended "bounds_ok").push
    (.term (.condBr isViolation s.blocks.length (s.blocks.length + 1)))
  let aborted := ((branched.positioned s.blocks.length).declared "abort").built (.call "abort" [])
  (aborted.push (.term .unreachable)).positioned (s.blocks.length + 1)

/-- A guarded block ends in the branch on its check. -/
theorem items_guarded (inRange : s.current < s.blocks.length) (isViolation : IntValue) :
    (guarded s isViolation).items s.current = s.items s.current ++
      [.term (.condBr isViolation s.blocks.length (s.blocks.length + 1))] := by
  have here : s.current ≠ s.blocks.length := Nat.ne_of_lt inRange
  unfold guarded
  rw [CodeGen.items_positioned, CodeGen.items_push _ (by simp), if_neg (by simpa using here),
    CodeGen.items_built _ (by simp), if_neg (by simpa using here), CodeGen.items_declared,
    CodeGen.items_positioned, CodeGen.items_push _ (by simp; omega), if_pos (by simp)]
  simp

/-- A bounds check compares and branches. -/
theorem guarded_of_emitBoundsCheck (returned : Returns (emitBoundsCheck offset size allocated) s u t) :
    ∃ folded, t = guarded (comparison s offset size allocated) (.reg 1 (s.nextId + 1) folded) := by
  simp only [emitBoundsCheck, returns_bind, returns_buildInt, returns_appendBlock,
    returns_terminate, returns_positionAtEnd, returns_callRuntime] at returned
  obtain ⟨_, s₁, ⟨rfl, rfl⟩, _, s₂, ⟨rfl, rfl⟩, violation, s₃, ⟨rfl, rfl⟩, ok, s₄, ⟨rfl, rfl⟩,
    _, s₅, rfl, _, s₆, rfl, _, s₇, ⟨rfl, rfl⟩, _, s₈, rfl, rfl⟩ := returned
  refine ⟨(Instr.icmp .ugt (.reg offset.width s.nextId (Instr.intOp .add offset (i64 size)).folds)
    (i64 allocated)).folds, ?_⟩
  simp [guarded, comparison]
  rfl

/-- The sum of a bounds check. -/
theorem compute_end (results : Results) (wide : offset.width = 64) :
    (Instr.intOp .add offset (i64 size)).compute results =
      some ((offset.eval results).setWidth 64 + BitVec.ofNat 64 size).toNat := by
  have same : (i64 size).width = offset.width := wide.symm
  rw [Instr.compute, dif_pos same]
  cases offset with
  | const width n =>
      obtain rfl : width = 64 := wide
      exact congrArg (fun x => some (x + BitVec.ofNat 64 size).toNat)
        (BitVec.setWidth_eq (BitVec.ofInt 64 n)).symm
  | reg width id folded =>
      obtain rfl : width = 64 := wide
      exact congrArg (fun x => some (x + BitVec.ofNat 64 size).toNat)
        (BitVec.setWidth_eq (BitVec.ofNat 64 (results id))).symm

/-- The comparison of a bounds check. -/
theorem compute_violation (results : Results) (id : Nat) (folded : Bool) :
    (Instr.icmp .ugt (.reg 64 id folded) (i64 allocated)).compute results =
      some ((BitVec.ofNat 64 allocated).ult (BitVec.ofNat 64 (results id))).toNat := by
  have same : (i64 allocated).width = (IntValue.reg 64 id folded).width := rfl
  rw [Instr.compute, dif_pos same]
  rfl

/-- The code of a comparison computes the end of the access and branches on whether it
lies beyond the memory. -/
theorem nextBlock_guarded (inRange : s.current < s.blocks.length) (results : Results)
    (wide : offset.width = 64) (folded : Bool) :
    nextBlock results (s.codeTo (guarded (comparison s offset size allocated)
      (.reg 1 (s.nextId + 1) folded))) =
    some (if (BitVec.ofNat 64 allocated).ult
        ((offset.eval results).setWidth 64 + BitVec.ofNat 64 size)
      then s.blocks.length else s.blocks.length + 1) := by
  let ended : Instr := .intOp .add offset (i64 size)
  let compared : Instr := .icmp .ugt (.reg 64 s.nextId ended.folds) (i64 allocated)
  have first := Appends.built s ended inRange
  have second := Appends.built (s.built ended) compared (first.inRange inRange)
  have two := first.trans second
  have same : comparison s offset size allocated = (s.built ended).built compared := by
    rw [comparison, wide]
  rw [← same] at two
  have code := items_guarded (two.inRange inRange) (.reg 1 (s.nextId + 1) folded)
  rw [two.current, two.here, two.blocks, List.append_assoc] at code
  unfold nextBlock CodeGen.codeTo
  rw [code, List.drop_left, List.append_assoc, List.singleton_append,
    runItems_computed (compute_end results wide), List.singleton_append,
    runItems_computed (compute_violation _ _ _), Function.update_self, BitVec.ofNat_toNat,
    BitVec.setWidth_eq, runItems_term]
  exact BlockEnd.target_bit

/-- A LOAD or STORE of some bytes at a dynamic offset, generated from `s` to `t`. -/
inductive Access (h : Handle) (size : Nat) (offset : IntValue) (s t : CodeGen) : Prop where
  | load (v : SigilValue) (returned : Returns (load h size (.dynamic offset)) s v t)
  | store (value : SigilValue) (u : Unit)
      (returned : Returns (store h value size (.dynamic offset)) s u t)

section Access

variable {h : Handle} {value : SigilValue} {v : SigilValue} {p : PtrValue}

/-- Computing an address only appends code. -/
theorem address_appends (returned : Returns (address h (.dynamic offset)) s p t)
    (inRange : s.current < s.blocks.length) : ∃ code, Appends s t code := by
  obtain ⟨_, rfl⟩ := returns_buildPtr.mp returned
  exact ⟨_, .built s _ inRange⟩

/-- An instruction appended after some code is the last of its block. -/
theorem appends_access {m : CodeGen} {code : List Item} (before : Appends m s code) (i : Instr)
    (inRange : m.current < m.blocks.length) (touches : i.isAccess) :
    Appends m (s.built i) (code ++ [.instr s.nextId i]) := by
  have last := Appends.built s i (before.inRange inRange)
  have emitted : i.folds = false := by cases i <;> first | rfl | cases touches
  rw [emitted] at last
  exact before.trans last

/-- Inside a function the offset into memory of a known size is checked. -/
theorem returns_checkOffset (inside : s.inFunction = true) :
    Returns (checkOffset h size (.dynamic offset)) s u t ↔
      if 0 < h.size then Returns (emitBoundsCheck offset size h.size) s u t else t = s := by
  simp only [checkOffset, returns_bind, returns_get]
  constructor
  · rintro ⟨_, _, ⟨rfl, rfl⟩, returned⟩
    simp only [inside, Bool.true_and, gt_iff_lt, decide_eq_true_eq] at returned
    split at returned
    next known => simpa [known] using returned
    next unknown => simpa [unknown, eq_comm] using returned
  · intro returned
    refine ⟨s, s, ⟨rfl, rfl⟩, ?_⟩
    simp only [inside, Bool.true_and, gt_iff_lt, decide_eq_true_eq]
    split at returned
    next known => simpa [known] using returned
    next unknown => simpa [unknown, eq_comm] using returned

/-- Behind the check the generator stands in a block. -/
theorem checkOffset_inRange (inside : s.inFunction = true) (inRange : s.current < s.blocks.length)
    (returned : Returns (checkOffset h size (.dynamic offset)) s u t) :
    t.current < t.blocks.length := by
  rw [returns_checkOffset inside] at returned
  split at returned
  · obtain ⟨folded, rfl⟩ := guarded_of_emitBoundsCheck returned
    simp [guarded]
  · rwa [returned]

/-- A LOAD or STORE checks its offset and then touches memory where the check left the
insertion point. -/
theorem Access.checked (access : Access h size offset s t) (inside : s.inFunction = true)
    (inRange : s.current < s.blocks.length) :
    ∃ m u, Returns (checkOffset h size (.dynamic offset)) s u m ∧
      ∃ code id i, i.isAccess ∧ Appends m t (code ++ [.instr id i]) := by
  cases access with
  | load v returned =>
      obtain ⟨u, m, check, rest⟩ := returns_bind.mp returned
      obtain ⟨p, n, located, rest⟩ := returns_bind.mp rest
      have inRange' := checkOffset_inRange inside inRange check
      obtain ⟨code, before⟩ := address_appends located inRange'
      refine ⟨m, u, check, code, ?_⟩
      cases typ : h.typ with
      | float =>
          simp only [typ, returns_bind, returns_buildFloat, returns_pure] at rest
          obtain ⟨_, _, ⟨rfl, rfl⟩, rfl, rfl⟩ := rest
          exact ⟨_, _, rfl, appends_access before _ inRange' rfl⟩
      | int | bytes | string =>
          simp only [typ, returns_bind, returns_buildInt, returns_pure] at rest
          obtain ⟨_, _, ⟨rfl, rfl⟩, rfl, rfl⟩ := rest
          exact ⟨_, _, rfl, appends_access before _ inRange' rfl⟩
  | store value u returned =>
      obtain ⟨u, m, check, rest⟩ := returns_bind.mp returned
      obtain ⟨p, n, located, rest⟩ := returns_bind.mp rest
      have inRange' := checkOffset_inRange inside inRange check
      obtain ⟨code, before⟩ := address_appends located inRange'
      refine ⟨m, u, check, ?_⟩
      cases value with
      | immediate i =>
          simp only [returns_bind, returns_build, returns_pure] at rest
          obtain ⟨i', k, resized, _, _, ⟨rfl, rfl⟩, _, rfl⟩ := rest
          obtain ⟨_, code', between, _⟩ := resizeInt_appends resized (before.inRange inRange')
          exact ⟨_, _, _, rfl, appends_access (before.trans between) _ inRange' rfl⟩
      | handle src =>
          simp only [returns_bind, returns_buildInt, returns_build, returns_pure] at rest
          obtain ⟨_, _, ⟨rfl, rfl⟩, i', k, resized, _, _, ⟨rfl, rfl⟩, _, rfl⟩ := rest
          have cast := Appends.built n (.ptrtoint src.ptr) (before.inRange inRange')
          obtain ⟨_, code', between, _⟩ := resizeInt_appends resized
            (cast.inRange (before.inRange inRange'))
          exact ⟨_, _, _, rfl,
            appends_access ((before.trans cast).trans between) _ inRange' rfl⟩
      | float f =>
          simp only [returns_bind, returns_build, returns_pure] at rest
          obtain ⟨_, _, ⟨rfl, rfl⟩, _, rfl⟩ := rest
          exact ⟨_, _, _, rfl, appends_access before _ inRange' rfl⟩

end Access

end Gen

/-- An access lies inside memory of a size. -/
def Inside (offset : Int) (size allocated : Nat) : Prop :=
  0 ≤ offset ∧ offset + size ≤ allocated

/-- An access begins below memory of a size and ends inside it or at its start. -/
def BeginsBelow (offset : Int) (size allocated : Nat) : Prop :=
  offset < 0 ∧ 0 ≤ offset + size ∧ offset + size ≤ allocated

/-- The unsigned comparison of the end lets an access through that lies inside the
memory, and one that begins below it. -/
theorem not_ult_end_iff (x : BitVec 64) {size allocated : Nat} (small : size ≤ 8)
    (bound : allocated < 2 ^ 32) :
    (BitVec.ofNat 64 allocated).ult (x + BitVec.ofNat 64 size) = false ↔
      Inside x.toInt size allocated ∨ BeginsBelow x.toInt size allocated := by
  have range := x.isLt
  rw [Inside, BeginsBelow, BitVec.ult, decide_eq_false_iff_not, BitVec.toNat_add,
    BitVec.toNat_ofNat, BitVec.toNat_ofNat, BitVec.toInt_eq_toNat_cond,
    Nat.mod_eq_of_lt (by omega : size < 2 ^ 64), Nat.mod_eq_of_lt (by omega : allocated < 2 ^ 64)]
  split <;> omega

/-- A word set to its own width keeps its value. -/
theorem toInt_setWidth_of_eq {w w' : Nat} (same : w = w') (x : BitVec w) :
    (x.setWidth w').toInt = x.toInt := by
  subst same
  rw [BitVec.setWidth_eq]

section Exact

variable {s t : CodeGen} {h : Handle} {offset : IntValue} {size : Nat}

/-- An access goes through where the size of the memory is unknown, where it lies inside
the memory and where it begins below it. -/
theorem Gen.Access.passes_iff (access : Gen.Access h size offset s t) (results : Results)
    (inside : s.inFunction = true) (inRange : s.current < s.blocks.length)
    (wide : offset.width = 64) (small : size ≤ 8) (bound : h.size < 2 ^ 32) :
    Passes results s t ↔ h.size = 0 ∨ Inside (offset.eval results).toInt size h.size ∨
      BeginsBelow (offset.eval results).toInt size h.size := by
  obtain ⟨m, u, check, code, id, i, _, appends⟩ := access.checked inside inRange
  rw [Gen.returns_checkOffset inside] at check
  split at check
  next known =>
    obtain ⟨folded, rfl⟩ := Gen.guarded_of_emitBoundsCheck check
    have moved : t.current = s.blocks.length + 1 := by
      rw [appends.current]
      simp [Gen.guarded, Gen.comparison]
    have same : s.codeTo t = s.codeTo (Gen.guarded (Gen.comparison s offset size h.size)
        (.reg 1 (s.nextId + 1) folded)) := by
      rw [CodeGen.codeTo, appends.items, if_neg (by rw [← appends.current, moved]; omega)]
      rfl
    have read : (offset.eval results).toInt = ((offset.eval results).setWidth 64).toInt :=
      (toInt_setWidth_of_eq wide _).symm
    rw [Passes, same, Gen.nextBlock_guarded inRange results wide, moved, read,
      ← not_ult_end_iff _ small bound, Option.some.injEq]
    cases (BitVec.ofNat 64 h.size).ult _ with
    | false => simp
    | true => simp; omega
  next unknown =>
    subst check
    exact iff_of_true (.inl appends.current) (.inl (Nat.eq_zero_of_not_pos unknown))

/-- The check of a LOAD or STORE at a dynamic offset is exact unless the size of the
memory is recorded as zero or the access begins below the memory and ends in it. -/
theorem boundsCheck_exact_iff (access : Gen.Access h size offset s t) (results : Results)
    (inside : s.inFunction = true) (inRange : s.current < s.blocks.length)
    (wide : offset.width = 64) (sized : size ∈ [1, 2, 4, 8]) (bound : h.size < 2 ^ 32) :
    (Passes results s t ↔ Inside (offset.eval results).toInt size h.size) ↔
      0 < h.size ∧ ¬ BeginsBelow (offset.eval results).toInt size h.size := by
  have small : 0 < size ∧ size ≤ 8 := by
    simp only [List.mem_cons, List.not_mem_nil, or_false] at sized
    omega
  rw [access.passes_iff results inside inRange wide small.2 bound]
  unfold Inside BeginsBelow
  omega

end Exact

/-- Memory of eight bytes at a pointer of the frame. -/
def eightBytes : Handle := ⟨.reg 0 false, 8, .bytes⟩

/-- The result 7 has an offset as its value. -/
def offsetResult (offset : Int) : Results :=
  Function.update (fun _ => 0) 7 (BitVec.ofInt 64 offset).toNat

/-- A LOAD of four bytes at result 7. -/
def loadFour : CodeGen × SigilValue :=
  match Gen.load eightBytes 4 (.dynamic (.reg 64 7 false)) scopedGenerator with
  | .ok (v, t) => (t, v)
  | .error _ => (scopedGenerator, .handle eightBytes)

/-- The LOAD of four bytes in `scopedGenerator` is an access. -/
theorem access_loadFour : Gen.Access eightBytes 4 (.reg 64 7 false) scopedGenerator loadFour.1 :=
  .load loadFour.2 rfl

/-- A LOAD of four bytes at the offset 4 of eight. -/
theorem boundsCheck_exact_iff_loadFour :
    (Passes (offsetResult 4) scopedGenerator loadFour.1 ↔ Inside (BitVec.ofNat 64 4).toInt 4 8) ↔
      0 < 8 ∧ ¬ BeginsBelow (BitVec.ofNat 64 4).toInt 4 8 :=
  boundsCheck_exact_iff access_loadFour (offsetResult 4) rfl (by decide) rfl (by decide) (by decide)

/-- `h = ALLOC 8 bytes`, `STORE h 0 8`, `i = INEG 2 8`, `v = LOAD h 4 i`, `FREE h`. -/
def loadBelow : List Node :=
  [.assignment 1 "h" (.alloc (.intLit 8) .bytes false), .store 2 "h" (.intLit 0) 8 none,
    .assignment 3 "i" (.ineg (.intLit 2) 8),
    .assignment 4 "v" (.load (.var "h") 4 (some (.var "i"))), .free 5 "h"]

/-- A LOAD of four bytes two bytes below the memory is accepted and goes through. -/
theorem loadBelow_accepted_and_passes :
    (∀ sha256, (leaf loadBelow).Accepted sha256 ∅ []) ∧
      ¬ (Passes (offsetResult (-2)) scopedGenerator loadFour.1 ↔
        Inside ((IntValue.reg 64 7 false).eval (offsetResult (-2))).toInt 4 8) := by
  refine ⟨fun _ => Behavior.accepted_of_noHash (by decide) (by decide), fun exact => ?_⟩
  obtain ⟨low, _⟩ := exact.mp (.inr (by decide))
  exact absurd low (by decide)

end Sigil
