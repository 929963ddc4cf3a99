import Sigil.Codegen.Drafts
import Sigil.Codegen.BoundsCheck

/-!
# The width of a write

STORE, SET and ATOMIC_STORE resize an integer to the declared size but store a float as
wide as it is. CAS, ATOMIC_ADD and ATOMIC_SUB are as wide as their operand, whatever
size they declare.
-/

namespace Sigil

open Flow

/-- The bytes that a number of bits takes in memory. -/
def bytesOf (width : Nat) : Nat := (width + 7) / 8

/-- The bytes of memory an instruction reads or writes, where its operands' types fix
them. -/
def Instr.touched : Instr → Option Nat
  | .load _ width | .loadFloat _ width => some (bytesOf width)
  | .loadPtr _ => some 8
  | .store _ a | .cmpxchg _ a _ | .atomicRmw _ _ a => some (bytesOf a.width)
  | .storeFloat _ f => some (bytesOf f.width)
  | _ => none

def Item.touched : Item → Option Nat
  | .instr _ i => i.touched
  | .folded _ _ | .term _ => none

/-- The bytes that the last access at the insertion point touches. -/
def CodeGen.lastTouched (cg : CodeGen) : Option Nat :=
  ((cg.items cg.current).filterMap Item.touched).getLast?

/-- A statement or an expression that writes memory. -/
inductive Write where
  | store (target : String) (value : Expr) (size : Nat) (offset : Option Expr)
  | set (target : String) (value : Expr)
  | atomicStore (target value : Expr) (size : Nat)
  | cas (addr expected new : Expr) (size : Nat)
  | atomicRmw (op : AtomicRmw) (target value : Expr) (size : Nat)

/-- What a value takes when it is stored at a size: an integer or an address is
resized. -/
def Shape.written (size : Nat) : Shape → Nat
  | int _ | handle _ => bytesOf (Gen.intWidth size)
  | float f => bytesOf f.width

/-- A value that takes its size when it is stored. -/
def Shape.Fills (size : Nat) : Shape → Prop
  | int _ | handle _ => size < 2 ^ 29
  | float f => bytesOf f.width = size

/-- A value that takes the size of a slot when it is stored as an address. -/
def Shape.FillsAddress (size : Nat) : Shape → Prop
  | int _ | handle _ => size = 8
  | float f => bytesOf f.width = size

/-- An integer operand that takes the size. -/
def Shape.Spans (size : Nat) : Shape → Prop
  | int i => bytesOf i.width = size
  | handle _ | float _ => False

/-- What SET makes of a value: the first bytes behind a handle. -/
def Shape.loaded : Shape → Shape
  | handle src =>
      if src.typ = .float then float ⟨if min src.size 8 = 4 then 32 else 64, false⟩
      else int ⟨Gen.intWidth (min src.size 8), false⟩
  | shape => shape

namespace Write

open Gen in
def generate : Write → Gen Unit
  | store target value size offset => compileStore target value size offset
  | set target value => compileSet target value
  | atomicStore target value size => do let _ ← compileExpr (.atomicStore target value size)
  | cas addr expected new size => do let _ ← compileExpr (.cas addr expected new size)
  | atomicRmw op target value size => do let _ ← compileExpr (.atomicRmw op target value size)

/-- The declared size, of SET the size of its target. -/
def size (cg : CodeGen) : Write → Option Nat
  | store _ _ size _ | atomicStore _ _ size | cas _ _ _ size | atomicRmw _ _ _ size => some size
  | set target _ => match cg.vars.lookup target with
    | some (.handle h) => some h.size
    | _ => none

/-- The kind of the value written, or compared with. -/
def operand : Write → Draft Shape
  | store target value _ _ => do
      let _ ← Draft.derefHandle (← Draft.getVar target)
      Draft.compileExpr value
  | set _ value => Draft.compileExpr value
  | atomicStore target value _ | cas target value _ _ | atomicRmw _ target value _ => do
      let _ ← Draft.asHandle (← Draft.compileExpr target)
      Draft.compileExpr value

/-- The operand has the declared size. -/
def Fits (cg : CodeGen) : Write → Shape → Prop
  | store _ _ size _, shape | atomicStore _ _ size, shape => shape.Fills size
  | cas _ _ _ size, shape | atomicRmw _ _ _ size, shape => shape.Spans size
  | set target _, shape => match cg.vars.lookup target with
    | some (.handle h) =>
        if h.typ = .string then shape.FillsAddress h.size else shape.loaded.Fills h.size
    | _ => False

end Write

section Built

variable {s t n : CodeGen} {i : Instr} {k : Nat}

/-- An access just generated is the last one. -/
theorem lastTouched_built (inRange : n.current < n.blocks.length) (emitted : i.folds = false)
    (touches : i.touched = some k) : (n.built i).lastTouched = some k := by
  rw [CodeGen.lastTouched, CodeGen.current_built, n.items_built inRange, if_pos rfl, emitted,
    List.filterMap_append]
  simp [Item.touched, touches]

/-- An instruction that touches no memory leaves the last access. -/
theorem lastTouched_built_quiet (inRange : n.current < n.blocks.length) (quiet : i.touched = none) :
    (n.built i).lastTouched = n.lastTouched := by
  rw [CodeGen.lastTouched, CodeGen.current_built, n.items_built inRange, if_pos rfl,
    List.filterMap_append]
  cases i.folds <;> simp [Item.touched, quiet, CodeGen.lastTouched]

/-- A width keeps its size exactly below 2^29 bytes. -/
theorem bytesOf_intWidth_eq_iff (size : Nat) : bytesOf (Gen.intWidth size) = size ↔
    size < 2 ^ 29 := by
  unfold bytesOf Gen.intWidth
  omega

/-- The bytes written are the size exactly when the shape fills it. -/
theorem Shape.written_eq_iff {size : Nat} (shape : Shape) :
    shape.written size = size ↔ shape.Fills size := by
  cases shape with
  | int _ | handle _ => exact bytesOf_intWidth_eq_iff size
  | float f => exact Iff.rfl

/-- The bytes written through an address are the size exactly when the shape fills it. -/
theorem Shape.written_address_iff {size : Nat} (shape : Shape) :
    shape.written 8 = size ↔ shape.FillsAddress size := by
  cases shape with
  | int _ | handle _ => exact eq_comm
  | float f => exact Iff.rfl

end Built

namespace Gen

variable {s t : CodeGen} {h : Handle} {value v : SigilValue} {size : Nat} {offset : Offset}
  {u : Unit}

/-- A resized integer has the width asked for. -/
theorem resizeInt_width {a b : IntValue} {width : Nat}
    (returned : Returns (resizeInt a width) s b t) :
    b.width = width := by
  unfold resizeInt at returned
  split at returned
  next same =>
    obtain ⟨rfl, rfl⟩ := returns_pure.mp returned
    exact same
  next =>
    split at returned
    all_goals
      obtain ⟨rfl, rfl⟩ := returns_buildInt.mp returned
      rfl

/-- STORE ends in an access of the size its value takes. -/
theorem store_touches (inRange : s.InRange 0)
    (returned : Returns (store h value size offset) s u t) :
    t.lastTouched = some (value.shape.written size) := by
  have reached : t.InRange 0 := ((follows_store h value size offset).returns inRange returned).2
  obtain ⟨_, m, check, rest⟩ := returns_bind.mp returned
  obtain ⟨p, n, located, rest⟩ := returns_bind.mp rest
  cases value with
  | immediate i =>
      simp only [returns_bind, returns_build, returns_pure] at rest
      obtain ⟨i', k, resized, _, _, ⟨rfl, rfl⟩, _, rfl⟩ := rest
      exact lastTouched_built (by simpa [CodeGen.InRange] using reached) rfl
        (congrArg (fun w => some (bytesOf w)) (resizeInt_width resized))
  | handle src =>
      simp only [returns_bind, returns_buildInt, returns_build, returns_pure] at rest
      obtain ⟨_, _, ⟨rfl, rfl⟩, i', k, resized, _, _, ⟨rfl, rfl⟩, _, rfl⟩ := rest
      exact lastTouched_built (by simpa [CodeGen.InRange] using reached) rfl
        (congrArg (fun w => some (bytesOf w)) (resizeInt_width resized))
  | float f =>
      simp only [returns_bind, returns_build, returns_pure] at rest
      obtain ⟨_, _, ⟨rfl, rfl⟩, _, rfl⟩ := rest
      exact lastTouched_built (by simpa [CodeGen.InRange] using reached) rfl rfl

/-- What LOAD returns. -/
theorem load_width (returned : Returns (load h size offset) s v t) :
    v.shape = if h.typ = .float then .float ⟨if size = 4 then 32 else 64, false⟩
      else .int ⟨intWidth size, false⟩ := by
  obtain ⟨_, m, check, rest⟩ := returns_bind.mp returned
  obtain ⟨p, n, located, rest⟩ := returns_bind.mp rest
  cases typ : h.typ with
  | float =>
      simp only [typ, returns_bind, returns_buildFloat, returns_pure] at rest
      obtain ⟨_, _, ⟨rfl, rfl⟩, rfl, rfl⟩ := rest
      rfl
  | int | bytes | string =>
      simp only [typ, returns_bind, returns_buildInt, returns_pure] at rest
      obtain ⟨_, _, ⟨rfl, rfl⟩, rfl, rfl⟩ := rest
      rfl

end Gen

/-- A computation on sketches goes on from the result of its first part. -/
theorem Draft.bind_eq {α β : Type} {x : Draft α} {f : α → Draft β} {sk sk' : Sketch} {a : α}
    {r : Option (β × Sketch)} (first : x sk = some (a, sk')) (rest : f a sk' = r) :
    (x >>= f) sk = r := by
  change (x sk).bind (fun p => f p.1 p.2) = r
  rw [first]
  exact rest

namespace Write

open Gen

variable {s t : CodeGen} {u : Unit} {size : Nat}

/-- What a write with an operand of some kind does. -/
def Did (w : Write) (s t : CodeGen) (written : Shape → Option Nat) : Prop :=
  ∃ shape sk, w.operand s.sketch = some (shape, sk) ∧ t.lastTouched = written shape

/-- A write touches its size exactly when the shape fits. -/
theorem did_iff {w : Write} {written : Shape → Option Nat} {fits : Shape → Prop}
    (did : w.Did s t written) (exact : ∀ shape, written shape = some size ↔ fits shape) :
    t.lastTouched = some size ↔ ∃ shape sk, w.operand s.sketch = some (shape, sk) ∧ fits shape := by
  obtain ⟨shape, sk, known, last⟩ := did
  rw [last, exact]
  constructor
  · exact fun fitting => ⟨shape, sk, known, fitting⟩
  · rintro ⟨shape', sk', known', fitting⟩
    obtain ⟨rfl, rfl⟩ := Prod.mk.inj (Option.some.inj (known.symm.trans known'))
    exact fitting

/-- A STORE writes the bytes of its value's shape. -/
theorem did_store {target : String} {value : Expr} {offset : Option Expr} (inRange : s.InRange 0)
    (returned : Returns (compileStore target value size offset) s u t) :
    (store target value size offset).Did s t fun shape => some (shape.written size) := by
  obtain ⟨v, m₁, read, rest⟩ := returns_bind.mp returned
  obtain ⟨h, m₂, deref, rest⟩ := returns_bind.mp rest
  obtain ⟨val, m₃, compiled, rest⟩ := returns_bind.mp rest
  obtain ⟨off, m₄, located, stored⟩ := returns_bind.mp rest
  obtain ⟨drafted₁, inRange₁⟩ := (follows_getVar target).returns inRange read
  obtain ⟨drafted₂, inRange₂⟩ := (follows_derefHandle _ v).returns inRange₁ deref
  obtain ⟨drafted₃, inRange₃⟩ := (follows_compileExpr value).returns inRange₂ compiled
  obtain ⟨_, inRange₄⟩ := (follows_compileOffset fun e _ => follows_compileExpr e).returns
    inRange₃ located
  refine ⟨val.shape, m₃.sketch, ?_, store_touches inRange₄ stored⟩
  exact Draft.bind_eq drafted₁ (Draft.bind_eq drafted₂ drafted₃)

/-- An ATOMIC_STORE writes the bytes of its value's shape. -/
theorem did_atomicStore {target value : Expr} (inRange : s.InRange 0)
    (returned : Returns (generate (atomicStore target value size)) s u t) :
    (atomicStore target value size).Did s t fun shape => some (shape.written size) := by
  simp only [generate, compileExpr, compileAtomicStore, returns_bind, returns_asHandle,
    returns_pure] at returned
  obtain ⟨_, _, ⟨_, _, compiled, h, m₁, ⟨rfl, rfl⟩, val, m₂, compiled', _, _, stored, rfl, rfl⟩,
    _, rfl⟩ :=
    returned
  obtain ⟨drafted₁, inRange₁⟩ := (follows_compileExpr target).returns inRange compiled
  obtain ⟨drafted₂, inRange₂⟩ := (follows_compileExpr value).returns inRange₁ compiled'
  refine ⟨val.shape, m₂.sketch, ?_, store_touches inRange₂ stored⟩
  exact Draft.bind_eq drafted₁ drafted₂

/-- The bytes of an integer operand. -/
def spanned : Shape → Option Nat
  | .int i => some (bytesOf i.width)
  | .handle _ | .float _ => none

/-- An exchange spans the size exactly when the shape does. -/
theorem spanned_iff (shape : Shape) : spanned shape = some size ↔ shape.Spans size := by
  cases shape with
  | int i => simp [spanned, Shape.Spans]
  | handle m => simp [spanned, Shape.Spans]
  | float f => simp [spanned, Shape.Spans]

/-- A CAS writes the bytes of its value's shape. -/
theorem did_cas {addr expected new : Expr} (inRange : s.InRange 0)
    (returned : Returns (generate (cas addr expected new size)) s u t) :
    (cas addr expected new size).Did s t spanned := by
  have reached : t.InRange 0 := by
    obtain ⟨v, m, compiled, rest⟩ := returns_bind.mp returned
    obtain ⟨_, rfl⟩ := returns_pure.mp rest
    exact ((follows_compileExpr _).returns inRange compiled).2
  simp only [generate, compileExpr, compileCas, returns_bind, returns_asHandle, returns_asInt,
    returns_pure] at returned
  obtain ⟨_, _, ⟨_, _, compiled, h, m₁, ⟨rfl, rfl⟩, _, _, compiled', exp, m₂, ⟨rfl, rfl⟩, rest⟩,
    _, rfl⟩ :=
    returned
  obtain ⟨_, _, _, newVal, m₃, ⟨rfl, rfl⟩, rest⟩ := rest
  split at rest
  next => simp at rest
  next =>
    simp only [returns_bind, returns_build, returns_buildInt, returns_pure] at rest
    obtain ⟨_, _, ⟨rfl, rfl⟩, _, _, ⟨rfl, rfl⟩, _, _, ⟨rfl, rfl⟩, rfl, rfl⟩ := rest
    have here : m₃.current < m₃.blocks.length := by simpa [CodeGen.InRange] using reached
    obtain ⟨drafted₁, inRange₁⟩ := (follows_compileExpr addr).returns inRange compiled
    obtain ⟨drafted₂, _⟩ := (follows_compileExpr expected).returns inRange₁ compiled'
    refine ⟨.int exp.scalar, m₂.sketch, Draft.bind_eq drafted₁ drafted₂, ?_⟩
    rw [lastTouched_built_quiet (by simpa using here) rfl,
      lastTouched_built_quiet (by simpa using here) rfl, lastTouched_built here rfl rfl]
    rfl

/-- An atomic update writes the bytes of its value's shape. -/
theorem did_atomicRmw {op : AtomicRmw} {target value : Expr} (inRange : s.InRange 0)
    (returned : Returns (generate (atomicRmw op target value size)) s u t) :
    (atomicRmw op target value size).Did s t spanned := by
  have reached : t.InRange 0 := by
    obtain ⟨v, m, compiled, rest⟩ := returns_bind.mp returned
    obtain ⟨_, rfl⟩ := returns_pure.mp rest
    exact ((follows_compileExpr _).returns inRange compiled).2
  simp only [generate, compileExpr, compileAtomicRmw, returns_bind, returns_asHandle, returns_asInt,
    returns_pure] at returned
  obtain ⟨_, _, ⟨_, _, compiled, h, m₁, ⟨rfl, rfl⟩, _, _, compiled', val, m₂, ⟨rfl, rfl⟩, rest⟩,
    _, rfl⟩ :=
    returned
  split at rest
  next => simp at rest
  next =>
    simp only [returns_bind, returns_buildInt, returns_pure] at rest
    obtain ⟨_, _, ⟨rfl, rfl⟩, rfl, rfl⟩ := rest
    have here : m₂.current < m₂.blocks.length := by simpa [CodeGen.InRange] using reached
    obtain ⟨drafted₁, inRange₁⟩ := (follows_compileExpr target).returns inRange compiled
    obtain ⟨drafted₂, _⟩ := (follows_compileExpr value).returns inRange₁ compiled'
    refine ⟨.int val.scalar, m₂.sketch, Draft.bind_eq drafted₁ drafted₂, ?_⟩
    rw [lastTouched_built here rfl rfl]
    rfl

/-- What SET into memory stores. -/
def setWritten (h : Handle) (shape : Shape) : Option Nat :=
  some (if h.typ = .string then shape.written 8 else shape.loaded.written h.size)

/-- A SET writes the bytes of its value's shape. -/
theorem did_set {target : String} {value : Expr} {h : Handle} (inRange : s.InRange 0)
    (bound : s.vars.lookup target = some (.handle h))
      (returned : Returns (compileSet target value) s u t) :
    (set target value).Did s t (setWritten h) := by
  obtain ⟨val, m, compiled, rest⟩ := returns_bind.mp returned
  obtain ⟨drafted, inRange₁⟩ := (follows_compileExpr value).returns inRange compiled
  refine ⟨val.shape, m.sketch, drafted, ?_⟩
  have same : m.vars.lookup target = some (.handle h) := by
    rw [(grows_compileExpr compiled).vars, bound]
  obtain ⟨_, _, read, chosen⟩ := returns_bind.mp rest
  obtain ⟨rfl, rfl⟩ := returns_get.mp read
  rw [same] at chosen
  change Returns (if h.typ = .string then _ else _) _ u t at chosen
  unfold setWritten
  split at chosen
  next string => rw [if_pos string, store_touches inRange₁ chosen]
  next other =>
    rw [if_neg other]
    cases val with
    | handle src =>
        obtain ⟨toStore, n, loaded, stored⟩ := returns_bind.mp
          (show Returns (load src (min src.size 8) (.const 0) >>= fun toStore =>
            Gen.store h toStore h.size (.const 0)) _ u t from chosen)
        obtain ⟨_, inRange₂⟩ := (follows_load src (min src.size 8) (.const 0)).returns inRange₁
          loaded
        rw [store_touches inRange₂ stored, load_width loaded]
        rfl
    | immediate i =>
        have stored : Returns (Gen.store h (.immediate i) h.size (.const 0)) _ u t := chosen
        exact store_touches inRange₁ stored
    | float f =>
        have stored : Returns (Gen.store h (.float f) h.size (.const 0)) _ u t := chosen
        exact store_touches inRange₁ stored

/-- A SET writes the whole handle exactly when the value fills it. -/
theorem setWritten_iff {h : Handle} (shape : Shape) : setWritten h shape = some h.size ↔
    if h.typ = .string then shape.FillsAddress h.size else shape.loaded.Fills h.size := by
  unfold setWritten
  rw [Option.some.injEq]
  split
  · exact shape.written_address_iff
  · exact shape.loaded.written_eq_iff

/-- A write touches just the declared size when its operand has that size. -/
theorem touches_iff (w : Write) (inRange : s.InRange 0) (sized : w.size s = some size)
    (returned : Returns w.generate s u t) :
    t.lastTouched = some size ↔ ∃ shape sk, w.operand s.sketch = some (shape, sk) ∧
      w.Fits s shape := by
  have written {n : Nat} (shape : Shape) : some (shape.written n) = some n ↔ shape.Fills n := by
    rw [Option.some.injEq, shape.written_eq_iff]
  cases w with
  | store target value n offset =>
      obtain rfl := Option.some.inj sized
      exact did_iff (did_store inRange returned) written
  | set target value =>
      simp only [Write.size] at sized
      split at sized
      next h bound =>
        obtain rfl := Option.some.inj sized
        simp only [Fits, bound]
        exact did_iff (did_set inRange bound returned) setWritten_iff
      next => cases sized
  | atomicStore target value n =>
      obtain rfl := Option.some.inj sized
      exact did_iff (did_atomicStore inRange returned) written
  | cas addr expected new n =>
      obtain rfl := Option.some.inj sized
      exact did_iff (did_cas inRange returned) spanned_iff
  | atomicRmw op target value n =>
      obtain rfl := Option.some.inj sized
      exact did_iff (did_atomicRmw inRange returned) spanned_iff

end Write

/-- A generator with the memory `h` of four bytes. -/
def fourBytes : CodeGen :=
  scopedGenerator.bound "h" (.handle ⟨.reg 0 false, 4, .bytes⟩)

/-- What generating a write leaves. -/
def Write.after (w : Write) (cg : CodeGen) : CodeGen :=
  match w.generate cg with
  | .ok (_, t) => t
  | .error _ => cg

/-- A STORE of four bytes of a literal touches four bytes. -/
theorem touches_iff_int :
    ((Write.store "h" (.intLit 7) 4 none).after fourBytes).lastTouched = some 4 ↔
      ∃ shape sk, (Write.store "h" (.intLit 7) 4 none).operand fourBytes.sketch = some (shape, sk) ∧
        (Write.store "h" (.intLit 7) 4 none).Fits fourBytes shape :=
  Write.touches_iff (u := ()) _ ⟨by decide, by decide⟩ rfl rfl

/-- `h = ALLOC 4 bytes`, `STORE h 1.5 4`, `FREE h`. -/
def storeFloat : List Node :=
  [.assignment 1 "h" (.alloc (.intLit 4) .bytes false),
    .store 2 "h" (.floatLit 0x3ff8000000000000) 4 none, .free 3 "h"]

/-- `h = ALLOC 4 bytes SHARED`, `x = ATOMIC_ADD h 1 4`, `FREE h`. -/
def addFour : List Node :=
  [.assignment 1 "h" (.alloc (.intLit 4) .bytes true),
    .assignment 2 "x" (.atomicRmw .add (.var "h") (.intLit 1) 4), .free 3 "h"]

/-- Both are accepted, and both write eight bytes at a declared size of four. -/
theorem storeFloat_accepted_and_overruns :
    (∀ sha256, (leaf storeFloat).Accepted sha256 ∅ [] ∧ (leaf addFour).Accepted sha256 ∅ []) ∧
      ((Write.store "h" (.floatLit 0x3ff8000000000000) 4 none).after fourBytes).lastTouched =
        some 8 ∧
      ((Write.atomicRmw .add (.var "h") (.intLit 1) 4).after fourBytes).lastTouched = some 8 :=
  ⟨fun _ => ⟨Behavior.accepted_of_noHash (by decide) (by decide),
    Behavior.accepted_of_noHash (by decide) (by decide)⟩, by decide, by decide⟩

end Sigil
