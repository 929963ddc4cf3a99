import Sigil.Codegen.Appends
import Sigil.Codegen.Function
import Sigil.Codegen.AllocSize

/-!
# Passing arguments to SPAWN

SPAWN stores argument `i` at byte `8 * i` of a buffer as large as the MEMORY of the
pattern; the pattern takes its declarations to lie one after the other, each with the
size it declares.
-/

namespace Sigil

open Flow

/-- A range of bytes: where it starts and how many bytes it has. -/
abbrev ByteRange := Int × Nat

/-- How far an address is from `base`, by the code that computed it. -/
def offsetFrom (base : PtrValue) (code : List Item) (p : PtrValue) : Option Int :=
  if p = base then some 0
  else code.findSome? fun item => match item with
    | .instr id (.gep b (.const _ n)) => if b = base ∧ p = .reg id false then some n else none
    | _ => none

/-- Where an item stores an integer into the memory at `base`. -/
def Item.storePlace (base : PtrValue) (code : List Item) : Item → Option ByteRange
  | instr _ (.store p a) => (offsetFrom base code p).map (·, a.width / 8)
  | _ => none

/-- Where code stores integers into the memory at `base`. -/
def storesInto (base : PtrValue) (code : List Item) : List ByteRange :=
  code.filterMap (Item.storePlace base code)

/-- The memory code allocates on the stack for an address, in bytes. -/
def allocatedBytes (code : List Item) (p : PtrValue) : Option Nat :=
  code.findSome? fun item => match item with
    | .instr id (.alloca bytes) => if p = .reg id false then some bytes else none
    | _ => none

/-- The buffer the last item handed to `sigil_spawn`, and the bytes allocated for it. -/
def handedBuffer (s t : CodeGen) : Option (Handle × Nat) :=
  match (t.items t.current).getLast? with
  | some (.instr _ (.call "sigil_spawn" [_, .ptr p, .int (.const _ size)])) => do
      return (⟨p, size.toNat, .bytes⟩, ← allocatedBytes (s.codeTo t) p)
  | _ => none

/-- Where the code for the arguments from position `i` on stores into the buffer: for
each argument, the stores made once its value is there. -/
def argumentStores (buffer : Handle) (i : Nat) : List Expr → CodeGen → List (List ByteRange)
  | [], _ => []
  | arg :: rest, s =>
      match Gen.compileExpr arg s, Gen.compileSpawnArgs buffer i [arg] s with
      | .ok (_, m), .ok (_, t) =>
          storesInto buffer.ptr (m.codeTo t) :: argumentStores buffer (i + 1) rest t
      | _, _ => []

/-- The bytes of the buffer a pattern addresses through the handle of each MEMORY
declaration. -/
def memoryPlaces (offset : Nat) : List MemoryDecl → CodeGen → List (Option ByteRange)
  | [], _ => []
  | decl :: rest, s =>
      match Gen.mapMemory offset [decl] s with
      | .ok (_, t) =>
          let place := match t.vars.lookup decl.name with
            | some (.handle h) => (offsetFrom (.param 0) (s.codeTo t) h.ptr).map (·, h.size)
            | _ => none
          place :: memoryPlaces (offset + decl.size) rest t
      | _ => []

/-- A SPAWN compiled from `s` to `t` keeps its argument stores inside the buffer it hands
over, and passes each argument in the bytes the pattern, compiled from `start`, addresses
through its declaration. -/
def SpawnMarshals (s t start : CodeGen) (args : List Expr) (memory : List MemoryDecl) : Prop :=
  ∃ buffer bytes, handedBuffer s t = some (buffer, bytes) ∧
    let stores := argumentStores buffer 0 args ((s.declared "sigil_spawn").built (.alloca bytes))
    stores.length = args.length ∧
    (∀ places ∈ stores, ∀ place ∈ places, 0 ≤ place.1 ∧ place.1 + place.2 ≤ bytes) ∧
    ∀ (i : Nat) places place, stores[i]? = some places → (memoryPlaces 0 memory start)[i]? =
      some place →
      places.map some = [place]

/-- The arguments of a SPAWN fit its pattern: every MEMORY declaration an argument is
passed for has eight bytes, and the memory, if there is any, has eight bytes for every
argument. -/
def ArgumentsFit (args : List Expr) (memory : List MemoryDecl) : Prop :=
  (∀ decl ∈ memory.take args.length, decl.size = 8) ∧
    let memorySize := (memory.map MemoryDecl.size).sum
    8 * args.length ≤ (if memorySize > 0 then memorySize else 8 * args.length) % 2 ^ 32

instance (args : List Expr) (memory : List MemoryDecl) : Decidable (ArgumentsFit args memory) :=
  inferInstanceAs (Decidable (_ ∧ _))

section Stores

variable {base : PtrValue} {code : List Item} {id : Nat}

/-- An item that neither stores an integer nor computes an address. -/
def Item.isQuiet : Item → Bool
  | instr _ (.store _ _) | instr _ (.gep _ _) => false
  | _ => true

/-- A quiet item stores nowhere. -/
theorem Item.storePlace_of_quiet {item : Item} (quiet : item.isQuiet) :
    item.storePlace base code = none := by
  unfold storePlace
  split
  · cases quiet
  · rfl

/-- Only addresses between quiet items count. -/
theorem offsetFrom_append_quiet {before : List Item} {p : PtrValue}
    (quiet : ∀ item ∈ before, item.isQuiet) :
    offsetFrom base (before ++ code) p = offsetFrom base code p := by
  induction before with
  | nil => rfl
  | cons item before ih =>
      obtain ⟨here, rest⟩ := List.forall_mem_cons.mp quiet
      rw [← ih rest]
      unfold offsetFrom
      rw [List.cons_append, List.findSome?_cons]
      split
      · rfl
      next =>
        match item, here with
        | .folded _ _, _ | .term _, _ => rfl
        | .instr _ i, here => cases i <;> first | rfl | cases here

/-- Code that stores one integer, at an address of code before. -/
theorem storesInto_snoc {p : PtrValue} {a : IntValue} {offset : Int}
    (noStores : ∀ item ∈ code, ∀ code', item.storePlace base code' = none)
    (there : offsetFrom base (code ++ [.instr id (.store p a)]) p = some offset) :
    storesInto base (code ++ [.instr id (.store p a)]) = [(offset, a.width / 8)] := by
  unfold storesInto
  rw [List.filterMap_append, List.filterMap_eq_nil_iff.mpr fun item member =>
    noStores item member _]
  simp [Item.storePlace, there]

/-- A pointer has no offset from itself. -/
theorem offsetFrom_self : offsetFrom base code base = some 0 := if_pos rfl

/-- The address computed by the first item that is not quiet. -/
theorem offsetFrom_gep {width : Nat} {n : Int} (other : base ≠ .reg id false) :
    offsetFrom base (.instr id (.gep base (.const width n)) :: code) (.reg id false) = some n := by
  unfold offsetFrom
  rw [if_neg (Ne.symm other), List.findSome?_cons]
  simp

end Stores

section Marshalling

open Gen

variable {s t m : CodeGen} {buffer : Handle} {i : Nat} {a : IntValue} {v : SigilValue}

/-- Making a SPAWN argument of a value appends quiet items. -/
theorem spawnArg_appends (returned : Returns (spawnArg v) s a t)
    (inRange : s.current < s.blocks.length) :
    ∃ code, Appends s t code ∧ (∀ item ∈ code, item.isQuiet) ∧ s.nextId ≤ t.nextId := by
  cases v with
  | handle h =>
      obtain ⟨_, rfl⟩ := returns_buildInt.mp returned
      exact ⟨_, .built s _ inRange, by simp; split <;> rfl, Nat.le_succ _⟩
  | immediate i =>
      obtain ⟨_, rfl⟩ := returns_pure.mp returned
      exact ⟨[], .refl _, by simp, le_rfl⟩
  | float f =>
      obtain ⟨_, rfl⟩ := returns_buildInt.mp returned
      exact ⟨_, .built s _ inRange, by simp; split <;> rfl, Nat.le_succ _⟩

/-- Resizing an integer appends quiet items. -/
theorem resizeInt_appends {width : Nat} {b : IntValue}
    (returned : Returns (resizeInt a width) s b t) (inRange : s.current < s.blocks.length) :
    b.width = width ∧ ∃ code, Appends s t code ∧ ∀ item ∈ code, item.isQuiet := by
  unfold resizeInt at returned
  split at returned
  next same =>
    obtain ⟨rfl, rfl⟩ := returns_pure.mp returned
    exact ⟨same, [], .refl _, by simp⟩
  next =>
    split at returned
    all_goals
      obtain ⟨rfl, rfl⟩ := returns_buildInt.mp returned
      exact ⟨rfl, _, .built s _ inRange, by simp; split <;> rfl⟩

/-- An argument is stored as 64 bits at its offset. -/
theorem storesInto_store {offset : Nat} {u : Unit} {before : List Item}
    (returned : Returns (store buffer (.immediate a) 8 (.const offset)) s u t)
    (inRange : s.current < s.blocks.length) (appends : Appends m s before)
    (quiet : ∀ item ∈ before, item.isQuiet) (known : ∃ k < s.nextId, buffer.ptr = .reg k false) :
    (∃ code, Appends m t code ∧ storesInto buffer.ptr code = [((offset : Int), 8)]) := by
  obtain ⟨k, old, register⟩ := known
  have noStores : ∀ items : List Item, (∀ item ∈ items, item.isQuiet) →
      ∀ item ∈ items, ∀ code, item.storePlace buffer.ptr code = none :=
    fun items quiet item member code => Item.storePlace_of_quiet (quiet item member)
  simp only [store, checkOffset, returns_bind, returns_pure, returns_build] at returned
  obtain ⟨_, _, ⟨_, rfl⟩, p, m', addressed, b, m'', resized, _, _, ⟨rfl, rfl⟩, _, rfl⟩ := returned
  cases offset with
  | zero =>
      obtain ⟨rfl, rfl⟩ := returns_pure.mp addressed
      obtain ⟨wide, between, appends', quiet'⟩ := resizeInt_appends resized inRange
      refine ⟨_, (appends.trans appends').trans (.built _ _ (appends'.inRange inRange)), ?_⟩
      have stored : storesInto buffer.ptr ((before ++ between) ++
          [.instr m''.nextId (.store buffer.ptr b)]) = [(0, b.width / 8)] :=
        storesInto_snoc (noStores _ (List.forall_mem_append.mpr ⟨quiet, quiet'⟩)) offsetFrom_self
      rw [wide] at stored
      exact stored
  | succ offset =>
      obtain ⟨rfl, rfl⟩ := returns_buildPtr.mp addressed
      have gep := Appends.built s (.gep buffer.ptr (i64 (offset + 1 : Nat))) inRange
      obtain ⟨wide, between, appends', quiet'⟩ := resizeInt_appends resized (gep.inRange inRange)
      have whole := (appends.trans gep).trans appends'
      refine ⟨_, whole.trans (.built _ _ ((gep.trans appends').inRange inRange)), ?_⟩
      have emitted : (Instr.gep buffer.ptr (i64 (offset + 1 : Nat))).folds = false := by
        simp [Instr.folds, register, PtrValue.isConst]
      have other : buffer.ptr ≠ .reg s.nextId false := by
        simp only [register, ne_eq, PtrValue.reg.injEq, and_true]
        omega
      have there : offsetFrom buffer.ptr ((before ++ [.instr s.nextId (.gep buffer.ptr
          (i64 (offset + 1 : Nat)))] ++ between) ++ [.instr m''.nextId (.store (.reg s.nextId false)
            b)]) (.reg s.nextId false) = some ((offset + 1 : Nat) : Int) := by
        rw [List.append_assoc, List.append_assoc, offsetFrom_append_quiet quiet]
        exact offsetFrom_gep other
      have stored := storesInto_snoc (fun item member => by
        obtain (early | here) | late := by simpa only [List.mem_append] using member
        · exact noStores _ quiet item early
        · obtain rfl := List.mem_singleton.mp here
          exact fun _ => rfl
        · exact noStores _ quiet' item late) there
      rw [wide] at stored
      rw [emitted]
      exact stored

/-- The code for the argument at position `i`, without its value, stores it as 64 bits
at byte `8 * i`. -/
theorem argumentStores_cons {arg : Expr} {rest : List Expr} {u : Unit}
    (value : Returns (compileExpr arg) s v m)
    (returned : Returns (compileSpawnArgs buffer i [arg]) s u t)
    (inRange : s.current < s.blocks.length) (known : ∃ k < s.nextId, buffer.ptr = .reg k false) :
    argumentStores buffer i (arg :: rest) s =
      [(((i * 8 : Nat) : Int), 8)] :: argumentStores buffer (i + 1) rest t := by
  have grows := grows_compileExpr value
  have stores : storesInto buffer.ptr (m.codeTo t) = [(((i * 8 : Nat) : Int), 8)] := by
    simp only [compileSpawnArgs, returns_bind, returns_pure] at returned
    obtain ⟨v', m', value', a, m₁, passed, u', m₂, stored, _, rfl⟩ := returned
    obtain ⟨rfl, rfl⟩ := value.unique value'
    obtain ⟨before, appends, quiet, le⟩ := spawnArg_appends passed (grows.current inRange)
    obtain ⟨k, old, register⟩ := known
    obtain ⟨code, whole, places⟩ := storesInto_store stored
      (appends.inRange (grows.current inRange)) appends quiet
      ⟨k, old.trans_le (grows.nextId.trans le), register⟩
    rw [whole.codeTo, places]
  rw [argumentStores, show compileExpr arg s = .ok (v, m) from value,
    show compileSpawnArgs buffer i [arg] s = .ok (u, t) from returned]
  simp only [stores]

/-- The code for the first argument comes before the code for the others. -/
theorem returns_compileSpawnArgs_cons {arg : Expr} {rest : List Expr} {u : Unit}
    (returned : Returns (compileSpawnArgs buffer i (arg :: rest)) s u t) :
    ∃ v m n, Returns (compileExpr arg) s v m ∧ Returns (compileSpawnArgs buffer i [arg]) s u n ∧
      Returns (compileSpawnArgs buffer (i + 1) rest) n u t := by
  simp only [compileSpawnArgs, returns_bind] at returned
  obtain ⟨v, m, value, a, m₁, passed, u', n, stored, rest⟩ := returned
  refine ⟨v, m, n, value, ?_, rest⟩
  simp only [compileSpawnArgs, returns_bind, returns_pure]
  exact ⟨v, m, value, a, m₁, passed, u', n, stored, trivial, rfl⟩

/-- The arguments are stored eight bytes apart. -/
theorem argumentStores_eq {args : List Expr} {u : Unit}
    (returned : Returns (compileSpawnArgs buffer i args) s u t)
    (inRange : s.current < s.blocks.length) (known : ∃ k < s.nextId, buffer.ptr = .reg k false) :
    argumentStores buffer i args s =
      (List.range' i args.length).map fun j => [(((j * 8 : Nat) : Int), 8)] := by
  induction args generalizing i s with
  | nil => rfl
  | cons arg rest ih =>
      obtain ⟨v, m, n, value, first, others⟩ := returns_compileSpawnArgs_cons returned
      obtain ⟨k, old, register⟩ := known
      have grows := grows_compileSpawnArgs first
      rw [argumentStores_cons value first inRange ⟨k, old, register⟩,
        ih others (grows.current inRange) ⟨k, old.trans_le grows.nextId, register⟩]
      rfl

end Marshalling

section Memory

open Gen

variable {s : CodeGen} {offset : Nat} {memory : List MemoryDecl}

/-- A MEMORY declaration gets the bytes after those before it. -/
theorem mapMemory_single (offset : Nat) (decl : MemoryDecl)
    (inRange : s.current < s.blocks.length) :
    ∃ h t, mapMemory offset [decl] s = .ok ((), t) ∧ t.vars.lookup decl.name = some (.handle h) ∧
      t.current < t.blocks.length ∧
      (offsetFrom (.param 0) (s.codeTo t) h.ptr).map (·, h.size) =
        some ((offset : Int), decl.size) := by
  by_cases start : offset = 0
  · subst start
    refine ⟨⟨.param 0, decl.size, .ofAst decl.typ⟩, s.bound decl.name _, rfl, ?_, inRange, ?_⟩
    · exact AList.lookup_insert _
    · simp [offsetFrom_self]
  · let gep : Instr := .gep (.param 0) (i64 offset)
    let h : Handle := ⟨.reg s.nextId false, decl.size, .ofAst decl.typ⟩
    have appends := Appends.built s gep inRange
    have run : Returns (mapMemory offset [decl]) s ()
      ((s.built gep).bound decl.name (.handle h)) := by
      simp only [mapMemory, returns_bind, start, if_false, returns_buildPtr, returns_bindVar,
        returns_pure]
      exact ⟨_, _, ⟨rfl, rfl⟩, (), _, rfl, trivial, rfl⟩
    have code : s.codeTo ((s.built gep).bound decl.name (.handle h)) = [.instr s.nextId gep] :=
      appends.codeTo
    have there : offsetFrom (.param 0) [.instr s.nextId gep] h.ptr = some (offset : Int) :=
      offsetFrom_gep (by simp)
    refine ⟨h, _, run, AList.lookup_insert _, appends.inRange inRange, ?_⟩
    rw [code, there]
    rfl

/-- The declarations lie one after the other. -/
theorem memoryPlaces_eq (inRange : s.current < s.blocks.length) (i : Nat) :
    (memoryPlaces offset memory s)[i]? = memory[i]?.map fun decl =>
      some (((offset + ((memory.take i).map MemoryDecl.size).sum : Nat) : Int), decl.size) := by
  induction memory generalizing i offset s with
  | nil => rfl
  | cons decl rest ih =>
      obtain ⟨h, t, run, bound, inRange', place⟩ := mapMemory_single offset decl inRange
      rw [memoryPlaces, run]
      simp only [bound, place]
      cases i with
      | zero => simp
      | succ i =>
          rw [List.getElem?_cons_succ, ih inRange' i]
          simp [Nat.add_assoc]

end Memory

section Agreement

open Gen

variable {cg cg' start : CodeGen} {name : String} {pattern : Pattern} {args : List Expr}
  {value : SigilValue}

/-- The bytes SPAWN asks for. -/
def Pattern.bufferSize (pattern : Pattern) (argCount : Nat) : Nat :=
  let memorySize := (pattern.memory.map MemoryDecl.size).sum
  if memorySize > 0 then memorySize else 8 * argCount

/-- The buffer of a declared pattern has the pattern's size. -/
theorem spawnBufferSize_eq (declared : cg.behaviorSigs.lookup name = some (patternSig name pattern))
    (argCount : Nat) : spawnBufferSize cg name argCount = pattern.bufferSize argCount := by
  simp [spawnBufferSize, declared, patternSig, Pattern.bufferSize, Nat.mul_comm]

/-- SPAWN allocates its buffer, stores the arguments and hands the buffer over. -/
theorem returns_spawn (declared : cg.behaviorSigs.lookup name = some (patternSig name pattern))
    (returned : Returns (compileExpr (.spawn name args)) cg value cg') :
    let size := pattern.bufferSize args.length
    let buffer : Handle := ⟨.reg cg.nextId false, size, .bytes⟩
    ∃ n, Returns (compileSpawnArgs buffer 0 args)
        ((cg.declared "sigil_spawn").built (.alloca (size % 2 ^ 32))) () n ∧
      cg' = n.built (.call "sigil_spawn"
        [.ptr (.function (symbolOf name)), .ptr buffer.ptr, .int (i64 size)]) := by
  simp only [compileExpr, compileSpawn, returns_bind, returns_declare, returns_get] at returned
  obtain ⟨_, _, rfl, _, _, ⟨rfl, rfl⟩, returned⟩ := returned
  rw [show spawnBufferSize (cg.declared "sigil_spawn") name args.length =
    pattern.bufferSize args.length from spawnBufferSize_eq declared _] at returned
  split at returned
  · simp only [returns_bind, not_returns_throw, false_and, exists_false] at returned
  · simp only [returns_bind, returns_allocHandle, returns_buildInt, returns_pure] at returned
    obtain ⟨_, _, ⟨rfl, rfl⟩, _, n, stored, _, _, ⟨rfl, rfl⟩, _, rfl⟩ := returned
    exact ⟨n, stored, rfl⟩

/-- The buffer SPAWN hands over is the one it allocated. -/
theorem handedBuffer_spawn {n : CodeGen} {size : Nat} (inRange : cg.current < cg.blocks.length)
    (stored : Returns (compileSpawnArgs ⟨.reg cg.nextId false, size, .bytes⟩ 0 args)
      ((cg.declared "sigil_spawn").built (.alloca (size % 2 ^ 32))) () n) :
    handedBuffer cg (n.built (.call "sigil_spawn" [.ptr (.function (symbolOf name)),
        .ptr (.reg cg.nextId false), .int (i64 size)])) =
      some (⟨.reg cg.nextId false, size, .bytes⟩, size % 2 ^ 32) := by
  let call : Instr := .call "sigil_spawn" [.ptr (.function (symbolOf name)),
    .ptr (.reg cg.nextId false), .int (i64 size)]
  have alloca := Appends.built (cg.declared "sigil_spawn") (.alloca (size % 2 ^ 32)) inRange
  have grows := grows_compileSpawnArgs stored
  have inRange' := grows.current (alloca.inRange inRange)
  have last : ((n.built call).items (n.built call).current).getLast? =
      some (.instr n.nextId call) := by
    have here : (n.built call).items (n.built call).current =
        n.items n.current ++ [.instr n.nextId call] := (Appends.built n call inRange').here
    rw [here, List.getLast?_concat]
  obtain ⟨new, more, _⟩ := (grows.trans (.ofStep (.build call fun _ _ => trivial))).items cg.current
  have first : cg.codeTo (n.built call) = .instr cg.nextId (.alloca (size % 2 ^ 32)) :: new := by
    have here : ((cg.declared "sigil_spawn").built (.alloca (size % 2 ^ 32))).items cg.current =
        cg.items cg.current ++ [.instr cg.nextId (.alloca (size % 2 ^ 32))] := alloca.here
    rw [CodeGen.codeTo, more, here, List.append_assoc]
    exact List.drop_left
  have allocated : allocatedBytes (cg.codeTo (n.built call)) (.reg cg.nextId false) =
      some (size % 2 ^ 32) := by
    rw [first, allocatedBytes, List.findSome?_cons]
    simp
  unfold handedBuffer
  rw [last]
  change (allocatedBytes (cg.codeTo (n.built call)) (.reg cg.nextId false)).bind _ = _
  rw [allocated]
  rfl

/-- All stores end inside the buffer exactly when the last one does. -/
theorem stores_inside_iff {argCount bytes : Nat} :
    (∀ places ∈ (List.range' 0 argCount).map fun j => [(((j * 8 : Nat) : Int), 8)],
      ∀ place ∈ places, (0 : Int) ≤ place.1 ∧ place.1 + (place.2 : Nat) ≤ bytes) ↔
      8 * argCount ≤ bytes := by
  simp only [List.forall_mem_map, List.mem_range'_1, List.mem_singleton, forall_eq]
  constructor
  · intro inside
    cases argCount with
    | zero => omega
    | succ last =>
        have := inside last (by omega)
        omega
  · intro fits j bound
    omega

/-- Every declaration has eight bytes exactly when every argument meets its
declaration. -/
theorem stores_occupy_iff {argCount : Nat} {memory : List MemoryDecl} :
    (∀ i < argCount, ∀ decl, memory[i]? = some decl →
      ((memory.take i).map MemoryDecl.size).sum = 8 * i ∧ decl.size = 8) ↔
      ∀ decl ∈ memory.take argCount, decl.size = 8 := by
  constructor
  · intro occupy decl member
    obtain ⟨i, bound, rfl⟩ := List.mem_iff_getElem.mp member
    rw [List.length_take, lt_min_iff] at bound
    have := (occupy i bound.1 memory[i] (List.getElem?_eq_getElem bound.2)).2
    rwa [List.getElem_take]
  · intro eight i bound decl at_
    have inMemory := List.getElem?_eq_some_iff.mp at_ |>.1
    have sizes : (memory.take i).map MemoryDecl.size = List.replicate i 8 := by
      apply List.eq_replicate_iff.mpr
      refine ⟨by simp; omega, ?_⟩
      intro size member
      obtain ⟨decl, early, rfl⟩ := List.mem_map.mp member
      exact eight decl (List.take_subset_take_left _ bound.le early)
    refine ⟨by rw [sizes, List.sum_replicate, smul_eq_mul, Nat.mul_comm], eight decl ?_⟩
    exact List.mem_of_getElem? (by rw [List.getElem?_take_of_lt bound, at_])

/-- A SPAWN marshals exactly when the cumulative sizes of the declarations advance by
eight bytes an argument, and the buffer has eight bytes for each. -/
theorem spawnMarshals_offsets (declared : cg.behaviorSigs.lookup name =
    some (patternSig name pattern))
    (returned : Returns (compileExpr (.spawn name args)) cg value cg')
    (inRange : cg.current < cg.blocks.length) (started : start.current < start.blocks.length) :
    SpawnMarshals cg cg' start args pattern.memory ↔
      (∀ i < args.length, ∀ decl, pattern.memory[i]? = some decl →
        ((pattern.memory.take i).map MemoryDecl.size).sum = 8 * i ∧ decl.size = 8) ∧
      8 * args.length ≤ pattern.bufferSize args.length % 2 ^ 32 := by
  obtain ⟨n, stored, rfl⟩ := returns_spawn declared returned
  have alloca := Appends.built (cg.declared "sigil_spawn")
    (.alloca (pattern.bufferSize args.length % 2 ^ 32)) inRange
  have stores := argumentStores_eq stored (alloca.inRange inRange)
    ⟨cg.nextId, Nat.lt_succ_self _, rfl⟩
  have occupies : (∀ (i : Nat) places place, ((List.range' 0 args.length).map fun j =>
      [(((j * 8 : Nat) : Int), 8)])[i]? = some places →
      (memoryPlaces 0 pattern.memory start)[i]? = some place → places.map some = [place]) ↔
      ∀ i < args.length, ∀ decl, pattern.memory[i]? = some decl →
        ((pattern.memory.take i).map MemoryDecl.size).sum = 8 * i ∧ decl.size = 8 := by
    simp only [memoryPlaces_eq started, List.getElem?_map, Option.map_eq_some_iff]
    constructor
    · intro occupy i bound decl at_
      have here : (List.range' 0 args.length)[i]? = some i := by
        simp [bound]
      have same := occupy i _ _ ⟨i, here, rfl⟩ ⟨decl, at_, rfl⟩
      simp only [List.map_cons, List.map_nil, List.cons.injEq, Option.some.injEq, Prod.mk.injEq,
        Nat.cast_inj, and_true] at same
      exact ⟨by omega, same.2.symm⟩
    · rintro occupy i places place ⟨j, here, rfl⟩ ⟨decl, at_, rfl⟩
      obtain ⟨bound, rfl⟩ := List.getElem?_eq_some_iff.mp here
      have ⟨offset, size⟩ := occupy i (by simpa using bound) decl at_
      rw [offset, size]
      simp [Nat.mul_comm]
  unfold SpawnMarshals
  simp only [handedBuffer_spawn inRange stored, Option.some.injEq, Prod.mk.injEq]
  constructor
  · rintro ⟨_, _, ⟨rfl, rfl⟩, _, inside, occupy⟩
    rw [stores] at inside occupy
    exact ⟨occupies.mp occupy, stores_inside_iff.mp inside⟩
  · rintro ⟨advance, enough⟩
    refine ⟨_, _, ⟨rfl, rfl⟩, ?_, ?_, ?_⟩
    · rw [stores, List.length_map, List.length_range']
    · rw [stores]
      exact stores_inside_iff.mpr enough
    · rw [stores]
      exact occupies.mpr advance

/-- A SPAWN keeps its argument stores inside its buffer and passes each argument in the
bytes of its declaration exactly when the arguments fit the pattern. -/
theorem spawnMarshals_iff (declared : cg.behaviorSigs.lookup name = some (patternSig name pattern))
    (returned : Returns (compileExpr (.spawn name args)) cg value cg')
    (inRange : cg.current < cg.blocks.length) (started : start.current < start.blocks.length) :
    SpawnMarshals cg cg' start args pattern.memory ↔ ArgumentsFit args pattern.memory := by
  rw [spawnMarshals_offsets declared returned inRange started, stores_occupy_iff]
  rfl

end Agreement

/-- `PATTERN worker` with `MEMORY x int 8`. -/
def worker : Pattern where
  name := "worker"
  memory := [⟨"x", .int, 8⟩]
  onCreate := []

/-- A generator to which `worker` is declared. -/
def spawningGenerator : CodeGen :=
  { scopedGenerator with
    moduleFns := ["sigil_worker"]
    behaviorSigs := AList.insert "worker" (Gen.patternSig "worker" worker) ∅ }

/-- One argument for a pattern with one MEMORY parameter. -/
theorem spawnMarshals_iff_one : ∃ value cg',
    Returns (Gen.compileExpr (.spawn "worker" [.intLit 1])) spawningGenerator value cg' ∧
      (SpawnMarshals spawningGenerator cg' scopedGenerator [.intLit 1] worker.memory ↔
        ArgumentsFit [.intLit 1] worker.memory) := by
  have returned : ∃ value cg', Returns (Gen.compileExpr (.spawn "worker" [.intLit 1]))
      spawningGenerator value cg' := ⟨_, _, rfl⟩
  obtain ⟨value, cg', returned⟩ := returned
  have declared : spawningGenerator.behaviorSigs.lookup "worker" =
      some (Gen.patternSig "worker" worker) := AList.lookup_insert _
  exact ⟨value, cg', returned, spawnMarshals_iff declared returned (by decide) (by decide)⟩

/-- `s = SPAWN worker 1 2`, `r = WAIT s`. -/
def spawnTwoArguments : List Node :=
  [.assignment 1 "s" (.spawn "worker" [.intLit 1, .intLit 2]), .assignment 2 "r" (.wait "s")]

/-- The second argument goes to bytes 8 to 16 of a buffer of 8 bytes. -/
theorem spawnTwoArguments_accepted_and_outside :
    (∀ sha256, (leaf spawnTwoArguments).Accepted sha256 ∅ ["worker"]) ∧ ∃ value cg',
      Returns (Gen.compileExpr (.spawn "worker" [.intLit 1, .intLit 2])) spawningGenerator value
        cg' ∧ ¬ SpawnMarshals spawningGenerator cg' scopedGenerator [.intLit 1, .intLit 2]
          worker.memory := by
  refine ⟨fun _ => Behavior.accepted_of_noHash (by decide) (by decide), ?_⟩
  have returned : ∃ value cg', Returns (Gen.compileExpr (.spawn "worker" [.intLit 1, .intLit 2]))
      spawningGenerator value cg' := ⟨_, _, rfl⟩
  obtain ⟨value, cg', returned⟩ := returned
  have declared : spawningGenerator.behaviorSigs.lookup "worker" =
      some (Gen.patternSig "worker" worker) := AList.lookup_insert _
  refine ⟨value, cg', returned, fun marshals => ?_⟩
  have fit := (spawnMarshals_offsets declared returned (by decide) (by decide)).mp marshals
  exact absurd fit.2 (by decide)

end Sigil
