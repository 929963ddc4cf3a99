import Sigil.Codegen.Simulates

/-!
# Code for statements without jumps

Assignments, STORE, SET and DISCARD one after the other, over names none of which is
kept in a slot. Memory changes along with what the names stand for.
-/

namespace Sigil

open Flow Relation

/-- Assignments, STORE, SET and DISCARD. -/
def Node.isStraight : Node → Bool
  | .assignment _ _ _ | .store _ _ _ _ _ | .set _ _ _ | .discard _ _ => true
  | _ => false

/-- `t` has all the code of `s` and the same slots. -/
structure Lengthens (s t : CodeGen) : Prop where
  precedes : Precedes s t
  mutableSlots : t.mutableSlots = s.mutableSlots
  reassignedLocals : t.reassignedLocals = s.reassignedLocals

namespace Lengthens

variable {ok : Set Nat} {s t u : CodeGen}

/-- Every state lengthens to itself. -/
theorem refl (s : CodeGen) : Lengthens s s := ⟨.refl s, rfl, rfl⟩

/-- Lengthening is transitive. -/
theorem trans (first : Lengthens s t) (second : Lengthens t u) : Lengthens s u :=
  ⟨first.precedes.trans second.precedes, second.mutableSlots.trans first.mutableSlots,
    second.reassignedLocals.trans first.reassignedLocals⟩

/-- Growth lengthens. -/
theorem ofGrows (grows : Grows ok s t) : Lengthens s t :=
  ⟨grows.precedes, grows.mutableSlots, grows.reassignedLocals⟩

/-- Binding a name lengthens nothing. -/
theorem bound (s : CodeGen) (name : String) (v : SigilValue) : Lengthens s (s.bound name v) :=
  ⟨⟨fun _ => List.prefix_rfl, le_rfl⟩, rfl, rfl⟩

end Lengthens

section Names

variable {placement : Placement} {s : CodeGen} {results : Results} {space : AddressSpace}

/-- Without slots a name reads as what it is bound to. -/
theorem CodeGen.readings_unslotted (unslotted : s.mutableSlots = ∅) (name : String) :
    s.readings placement results space name =
      (s.vars.lookup name).bind (SigilValue.datum placement results) := by
  unfold CodeGen.readings
  rw [unslotted]
  rfl

/-- The names read after one more is bound. -/
theorem CodeGen.readings_bound (unslotted : s.mutableSlots = ∅) {name : String} {v : SigilValue}
    {d : Datum} (value : v.datum placement results = some d) :
    (s.bound name v).readings placement results space =
      Function.update (s.readings placement results space) name (some d) := by
  funext other
  have unslotted' : (s.bound name v).mutableSlots = ∅ := unslotted
  rw [CodeGen.readings_unslotted unslotted']
  by_cases here : other = name
  · subst here
    rw [Function.update_self, ← value]
    exact congrArg (Option.bind · _) (AList.lookup_insert s.vars)
  · rw [Function.update_of_ne here, CodeGen.readings_unslotted unslotted]
    exact congrArg (Option.bind · _) (AList.lookup_insert_ne here)

/-- Without slots, memory does not matter for names. -/
theorem CodeGen.readings_space (unslotted : s.mutableSlots = ∅) (space' : AddressSpace) :
    s.readings placement results space' = s.readings placement results space := by
  funext name
  rw [CodeGen.readings_unslotted unslotted, CodeGen.readings_unslotted unslotted]

/-- A state that is ready stays so when a known value is bound. -/
theorem CodeGen.Ready.bound (ready : s.Ready) {v : SigilValue} {name : String}
    (below : ∀ r ∈ v.regs, r < s.nextId) : (s.bound name v).Ready where
  inFunction := ready.inFunction
  inRange := ready.inRange
  vars := by
    intro other value lookup
    by_cases here : other = name
    · subst here
      rw [show (s.bound other v).vars.lookup other =
        some v from AList.lookup_insert s.vars] at lookup
      exact Option.some.inj lookup ▸ below
    · rw [show (s.bound name v).vars.lookup other = s.vars.lookup other from
        AList.lookup_insert_ne here] at lookup
      exact ready.vars lookup
  slots := ready.slots

end Names

/-- The generator is ready, and the situation is what its names read and memory. -/
def Situated (placement : Placement) (t : CodeGen) (at_ : Situation) (results : Results)
    (space : AddressSpace) : Prop :=
  at_ = ⟨t.readings placement results space, space⟩ ∧ t.Ready

section Statements

variable {placement : Placement} {s t : CodeGen} {results : Results} {space : AddressSpace}
  {labels : Labels} {u : Unit}

/-- Binding a name to a value. -/
theorem realizes_bound {v : SigilValue} {d : Datum} {name : String} (ready : s.Ready)
    (unslotted : s.mutableSlots = ∅) (value : v.datum placement results = some d)
    (below : ∀ r ∈ v.regs, r < s.nextId) :
    Realizes placement s (s.bound name v) results space
      (.ok (Situation.bind ⟨s.readings placement results space, space⟩ name d))
      (Situated placement (s.bound name v)) := by
  refine fun _ _ => ⟨results, space, .refl, .refl _ _, ?_, ready.bound below⟩
  rw [CodeGen.readings_bound unslotted value]
  rfl

/-- An integer resized for its place. -/
theorem Realizes.resized {β : Type} {i r : IntValue} {width : Nat} {m : CodeGen}
    {meaning : Meaning β}
    {after : β → Results → AddressSpace → Prop} (returned : Returns (Gen.resizeInt i width) s r m)
    (inRange : s.current < s.blocks.length) (later : Precedes m t)
    (rest : ∀ results', AgreeBelow s.nextId results results' →
      r.quantity results' = ⟨width, (i.eval results).setWidth width⟩ →
      Realizes placement m t results' space meaning after) :
    Realizes placement s t results space meaning after := by
  unfold Gen.resizeInt at returned
  by_cases same : i.width = width
  · rw [if_pos same] at returned
    obtain ⟨rfl, rfl⟩ := returns_pure.mp returned
    exact rest results (.refl _ _) (i.quantity_setWidth same.symm).symm
  · rw [if_neg same] at returned
    split at returned
    all_goals
      obtain ⟨rfl, rfl⟩ := Gen.returns_buildInt.mp returned
      exact Realizes.step inRange rfl later fun agree =>
        rest _ agree (IntValue.quantity_update _ _ _)

/-- The last instruction of a STORE. -/
theorem realizes_write {p : PtrValue} {i : IntValue} {width : Nat} {x : BitVec width}
    {address : BitVec 64} (inRange : s.current < s.blocks.length)
    (value : i.quantity results = ⟨width, x⟩) (place : p.eval placement results = address) :
    Realizes placement s (s.built (.store p i)) results space (.ok ()) fun _ _ space' =>
      space' = space.write address (bytesOf width) x.toNat := by
  rw [IntValue.quantity, Quantity.mk.injEq] at value
  obtain ⟨rfl, value⟩ := value
  obtain rfl := eq_of_heq value
  obtain rfl := place
  exact .built inRange rfl rfl

/-- An integer put into memory. -/
theorem realizes_put {p : PtrValue} {i r : IntValue} {size : Nat} {m : CodeGen}
    (resize : Returns (Gen.resizeInt i (Gen.intWidth size)) s r m)
    (inRange : s.current < s.blocks.length) (grows : Grows Set.univ s m)
    (below : ∀ r ∈ p.regs, r < s.nextId) :
    Realizes placement s (m.built (.store p r)) results space (.ok ()) fun _ _ space' =>
      space' = (Datum.int (i.quantity results)).put space size (p.eval placement results) := by
  refine Realizes.resized resize inRange (m.precedes_built _) ?_
  intro results' agree value
  exact realizes_write (grows.current inRange) value (PtrValue.eval_agree placement agree below)

/-- STORE of a value. -/
theorem realizes_store {h : Handle} {value : SigilValue} {d : Datum} {size : Nat} {off : Offset}
    (returned : Returns (Gen.store h value size off) s u t) (ready : s.Ready)
    (datum : value.datum placement results = some d) (belowV : ∀ r ∈ value.regs, r < s.nextId)
    (belowH : ∀ r ∈ h.ptr.regs, r < s.nextId) (belowO : ∀ r ∈ off.regs, r < s.nextId) :
    Realizes placement s t results space
      ((Datum.memory (h.ptr.eval placement results) h.size h.typ).locate size
        (off.displacement results) >>= fun at_ => .ok (d.put space size at_))
      fun left _ space' => space' = left := by
  unfold Gen.store at returned
  simp only [returns_bind] at returned
  obtain ⟨_, m, check, p, n, address, put⟩ := returned
  have grows := (Gen.grows_checkOffset check).trans (Gen.grows_address address)
  have inRange := grows.current ready.inRange
  have located : Realizes placement s n results space _ _ :=
    realizes_locate check address ready belowH belowO
  cases value with
  | immediate i =>
      obtain rfl := SigilValue.datum_int datum
      simp only [returns_bind, Gen.returns_build, returns_pure] at put
      obtain ⟨r, q, resize, _, _, ⟨rfl, rfl⟩, _, rfl⟩ := put
      have resizes := Gen.grows_resizeInt resize
      refine located.bind grows.precedes (resizes.precedes.trans (q.precedes_built _)) ?_
      rintro _ results' _ - agree ⟨rfl, rfl, belowP⟩
      rw [← IntValue.quantity_agree agree belowV]
      exact (realizes_put resize inRange resizes belowP).mapped fun _ _ same => same
  | handle src =>
      obtain rfl := Option.some.inj datum
      simp only [returns_bind, Gen.returns_build, Gen.returns_buildInt, returns_pure] at put
      obtain ⟨_, _, ⟨rfl, rfl⟩, r, q, resize, _, _, ⟨rfl, rfl⟩, _, rfl⟩ := put
      have resizes := Gen.grows_resizeInt resize
      have rest := resizes.precedes.trans (q.precedes_built (.store p r))
      refine located.bind grows.precedes ((n.precedes_built _).trans rest) ?_
      rintro _ results' _ - agree ⟨rfl, rfl, belowP⟩
      refine Realizes.step inRange rfl rest fun agree' => ?_
      let pointer := src.ptr.eval placement results'
      have address : (IntValue.reg 64 n.nextId (Instr.ptrtoint src.ptr).folds).quantity
          (Function.update results' n.nextId pointer.toNat) = ⟨64, pointer⟩ :=
        IntValue.quantity_update _ _ pointer
      rw [← PtrValue.eval_agree placement agree belowV,
        ← PtrValue.eval_agree placement agree' belowP]
      refine (realizes_put resize (by simpa using inRange) resizes
        ((n.precedes_built _).below belowP)).mapped fun _ _ same => ?_
      rw [address] at same
      exact same
  | float f => cases datum

/-- A step that keeps what names are bound to leaves the situation with its memory. -/
theorem CodeGen.Ready.situated {at_ : Situation} {results' : Results} {left : AddressSpace}
    (ready : s.Ready) (space : AddressSpace) (unslotted : s.mutableSlots = ∅)
      (grows : Grows Set.univ s t)
    (agree : AgreeBelow s.nextId results results')
    (same : at_ = ⟨s.readings placement results space, left⟩) :
      Situated placement t at_ results' left := by
  refine ⟨?_, ready.grows grows⟩
  rw [same, ready.readings_agree grows agree, CodeGen.readings_space unslotted]

/-- The code of an assignment realizes it. -/
theorem realizes_assignment {target : String} {expr : Expr} (ready : s.Ready)
    (unslotted : s.mutableSlots = ∅) (once : target ∉ s.reassignedLocals)
    (returned : Returns (Gen.compileAssignment target expr) s u t) :
    Realizes placement s t results space
      (do return (Situation.bind ⟨s.readings placement results space, space⟩ target
        (← expr.meaning (s.readings placement results space) space))) (Situated placement t) := by
  unfold Gen.compileAssignment at returned
  simp only [returns_bind, returns_get] at returned
  obtain ⟨v, _, run, _, m, ⟨rfl, rfl⟩, bind⟩ := returned
  have grows := Gen.grows_compileExpr run
  rw [grows.reassignedLocals, if_neg fun both => once both.1, returns_bind] at bind
  obtain ⟨_, n, bind, keep⟩ := bind
  obtain rfl := Gen.returns_bindVar.mp bind
  have kept : expr.meaning (s.readings placement results space) space = .error .undefined ∨
      t = m.bound target v := by
    cases expr with
    | call behavior args => exact .inl rfl
    | _ => exact .inr (returns_pure.mp keep).2.symm
  cases kept with
  | inl undefined =>
      rw [undefined]
      exact .undefined
  | inr here =>
      rw [here]
      refine (preserves placement expr results space run ready).bindNames ready grows
        (Lengthens.bound m target v).precedes ?_
      intro d results' _ value below readyM names
      rw [← names]
      exact realizes_bound readyM (grows.mutableSlots.trans unslotted) value below

/-- The situation that an access leaves. -/
theorem located_situation (names : Readings) (place : Meaning (BitVec 64))
    (left : BitVec 64 → AddressSpace) :
    (place >>= fun at_ => .ok (left at_)) >>= (fun space => .ok ⟨names, space⟩) =
      (place >>= fun at_ => .ok ⟨names, left at_⟩ : Meaning Situation) := by
  cases place <;> rfl

/-- The code of a STORE realizes it. -/
theorem realizes_compileStore {target : String} {value : Expr} {size : Nat} {offset : Option Expr}
    (ready : s.Ready) (unslotted : s.mutableSlots = ∅)
    (returned : Returns (Gen.compileStore target value size offset) s u t) :
    Realizes placement s t results space
      (Situation.store ⟨s.readings placement results space, space⟩ target value size offset)
      (Situated placement t) := by
  unfold Gen.compileStore at returned
  simp only [returns_bind] at returned
  obtain ⟨vt, m₁, read, h, m₂, deref, v, m₃, run, off, m₄, distance, put⟩ := returned
  have read : Returns (Gen.compileExpr (.var target)) s vt m₁ := by
    unfold Gen.compileExpr
    exact read
  have grows₁ := Gen.grows_compileExpr read
  have grows₂ := Gen.grows_derefHandle deref
  have grows₃ := Gen.grows_compileExpr run
  have grows₄ := Gen.grows_compileOffset distance
  have grows₅ := Gen.grows_store put
  have later₄ := grows₅.precedes
  have later₃ := grows₄.precedes.trans later₄
  have later₂ := grows₃.precedes.trans later₃
  unfold Situation.store
  refine (Preserves.var target results space read ready).bindNames ready grows₁
    (grows₂.precedes.trans later₂) ?_
  intro d results₁ _ valueT below ready₁ names₁
  refine (realizes_derefHandle deref ready₁.inRange valueT below).bindNames ready₁ grows₂ later₂
    (f := fun place => value.meaning (s.readings placement results space) space >>= fun d =>
      displacementOf (s.readings placement results space) space offset >>= fun distance =>
        place.locate size distance >>= fun at_ =>
          (.ok ⟨s.readings placement results space, d.put space size at_⟩ : Meaning Situation)) ?_
  intro place results₂ _ valueH belowH ready₂ names₂
  obtain rfl := Option.some.inj valueH
  rw [← names₁, ← names₂]
  refine (preserves placement value results₂ space run ready₂).bindNames ready₂ grows₃ later₃ ?_
  intro dv results₃ agree₃ valueV belowV ready₃ names₃
  rw [← names₃]
  refine (Preserves.offset (fun e _ => preserves placement e) distance ready₃).bind grows₄.precedes
    later₄ ?_
  rintro _ results₄ space - agree₄ ⟨rfl, rfl, belowO⟩
  have ready₄ := ready₃.grows grows₄
  have belowH₃ := grows₃.precedes.below belowH
  rw [← PtrValue.eval_agree placement agree₃ belowH, ← PtrValue.eval_agree placement agree₄ belowH₃,
    ← located_situation]
  refine (realizes_store put ready₄ ((SigilValue.datum_agree agree₄ belowV).trans valueV)
    (grows₄.precedes.below belowV) (grows₄.precedes.below belowH₃) belowO).bind grows₅.precedes
    (.refl t) ?_
  rintro _ results₅ left - agree₅ rfl
  have unslotted₄ : m₄.mutableSlots = ∅ := by
    rw [grows₄.mutableSlots, grows₃.mutableSlots, grows₂.mutableSlots, grows₁.mutableSlots,
      unslotted]
  refine .done (ready₄.situated space unslotted₄ grows₅ agree₅ (congrArg (Situation.mk · left) ?_))
  exact (ready₃.readings_agree grows₄ agree₄).symm

/-- SET of a name bound to memory. -/
theorem realizes_setMemory {h : Handle} {v : SigilValue} {d : Datum} (ready : s.Ready)
    (unslotted : s.mutableSlots = ∅) (datum : v.datum placement results = some d)
    (belowV : ∀ r ∈ v.regs, r < s.nextId) (belowH : ∀ r ∈ h.ptr.regs, r < s.nextId)
    {size : Nat} (returned : Returns (Gen.store h v size (.const 0)) s u t) :
    Realizes placement s t results space
      (.ok ⟨s.readings placement results space, d.put space size (h.ptr.eval placement results)⟩)
      (Situated placement t) := by
  have grows := Gen.grows_store returned
  have put : Realizes placement s t results space _ _ :=
    realizes_store returned ready datum belowV belowH (by simp [Offset.regs])
  have here : h.ptr.eval placement results + BitVec.ofNat 64 0 = h.ptr.eval placement results :=
    BitVec.add_zero _
  change Realizes placement s t results space
    (.ok (d.put space size (h.ptr.eval placement results + BitVec.ofNat 64 0))) _ at put
  rw [here] at put
  refine put.bind
    (f := fun left => (.ok ⟨s.readings placement results space, left⟩ : Meaning Situation))
    grows.precedes (.refl t) ?_
  rintro _ results' left - agree rfl
  exact .done (ready.situated space unslotted grows agree rfl)

/-- What SET does once its value is generated. -/
def Gen.assign (target : String) (v : SigilValue) : Gen Unit := do
  match (← get).vars.lookup target with
  | some (.handle h) =>
      if h.typ = .string then Gen.store h v 8 (.const 0)
      else do
        let toStore ← match v with
          | .handle src => Gen.load src (min src.size 8) (.const 0)
          | .immediate _ | .float _ => pure v
        Gen.store h toStore h.size (.const 0)
  | _ => Gen.bindVar target v

/-- A SET compiles its value and then assigns it. -/
theorem Gen.compileSet_eq (target : String) (value : Expr) :
    Gen.compileSet target value = Gen.compileExpr value >>= Gen.assign target := rfl

/-- A name not bound to memory is bound, memory takes the value or what is behind it. -/
theorem Gen.returns_assign {target : String} {v : SigilValue}
    (returned : Returns (Gen.assign target v) s u t) :
    ((∀ h, s.vars.lookup target ≠ some (.handle h)) ∧ t = s.bound target v) ∨
      ∃ h, s.vars.lookup target = some (.handle h) ∧
        ((h.typ = .string ∧ Returns (Gen.store h v 8 (.const 0)) s u t) ∨
          (h.typ ≠ .string ∧ (∀ src, v ≠ .handle src) ∧
            Returns (Gen.store h v h.size (.const 0)) s u t) ∨
          (h.typ ≠ .string ∧ ∃ src toStore m, v = .handle src ∧
            Returns (Gen.load src (min src.size 8) (.const 0)) s toStore m ∧
            Returns (Gen.store h toStore h.size (.const 0)) m u t)) := by
  unfold Gen.assign at returned
  simp only [returns_bind, returns_get] at returned
  obtain ⟨_, _, ⟨rfl, rfl⟩, returned⟩ := returned
  split at returned
  next h bound =>
      refine .inr ⟨h, bound, ?_⟩
      by_cases string : h.typ = .string
      · rw [if_pos string] at returned
        exact .inl ⟨string, returned⟩
      · rw [if_neg string] at returned
        cases v with
        | handle src =>
            simp only [returns_bind] at returned
            obtain ⟨toStore, m, load, put⟩ := returned
            exact .inr (.inr ⟨string, src, toStore, m, rfl, load, put⟩)
        | immediate i | float f =>
            simp only [returns_bind, returns_pure] at returned
            obtain ⟨_, _, ⟨rfl, rfl⟩, put⟩ := returned
            exact .inr (.inl ⟨string, by simp, put⟩)
  next other =>
      exact .inl ⟨fun h bound => other h bound, Gen.returns_bindVar.mp returned⟩

/-- Assigning only lengthens the code. -/
theorem lengthens_assign {target : String} {v : SigilValue}
    (returned : Returns (Gen.assign target v) s u t) : Lengthens s t := by
  obtain ⟨_, rfl⟩ | ⟨h, _, ⟨_, put⟩ | ⟨_, _, put⟩ | ⟨_, src, toStore, m, _, load, put⟩⟩ :=
    Gen.returns_assign returned
  · exact .bound s target v
  · exact .ofGrows (Gen.grows_store put)
  · exact .ofGrows (Gen.grows_store put)
  · exact (Lengthens.ofGrows (Gen.grows_load load)).trans (Lengthens.ofGrows (Gen.grows_store put))

/-- Giving a generated value to a name. -/
theorem realizes_assign {target : String} {v : SigilValue} {d : Datum} (ready : s.Ready)
    (unslotted : s.mutableSlots = ∅) (datum : v.datum placement results = some d)
    (below : ∀ r ∈ v.regs, r < s.nextId) (returned : Returns (Gen.assign target v) s u t) :
    Realizes placement s t results space
      (Situation.assign ⟨s.readings placement results space, space⟩ target d)
        (Situated placement t) := by
  have named : (Situation.mk (s.readings placement results space) space).names target = _ :=
    CodeGen.readings_unslotted unslotted target
  unfold Situation.assign
  rw [named]
  obtain ⟨other, rfl⟩ | ⟨h, bound, rest⟩ := Gen.returns_assign returned
  · cases bound : s.vars.lookup target with
    | none => exact realizes_bound ready unslotted datum below
    | some held =>
        cases held with
        | handle h => exact absurd bound (other h)
        | immediate i | float f => exact realizes_bound ready unslotted datum below
  · rw [bound]
    have belowH : ∀ r ∈ h.ptr.regs, r < s.nextId := ready.vars bound
    change Realizes placement s t results space (if h.typ = .string then _ else _) _
    obtain ⟨string, put⟩ | ⟨string, plain, put⟩ | ⟨string, src, toStore, m, rfl, load, put⟩ := rest
    · rw [if_pos string]
      exact realizes_setMemory ready unslotted datum below belowH put
    · rw [if_neg string]
      cases v with
      | handle src => exact absurd rfl (plain src)
      | float f => cases datum
      | immediate i =>
          obtain rfl := SigilValue.datum_int datum
          exact realizes_setMemory ready unslotted rfl below belowH put
    · rw [if_neg string]
      obtain rfl := Option.some.inj datum
      have grows := Gen.grows_load load
      unfold Gen.load at load
      simp only [returns_bind] at load
      obtain ⟨_, _, check, _, _, address, read⟩ := load
      obtain ⟨rfl, rfl⟩ := returns_pure.mp check
      obtain ⟨rfl, rfl⟩ := returns_pure.mp address
      have fetched : Realizes placement s m results space
          ((Datum.memory (src.ptr.eval placement results) src.size src.typ).fetch space
            (min src.size 8) (src.ptr.eval placement results)) _ :=
        realizes_fetch ready.inRange read
      refine fetched.bindNames ready grows (Gen.grows_store put).precedes ?_
      intro content results' agree datum' below' readyM names
      rw [← names, ← PtrValue.eval_agree placement agree belowH]
      exact realizes_setMemory readyM (grows.mutableSlots.trans unslotted) datum' below'
        (grows.precedes.below belowH) put

/-- The code of a SET realizes it. -/
theorem realizes_compileSet {target : String} {value : Expr} (ready : s.Ready)
    (unslotted : s.mutableSlots = ∅) (returned : Returns (Gen.compileSet target value) s u t) :
    Realizes placement s t results space
      (Situation.set ⟨s.readings placement results space, space⟩ target value)
      (Situated placement t) := by
  rw [Gen.compileSet_eq, returns_bind] at returned
  obtain ⟨v, m, run, rest⟩ := returned
  have grows := Gen.grows_compileExpr run
  refine (preserves placement value results space run ready).bindNames ready grows
    (lengthens_assign rest).precedes ?_
  intro d results' _ datum below readyM names
  rw [← names]
  exact realizes_assign readyM (grows.mutableSlots.trans unslotted) datum below rest

end Statements

section Runs

variable {placement : Placement} {s t : CodeGen} {results : Results} {space : AddressSpace}
  {labels : Labels} {u : Unit}

/-- Keeping the pending outputs only lengthens the code. -/
theorem lengthens_keepPending {target : String}
    (returned : Returns (Gen.keepPending target) s u t) :
    Lengthens s t := by
  unfold Gen.keepPending Gen.takePending at returned
  simp only [returns_bind, returns_get, returns_modify, returns_pure] at returned
  obtain ⟨_, _, ⟨_, _, ⟨rfl, rfl⟩, _, _, rfl, rfl, rfl⟩, kept⟩ := returned
  split at kept
  · obtain rfl := returns_modify.mp kept
    exact ⟨⟨fun _ => List.prefix_rfl, le_rfl⟩, rfl, rfl⟩
  · obtain ⟨_, rfl⟩ := returns_pure.mp kept
    exact ⟨⟨fun _ => List.prefix_rfl, le_rfl⟩, rfl, rfl⟩

/-- An assignment only lengthens the code. -/
theorem lengthens_assignment {target : String} {expr : Expr} (once : target ∉ s.reassignedLocals)
    (returned : Returns (Gen.compileAssignment target expr) s u t) : Lengthens s t := by
  unfold Gen.compileAssignment at returned
  simp only [returns_bind, returns_get] at returned
  obtain ⟨v, _, run, _, m, ⟨rfl, rfl⟩, bind⟩ := returned
  have grows := Gen.grows_compileExpr run
  rw [grows.reassignedLocals, if_neg fun both => once both.1, returns_bind] at bind
  obtain ⟨_, n, bind, keep⟩ := bind
  obtain rfl := Gen.returns_bindVar.mp bind
  refine ((Lengthens.ofGrows grows).trans (.bound m target v)).trans ?_
  cases expr with
  | call behavior args => exact lengthens_keepPending keep
  | _ =>
      obtain ⟨_, rfl⟩ := returns_pure.mp keep
      exact .refl _

/-- A STORE only lengthens the code. -/
theorem lengthens_compileStore {target : String} {value : Expr} {size : Nat} {offset : Option Expr}
    (returned : Returns (Gen.compileStore target value size offset) s u t) : Lengthens s t := by
  unfold Gen.compileStore at returned
  simp only [returns_bind] at returned
  obtain ⟨vt, m₁, read, h, m₂, deref, v, m₃, run, off, m₄, distance, put⟩ := returned
  have place := (Gen.grows_getVar read).trans (Gen.grows_derefHandle deref)
  have operands := (Gen.grows_compileExpr run).trans (Gen.grows_compileOffset distance)
  exact .ofGrows ((place.trans operands).trans (Gen.grows_store put))

/-- Code for a statement only adds code and keeps slots. -/
theorem lengthens_compileNode {node : Node} (straight : node.isStraight)
    (once : ∀ name ∈ node.assignmentTarget, name ∉ s.reassignedLocals)
    (returned : Returns (Gen.compileNode labels node) s u t) : Lengthens s t := by
  cases node with
  | assignment line target expr =>
      exact lengthens_assignment (once target (by simp [Node.assignmentTarget])) returned
  | store line target value size offset => exact lengthens_compileStore returned
  | set line target value =>
      rw [show Gen.compileNode labels (.set line target value) =
        _ from Gen.compileSet_eq target value,
        returns_bind] at returned
      obtain ⟨v, m, run, rest⟩ := returned
      exact (Lengthens.ofGrows (Gen.grows_compileExpr run)).trans (lengthens_assign rest)
  | discard line expr =>
      obtain ⟨_, rfl⟩ := returns_pure.mp returned
      exact .refl s
  | _ => cases straight

/-- Code for a statement does what the statement does. -/
theorem realizes_compileNode {node : Node} (straight : node.isStraight)
    (once : ∀ name ∈ node.assignmentTarget, name ∉ s.reassignedLocals) (ready : s.Ready)
    (unslotted : s.mutableSlots = ∅) (returned : Returns (Gen.compileNode labels node) s u t) :
    Realizes placement s t results space
      (node.meaning ⟨s.readings placement results space, space⟩) (Situated placement t) := by
  cases node with
  | assignment line target expr =>
      exact realizes_assignment ready unslotted (once target (by simp [Node.assignmentTarget]))
        returned
  | store line target value size offset => exact realizes_compileStore ready unslotted returned
  | set line target value => exact realizes_compileSet ready unslotted returned
  | discard line expr =>
      obtain ⟨_, rfl⟩ := returns_pure.mp returned
      exact .done ⟨rfl, ready⟩
  | _ => cases straight

/-- Code for statements only adds code. -/
theorem lengthens_compileNodes {nodes : List Node} (straight : ∀ node ∈ nodes, node.isStraight)
    (once : ∀ name ∈ assignmentTargets nodes, name ∉ s.reassignedLocals)
    (returned : Returns (Gen.compileNodes labels nodes) s u t) : Lengthens s t := by
  induction nodes generalizing s with
  | nil =>
      obtain ⟨rfl, rfl⟩ := returns_pure.mp returned
      exact .refl s
  | cons node rest ih =>
      unfold Gen.compileNodes at returned
      obtain ⟨_, m, first, second⟩ := returns_bind.mp returned
      have here := lengthens_compileNode (straight node List.mem_cons_self)
        (fun name member => once name (List.mem_append_left _ member)) first
      refine here.trans (ih (fun node member => straight node (List.mem_cons_of_mem _ member))
        ?_ second)
      rw [here.reassignedLocals]
      exact fun name member => once name (List.mem_append_right _ member)

/-- Code for statements does what the statements do one after the other. -/
theorem realizes_compileNodes {nodes : List Node} (straight : ∀ node ∈ nodes, node.isStraight)
    (once : ∀ name ∈ assignmentTargets nodes, name ∉ s.reassignedLocals) (ready : s.Ready)
    (unslotted : s.mutableSlots = ∅) (returned : Returns (Gen.compileNodes labels nodes) s u t) :
    Realizes placement s t results space
      (nodesMeaning nodes ⟨s.readings placement results space, space⟩) (Situated placement t) := by
  induction nodes generalizing s results space with
  | nil =>
      obtain ⟨rfl, rfl⟩ := returns_pure.mp returned
      exact .done ⟨rfl, ready⟩
  | cons node rest ih =>
      unfold Gen.compileNodes at returned
      obtain ⟨_, m, first, second⟩ := returns_bind.mp returned
      have straight' := fun other member => straight other (List.mem_cons_of_mem node member)
      have here := lengthens_compileNode (straight node List.mem_cons_self)
        (fun name member => once name (List.mem_append_left _ member)) first
      have once' : ∀ name ∈ assignmentTargets rest, name ∉ m.reassignedLocals := by
        rw [here.reassignedLocals]
        exact fun name member => once name (List.mem_append_right _ member)
      refine (realizes_compileNode (straight node List.mem_cons_self)
        (fun name member => once name (List.mem_append_left _ member)) ready unslotted first).bind
        here.precedes (lengthens_compileNodes straight' once' second).precedes ?_
      rintro _ results' space' - _ ⟨rfl, readyM⟩
      exact ih straight' once' readyM (here.mutableSlots.trans unslotted) second

/-- Straight statements have no labels to collect. -/
theorem returns_collectLabelBlocks {nodes : List Node} (straight : ∀ node ∈ nodes, node.isStraight)
    {found : Labels} (returned : Returns (Gen.collectLabelBlocks nodes labels) s found t) :
      t = s := by
  induction nodes generalizing s labels with
  | nil => exact (returns_pure.mp returned).2.symm
  | cons node rest ih =>
      unfold Gen.collectLabelBlocks at returned
      obtain ⟨_, m, first, second⟩ := returns_bind.mp returned
      have here : m = s := by
        have straight := straight node List.mem_cons_self
        cases node with
        | assignment | store | set | discard =>
            unfold Gen.labelBlocksOf at first
            exact (returns_pure.mp first).2.symm
        | _ => cases straight
      rw [← here]
      exact ih (fun other member => straight other (List.mem_cons_of_mem _ member)) second

/-- Where every name is assigned once none is reassigned. -/
theorem not_mem_collectReassigned {nodes : List Node} (once : (assignmentTargets nodes).Nodup)
    (name : String) : name ∉ collectReassigned nodes := by
  intro member
  have twice := (List.mem_filter.mp member).2
  have atMost := List.nodup_iff_count_le_one.mp once name
  simp only [ge_iff_le, decide_eq_true_eq] at twice
  omega

end Runs

/-- `v = LOAD b 4 i`, `STORE b v 8 0`. -/
def copyBody : List Node :=
  [.assignment 1 "v" (.load (.var "b") 4 (some (.var "i"))),
    .store 2 "b" (.var "v") 8 (some (.intLit 0))]

def copyCode : CodeGen :=
  match Gen.compileImpl copyBody indexedGenerator with
  | .ok (_, t) => t
  | .error _ => indexedGenerator

end Sigil
