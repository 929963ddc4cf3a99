import Sigil.Codegen.AllocSize
import Sigil.Codegen.Appends
import Sigil.Codegen.Form

/-!
# What CALL passes

A CALL passes a pointer for each INPUT: memory as it is, a number in a temporary into
which the generator stores it. The callee takes the memory to have the size the INPUT
declares.
-/

namespace Sigil

open Flow

/-- An argument of a CALL: its value, the memory passed for it, and the code that puts
the value there. -/
structure PassedArgument where
  value : SigilValue
  handle : Handle
  code : List Item

/-- The arguments of a CALL, generated one after the other. -/
def passedArguments : List Expr → CodeGen → List PassedArgument
  | [], _ => []
  | arg :: rest, s =>
      match Gen.compileExpr arg s with
      | .error _ => []
      | .ok (value, m) => match Gen.immediateToHandle value m with
        | .error _ => []
        | .ok (handle, t) => ⟨value, handle, m.codeTo t⟩ :: passedArguments rest t

/-- The bytes an item stores at an address. -/
def Item.bytesStored (p : PtrValue) : Item → Nat
  | instr _ (.store q a) => if q = p then a.width / 8 else 0
  | instr _ (.storeFloat q f) => if q = p then f.width / 8 else 0
  | _ => 0

/-- The bytes that stores at an address write there. -/
def bytesWritten (p : PtrValue) (code : List Item) : Nat :=
  (code.map (Item.bytesStored p)).foldr max 0

/-- The temporary passed for every number holds the bytes its INPUT declares. -/
def ArgumentsWritten (s : CodeGen) (args : List Expr) (inputs : List Parameter) : Prop :=
  ∀ pair ∈ (passedArguments args s).zip inputs, pair.1.value.isScalar →
    pair.2.size ≤ bytesWritten pair.1.handle.ptr pair.1.code

/-- Every range of bytes within the declared size of a `bytes` INPUT lies inside the
memory passed for it. Memory of unknown size counts for none. -/
def ArgumentsCover (s : CodeGen) (args : List Expr) (inputs : List Parameter) : Prop :=
  ∀ pair ∈ (passedArguments args s).zip inputs, pair.2.typ = .bytes →
    ∀ offset bytes, offset + bytes ≤ pair.2.size → offset + bytes ≤ pair.1.handle.size

/-- The forms of arguments, each after those before it. -/
def Names.argumentForms (n : Names) : List Expr → List (Option Form)
  | [] => []
  | arg :: rest => n.formOf arg :: (n.after arg).argumentForms rest

/-- The width of a number. -/
def Form.scalarWidth : Form → Option Nat
  | int width | float width => some width
  | memory _ _ => none

/-- Every number is at least as wide as its INPUT. -/
def Names.ArgumentsWide (n : Names) (args : List Expr) (inputs : List Parameter) : Prop :=
  ∀ pair ∈ (n.argumentForms args).zip inputs, ∀ width ∈ pair.1.bind Form.scalarWidth,
    pair.2.size ≤ width / 8

/-- Every argument for a `bytes` INPUT is in memory at least as large as the INPUT. -/
def Names.ArgumentsLarge (n : Names) (args : List Expr) (inputs : List Parameter) : Prop :=
  ∀ pair ∈ (n.argumentForms args).zip inputs, pair.2.typ = .bytes →
    ∀ form ∈ pair.1, pair.2.size ≤ Gen.passedSize form

section Passing

open Gen

variable {s t m : CodeGen} {v : SigilValue} {h : Handle} {args : List Expr}
  {inputs : List Parameter} {behavior : String}

/-- A number is stored into its temporary at its own width. -/
theorem bytesWritten_immediateToHandle (returned : Returns (immediateToHandle v) m h t)
    (inRange : m.current < m.blocks.length) {width : Nat}
      (scalar : v.form.scalarWidth = some width) :
    bytesWritten h.ptr (m.codeTo t) = width / 8 := by
  cases v with
  | handle h => cases scalar
  | immediate i =>
      obtain rfl := Option.some.inj scalar
      simp only [immediateToHandle, returns_bind, returns_allocHandle, returns_build, returns_pure]
        at returned
      obtain ⟨_, _, ⟨rfl, rfl⟩, _, _, ⟨rfl, rfl⟩, rfl, rfl⟩ := returned
      have alloca := Appends.built m (.alloca (max (i.width / 8) 8 % 2 ^ 32)) inRange
      have stored := Appends.built _ (.store (.reg m.nextId false) i) (alloca.inRange inRange)
      rw [(alloca.trans stored).codeTo]
      simp [bytesWritten, Item.bytesStored, Instr.folds]
  | float f =>
      obtain rfl := Option.some.inj scalar
      simp only [immediateToHandle, returns_bind, returns_allocHandle, returns_build, returns_pure]
        at returned
      obtain ⟨_, _, ⟨rfl, rfl⟩, _, _, ⟨rfl, rfl⟩, rfl, rfl⟩ := returned
      have alloca := Appends.built m (.alloca ((if f.width = 32 then 4 else 8) % 2 ^ 32)) inRange
      have stored := Appends.built _ (.storeFloat (.reg m.nextId false) f) (alloca.inRange inRange)
      rw [(alloca.trans stored).codeTo]
      simp [bytesWritten, Item.bytesStored, Instr.folds]

/-- Passing a value leaves the insertion point in a block. -/
theorem inRange_immediateToHandle (returned : Returns (immediateToHandle v) m h t)
    (inRange : m.current < m.blocks.length) : t.current < t.blocks.length := by
  cases v with
  | handle h =>
      obtain ⟨_, rfl⟩ := returns_pure.mp returned
      exact inRange
  | immediate i | float f =>
      simp only [immediateToHandle, returns_bind, returns_allocHandle, returns_build, returns_pure]
        at returned
      obtain ⟨_, _, ⟨rfl, rfl⟩, _, _, ⟨rfl, rfl⟩, _, rfl⟩ := returned
      exact (Appends.built _ _ ((Appends.built m _ inRange).inRange inRange)).inRange
        ((Appends.built m _ inRange).inRange inRange)

/-- A value is scalar exactly when its form has a width. -/
theorem isScalar_iff : v.isScalar = true ↔ ∃ width, v.form.scalarWidth = some width := by
  cases v <;> simp [SigilValue.isScalar, SigilValue.form, Form.scalarWidth]

/-- What holds of an argument and its INPUT holds of all of them: the arguments come in
the forms the names give them, in memory of the size such forms are passed in, and a
number is written at its width. -/
theorem passedArguments_forms {ptrs : List CallArg} (returned : Returns (compileArgs args) s ptrs t)
    (inRange : s.current < s.blocks.length) :
    List.Forall₂ (fun passed form => form = some passed.value.form ∧
        passed.handle.size = passedSize passed.value.form ∧
        ∀ width, passed.value.form.scalarWidth = some width →
          bytesWritten passed.handle.ptr passed.code = width / 8)
      (passedArguments args s) (s.names.argumentForms args) := by
  induction args generalizing s t ptrs with
  | nil => exact .nil
  | cons arg rest ih =>
      simp only [compileArgs, returns_bind] at returned
      obtain ⟨v, m, value, h, u, passed, others, t', run, _⟩ := returned
      have grown := (grows_compileExpr value).current inRange
      obtain ⟨form, after⟩ := leaves_compileExpr s.names arg s v m value rfl
      obtain ⟨size, same⟩ := leaves_immediateToHandle v m h u passed rfl
      have here : passedArguments (arg :: rest) s =
        ⟨v, h, m.codeTo u⟩ :: passedArguments rest u := by
        rw [passedArguments, show compileExpr arg s = .ok (v, m) from value]
        dsimp only
        rw [show immediateToHandle v m = .ok (h, u) from passed]
      rw [here, Names.argumentForms, ← after, ← same]
      refine .cons ⟨form, size, fun width => bytesWritten_immediateToHandle passed grown⟩ ?_
      exact ih run (inRange_immediateToHandle passed grown)

/-- The arguments of a generated CALL are generated. -/
theorem returns_compileCall_args (returned : Returns (compileExpr (.call behavior args)) s v t) :
    ∃ ptrs m, Returns (compileArgs args) s ptrs m := by
  simp only [compileExpr, compileCall, returns_bind, returns_get] at returned
  obtain ⟨symbol, u, found, _, _, ⟨_, same⟩, ptrs, m, run, _⟩ := returned
  have unchanged : u = s := by
    simp only [callee, returns_bind, returns_get] at found
    obtain ⟨_, _, ⟨rfl, rfl⟩, found⟩ := found
    split at found
    · exact (returns_pure.mp found).2.symm
    · split at found
      · exact (returns_pure.mp found).2.symm
      · exact absurd found not_returns_throw
  rw [same, unchanged] at run
  exact ⟨ptrs, m, run⟩

/-- A property of elements paired with others that related elements share. -/
theorem forall_zip_congr {α β γ : Type} {R : α → β → Prop} {P : α → γ → Prop} {Q : β → γ → Prop}
    {as : List α} {bs : List β} {cs : List γ} (related : List.Forall₂ R as bs)
    (shared : ∀ a b c, R a b → (P a c ↔ Q b c)) :
    (∀ pair ∈ as.zip cs, P pair.1 pair.2) ↔ ∀ pair ∈ bs.zip cs, Q pair.1 pair.2 := by
  induction related generalizing cs with
  | nil => simp
  | cons here _ ih =>
      cases cs with
      | nil => simp
      | cons c cs =>
          simp only [List.zip_cons_cons, List.forall_mem_cons, shared _ _ c here, ih]

/-- CALL writes as many bytes of its temporaries as the INPUTs declare exactly when its
numbers are wide enough. -/
theorem argumentsWritten_iff (returned : Returns (compileExpr (.call behavior args)) s v t)
    (inRange : s.current < s.blocks.length) :
    ArgumentsWritten s args inputs ↔ s.names.ArgumentsWide args inputs := by
  obtain ⟨ptrs, m, run⟩ := returns_compileCall_args returned
  refine forall_zip_congr
    (P := fun passed (param : Parameter) => passed.value.isScalar →
      param.size ≤ bytesWritten passed.handle.ptr passed.code)
    (Q := fun form (param : Parameter) => ∀ width ∈ form.bind Form.scalarWidth,
      param.size ≤ width / 8)
    (passedArguments_forms run inRange) fun passed form param known => ?_
  obtain ⟨rfl, _, written⟩ := known
  rw [isScalar_iff]
  constructor
  · intro enough width scalar
    exact (enough ⟨width, scalar⟩).trans_eq (written width scalar)
  · rintro wide ⟨width, scalar⟩
    exact (wide width scalar).trans_eq (written width scalar).symm

/-- What a callee may access within the declared sizes of its INPUTs lies inside the
memory passed exactly when that memory is large enough. -/
theorem argumentsCover_iff (returned : Returns (compileExpr (.call behavior args)) s v t)
    (inRange : s.current < s.blocks.length) :
    ArgumentsCover s args inputs ↔ s.names.ArgumentsLarge args inputs := by
  obtain ⟨ptrs, m, run⟩ := returns_compileCall_args returned
  refine forall_zip_congr
    (P := fun passed (param : Parameter) => param.typ = .bytes →
      ∀ offset bytes, offset + bytes ≤ param.size → offset + bytes ≤ passed.handle.size)
    (Q := fun form (param : Parameter) => param.typ = .bytes →
      ∀ f ∈ form, param.size ≤ passedSize f)
    (passedArguments_forms run inRange) fun passed form param known => ?_
  obtain ⟨rfl, size, _⟩ := known
  constructor
  · rintro cover bytes form ⟨rfl⟩
    have whole := cover bytes 0 param.size (by omega)
    omega
  · intro large bytes offset n within
    have enough := large bytes _ rfl
    omega

end Passing

/-- A composition without parameters. -/
def wiring (inputs : List Parameter) (nodes : List Node) : Behavior where
  name := "wiring"
  contract := { inputs := inputs, outputs := [], guarantees := [] }
  hash := ""
  implementations := []
  composition := some ⟨nodes⟩

/-- A behavior with the OUTPUT `b int 1`. -/
def narrow : Contract := { inputs := [], outputs := [⟨"b", .int, 1⟩], guarantees := [] }

/-- A behavior with the INPUT `v int 8`. -/
def wide : Contract := { inputs := [⟨"v", .int, 8⟩], outputs := [], guarantees := [] }

/-- A behavior with the INPUT `buffer bytes 64`. -/
def reader : Contract := { inputs := [⟨"buffer", .bytes, 64⟩], outputs := [], guarantees := [] }

def callees : Contracts :=
  ((AList.insert "narrow" narrow ∅).insert "wide" wide).insert "reader" reader

/-- A generator inside a function with a scope, to which the callees are declared. -/
def callingGenerator : CodeGen :=
  { scopedGenerator with
    moduleFns := ["sigil_narrow", "sigil_wide", "sigil_reader"]
    behaviorSigs := AList.insert "narrow" (.ofContract "narrow" narrow) ∅ }

/-- A literal for an INPUT wider than a word. -/
theorem argumentsWritten_iff_literal :
    ArgumentsWritten callingGenerator [.intLit 1] wide.inputs ↔
      callingGenerator.names.ArgumentsWide [.intLit 1] wide.inputs := by
  have returned : ∃ v t, Returns (Gen.compileExpr (.call "wide" [.intLit 1])) callingGenerator v
    t :=
    ⟨_, _, rfl⟩
  obtain ⟨v, t, returned⟩ := returned
  exact argumentsWritten_iff returned (by decide)

/-- An INPUT of bytes that is passed on. -/
theorem argumentsCover_iff_parameter :
    ∃ s, Returns (Gen.mapParameters 0 [⟨"p", .bytes, 64⟩]) callingGenerator () s ∧
      (ArgumentsCover s [.var "p"] reader.inputs ↔
        s.names.ArgumentsLarge [.var "p"] reader.inputs) := by
  have returned : ∃ s, Returns (Gen.mapParameters 0 [⟨"p", .bytes, 64⟩]) callingGenerator () s ∧
      s.current < s.blocks.length ∧
      ∃ v t, Returns (Gen.compileExpr (.call "reader" [.var "p"])) s v t :=
    ⟨_, rfl, by decide, _, _, rfl⟩
  obtain ⟨s, mapped, inRange, v, t, returned⟩ := returned
  exact ⟨s, mapped, argumentsCover_iff returned inRange⟩

/-- `b = 0`, `CALL narrow -> b`. -/
def receiveByte : List Node :=
  [.assignment 1 "b" (.intLit 0), .call 2 none "narrow" [] ["b"]]

/-- The checker still takes `b` to have the eight bytes of the literal when the generator
has bound it to the one byte of the OUTPUT. -/
theorem receiveByte_accepted_and_not_written :
    (∀ sha256, (wiring [] (receiveByte ++ [.call 3 none "wide" [.var "b"] []])).Accepted sha256
      callees []) ∧
      ∃ s, Returns (Gen.compileNodes ∅ receiveByte) callingGenerator () s ∧
        (∃ v t, Returns (Gen.compileExpr (.call "wide" [.var "b"])) s v t) ∧
        ¬ ArgumentsWritten s [.var "b"] wide.inputs := by
  refine ⟨fun _ => Behavior.accepted_of_noHash (by decide) (by decide), _, rfl, ⟨_, _, rfl⟩, ?_⟩
  intro written
  exact absurd (written _ (List.mem_singleton.mpr rfl) rfl) (by decide)

/-- An INPUT of 16 bytes may be passed for one of 64. -/
theorem passSixteen_accepted_and_not_covered :
    (∀ sha256, (wiring [⟨"p", .bytes, 16⟩] [.call 1 none "reader" [.var "p"] []]).Accepted sha256
      callees []) ∧
      ∃ s, Returns (Gen.mapParameters 0 [⟨"p", .bytes, 16⟩]) callingGenerator () s ∧
        (∃ v t, Returns (Gen.compileExpr (.call "reader" [.var "p"])) s v t) ∧
        ¬ ArgumentsCover s [.var "p"] reader.inputs := by
  refine ⟨fun _ => Behavior.accepted_of_noHash (by decide) (by decide), _, rfl, ⟨_, _, rfl⟩, ?_⟩
  intro cover
  exact absurd (cover _ (List.mem_singleton.mpr rfl) rfl 0 64 (by decide)) (by decide)

end Sigil
