import Mathlib

/-!
# Fallible state passing

Rules for computations in `StateT σ (Except ε)`: when one returns, and what every
returning run of it keeps. `Ensures` carries an invariant of the state along binds.
-/

namespace Flow

variable {σ ε α β : Type}

/-- From state `s` the computation returns `a` in state `t`. -/
def Returns (x : StateT σ (Except ε) α) (s : σ) (a : α) (t : σ) : Prop :=
  x s = .ok (a, t)

section Returns

variable {x : StateT σ (Except ε) α} {f : α → StateT σ (Except ε) β} {s t : σ} {a a' : α} {b : β}

@[simp] theorem returns_pure : Returns (pure a : StateT σ (Except ε) α) s a' t ↔
    a = a' ∧ s = t := by
  change Except.ok (a, s) = Except.ok (a', t) ↔ _
  rw [Except.ok.injEq, Prod.mk.injEq]

/-- A bind returns when both parts do, one after the other. -/
@[simp] theorem returns_bind :
    Returns (x >>= f) s b t ↔ ∃ a m, Returns x s a m ∧ Returns (f a) m b t := by
  have unfolded : (x >>= f) s = (x s).bind fun p => f p.1 p.2 := rfl
  unfold Returns
  rw [unfolded]
  cases run : x s with
  | error e => simp [Except.bind]
  | ok p =>
      constructor
      · intro returned
        exact ⟨p.1, p.2, rfl, returned⟩
      · rintro ⟨a, m, same, returned⟩
        obtain rfl := Except.ok.inj same
        exact returned

@[simp] theorem returns_get : Returns (get : StateT σ (Except ε) σ) s b' t ↔ b' = s ∧ t = s := by
  change Except.ok (s, s) = Except.ok (b', t) ↔ _
  rw [Except.ok.injEq, Prod.mk.injEq]
  exact and_congr eq_comm eq_comm

@[simp] theorem returns_modify {g : σ → σ} {u : PUnit} :
    Returns (modify g : StateT σ (Except ε) PUnit) s u t ↔ t = g s := by
  change Except.ok ((), g s) = Except.ok (u, t) ↔ _
  rw [Except.ok.injEq, Prod.mk.injEq]
  exact ⟨fun same => same.2.symm, fun same => ⟨rfl, same.symm⟩⟩

@[simp] theorem not_returns_throw {e : ε} :
    ¬ Returns (throw e : StateT σ (Except ε) α) s a t := by
  intro returned
  cases returned

/-- A computation returns at most one result. -/
theorem Returns.unique {t' : σ} (first : Returns x s a t) (second : Returns x s a' t') :
    a = a' ∧ t = t' := by
  have same := Except.ok.inj (first.symm.trans second)
  exact ⟨congrArg Prod.fst same, congrArg Prod.snd same⟩

end Returns

/-- Every returning run that starts where `I` holds ends where `I` holds, with a result
that satisfies `P`. -/
def Ensures (I : σ → Prop) (P : α → Prop) (x : StateT σ (Except ε) α) : Prop :=
  ∀ s a t, Returns x s a t → I s → P a ∧ I t

namespace Ensures

variable {I : σ → Prop} {P P' : α → Prop} {Q : β → Prop} {x y : StateT σ (Except ε) α}
  {f : α → StateT σ (Except ε) β}

/-- A result without an effect. -/
theorem pure {a : α} (holds : P a) : Ensures I P (pure a : StateT σ (Except ε) α) := by
  intro s a' t returned inside
  obtain ⟨rfl, rfl⟩ := returns_pure.mp returned
  exact ⟨holds, inside⟩

/-- Two computations one after the other. -/
theorem bind (first : Ensures I P x) (second : ∀ a, P a → Ensures I Q (f a)) :
    Ensures I Q (x >>= f) := by
  intro s b t returned inside
  obtain ⟨a, m, one, two⟩ := returns_bind.mp returned
  obtain ⟨holds, inside⟩ := first s a m one inside
  exact second a holds m b t two inside

/-- The state is looked at. -/
theorem get : Ensures I I (get : StateT σ (Except ε) σ) := by
  intro s a t returned inside
  obtain ⟨rfl, rfl⟩ := returns_get.mp returned
  exact ⟨inside, inside⟩

/-- The state is changed within the invariant. -/
theorem modify {g : σ → σ} (kept : ∀ s, I s → I (g s)) :
    Ensures I (fun _ => True) (modify g : StateT σ (Except ε) PUnit) := by
  intro s a t returned inside
  obtain rfl := returns_modify.mp returned
  exact ⟨trivial, kept s inside⟩

/-- A failure returns nothing. -/
theorem throw (e : ε) : Ensures I P (throw e : StateT σ (Except ε) α) :=
  fun _ _ _ returned => absurd returned not_returns_throw

/-- A weaker result. -/
theorem weaken (stronger : Ensures I P x) (implies : ∀ a, P a → P' a) : Ensures I P' x :=
  fun s a t returned inside => (stronger s a t returned inside).imp_left (implies a)

/-- A case split. -/
theorem ite {c : Prop} [Decidable c] (yes : c → Ensures I P x) (no : ¬ c → Ensures I P y) :
    Ensures I P (if c then x else y) := by
  by_cases holds : c
  · rw [if_pos holds]
    exact yes holds
  · rw [if_neg holds]
    exact no holds

/-- What is left of a returning run after its first part. -/
theorem peel {s t : σ} {b : β} (first : Ensures I P x) (returned : Returns (x >>= f) s b t)
    (inside : I s) : ∃ a m, P a ∧ I m ∧ Returns (f a) m b t := by
  obtain ⟨a, m, one, two⟩ := returns_bind.mp returned
  obtain ⟨holds, inside⟩ := first s a m one inside
  exact ⟨a, m, holds, inside, two⟩

/-- A result that the last part ensures on its own. -/
theorem last (second : ∀ a, Ensures (fun _ => True) Q (f a)) :
    Ensures (fun _ => True) Q (x >>= f) :=
  .bind (P := fun _ => True) (fun _ _ _ _ _ => ⟨trivial, trivial⟩) fun a _ => second a

end Ensures

section Fallible

variable {l : List α}

/-- A bind succeeds when both parts do. -/
theorem bind_eq_ok_iff {x : Except ε α} {f : α → Except ε β} {b : β} :
    x >>= f = .ok b ↔ ∃ a, x = .ok a ∧ f a = .ok b := by
  cases x <;> simp [bind, Except.bind]

/-- What succeeds has a result. -/
theorem exists_ok_of_isOk {x : Except ε α} (succeeds : x.isOk = true) : ∃ a, x = .ok a := by
  cases x with
  | error e => cases succeeds
  | ok a => exact ⟨a, rfl⟩

/-- A fallible step succeeds on a list exactly when it succeeds on every element. -/
theorem forM_eq_ok_iff {f : α → Except ε PUnit} : l.forM f = .ok () ↔ ∀ a ∈ l, f a = .ok () := by
  induction l with
  | nil => simp [List.forM, pure, Except.pure]
  | cons a rest ih =>
      rw [List.forall_mem_cons, ← ih]
      cases here : f a <;> simp [List.forM, here, bind, Except.bind]

/-- A fallible map succeeds on a list exactly when it maps each element to a result. -/
theorem mapM_eq_ok_iff {f : α → Except ε β} {results : List β} :
    l.mapM f = .ok results ↔ List.Forall₂ (fun a b => f a = .ok b) l results := by
  induction l generalizing results with
  | nil => simp [pure, Except.pure, eq_comm]
  | cons a rest ih =>
      rw [List.mapM_cons, List.forall₂_cons_left_iff]
      cases here : f a with
      | error e => simp [bind, Except.bind]
      | ok b =>
          cases later : rest.mapM f with
          | error e =>
              simp only [later, reduceCtorEq, false_iff] at ih
              simp [bind, Except.bind, ih]
          | ok bs =>
              simp only [later, Except.ok.injEq] at ih
              simp [bind, Except.bind, pure, Except.pure, ← ih, eq_comm]

/-- Every element of one of two related lists is related to an element of the other. -/
theorem exists_mem_of_forall₂_left {α β : Type*} {R : α → β → Prop} {l : List α} {results : List β}
    (related : List.Forall₂ R l results) {a : α} (member : a ∈ l) : ∃ b ∈ results, R a b := by
  induction related with
  | nil => cases member
  | cons here _ ih =>
      obtain rfl | later := List.mem_cons.mp member
      · exact ⟨_, List.mem_cons_self, here⟩
      · obtain ⟨b, inside, rel⟩ := ih later
        exact ⟨b, List.mem_cons_of_mem _ inside, rel⟩

/-- A related list has a counterpart for every element. -/
theorem exists_mem_of_forall₂_right {α β : Type*} {R : α → β → Prop} {l : List α} {results : List β}
    (related : List.Forall₂ R l results) {b : β} (member : b ∈ results) : ∃ a ∈ l, R a b :=
  exists_mem_of_forall₂_left (List.Forall₂.flip related) member

end Fallible

end Flow
