import Sigil.Flow.Returns

/-!
# Abstractions of fallible state passing

A computation on abstract states follows one on concrete states when it computes the
abstraction of the result and of the final state, and fails exactly when the other
does. Following composes along binds.
-/

namespace Flow

variable {σ τ ε α β γ δ : Type}

/-- From the abstraction of one state, `y` computes the abstraction of what `x` computes
from it. -/
def FollowsAt (inv : σ → Prop) (view : σ → τ) (x : StateT σ (Except ε) α)
    (y : StateT τ Option β) (of : α → β) (s : σ) : Prop :=
  match x s with
  | .ok (a, t) => y (view s) = some (of a, view t) ∧ inv t
  | .error _ => y (view s) = none

/-- From the abstraction of a state in which `inv` holds, `y` computes the abstraction of
what `x` computes. -/
def Follows (inv : σ → Prop) (view : σ → τ) (x : StateT σ (Except ε) α) (y : StateT τ Option β)
    (of : α → β) : Prop :=
  ∀ s, inv s → FollowsAt inv view x y of s

section At

variable {inv inv' : σ → Prop} {view : σ → τ} {x : StateT σ (Except ε) α} {y : StateT τ Option β}
  {of : α → β} {s : σ}

/-- A bind is followed from a state part by part. -/
theorem FollowsAt.bind {f : α → StateT σ (Except ε) γ} {g : β → StateT τ Option δ} {of' : γ → δ}
    (first : FollowsAt inv view x y of s)
    (second : ∀ a t, Returns x s a t → inv t → FollowsAt inv view (f a) (g (of a)) of' t) :
    FollowsAt inv view (x >>= f) (y >>= g) of' s := by
  have unfolded : (x >>= f) s = (x s).bind fun p => f p.1 p.2 := rfl
  have unfolded' : (y >>= g) (view s) = (y (view s)).bind fun p => g p.1 p.2 := rfl
  unfold FollowsAt at first ⊢
  rw [unfolded, unfolded']
  cases run : x s with
  | error e =>
      rw [run] at first
      rw [show y (view s) = none from first]
      rfl
  | ok p =>
      rw [run] at first
      rw [first.1]
      exact second p.1 p.2 run first.2

/-- Reading a state is followed by reading its abstraction. -/
theorem FollowsAt.get_bind {f : σ → StateT σ (Except ε) γ} {g : τ → StateT τ Option δ} {of' : γ → δ}
    (next : FollowsAt inv view (f s) (g (view s)) of' s) :
    FollowsAt inv view (get >>= f) (get >>= g) of' s :=
  next

/-- A change of the state that the abstraction makes too. -/
theorem FollowsAt.modify {f : σ → σ} {g : τ → τ} (square : g (view s) = view (f s))
    (holds : inv (f s)) :
    FollowsAt inv view (modify f : StateT σ (Except ε) PUnit) (modify g : StateT τ Option PUnit)
      id s :=
  ⟨congrArg (fun t => some ((), t)) square, holds⟩

/-- The same result. -/
theorem FollowsAt.pure {a : α} {b : β} (same : of a = b) (holds : inv s) :
    FollowsAt inv view (pure a : StateT σ (Except ε) α) (Pure.pure b) of s :=
  ⟨same ▸ rfl, holds⟩

end At

namespace Follows

variable {inv : σ → Prop} {view : σ → τ} {x : StateT σ (Except ε) α} {y : StateT τ Option β}
  {of : α → β}

/-- The same result, from every state. -/
theorem pure {a : α} {b : β} (same : of a = b) :
    Follows inv view (pure a : StateT σ (Except ε) α) (Pure.pure b) of :=
  fun _ holds => .pure same holds

/-- A failure on both sides. -/
theorem throw (e : ε) :
    Follows inv view (throw e : StateT σ (Except ε) α) (failure : StateT τ Option β) of :=
  fun _ _ => rfl

/-- A bind is followed part by part; the second part may rely on what every returning
run of the first yields. -/
theorem bind_of {f : α → StateT σ (Except ε) γ} {g : β → StateT τ Option δ} {of' : γ → δ}
    {yields : α → Prop} (first : Follows inv view x y of)
    (post : ∀ s a t, Returns x s a t → yields a)
    (second : ∀ a, yields a → Follows inv view (f a) (g (of a)) of') :
    Follows inv view (x >>= f) (y >>= g) of' :=
  fun s holds => (first s holds).bind fun a t returned inside =>
    second a (post s a t returned) t inside

/-- A bind is followed part by part. -/
theorem bind {f : α → StateT σ (Except ε) γ} {g : β → StateT τ Option δ} {of' : γ → δ}
    (first : Follows inv view x y of) (second : ∀ a, Follows inv view (f a) (g (of a)) of') :
    Follows inv view (x >>= f) (y >>= g) of' :=
  first.bind_of (fun _ _ _ _ => trivial) fun a _ => second a

/-- A result that is only changed is followed as it was. -/
theorem map {h : α → γ} {of' : γ → β} (follows : Follows inv view x y of)
    (same : ∀ a, of' (h a) = of a) :
    Follows inv view (x >>= fun a => Pure.pure (h a)) y of' := by
  intro s holds
  have unfolded : (x >>= fun a => Pure.pure (h a)) s = (x s).bind fun p => .ok (h p.1, p.2) := rfl
  have here := follows s holds
  unfold FollowsAt at here ⊢
  rw [unfolded]
  cases run : x s with
  | error e =>
      rw [run] at here
      exact here
  | ok p =>
      rw [run] at here
      exact ⟨by rw [here.1, same], here.2⟩

/-- Behind a failure nothing is run. -/
theorem throw_bind {f : α → StateT σ (Except ε) γ} {g : β → StateT τ Option δ} {of' : γ → δ}
    (e : ε) :
    Follows inv view ((MonadExcept.throw e : StateT σ (Except ε) α) >>= f)
      ((failure : StateT τ Option β) >>= g) of' :=
  fun _ _ => rfl

/-- A run known step by step is followed when its end is. -/
theorem of_returns (known : ∀ s, inv s → ∃ a t, Returns x s a t ∧ y (view s) =
    some (of a, view t) ∧ inv t) :
    Follows inv view x y of := by
  intro s holds
  obtain ⟨a, t, returned, followed⟩ := known s holds
  unfold FollowsAt
  rw [show x s = .ok (a, t) from returned]
  exact followed

/-- Reading the state is followed by reading its abstraction. -/
theorem get_bind_at {f : σ → StateT σ (Except ε) γ} {g : τ → StateT τ Option δ} {of' : γ → δ}
    (next : ∀ s, inv s → FollowsAt inv view (f s) (g (view s)) of' s) :
    Follows inv view (get >>= f) (get >>= g) of' :=
  fun s holds => next s holds

/-- What follows may be said of every state. -/
theorem get_bind {f : σ → StateT σ (Except ε) γ} {g : τ → StateT τ Option δ} {of' : γ → δ}
    (next : ∀ s, Follows inv view (f s) (g (view s)) of') :
    Follows inv view (get >>= f) (get >>= g) of' :=
  get_bind_at fun s => next s s

/-- A change of the state that the abstraction makes too, from every state. -/
theorem modify {f : σ → σ} {g : τ → τ} (square : ∀ s, inv s → g (view s) = view (f s))
    (keeps : ∀ s, inv s → inv (f s)) :
    Follows inv view (modify f : StateT σ (Except ε) PUnit) (modify g : StateT τ Option PUnit) id :=
  fun s holds => .modify (square s holds) (keeps s holds)

/-- A returning run is followed to the abstraction of its end. -/
theorem returns (follows : Follows inv view x y of) {s t : σ} {a : α} (holds : inv s)
    (returned : Returns x s a t) : y (view s) = some (of a, view t) ∧ inv t := by
  have here := follows s holds
  unfold FollowsAt at here
  rwa [show x s = .ok (a, t) from returned] at here

end Follows

end Flow
