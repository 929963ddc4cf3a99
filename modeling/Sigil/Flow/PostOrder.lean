import Mathlib

/-!
# Opening references in post-order

`visit` opens a reference, visits what the item behind it refers to, and then lists the
item. It remembers what it has finished but not what it is in the middle of, so it does
not come back from a cycle. `walk` is the same search with that memory: it says which
searches finish, and what they list.
-/

namespace Flow

open Relation

/-- How a search with bounded steps ends. -/
inductive Outcome (E S : Type*) where
  | unfinished
  | failed (e : E)
  | done (s : S)
  deriving DecidableEq, Repr

namespace Outcome

variable {E S T : Type*}

/-- Report the error of a search as another one. -/
def mapError {E' : Type*} (f : E → E') : Outcome E S → Outcome E' S
  | unfinished => .unfinished
  | failed e => .failed (f e)
  | done s => .done s

@[simp] theorem mapError_eq_done_iff {E' : Type*} {f : E → E'} {x : Outcome E S} {s : S} :
    x.mapError f = .done s ↔ x = .done s := by
  cases x <;> simp [mapError]

/-- Go on from a search that is done. -/
def bind (x : Outcome E S) (f : S → Outcome E T) : Outcome E T :=
  match x with
  | unfinished => .unfinished
  | failed e => .failed e
  | done s => f s

@[simp] theorem unfinished_bind (f : S → Outcome E T) : unfinished.bind f = .unfinished := rfl
@[simp] theorem failed_bind (e : E) (f : S → Outcome E T) : (failed e).bind f = .failed e := rfl
@[simp] theorem done_bind (s : S) (f : S → Outcome E T) : (done s).bind f = f s := rfl

/-- Whether a search is done. -/
def isDone : Outcome E S → Bool
  | done _ => true
  | unfinished | failed _ => false

/-- A search that is done has a state. -/
theorem exists_of_isDone {x : Outcome E S} (finished : x.isDone = true) : ∃ s, x = .done s := by
  cases x with
  | done s => exact ⟨s, rfl⟩
  | unfinished | failed _ => cases finished

/-- Two searches are done when both are. -/
theorem bind_eq_done_iff {x : Outcome E S} {f : S → Outcome E T} {t : T} :
    x.bind f = .done t ↔ ∃ s, x = .done s ∧ f s = .done t := by
  cases x <;> simp

end Outcome

/-- Apply a search to one reference after another. -/
def each {R E S : Type*} (search : R → S → Outcome E S) : List R → S → Outcome E S
  | [], s => .done s
  | r :: rest, s => (search r s).bind (each search rest)

section Each

variable {R E S : Type*} {search : R → S → Outcome E S} {refs : List R} {s s' : S}

/-- A search that does not get through all references stops at one of them. -/
theorem each_stops (notDone : ∀ s', each search refs s ≠ .done s') :
    ∃ before r after s', refs = before ++ r :: after ∧ each search before s = .done s' ∧
      each search refs s = (search r s').bind (each search after) ∧
      ∀ s'', search r s' ≠ .done s'' := by
  induction refs generalizing s with
  | nil => exact absurd rfl (notDone s)
  | cons r rest ih =>
      by_cases stops : ∀ s', search r s ≠ .done s'
      · exact ⟨[], r, rest, s, rfl, rfl, rfl, stops⟩
      · obtain ⟨s', here⟩ : ∃ s', search r s = .done s' := by simpa using stops
        have later : each search (r :: rest) s = each search rest s' := by
          rw [each, here, Outcome.done_bind]
        obtain ⟨before, q, after, s'', split, first, rest', stuck⟩ := ih (later ▸ notDone)
        refine ⟨r :: before, q, after, s'', by rw [split, List.cons_append], ?_, ?_, stuck⟩
        · rw [each, here, Outcome.done_bind, first]
        · rw [later, rest']

/-- A search over several references fails at one of them. -/
theorem stop_of_bind_failed {T : Type*} {f : S → T} {e : E}
    (failed : (each search refs s).bind (fun s => .done (f s)) = .failed e) :
    ∃ r s', r ∈ refs ∧ search r s' = .failed e := by
  have stuck : each search refs s = .failed e := by
    cases here : each search refs s with
    | unfinished => rw [here] at failed; cases failed
    | done t => rw [here] at failed; cases failed
    | failed e' => rw [here] at failed; cases failed; rfl
  obtain ⟨before, r, after, s', split, _, whole, stops⟩ :=
    each_stops fun t done => by rw [stuck] at done; cases done
  refine ⟨r, s', split ▸ List.mem_append_right _ List.mem_cons_self, ?_⟩
  rw [stuck] at whole
  cases here : search r s' with
  | unfinished => rw [here] at whole; cases whole
  | done t => exact absurd here (stops t)
  | failed e' => rw [here] at whole; exact whole.symm

/-- The references are searched one after the other. -/
theorem each_append (before after : List R) (s : S) :
    each search (before ++ after) s = (each search before s).bind (each search after) := by
  induction before generalizing s with
  | nil => rfl
  | cons r rest ih =>
      rw [List.cons_append, each, each]
      cases search r s with
      | unfinished => rfl
      | failed e => rfl
      | done s' => exact ih s'

/-- What every search preserves is preserved by all of them. -/
theorem each_preserves {I : S → Prop}
    (step : ∀ r ∈ refs, ∀ s s', I s → search r s = .done s' → I s') (holds : I s)
    (finished : each search refs s = .done s') : I s' := by
  induction refs generalizing s with
  | nil =>
      cases finished
      exact holds
  | cons r rest ih =>
      obtain ⟨s'', here, later⟩ := Outcome.bind_eq_done_iff.mp finished
      exact ih (fun q known => step q (List.mem_cons_of_mem _ known))
        (step r List.mem_cons_self s s'' holds here) later

end Each

/-- What is finished, and the items listed so far. -/
structure Visited (K A : Type*) where
  finished : List K := []
  items : List (K × A) := []
  deriving DecidableEq, Repr

namespace Visited

variable {K A : Type*}

/-- A reference that leads nowhere is finished. -/
def skip (s : Visited K A) (k : K) : Visited K A := { s with finished := k :: s.finished }

/-- An item is listed when what it refers to is finished. -/
def close (s : Visited K A) (k : K) (a : A) : Visited K A :=
  ⟨k :: s.finished, s.items ++ [(k, a)]⟩

end Visited

section Search

variable {K R E A : Type*} [DecidableEq K] (key : R → K) (opened : R → Except E (Option A))
  (children : A → List R)

/-- Open a reference unless it is finished; the steps bound the depth. -/
def visit : Nat → R → Visited K A → Outcome E (Visited K A)
  | steps, r, s =>
      if key r ∈ s.finished then .done s
      else match opened r with
        | .error e => .failed e
        | .ok none => .done (s.skip (key r))
        | .ok (some a) =>
            match steps with
            | 0 => .unfinished
            | steps + 1 =>
                (each (visit steps) (children a) s).bind fun s => .done (s.close (key r) a)

/-- The search that knows the references it is in the middle of. Coming back to one of
them is the failure `none`. -/
def walk : Nat → List R → R → Visited K A → Outcome (Option E) (Visited K A)
  | steps, path, r, s =>
      if key r ∈ s.finished then .done s
      else match opened r with
        | .error e => .failed (some e)
        | .ok none => .done (s.skip (key r))
        | .ok (some a) =>
            if key r ∈ path.map key then .failed none
            else match steps with
              | 0 => .unfinished
              | steps + 1 =>
                  (each (walk steps (r :: path)) (children a) s).bind fun s =>
                    .done (s.close (key r) a)

attribute [local simp] visit walk

end Search

section Agreement

variable {K R E A : Type*} [DecidableEq K] {key : R → K} {opened : R → Except E (Option A)}
  {children : A → List R} {steps steps' : Nat} {r : R} {a : A} {path : List R}
  {s s' : Visited K A}

/-- What is finished is not visited again. -/
theorem visit_finished (known : key r ∈ s.finished) :
    visit key opened children steps r s = .done s := by
  unfold visit
  rw [if_pos known]

/-- The search goes on below a reference that is not finished and leads somewhere. -/
theorem visit_inside (fresh : key r ∉ s.finished) (inside : opened r = .ok (some a)) :
    visit key opened children (steps + 1) r s =
      (each (visit key opened children steps) (children a) s).bind fun s =>
        .done (s.close (key r) a) := by
  rw [visit, if_neg fresh, inside]

/-- Without steps a search does not end. -/
theorem visit_zero (fresh : key r ∉ s.finished) (inside : opened r = .ok (some a)) :
    visit key opened children 0 r s = .unfinished := by
  rw [visit, if_neg fresh, inside]

/-- How a reference is found: finished, an error, leading nowhere, or leading on. -/
theorem reference_cases (key : R → K) (opened : R → Except E (Option A)) (r : R)
    (s : Visited K A) :
    key r ∈ s.finished ∨ key r ∉ s.finished ∧
      ((∃ e, opened r = .error e) ∨ opened r = .ok none ∨ ∃ a, opened r = .ok (some a)) := by
  by_cases known : key r ∈ s.finished
  · exact .inl known
  · refine .inr ⟨known, ?_⟩
    cases opened r with
    | error e => exact .inl ⟨e, rfl⟩
    | ok found =>
        cases found with
        | none => exact .inr (.inl rfl)
        | some a => exact .inr (.inr ⟨a, rfl⟩)

/-- A search that ended ends the same way with more steps. -/
theorem visit_succ (ended : visit key opened children steps r s ≠ .unfinished) :
    visit key opened children (steps + 1) r s = visit key opened children steps r s := by
  induction steps generalizing r s with
  | zero =>
      obtain known | ⟨fresh, ⟨e, error⟩ | outside | ⟨a, inside⟩⟩ := reference_cases key opened r s
      · rw [visit_finished known, visit_finished known]
      · rw [visit, visit, error]
      · rw [visit, visit, outside]
      · exact absurd (visit_zero fresh inside) ended
  | succ steps ih =>
      have all : ∀ refs s, each (visit key opened children steps) refs s ≠ .unfinished →
          each (visit key opened children (steps + 1)) refs s =
            each (visit key opened children steps) refs s := by
        intro refs
        induction refs with
        | nil => exact fun s _ => rfl
        | cons q rest more =>
            intro s ended
            rw [each] at ended
            have first : visit key opened children steps q s ≠ .unfinished := by
              intro stuck
              rw [stuck] at ended
              exact ended rfl
            rw [each, each, ih first]
            cases here : visit key opened children steps q s with
            | unfinished => rfl
            | failed e => rfl
            | done s' =>
                rw [here] at ended
                exact more s' ended
      obtain known | ⟨fresh, ⟨e, error⟩ | outside | ⟨a, inside⟩⟩ := reference_cases key opened r s
      · rw [visit_finished known, visit_finished known]
      · rw [visit, visit, error]
      · rw [visit, visit, outside]
      · rw [visit_inside fresh inside] at ended
        rw [visit_inside fresh inside, visit_inside fresh inside, all (children a) s]
        intro stuck
        rw [stuck] at ended
        exact ended rfl

/-- A search that ends does so with more steps. -/
theorem visit_mono (le : steps ≤ steps')
    (ended : visit key opened children steps r s ≠ .unfinished) :
    visit key opened children steps' r s = visit key opened children steps r s := by
  induction le with
  | refl => rfl
  | step _ ih => rw [visit_succ (ih ▸ ended), ih]

/-- All searches that end, end the same way. -/
theorem visit_unique (ended : visit key opened children steps r s ≠ .unfinished)
    (ended' : visit key opened children steps' r s ≠ .unfinished) :
    visit key opened children steps r s = visit key opened children steps' r s := by
  obtain le | le := le_total steps steps'
  · exact (visit_mono le ended).symm
  · exact visit_mono le ended'

/-- What is finished is not walked again. -/
theorem walk_finished (known : key r ∈ s.finished) :
    walk key opened children steps path r s = .done s := by
  unfold walk
  rw [if_pos known]

/-- A reference that cannot be opened ends the walk. -/
theorem walk_error {e : E} (fresh : key r ∉ s.finished) (error : opened r = .error e) :
    walk key opened children steps path r s = .failed (some e) := by
  unfold walk
  rw [if_neg fresh, error]

/-- A reference from outside is skipped. -/
theorem walk_outside (fresh : key r ∉ s.finished) (outside : opened r = .ok none) :
    walk key opened children steps path r s = .done (s.skip (key r)) := by
  unfold walk
  rw [if_neg fresh, outside]

/-- A reference on the path ends the walk. -/
theorem walk_back (fresh : key r ∉ s.finished) (inside : opened r = .ok (some a))
    (back : key r ∈ path.map key) :
    walk key opened children steps path r s = .failed none := by
  unfold walk
  rw [if_neg fresh, inside]
  exact if_pos back

/-- Else its own references are walked first. -/
theorem walk_inside (fresh : key r ∉ s.finished) (inside : opened r = .ok (some a))
    (ahead : key r ∉ path.map key) :
    walk key opened children (steps + 1) path r s =
      (each (walk key opened children steps (r :: path)) (children a) s).bind fun s =>
        .done (s.close (key r) a) := by
  rw [walk, if_neg fresh, inside]
  exact if_neg ahead

/-- Without steps a walk does not end. -/
theorem walk_zero (fresh : key r ∉ s.finished) (inside : opened r = .ok (some a))
    (ahead : key r ∉ path.map key) :
    walk key opened children 0 path r s = .unfinished := by
  rw [walk, if_neg fresh, inside]
  exact if_neg ahead

/-- The search ends like the walk where the walk does not come back to a reference. -/
def Mirrors {K E A : Type*} (x : Outcome (Option E) (Visited K A)) (y : Outcome E (Visited K A))
    : Prop :=
  (∀ s, x = .done s → y = .done s) ∧ ∀ e, x = .failed (some e) → y = .failed e

/-- Mirrored searches stay mirrored one after the other. -/
theorem Mirrors.bind {K E A : Type*} {x : Outcome (Option E) (Visited K A)}
    {y : Outcome E (Visited K A)}
    {f : Visited K A → Outcome (Option E) (Visited K A)} {g : Visited K A → Outcome E (Visited K A)}
    (first : Mirrors x y) (second : ∀ s, Mirrors (f s) (g s)) : Mirrors (x.bind f) (y.bind g) := by
  cases x with
  | unfinished => exact ⟨by simp, by simp⟩
  | failed e =>
      cases e with
      | none => exact ⟨by simp, by simp⟩
      | some e =>
          rw [first.2 e rfl]
          exact ⟨by simp, by simp⟩
  | done s =>
      rw [first.1 s rfl]
      exact second s

/-- Where the walk does not come back to a reference, the search ends like it. -/
theorem walk_mirrors (steps : Nat) (path : List R) (r : R) (s : Visited K A) :
    Mirrors (walk key opened children steps path r s) (visit key opened children steps r s) := by
  induction steps generalizing r s path with
  | zero =>
      obtain known | ⟨fresh, ⟨e, error⟩ | outside | ⟨a, inside⟩⟩ := reference_cases key opened r s
      · rw [walk_finished known, visit_finished known]
        exact ⟨by simp, by simp⟩
      · rw [walk_error fresh error, visit, if_neg fresh, error]
        exact ⟨by simp, by simp⟩
      · rw [walk_outside fresh outside, visit, if_neg fresh, outside]
        exact ⟨by simp, by simp⟩
      · by_cases back : key r ∈ path.map key
        · rw [walk_back fresh inside back]
          exact ⟨by simp, by simp⟩
        · rw [walk_zero fresh inside back]
          exact ⟨by simp, by simp⟩
  | succ steps ih =>
      have all : ∀ refs s, Mirrors (each (walk key opened children steps (r :: path)) refs s)
          (each (visit key opened children steps) refs s) := by
        intro refs
        induction refs with
        | nil => exact fun s => ⟨fun s' same => by cases same; rfl, fun e same => by cases same⟩
        | cons q rest more => exact fun s => (ih (r :: path) q s).bind more
      obtain known | ⟨fresh, ⟨e, error⟩ | outside | ⟨a, inside⟩⟩ := reference_cases key opened r s
      · rw [walk_finished known, visit_finished known]
        exact ⟨by simp, by simp⟩
      · rw [walk_error fresh error, visit, if_neg fresh, error]
        exact ⟨by simp, by simp⟩
      · rw [walk_outside fresh outside, visit, if_neg fresh, outside]
        exact ⟨by simp, by simp⟩
      · by_cases back : key r ∈ path.map key
        · rw [walk_back fresh inside back]
          exact ⟨by simp, by simp⟩
        · rw [walk_inside fresh inside back, visit_inside fresh inside]
          exact (all (children a) s).bind fun s =>
            ⟨fun s' same => by cases same; rfl, fun e same => by cases same⟩

end Agreement

section Finished

variable {K R E A : Type*} {key : R → K} {opened : R → Except E (Option A)}
  {children : A → List R} {steps : Nat} {r : R} {path : List R} {s s' : Visited K A}

/-- More is finished, and nothing of the path. -/
structure Extends (key : R → K) (path : List R) (s s' : Visited K A) : Prop where
  kept : ∀ k ∈ s.finished, k ∈ s'.finished
  spared : ∀ k ∈ path.map key, k ∉ s.finished → k ∉ s'.finished

/-- A state extends itself. -/
theorem Extends.refl (key : R → K) (path : List R) (s : Visited K A) : Extends key path s s :=
  ⟨fun _ known => known, fun _ _ fresh => fresh⟩

/-- An extension of an extension. -/
theorem Extends.trans {s'' : Visited K A} (first : Extends key path s s')
    (second : Extends key path s' s'') : Extends key path s s'' :=
  ⟨fun k known => second.kept k (first.kept k known),
    fun k onPath fresh => second.spared k onPath (first.spared k onPath fresh)⟩

/-- A finished key that is not on the path extends what is finished. -/
theorem Extends.finish {finished : Visited K A} (same : finished.finished = key r :: s'.finished)
    (ahead : key r ∉ path.map key) (first : Extends key path s s') :
      Extends key path s finished := by
  refine ⟨fun k known => ?_, fun k onPath fresh => ?_⟩
  · rw [same]
    exact List.mem_cons_of_mem _ (first.kept k known)
  · rw [same, List.mem_cons, not_or]
    exact ⟨fun again => ahead (again ▸ onPath), first.spared k onPath fresh⟩

/-- References to one key that open, open to the same. -/
def Consistent (key : R → K) (opened : R → Except E (Option A)) : Prop :=
  ∀ r q x y, key q = key r → opened r = .ok x → opened q = .ok y → x = y

/-- References that lead nowhere are on no path. -/
def PathInside (key : R → K) (opened : R → Except E (Option A)) (path : List R) : Prop :=
  ∀ r, key r ∈ path.map key → opened r ≠ .ok none

/-- The path grows by what is inside. -/
theorem PathInside.cons {a : A} (consistent : Consistent key opened)
    (solid : PathInside key opened path) (inside : opened r = .ok (some a)) :
    PathInside key opened (r :: path) := by
  intro q onPath outside
  obtain here | later := List.mem_cons.mp onPath
  · exact absurd (consistent r q _ _ here inside outside) (by simp)
  · exact solid q later outside

variable [DecidableEq K]

/-- What a walk that is done did: its reference is finished, and nothing of the path. -/
theorem walk_extends (consistent : Consistent key opened) (solid : PathInside key opened path)
    (done : walk key opened children steps path r s = .done s') :
    Extends key path s s' ∧ key r ∈ s'.finished := by
  induction steps generalizing r s s' path with
  | zero =>
      obtain known | ⟨fresh, ⟨e, error⟩ | outside | ⟨a, inside⟩⟩ := reference_cases key opened r s
      · rw [walk_finished known] at done
        cases done
        exact ⟨.refl key path s, known⟩
      · rw [walk_error fresh error] at done
        cases done
      · rw [walk_outside fresh outside] at done
        cases done
        have ahead : key r ∉ path.map key := fun onPath => solid r onPath outside
        exact ⟨.finish rfl ahead (.refl key path s), List.mem_cons_self⟩
      · by_cases back : key r ∈ path.map key
        · rw [walk_back fresh inside back] at done
          cases done
        · rw [walk_zero fresh inside back] at done
          cases done
  | succ steps ih =>
      obtain known | ⟨fresh, ⟨e, error⟩ | outside | ⟨a, inside⟩⟩ := reference_cases key opened r s
      · rw [walk_finished known] at done
        cases done
        exact ⟨.refl key path s, known⟩
      · rw [walk_error fresh error] at done
        cases done
      · rw [walk_outside fresh outside] at done
        cases done
        have ahead : key r ∉ path.map key := fun onPath => solid r onPath outside
        exact ⟨.finish rfl ahead (.refl key path s), List.mem_cons_self⟩
      · by_cases back : key r ∈ path.map key
        · rw [walk_back fresh inside back] at done
          cases done
        · rw [walk_inside fresh inside back] at done
          obtain ⟨s'', all, same⟩ := Outcome.bind_eq_done_iff.mp done
          cases same
          have below : Extends key (r :: path) s s'' :=
            each_preserves (I := Extends key (r :: path) s)
              (fun q _ t t' holds here => holds.trans (ih (solid.cons consistent inside) here).1)
              (.refl key _ s) all
          have above : Extends key path s s'' :=
            ⟨below.kept, fun k onPath => below.spared k (List.mem_cons_of_mem _ onPath)⟩
          exact ⟨.finish rfl back above, List.mem_cons_self⟩

/-- All references of a list are finished after it. -/
theorem each_walk_extends {refs : List R} (consistent : Consistent key opened)
    (solid : PathInside key opened path)
    (done : each (walk key opened children steps path) refs s = .done s') :
    Extends key path s s' ∧ ∀ q ∈ refs, key q ∈ s'.finished := by
  induction refs generalizing s with
  | nil =>
      cases done
      exact ⟨.refl key path _, by simp⟩
  | cons q rest ih =>
      obtain ⟨s'', here, later⟩ := Outcome.bind_eq_done_iff.mp done
      obtain ⟨first, known⟩ := walk_extends consistent solid here
      obtain ⟨second, all⟩ := ih later
      exact ⟨first.trans second, List.forall_mem_cons.mpr ⟨second.kept _ known, all⟩⟩

/-- What finishing a reference and listing an item keep holds after a walk, if it starts
at references with a property that passes to what they refer to. -/
theorem walk_preserves {I : Visited K A → Prop} {Q : R → Prop}
    (consistent : Consistent key opened) (solid : PathInside key opened path)
    (below : ∀ r a, Q r → opened r = .ok (some a) → ∀ q ∈ children a, Q q)
    (skip : ∀ r s, Q r → opened r = .ok none → key r ∉ s.finished → I s → I (s.skip (key r)))
    (close : ∀ r a s, Q r → opened r = .ok (some a) → key r ∉ s.finished →
      (∀ q ∈ children a, key q ∈ s.finished) → I s → I (s.close (key r) a))
    (start : Q r) (holds : I s) (done : walk key opened children steps path r s = .done s') :
    I s' := by
  induction steps generalizing r s s' path with
  | zero =>
      obtain known | ⟨fresh, ⟨e, error⟩ | outside | ⟨a, inside⟩⟩ := reference_cases key opened r s
      · rw [walk_finished known] at done
        cases done
        exact holds
      · rw [walk_error fresh error] at done
        cases done
      · rw [walk_outside fresh outside] at done
        cases done
        exact skip r s start outside fresh holds
      · by_cases back : key r ∈ path.map key
        · rw [walk_back fresh inside back] at done
          cases done
        · rw [walk_zero fresh inside back] at done
          cases done
  | succ steps ih =>
      obtain known | ⟨fresh, ⟨e, error⟩ | outside | ⟨a, inside⟩⟩ := reference_cases key opened r s
      · rw [walk_finished known] at done
        cases done
        exact holds
      · rw [walk_error fresh error] at done
        cases done
      · rw [walk_outside fresh outside] at done
        cases done
        exact skip r s start outside fresh holds
      · by_cases back : key r ∈ path.map key
        · rw [walk_back fresh inside back] at done
          cases done
        · rw [walk_inside fresh inside back] at done
          obtain ⟨s'', all, same⟩ := Outcome.bind_eq_done_iff.mp done
          cases same
          have solid' := solid.cons consistent inside
          obtain ⟨extended, finished⟩ := each_walk_extends consistent solid' all
          have after : I s'' := each_preserves
            (fun q known t t' holds here => ih solid' (below r a start inside q known) holds here)
            holds all
          have still : key r ∉ s''.finished := extended.spared _ List.mem_cons_self fresh
          exact close r a s'' start inside still finished after

end Finished

section Ends

variable {K R E A : Type*} {key : R → K} {opened : R → Except E (Option A)}
  {children : A → List R} {steps : Nat} {r : R} {path : List R} {s s' : Visited K A}

/-- The keys a search can go below are among finitely many. -/
def Bounded (key : R → K) (opened : R → Except E (Option A)) (keys : List K) : Prop :=
  ∀ r a, opened r = .ok (some a) → key r ∈ keys

/-- The first reference of a list that is not finished. -/
def Next (key : R → K) (s : Visited K A) (refs : List R) (q : R) : Prop :=
  ∃ before after, refs = before ++ q :: after ∧ ∀ b ∈ before, key b ∈ s.finished

/-- What is next stays next or is finished. -/
theorem Next.mono {refs : List R} {q : R} (next : Next key s refs q)
    (kept : ∀ k ∈ s.finished, k ∈ s'.finished) : Next key s' refs q := by
  obtain ⟨before, after, split, finished⟩ := next
  exact ⟨before, after, split, fun b member => kept _ (finished b member)⟩

/-- Each reference of a path, the last one first, is what the one before it leads on to
first. -/
def InProgress (key : R → K) (opened : R → Except E (Option A)) (children : A → List R)
    (s : Visited K A) : List R → R → Prop
  | [], _ => True
  | p :: path, q =>
      (key p ∉ s.finished ∧ ∃ a, opened p = .ok (some a) ∧ Next key s (children a) q) ∧
        InProgress key opened children s path p

/-- What is in progress stays in progress. -/
theorem InProgress.mono {q : R} (progress : InProgress key opened children s path q)
    (extends' : Extends key path s s') : InProgress key opened children s' path q := by
  induction path generalizing q with
  | nil => trivial
  | cons p path ih =>
      obtain ⟨⟨fresh, a, inside, next⟩, rest⟩ := progress
      have tail : Extends key path s s' :=
        ⟨extends'.kept, fun k onPath => extends'.spared k (List.mem_cons_of_mem _ onPath)⟩
      exact ⟨⟨extends'.spared _ List.mem_cons_self fresh, a, inside, next.mono extends'.kept⟩,
        ih rest tail⟩

/-- Every reference of a path leads on to one of the path or to the reference at hand. -/
theorem InProgress.leads {q p : R} (progress : InProgress key opened children s path q)
    (member : p ∈ path) : key p ∉ s.finished ∧
      ∃ a, opened p = .ok (some a) ∧ ∃ p', (p' = q ∨ p' ∈ path) ∧ Next key s (children a) p' := by
  induction path generalizing q with
  | nil => cases member
  | cons p' path ih =>
      obtain ⟨⟨fresh, a, inside, next⟩, rest⟩ := progress
      obtain rfl | later := List.mem_cons.mp member
      · exact ⟨fresh, a, inside, q, .inl rfl, next⟩
      · obtain ⟨fresh', a', inside', p'', onPath, next'⟩ := ih rest later
        refine ⟨fresh', a', inside', p'', .inr ?_, next'⟩
        obtain rfl | onPath := onPath
        · exact List.mem_cons_self
        · exact List.mem_cons_of_mem _ onPath

variable [DecidableEq K]

/-- A walk ends when it has a step for every key that is not on its path. -/
theorem walk_ends {keys : List K} (bounded : Bounded key opened keys)
    (distinct : (path.map key).Nodup) (known : path.map key ⊆ keys)
    (enough : keys.length ≤ steps + path.length) :
    walk key opened children steps path r s ≠ .unfinished := by
  induction steps generalizing r s path with
  | zero =>
      obtain done | ⟨fresh, ⟨e, error⟩ | outside | ⟨a, inside⟩⟩ := reference_cases key opened r s
      · simp [walk_finished done]
      · simp [walk_error fresh error]
      · simp [walk_outside fresh outside]
      · by_cases back : key r ∈ path.map key
        · simp [walk_back fresh inside back]
        · have longer : (key r :: path.map key).length ≤ keys.length :=
            ((List.subperm_of_subset (List.nodup_cons.mpr ⟨back, distinct⟩)
              (List.cons_subset.mpr ⟨bounded r a inside, known⟩)).length_le)
          rw [List.length_cons, List.length_map] at longer
          omega
  | succ steps ih =>
      obtain done | ⟨fresh, ⟨e, error⟩ | outside | ⟨a, inside⟩⟩ := reference_cases key opened r s
      · simp [walk_finished done]
      · simp [walk_error fresh error]
      · simp [walk_outside fresh outside]
      · by_cases back : key r ∈ path.map key
        · simp [walk_back fresh inside back]
        · have ends : ∀ q t, walk key opened children steps (r :: path) q t ≠ .unfinished := by
            intro q t
            exact ih (List.nodup_cons.mpr ⟨back, distinct⟩)
              (List.cons_subset.mpr ⟨bounded r a inside, known⟩) (by rw [List.length_cons]; omega)
          have all : ∀ refs t, each (walk key opened children steps (r :: path)) refs t ≠
              .unfinished := by
            intro refs
            induction refs with
            | nil => exact fun t same => by cases same
            | cons q rest more =>
                intro t same
                rw [each] at same
                cases here : walk key opened children steps (r :: path) q t with
                | unfinished => exact ends q t here
                | failed e => rw [here] at same; cases same
                | done t' => rw [here] at same; exact more t' same
          rw [walk_inside fresh inside back]
          cases here : each (walk key opened children steps (r :: path)) (children a) s with
          | unfinished => exact absurd here (all _ s)
          | failed e => simp
          | done t => simp

/-- Finished references are passed at once. -/
theorem each_visit_finished {refs : List R} (finished : ∀ b ∈ refs, key b ∈ s.finished) :
    each (visit key opened children steps) refs s = .done s := by
  induction refs with
  | nil => rfl
  | cons b rest ih =>
      obtain ⟨here, later⟩ := List.forall_mem_cons.mp finished
      rw [each, visit_finished here]
      exact ih later

/-- References each of which leads on to one of them first are never done with. -/
theorem visit_diverges {D : R → Prop}
    (endless : ∀ q, D q → key q ∉ s.finished ∧
      ∃ a, opened q = .ok (some a) ∧ ∃ q', D q' ∧ Next key s (children a) q')
    (start : D r) (steps : Nat) : visit key opened children steps r s = .unfinished := by
  induction steps generalizing r with
  | zero =>
      obtain ⟨fresh, a, inside, _⟩ := endless r start
      exact visit_zero fresh inside
  | succ steps ih =>
      obtain ⟨fresh, a, inside, q', again, before, after, split, finished⟩ := endless r start
      rw [visit_inside fresh inside, split, each_append, each_visit_finished finished,
        Outcome.done_bind, each, ih again]
      rfl

/-- A search that comes back to a reference of its path does not end. -/
theorem diverges_on_path {a : A} (consistent : Consistent key opened)
    (progress : InProgress key opened children s path r) (fresh : key r ∉ s.finished)
    (inside : opened r = .ok (some a)) (onPath : key r ∈ path.map key) (steps : Nat) :
    visit key opened children steps r s = .unfinished := by
  refine visit_diverges (D := fun q => q = r ∨ q ∈ path) ?_ (.inl rfl) steps
  rintro q (rfl | member)
  · obtain ⟨p, member, same⟩ := List.mem_map.mp onPath
    obtain ⟨_, b, inside', p', leads, next⟩ := progress.leads member
    have equal := consistent q p _ _ same inside inside'
    cases equal
    exact ⟨fresh, a, inside, p', leads, next⟩
  · exact progress.leads member

/-- A search over references the walk is done with ends like it or not at all. -/
theorem each_visit_of_walk {refs : List R}
    (done : each (walk key opened children steps path) refs s = .done s') (n : Nat) :
    each (visit key opened children n) refs s = .unfinished ∨
      each (visit key opened children n) refs s = .done s' := by
  induction refs generalizing s with
  | nil =>
      cases done
      exact .inr rfl
  | cons q rest ih =>
      obtain ⟨t, here, later⟩ := Outcome.bind_eq_done_iff.mp done
      have mirrored := (walk_mirrors steps path q s).1 t here
      by_cases ended : visit key opened children n q s = .unfinished
      · exact .inl (by rw [each, ended, Outcome.unfinished_bind])
      · have same := visit_unique ended (mirrored ▸ (by simp) :
          visit key opened children steps q s ≠ .unfinished)
        rw [each, same, mirrored]
        exact ih later

/-- Where the walk comes back to a reference of its path, the search does not end. -/
theorem visit_of_walk_back (consistent : Consistent key opened)
    (solid : PathInside key opened path) (progress : InProgress key opened children s path r)
    (back : walk key opened children steps path r s = .failed none) (steps' : Nat) :
    visit key opened children steps' r s = .unfinished := by
  induction steps generalizing r s path steps' with
  | zero =>
      obtain known | ⟨fresh, ⟨e, error⟩ | outside | ⟨a, inside⟩⟩ := reference_cases key opened r s
      · simp [walk_finished known] at back
      · simp [walk_error fresh error] at back
      · simp [walk_outside fresh outside] at back
      · by_cases onPath : key r ∈ path.map key
        · exact diverges_on_path consistent progress fresh inside onPath steps'
        · simp [walk_zero fresh inside onPath] at back
  | succ steps ih =>
      obtain known | ⟨fresh, ⟨e, error⟩ | outside | ⟨a, inside⟩⟩ := reference_cases key opened r s
      · simp [walk_finished known] at back
      · simp [walk_error fresh error] at back
      · simp [walk_outside fresh outside] at back
      · by_cases onPath : key r ∈ path.map key
        · exact diverges_on_path consistent progress fresh inside onPath steps'
        · rw [walk_inside fresh inside onPath] at back
          have stuck : each (walk key opened children steps (r :: path)) (children a) s =
              .failed none := by
            cases here : each (walk key opened children steps (r :: path)) (children a) s with
            | unfinished => rw [here] at back; cases back
            | done t => rw [here] at back; cases back
            | failed e => rw [here] at back; exact back
          have notDone : ∀ t, each (walk key opened children steps (r :: path)) (children a) s ≠
              .done t := by simp [stuck]
          obtain ⟨before, q, after, t, split, first, whole, stops⟩ := each_stops notDone
          have here : walk key opened children steps (r :: path) q t = .failed none := by
            rw [stuck] at whole
            cases at' : walk key opened children steps (r :: path) q t with
            | unfinished => rw [at'] at whole; cases whole
            | done t' => exact absurd at' (stops t')
            | failed e => rw [at'] at whole; exact whole.symm
          have solid' := solid.cons consistent inside
          obtain ⟨extended, finished⟩ := each_walk_extends consistent solid' first
          have above : Extends key path s t :=
            ⟨extended.kept, fun k known => extended.spared k (List.mem_cons_of_mem _ known)⟩
          have ends := ih solid' ⟨⟨extended.spared _ List.mem_cons_self fresh, a, inside, before,
            after, split, finished⟩, progress.mono above⟩ here
          cases steps' with
          | zero => exact visit_zero fresh inside
          | succ n =>
              rw [visit_inside fresh inside, split, each_append]
              obtain unfinished | done := each_visit_of_walk first n
              · rw [unfinished]
                rfl
              · rw [done, Outcome.done_bind, each, ends n]
                rfl

end Ends

section Order

variable {K R E A : Type*} {key : R → K} {opened : R → Except E (Option A)}
  {children : A → List R} {steps : Nat} {r : R} {path : List R} {s s' : Visited K A}

/-- A reference to the first key opens to an item that refers to the second. -/
def Edge (key : R → K) (opened : R → Except E (Option A)) (children : A → List R) (k k' : K) :
    Prop :=
  ∃ r a, key r = k ∧ opened r = .ok (some a) ∧ ∃ q ∈ children a, key q = k'

/-- A key that leads nowhere. -/
def Outside (key : R → K) (opened : R → Except E (Option A)) (k : K) : Prop :=
  ∃ r, key r = k ∧ opened r = .ok none

/-- Every key is listed once, with the item it opens to, after the keys the item refers
to. -/
structure Ordered (key : R → K) (opened : R → Except E (Option A)) (children : A → List R)
    (items : List (K × A)) : Prop where
  distinct : (items.map Prod.fst).Nodup
  opens : ∀ entry ∈ items, ∃ r, key r = entry.1 ∧ opened r = .ok (some entry.2)
  after : ∀ before entry rest, items = before ++ entry :: rest → ∀ q ∈ children entry.2,
    key q ∈ before.map Prod.fst ∨ Outside key opened (key q)

/-- What is finished is what is listed and what leads nowhere. -/
structure Settled (key : R → K) (opened : R → Except E (Option A)) (children : A → List R)
    (s : Visited K A) : Prop where
  ordered : Ordered key opened children s.items
  listed : ∀ k ∈ s.items.map Prod.fst, k ∈ s.finished
  finished : ∀ k ∈ s.finished, k ∈ s.items.map Prod.fst ∨ Outside key opened k

/-- At first nothing is visited. -/
theorem Settled.start : Settled key opened children ({} : Visited K A) where
  ordered := ⟨List.nodup_nil, by simp, fun before entry rest same => by simp at same⟩
  listed := by simp
  finished := by simp

/-- What is outside is skipped. -/
theorem Settled.skip (settled : Settled key opened children s) (outside : opened r = .ok none) :
    Settled key opened children (s.skip (key r)) where
  ordered := settled.ordered
  listed k member := List.mem_cons_of_mem _ (settled.listed k member)
  finished := by
    intro k member
    obtain rfl | old := List.mem_cons.mp member
    · exact .inr ⟨r, rfl, outside⟩
    · exact settled.finished k old

/-- What has its references finished is finished. -/
theorem Settled.close {a : A} (settled : Settled key opened children s)
    (inside : opened r = .ok (some a)) (fresh : key r ∉ s.finished)
    (below : ∀ q ∈ children a, key q ∈ s.finished) :
    Settled key opened children (s.close (key r) a) where
  ordered := by
    refine ⟨?_, ?_, ?_⟩
    · have absent : key r ∉ s.items.map Prod.fst := fun listed => fresh (settled.listed _ listed)
      change ((s.items ++ [(key r, a)]).map Prod.fst).Nodup
      rw [List.map_append, List.map_singleton]
      exact List.nodup_append.mpr ⟨settled.ordered.distinct, List.nodup_singleton _, by
        intro k member k' last same
        rw [List.mem_singleton] at last
        rw [same, last] at member
        exact absent member⟩
    · intro entry member
      obtain old | new := List.mem_append.mp member
      · exact settled.ordered.opens entry old
      · rw [List.mem_singleton.mp new]
        exact ⟨r, rfl, inside⟩
    · intro before entry rest same q member
      change s.items ++ [(key r, a)] = before ++ entry :: rest at same
      obtain rfl | ⟨rest', last, rfl⟩ := List.eq_nil_or_concat rest
      · obtain ⟨rfl, single⟩ := List.append_inj' same rfl
        obtain ⟨rfl, _⟩ := List.cons_eq_cons.mp single
        exact settled.finished _ (below q member)
      · rw [List.concat_eq_append, ← List.cons_append, ← List.append_assoc] at same
        obtain ⟨init, _⟩ := List.append_inj' same rfl
        exact settled.ordered.after before entry rest' init q member
  listed := by
    intro k member
    change k ∈ (s.items ++ [(key r, a)]).map Prod.fst at member
    rw [List.map_append, List.mem_append] at member
    obtain old | new := member
    · exact List.mem_cons_of_mem _ (settled.listed k old)
    · rw [List.map_singleton, List.mem_singleton] at new
      exact new ▸ List.mem_cons_self
  finished := by
    intro k member
    change k ∈ (s.items ++ [(key r, a)]).map Prod.fst ∨ _
    rw [List.map_append, List.mem_append]
    obtain rfl | old := List.mem_cons.mp member
    · exact .inl (.inr (by simp))
    · exact (settled.finished k old).imp_left .inl

/-- A listed key leads only to keys listed before it and to keys that lead nowhere. -/
theorem Ordered.edge {items : List (K × A)} (ordered : Ordered key opened children items)
    (consistent : Consistent key opened) {before rest : List (K × A)} {entry : K × A}
    (split : items = before ++ entry :: rest) {k : K} (edge : Edge key opened children entry.1 k) :
    k ∈ before.map Prod.fst ∨ Outside key opened k := by
  obtain ⟨q, a, same, inside, child, listed, rfl⟩ := edge
  have member : entry ∈ items := split ▸ List.mem_append_right _ List.mem_cons_self
  obtain ⟨r, known, opens⟩ := ordered.opens entry member
  obtain rfl : a = entry.2 := by
    have equal := consistent r q _ _ (same.trans known.symm) opens inside
    simpa using equal.symm
  exact ordered.after before entry rest split child listed

/-- Only what is inside has references. -/
theorem Edge.not_outside {k k' : K} (edge : Edge key opened children k k')
    (consistent : Consistent key opened) : ¬ Outside key opened k := by
  rintro ⟨r, same, outside⟩
  obtain ⟨q, a, same', inside, _⟩ := edge
  have equal := consistent r q _ _ (same'.trans same.symm) outside inside
  cases equal

/-- What a listed key leads to is listed, or leads nowhere. -/
theorem Ordered.closed {items : List (K × A)} (ordered : Ordered key opened children items)
    (consistent : Consistent key opened) {k k' : K} (listed : k ∈ items.map Prod.fst)
    (edge : Edge key opened children k k') :
    k' ∈ items.map Prod.fst ∨ Outside key opened k' := by
  obtain ⟨entry, member, rfl⟩ := List.mem_map.mp listed
  obtain ⟨before, rest, split⟩ := List.append_of_mem member
  refine (ordered.edge consistent split edge).imp_left fun earlier => ?_
  rw [split, List.map_append]
  exact List.mem_append_left _ earlier

/-- Everything a listed key leads to is listed, or leads nowhere. -/
theorem Ordered.reaches {items : List (K × A)} (ordered : Ordered key opened children items)
    (consistent : Consistent key opened) {k k' : K}
    (start : k ∈ items.map Prod.fst ∨ Outside key opened k)
    (leads : ReflTransGen (Edge key opened children) k k') :
    k' ∈ items.map Prod.fst ∨ Outside key opened k' := by
  induction leads with
  | refl => exact start
  | tail _ edge ih =>
      obtain listed | outside := ih
      · exact ordered.closed consistent listed edge
      · exact absurd outside (edge.not_outside consistent)

/-- No listed key leads back to itself. -/
theorem Ordered.acyclic {items : List (K × A)} (ordered : Ordered key opened children items)
    (consistent : Consistent key opened) {k : K} (listed : k ∈ items.map Prod.fst) :
    ¬ TransGen (Edge key opened children) k k := by
  -- What a key leads to and is listed at all is listed before it.
  have earlier : ∀ {before rest entry} {k' : K}, items = before ++ entry :: rest →
      TransGen (Edge key opened children) entry.1 k' →
        k' ∈ before.map Prod.fst ∨ Outside key opened k' := by
    intro before rest entry k' split leads
    induction leads with
    | single edge => exact ordered.edge consistent split edge
    | tail _ edge ih =>
        obtain known | outside := ih
        · obtain ⟨entry', member, rfl⟩ := List.mem_map.mp known
          obtain ⟨before', rest', split'⟩ := List.append_of_mem member
          rw [split', List.append_assoc, List.cons_append] at split
          refine (ordered.edge consistent split edge).imp_left fun first => ?_
          rw [split', List.map_append]
          exact List.mem_append_left _ first
        · exact absurd outside (edge.not_outside consistent)
  intro cycle
  obtain ⟨entry, member, rfl⟩ := List.mem_map.mp listed
  obtain ⟨before, rest, split⟩ := List.append_of_mem member
  obtain known | outside := earlier split cycle
  · have distinct := ordered.distinct
    rw [split, List.map_append, List.map_cons] at distinct
    exact (List.nodup_append.mp distinct).2.2 _ known _ List.mem_cons_self rfl
  · obtain ⟨_, edge, _⟩ := TransGen.head'_iff.mp cycle
    exact edge.not_outside consistent outside

variable [DecidableEq K]

/-- A walk that is done settles its reference and all it leads to, and lists no others. -/
theorem walk_settles (consistent : Consistent key opened)
    (done : walk key opened children steps [] r {} = .done s') :
    Settled key opened children s' ∧ key r ∈ s'.finished ∧
      ∀ k ∈ s'.items.map Prod.fst, ReflTransGen (Edge key opened children) (key r) k := by
  have solid : PathInside key opened [] := fun _ onPath => by simp at onPath
  have kept : Settled key opened children s' ∧
      ∀ k ∈ s'.items.map Prod.fst, ReflTransGen (Edge key opened children) (key r) k := by
    refine walk_preserves (I := fun s => Settled key opened children s ∧
        ∀ k ∈ s.items.map Prod.fst, ReflTransGen (Edge key opened children) (key r) k)
      (Q := fun q => ReflTransGen (Edge key opened children) (key r) (key q))
      consistent solid ?_ ?_ ?_ .refl ⟨.start, by simp⟩ done
    · exact fun q a leads inside child listed => leads.tail ⟨q, a, rfl, inside, child, listed, rfl⟩
    · exact fun q s _ outside _ holds => ⟨holds.1.skip outside, holds.2⟩
    · intro q a s leads inside fresh below holds
      refine ⟨holds.1.close inside fresh below, fun k member => ?_⟩
      change k ∈ (s.items ++ [(key q, a)]).map Prod.fst at member
      rw [List.map_append, List.mem_append, List.map_singleton, List.mem_singleton] at member
      obtain old | rfl := member
      · exact holds.2 k old
      · exact leads
  exact ⟨kept.1, (walk_extends consistent solid done).2, kept.2⟩

/-- A search whose walk comes back does not end. -/
theorem visit_of_back (consistent : Consistent key opened)
    (back : walk key opened children steps [] r s = .failed none) (steps' : Nat) :
    visit key opened children steps' r s = .unfinished :=
  visit_of_walk_back consistent
    (show PathInside key opened [] from fun _ onPath => by simp at onPath) trivial back steps'

/-- A search that is done is a walk that is done, given steps for all keys. -/
theorem walk_of_visit {keys : List K} (consistent : Consistent key opened)
    (bounded : Bounded key opened keys) (done : visit key opened children steps r s = .done s') :
    walk key opened children keys.length [] r s = .done s' := by
  have mirrored : Mirrors (walk key opened children keys.length [] r s)
      (visit key opened children keys.length r s) := walk_mirrors _ _ _ _
  have same : ∀ outcome, outcome ≠ .unfinished →
      visit key opened children keys.length r s = outcome → outcome = .done s' := by
    rintro outcome ended rfl
    rw [← done]
    exact visit_unique ended (by rw [done]; simp)
  cases outcome : walk key opened children keys.length [] r s with
  | unfinished =>
      exact absurd outcome (walk_ends bounded List.nodup_nil (List.nil_subset _) (by simp))
  | done t =>
      cases same _ (by simp) (mirrored.1 t outcome)
      rfl
  | failed e =>
      cases e with
      | some e => cases same _ (by simp) (mirrored.2 e outcome)
      | none =>
          have stuck := visit_of_back consistent outcome steps
          rw [done] at stuck
          cases stuck

/-- A search keeps what is finished and what is listed in step. -/
theorem settled_of_visit {keys : List K} (consistent : Consistent key opened)
    (bounded : Bounded key opened keys) (settled : Settled key opened children s)
    (done : visit key opened children steps r s = .done s') : Settled key opened children s' := by
  refine walk_preserves (I := Settled key opened children) (Q := fun _ => True) consistent
    (fun _ onPath => by simp at onPath) ?_ ?_ ?_ trivial settled
    (walk_of_visit consistent bounded done)
  · exact fun _ _ _ _ _ _ => trivial
  · exact fun _ _ _ outside _ holds => holds.skip outside
  · exact fun _ _ _ _ inside fresh below holds => holds.close inside fresh below

/-- Where the walk comes back to a reference there is a cycle. -/
theorem cycle_of_walk_back (onto : ∀ p ∈ path, TransGen (Edge key opened children) (key p) (key r))
    (back : walk key opened children steps path r s = .failed none) :
    ∃ k, ReflTransGen (Edge key opened children) (key r) k ∧
      TransGen (Edge key opened children) k k := by
  induction steps generalizing r s path with
  | zero =>
      obtain known | ⟨fresh, ⟨e, error⟩ | outside | ⟨a, inside⟩⟩ := reference_cases key opened r s
      · simp [walk_finished known] at back
      · simp [walk_error fresh error] at back
      · simp [walk_outside fresh outside] at back
      · by_cases onPath : key r ∈ path.map key
        · obtain ⟨p, member, same⟩ := List.mem_map.mp onPath
          exact ⟨key r, .refl, same ▸ onto p member⟩
        · simp [walk_zero fresh inside onPath] at back
  | succ steps ih =>
      obtain known | ⟨fresh, ⟨e, error⟩ | outside | ⟨a, inside⟩⟩ := reference_cases key opened r s
      · simp [walk_finished known] at back
      · simp [walk_error fresh error] at back
      · simp [walk_outside fresh outside] at back
      · by_cases onPath : key r ∈ path.map key
        · obtain ⟨p, member, same⟩ := List.mem_map.mp onPath
          exact ⟨key r, .refl, same ▸ onto p member⟩
        · rw [walk_inside fresh inside onPath] at back
          obtain ⟨q, t, listed, here⟩ := stop_of_bind_failed back
          have edge : Edge key opened children (key r) (key q) :=
            ⟨r, a, rfl, inside, q, listed, rfl⟩
          have onto' : ∀ p ∈ r :: path, TransGen (Edge key opened children) (key p) (key q) := by
            intro p member
            obtain rfl | later := List.mem_cons.mp member
            · exact .single edge
            · exact (onto p later).tail edge
          obtain ⟨k, leads, cycle⟩ := ih onto' here
          exact ⟨k, leads.head edge, cycle⟩

/-- The error of a walk is that of a reference it was led to. -/
theorem error_of_walk {e : E} {Q : R → Prop}
    (below : ∀ r a, Q r → opened r = .ok (some a) → ∀ q ∈ children a, Q q) (start : Q r)
    (failed : walk key opened children steps path r s = .failed (some e)) :
    ∃ q, Q q ∧ opened q = .error e := by
  induction steps generalizing r s path with
  | zero =>
      obtain known | ⟨fresh, ⟨e', error⟩ | outside | ⟨a, inside⟩⟩ := reference_cases key opened r s
      · simp [walk_finished known] at failed
      · simp only [walk_error fresh error, Outcome.failed.injEq, Option.some.injEq] at failed
        exact ⟨r, start, failed ▸ error⟩
      · simp [walk_outside fresh outside] at failed
      · by_cases onPath : key r ∈ path.map key
        · simp [walk_back fresh inside onPath] at failed
        · simp [walk_zero fresh inside onPath] at failed
  | succ steps ih =>
      obtain known | ⟨fresh, ⟨e', error⟩ | outside | ⟨a, inside⟩⟩ := reference_cases key opened r s
      · simp [walk_finished known] at failed
      · simp only [walk_error fresh error, Outcome.failed.injEq, Option.some.injEq] at failed
        exact ⟨r, start, failed ▸ error⟩
      · simp [walk_outside fresh outside] at failed
      · by_cases onPath : key r ∈ path.map key
        · simp [walk_back fresh inside onPath] at failed
        · rw [walk_inside fresh inside onPath] at failed
          obtain ⟨q, t, listed, here⟩ := stop_of_bind_failed failed
          exact ih (below r a start inside q listed) here

end Order

end Flow
