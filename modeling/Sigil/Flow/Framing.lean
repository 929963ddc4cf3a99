import Mathlib

/-!
# Reading concatenations back

When a text written as one concatenation has only one reading: words that end at a
separator, codes that can be told from what follows them, and pairs of words whose second
half runs into the next pair.
-/

namespace Flow

variable {α ι : Type*}

/-- A word ends at the first letter that no word has. -/
theorem word_inj {I : α → Prop} {u v s t : List α} {d e : α} (hu : ∀ x ∈ u, I x)
    (hv : ∀ x ∈ v, I x) (hd : ¬ I d) (he : ¬ I e) :
    u ++ d :: s = v ++ e :: t ↔ u = v ∧ d = e ∧ s = t := by
  refine ⟨fun same => ?_, by rintro ⟨rfl, rfl, rfl⟩; rfl⟩
  induction u generalizing v with
  | nil =>
      cases v with
      | nil => exact ⟨rfl, List.cons_eq_cons.mp same⟩
      | cons x v =>
          obtain ⟨rfl, _⟩ := List.cons_eq_cons.mp same
          exact absurd (hv d List.mem_cons_self) hd
  | cons x u ih =>
      cases v with
      | nil =>
          obtain ⟨rfl, _⟩ := List.cons_eq_cons.mp same
          exact absurd (hu x List.mem_cons_self) he
      | cons y v =>
          obtain ⟨rfl, tails⟩ := List.cons_eq_cons.mp same
          obtain ⟨rfl, rest⟩ := ih (fun z later => hu z (List.mem_cons_of_mem _ later))
            (fun z later => hv z (List.mem_cons_of_mem _ later)) tails
          exact ⟨rfl, rest⟩

/-- Codes that can be read off the front of a text and told from an end mark. -/
structure Framed (P : ι → Prop) (code : ι → List α) (mark : List α) : Prop where
  read : ∀ i j s t, P i → P j → code i ++ s = code j ++ t → i = j ∧ s = t
  ends : ∀ i s t, P i → code i ++ s ≠ mark ++ t

/-- Framed codes up to the end mark have one reading. -/
theorem Framed.flatMap_inj {P : ι → Prop} {code : ι → List α} {mark : List α}
    (framed : Framed P code mark) {xs ys : List ι} {s t : List α} (hx : ∀ x ∈ xs, P x)
    (hy : ∀ y ∈ ys, P y) :
    xs.flatMap code ++ (mark ++ s) = ys.flatMap code ++ (mark ++ t) ↔ xs = ys ∧ s = t := by
  refine ⟨fun same => ?_, by rintro ⟨rfl, rfl⟩; rfl⟩
  induction xs generalizing ys with
  | nil =>
      cases ys with
      | nil => exact ⟨rfl, List.append_cancel_left same⟩
      | cons y ys =>
          rw [List.flatMap_cons, List.append_assoc] at same
          exact absurd same.symm (framed.ends y _ _ (hy y List.mem_cons_self))
  | cons x xs ih =>
      obtain ⟨here, later⟩ := List.forall_mem_cons.mp hx
      rw [List.flatMap_cons, List.append_assoc] at same
      cases ys with
      | nil => exact absurd same (framed.ends x _ _ here)
      | cons y ys =>
          obtain ⟨here', later'⟩ := List.forall_mem_cons.mp hy
          rw [List.flatMap_cons, List.append_assoc] at same
          obtain ⟨rfl, tails⟩ := framed.read x y _ _ here here' same
          obtain ⟨rfl, rest⟩ := ih later later' tails
          exact ⟨rfl, rest⟩

/-- What stands between the separators when pairs are written one after the other and only
the halves of a pair are separated: the first half, each second half with the first half
after it, and the last second half. -/
def joints (pending : List α) : List (List α × List α) → List (List α)
  | [] => [pending]
  | (first, second) :: rest => (pending ++ first) :: joints second rest

/-- Joints of pairs whose letters are coded apart. -/
theorem joints_map {β : Type*} {f : List α → List β} (append : ∀ u v, f (u ++ v) = f u ++ f v)
    (pending : List α) (pairs : List (List α × List α)) :
    joints (f pending) (pairs.map fun p => (f p.1, f p.2)) = (joints pending pairs).map f := by
  induction pairs generalizing pending with
  | nil => rfl
  | cons p rest ih => simp [joints, append, ih]

/-- There is at least one joint. -/
theorem joints_ne_nil (pending : List α) (pairs : List (List α × List α)) :
    joints pending pairs ≠ [] := by
  cases pairs <;> simp [joints]

/-- A text of pairs up to a closing word tells what stands between the separators, and no
more. -/
theorem pairs_inj {I : α → Prop} {sep mark : α} (hsep : ¬ I sep) (hmark : ¬ I mark)
    (differ : sep ≠ mark) {closing s t pending pending' : List α}
    {pairs pairs' : List (List α × List α)}
    (inner : ∀ x ∈ pending, I x) (inner' : ∀ x ∈ pending', I x) (close : ∀ x ∈ closing, I x)
    (words : ∀ p ∈ pairs, (∀ x ∈ p.1, I x) ∧ ∀ x ∈ p.2, I x)
    (words' : ∀ p ∈ pairs', (∀ x ∈ p.1, I x) ∧ ∀ x ∈ p.2, I x) :
    pending ++ (pairs.flatMap (fun p => p.1 ++ sep :: p.2) ++ (closing ++ mark :: s)) =
        pending' ++ (pairs'.flatMap (fun p => p.1 ++ sep :: p.2) ++ (closing ++ mark :: t)) ↔
      joints pending pairs = joints pending' pairs' ∧ s = t := by
  have both : ∀ {u v : List α}, (∀ x ∈ u, I x) → (∀ x ∈ v, I x) → ∀ x ∈ u ++ v, I x := by
    intro u v hu hv x member
    exact (List.mem_append.mp member).elim (hu x) (hv x)
  induction pairs generalizing pairs' pending pending' with
  | nil =>
      cases pairs' with
      | nil =>
          have ends := word_inj (s := s) (t := t) (both inner close) (both inner' close) hmark hmark
          simpa [joints] using ends
      | cons p rest =>
          obtain ⟨⟨first, second⟩, later⟩ := List.forall_mem_cons.mp words'
          have ends := word_inj (s := s) (t := p.2 ++ (rest.flatMap (fun p => p.1 ++ sep :: p.2) ++
            (closing ++ mark :: t))) (both inner close) (both inner' first) hmark hsep
          have none := joints_ne_nil p.2 rest
          simpa [joints, differ.symm, none.symm] using ends
  | cons p rest ih =>
      obtain ⟨⟨first, second⟩, later⟩ := List.forall_mem_cons.mp words
      cases pairs' with
      | nil =>
          have ends := word_inj (s := p.2 ++ (rest.flatMap (fun p => p.1 ++ sep :: p.2) ++
            (closing ++ mark :: s))) (t := t) (both inner first) (both inner' close) hsep hmark
          have none := joints_ne_nil p.2 rest
          simpa [joints, differ, none] using ends
      | cons p' rest' =>
          obtain ⟨⟨first', second'⟩, later'⟩ := List.forall_mem_cons.mp words'
          have here := word_inj (s := p.2 ++ (rest.flatMap (fun p => p.1 ++ sep :: p.2) ++
              (closing ++ mark :: s))) (t := p'.2 ++ (rest'.flatMap (fun p => p.1 ++ sep :: p.2) ++
              (closing ++ mark :: t))) (both inner first) (both inner' first') hsep hsep
          have there := here.trans (and_congr_right fun _ => and_congr_right fun _ =>
            ih second second' later later')
          simpa [joints, and_assoc] using there

end Flow
