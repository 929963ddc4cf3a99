import Mathlib

/-!
# Texts cut at a separator

The pieces of a list between the occurrencesOf of a separator, found from left to right without
overlap.
-/

namespace Flow

variable {α : Type*} [DecidableEq α] {sep new xs rest piece : List α} {pieces : List (List α)}
  {x : α}

/-- The pieces between the leftmost occurrencesOf of a separator that do not overlap. -/
def piecesOf (sep : List α) : List α → List (List α)
  | [] => [[]]
  | x :: xs =>
      if sep ≠ [] ∧ sep <+: x :: xs then [] :: piecesOf sep ((x :: xs).drop sep.length)
      else (piecesOf sep xs).modifyHead (x :: ·)
termination_by xs => xs.length
decreasing_by
  · rename_i found
    have positive := List.length_pos_iff.mpr found.1
    simp only [List.length_drop, List.length_cons]
    omega
  · simp

/-- How often a separator occurs without overlap. -/
def occurrencesOf (sep xs : List α) : Nat := (piecesOf sep xs).length - 1

/-- Nothing is one empty piece. -/
theorem piecesOf_nil : piecesOf sep [] = [[]] := by rw [piecesOf]

/-- A separator ends a piece. -/
theorem piecesOf_found (some_ : sep ≠ []) :
    piecesOf sep (sep ++ rest) = [] :: piecesOf sep rest := by
  obtain _ | ⟨x, xs⟩ := sep
  · exact absurd rfl some_
  · rw [List.cons_append, piecesOf, if_pos ⟨some_, List.prefix_append (x :: xs) rest⟩,
      ← List.cons_append,
      List.drop_left]

/-- Anything else goes on with it. -/
theorem piecesOf_other (other : ¬ (sep ≠ [] ∧ sep <+: x :: xs)) :
    piecesOf sep (x :: xs) = (piecesOf sep xs).modifyHead (x :: ·) := by rw [piecesOf, if_neg other]

/-- There is at least one piece. -/
theorem piecesOf_ne_nil : piecesOf sep xs ≠ [] := by
  induction xs using piecesOf.induct sep with
  | case1 => rw [piecesOf_nil]; exact List.cons_ne_nil _ _
  | case2 x xs found ih => rw [piecesOf, if_pos found]; exact List.cons_ne_nil _ _
  | case3 x xs other ih =>
      rw [piecesOf_other other]
      exact fun none_ => ih (by simpa using none_)

/-- There is a first piece. -/
theorem exists_piecesOf : ∃ piece pieces, piecesOf sep xs = piece :: pieces :=
    List.exists_cons_of_ne_nil piecesOf_ne_nil

omit [DecidableEq α] in
/-- A longer first piece makes a longer text. -/
theorem intercalate_cons_head : sep.intercalate ((x :: piece) :: pieces) =
    x :: sep.intercalate (piece :: pieces) := by
  cases pieces with
  | nil => simp
  | cons next pieces => rw [List.intercalate_cons_cons, List.intercalate_cons_cons]; rfl

/-- The pieces with the separator between them are the list again. -/
theorem intercalate_piecesOf : sep.intercalate (piecesOf sep xs) = xs := by
  induction xs using piecesOf.induct sep with
  | case1 => rw [piecesOf_nil]; rfl
  | case2 x xs found ih =>
      obtain ⟨rest, whole⟩ := found.2
      obtain ⟨piece, pieces, cut⟩ := @exists_piecesOf _ _ sep rest
      rw [← whole, List.drop_left, cut] at ih
      rw [← whole, piecesOf_found found.1, cut, List.intercalate_cons_cons, ih]
      rfl
  | case3 x xs other ih =>
      obtain ⟨piece, pieces, cut⟩ := @exists_piecesOf _ _ sep xs
      rw [cut] at ih
      rw [piecesOf_other other, cut, List.modifyHead_cons, intercalate_cons_head, ih]

/-- The first piece starts the list. -/
theorem head_piecesOf (cut : piecesOf sep xs = piece :: pieces) : piece <+: xs := by
  have whole := @intercalate_piecesOf _ _ sep xs
  rw [cut] at whole
  rw [← whole]
  cases pieces with
  | nil => simp
  | cons next pieces =>
      rw [List.intercalate_cons_cons, List.append_assoc]; exact List.prefix_append _ _

/-- No piece has the separator in it. -/
theorem not_infix_piecesOf (some_ : sep ≠ []) : ∀ piece ∈ piecesOf sep xs, ¬ sep <:+: piece := by
  induction xs using piecesOf.induct sep with
  | case1 =>
      intro piece mem
      rw [piecesOf_nil, List.mem_singleton] at mem
      rwa [mem, List.infix_nil]
  | case2 x xs found ih =>
      intro piece mem
      rw [piecesOf, if_pos found] at mem
      obtain rfl | later := List.mem_cons.mp mem
      · rwa [List.infix_nil]
      · exact ih piece later
  | case3 x xs other ih =>
      intro piece mem
      obtain ⟨head, pieces, cut⟩ := @exists_piecesOf _ _ sep xs
      rw [piecesOf_other other, cut, List.modifyHead_cons] at mem
      rw [cut] at ih
      obtain rfl | later := List.mem_cons.mp mem
      · rintro inside
        obtain starts | inside := List.infix_cons_iff.mp inside
        · exact other ⟨some_, starts.trans ((List.prefix_cons_inj x).mpr (head_piecesOf cut))⟩
        · exact ih head List.mem_cons_self inside
      · exact ih piece (List.mem_cons_of_mem _ later)

/-- A list with another one in the place of every occurrence of a separator. -/
def substitute (sep new xs : List α) : List α := new.intercalate (piecesOf sep xs)

/-- Nothing is replaced in nothing. -/
theorem substitute_nil : substitute sep new [] = [] := by
  rw [substitute, piecesOf_nil]
  rfl

/-- An occurrence is replaced. -/
theorem substitute_found (some_ : sep ≠ []) :
    substitute sep new (sep ++ rest) = new ++ substitute sep new rest := by
  obtain ⟨piece, pieces, cut⟩ := @exists_piecesOf _ _ sep rest
  rw [substitute, substitute, piecesOf_found some_, cut, List.intercalate_cons_cons]
  rfl

/-- Anything else is kept. -/
theorem substitute_other (other : ¬ (sep ≠ [] ∧ sep <+: x :: xs)) :
    substitute sep new (x :: xs) = x :: substitute sep new xs := by
  obtain ⟨piece, pieces, cut⟩ := @exists_piecesOf _ _ sep xs
  rw [substitute, substitute, piecesOf_other other, cut, List.modifyHead_cons,
    intercalate_cons_head]

/-- Nothing is replaced for no separator. -/
theorem substitute_empty : substitute [] new xs = xs := by
  induction xs with
  | nil => exact substitute_nil
  | cons x xs ih => rw [substitute_other (fun found => found.1 rfl), ih]

end Flow
