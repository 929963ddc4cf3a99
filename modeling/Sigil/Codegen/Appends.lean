import Sigil.Codegen.Grows

/-!
# Code appended to one block

The builder appends to the block at the insertion point. A step that does nothing else
is described by the items it appends.
-/

namespace Sigil

open Flow

/-- The items at the insertion point of `s` that `t` has and `s` does not. -/
def CodeGen.codeTo (s t : CodeGen) : List Item :=
  (t.items s.current).drop (s.items s.current).length

/-- `t` is `s` with some items appended at its insertion point. -/
structure Appends (s t : CodeGen) (code : List Item) : Prop where
  current : t.current = s.current
  blocks : t.blocks.length = s.blocks.length
  items : ∀ b, t.items b = if b = s.current then s.items b ++ code else s.items b

namespace Appends

variable {s t u : CodeGen} {code rest : List Item}

/-- Nothing is appended. -/
theorem refl (s : CodeGen) : Appends s s [] where
  current := rfl
  blocks := rfl
  items b := by simp

/-- Code is appended one after the other. -/
theorem trans (first : Appends s t code) (second : Appends t u rest) :
    Appends s u (code ++ rest) where
  current := second.current.trans first.current
  blocks := second.blocks.trans first.blocks
  items b := by
    rw [second.items, first.items, first.current]
    split <;> simp

/-- A built instruction is appended to the current block. -/
theorem built (s : CodeGen) (i : Instr) (inRange : s.current < s.blocks.length) :
    Appends s (s.built i) [if i.folds then .folded s.nextId i else .instr s.nextId i] where
  current := rfl
  blocks := by simp [CodeGen.built, CodeGen.fresh, CodeGen.push]
  items b := s.items_push inRange

/-- The items go to the insertion point. -/
theorem here (appends : Appends s t code) : t.items s.current = s.items s.current ++ code := by
  rw [appends.items, if_pos rfl]

/-- What was appended is the code between the two states. -/
theorem codeTo (appends : Appends s t code) : s.codeTo t = code := by
  rw [CodeGen.codeTo, appends.here, List.drop_left]

/-- The insertion point stays in a block. -/
theorem inRange (appends : Appends s t code) (inRange : s.current < s.blocks.length) :
    t.current < t.blocks.length := by
  rw [appends.current, appends.blocks]
  exact inRange

end Appends

end Sigil
