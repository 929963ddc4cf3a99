import Sigil.Cfg.Control

/-!
# Scopes of a flattened body

Every statement of `flattenScopes` lies in the SCOPEs that enclosed it. A SCOPE is named by the
indices that lead to it, the innermost first; its statements are one stretch of the flattened
body, and the frees of its END_SCOPE are the end of that stretch.
-/

namespace Sigil

/-- A statement of a flattened body, the SCOPE it stands in, and whether END_SCOPE brought it. -/
structure Spot where
  node : Node
  path : List Nat
  synthetic : Bool

mutual

/-- The statements of a flattened body with their SCOPEs. -/
def spotsIn (path : List Nat) (k : Nat) : List Node → List Spot
  | [] => []
  | node :: rest => spotsOf path k node ++ spotsIn path (k + 1) rest

/-- What one statement contributes. -/
def spotsOf (path : List Nat) (k : Nat) : Node → List Spot
  | .scope line inner =>
      spotsIn (k :: path) 0 inner ++
        (scopedAllocs inner).reverse.map fun name => ⟨.free line name, k :: path, true⟩
  | node => [⟨node, path, false⟩]

end

def spots (nodes : List Node) : List Spot := spotsIn [] 0 nodes

namespace Spot

variable {nodes : List Node} {path scope : List Nat} {k i : Nat} {spot : Spot}

/-- The SCOPE encloses the statement. -/
def Within (spot : Spot) (scope : List Nat) : Prop := scope <:+ spot.path

instance : Decidable (spot.Within scope) := by unfold Within; infer_instance

/-- A free that the END_SCOPE of this SCOPE brought. -/
def Closes (spot : Spot) (scope : List Nat) : Prop := spot.synthetic ∧ spot.path = scope

instance : Decidable (spot.Closes scope) := by unfold Closes; infer_instance

mutual

/-- The spots of a body spell its flat text. -/
theorem map_spotsIn (path : List Nat) (k : Nat) (nodes : List Node) :
    (spotsIn path k nodes).map Spot.node = flattenScopes nodes := by
  cases nodes with
  | nil => rfl
  | cons node rest =>
      rw [spotsIn, List.map_append, map_spotsOf path k node, map_spotsIn path (k + 1) rest,
        flattenScopes]

/-- The spots of a statement spell its flat text. -/
theorem map_spotsOf (path : List Nat) (k : Nat) (node : Node) :
    (spotsOf path k node).map Spot.node = flattenScope node := by
  cases node with
  | scope line inner =>
      rw [spotsOf, List.map_append, map_spotsIn (k :: path) 0 inner, List.map_map, flattenScope]
      rfl
  | _ => rfl

end

/-- The spots of a body are its flattening. -/
theorem map_spots (nodes : List Node) : (spots nodes).map Spot.node = flattenScopes nodes :=
  map_spotsIn [] 0 nodes

mutual

/-- A statement stands in the body at hand, or in a SCOPE of it that begins there or later. -/
theorem path_of_mem_spotsIn {path : List Nat} {k : Nat} {nodes : List Node} {spot : Spot}
    (member : spot ∈ spotsIn path k nodes) :
    (spot.path = path ∧ spot.synthetic = false) ∨ ∃ j, k ≤ j ∧ j :: path <:+ spot.path := by
  cases nodes with
  | nil => cases member
  | cons node rest =>
      rw [spotsIn] at member
      rcases List.mem_append.mp member with here | later
      · rcases path_of_mem_spotsOf here with same | inside
        · exact .inl same
        · exact .inr ⟨k, le_rfl, inside⟩
      · rcases path_of_mem_spotsIn later with same | ⟨j, after, inside⟩
        · exact .inl same
        · exact .inr ⟨j, Nat.le_of_succ_le after, inside⟩

/-- A spot is at the path of its statement or below. -/
theorem path_of_mem_spotsOf {path : List Nat} {k : Nat} {node : Node} {spot : Spot}
    (member : spot ∈ spotsOf path k node) :
    (spot.path = path ∧ spot.synthetic = false) ∨ k :: path <:+ spot.path := by
  cases node with
  | scope line inner =>
      rw [spotsOf] at member
      rcases List.mem_append.mp member with body | frees
      · rcases path_of_mem_spotsIn body with ⟨same, _⟩ | ⟨j, _, inside⟩
        · exact .inr (by rw [same])
        · exact .inr ((List.suffix_cons j _).trans inside)
      · obtain ⟨name, _, rfl⟩ := List.mem_map.mp frees
        exact .inr (List.suffix_refl _)
  | _ =>
      obtain rfl := List.mem_singleton.mp member
      exact .inl ⟨rfl, rfl⟩

end

mutual

/-- What END_SCOPE brings is a FREE. -/
theorem free_of_mem_spotsIn {path : List Nat} {k : Nat} {nodes : List Node} {spot : Spot}
    (member : spot ∈ spotsIn path k nodes) (synthetic : spot.synthetic) :
      ∃ line name, spot.node = .free line name := by
  cases nodes with
  | nil => cases member
  | cons node rest =>
      rw [spotsIn] at member
      rcases List.mem_append.mp member with here | later
      · exact free_of_mem_spotsOf here synthetic
      · exact free_of_mem_spotsIn later synthetic

/-- What the flattening adds are FREEs. -/
theorem free_of_mem_spotsOf {path : List Nat} {k : Nat} {node : Node} {spot : Spot}
    (member : spot ∈ spotsOf path k node) (synthetic : spot.synthetic) :
      ∃ line name, spot.node = .free line name := by
  cases node with
  | scope line inner =>
      rw [spotsOf] at member
      rcases List.mem_append.mp member with body | frees
      · exact free_of_mem_spotsIn body synthetic
      · obtain ⟨name, _, rfl⟩ := List.mem_map.mp frees
        exact ⟨line, name, rfl⟩
  | _ =>
      obtain rfl := List.mem_singleton.mp member
      cases synthetic

end

end Spot

/-- A stretch of a flattened body: the statements of a SCOPE from `first` on, the frees of its
END_SCOPE from `closing` on, and `past` behind them. -/
structure Stretch (all : List Spot) (scope : List Nat) (first closing past : Nat) : Prop where
  first_le : first ≤ closing
  closing_le : closing ≤ past
  past_le : past ≤ all.length
  within_iff : ∀ {i spot}, all[i]? = some spot → (spot.Within scope ↔ first ≤ i ∧ i < past)
  closes_iff : ∀ {i spot}, all[i]? = some spot → (spot.Closes scope ↔ closing ≤ i ∧ i < past)

namespace Stretch

variable {scope : List Nat} {first closing past : Nat} {front all back : List Spot}

/-- The FREEs of a SCOPE are in it. -/
theorem within_of_closes {spot : Spot} (closes : spot.Closes scope) : spot.Within scope := by
  obtain ⟨_, rfl⟩ := closes
  exact List.suffix_refl _

/-- Nothing stands in the SCOPE. -/
theorem empty (none_ : ∀ spot ∈ all, ¬ spot.Within scope) : Stretch all scope 0 0 0 where
  first_le := le_rfl
  closing_le := le_rfl
  past_le := Nat.zero_le _
  within_iff here := iff_of_false (none_ _ (List.mem_of_getElem? here)) (by omega)
  closes_iff here :=
    iff_of_false (fun closes => none_ _ (List.mem_of_getElem? here) (within_of_closes closes))
    (by omega)

/-- A stretch behind more text. -/
theorem append_front (none_ : ∀ spot ∈ front, ¬ spot.Within scope)
    (stretch : Stretch all scope first closing past) :
    Stretch (front ++ all) scope (front.length + first) (front.length + closing)
      (front.length + past) where
  first_le := Nat.add_le_add_left stretch.first_le _
  closing_le := Nat.add_le_add_left stretch.closing_le _
  past_le := by
    rw [List.length_append]
    exact Nat.add_le_add_left stretch.past_le _
  within_iff {i spot} here := by
    rcases Nat.lt_or_ge i front.length with before | after
    · rw [List.getElem?_append_left before] at here
      exact iff_of_false (none_ _ (List.mem_of_getElem? here)) (by omega)
    · rw [List.getElem?_append_right after] at here
      rw [stretch.within_iff here]
      omega
  closes_iff {i spot} here := by
    rcases Nat.lt_or_ge i front.length with before | after
    · rw [List.getElem?_append_left before] at here
      exact iff_of_false (fun closes => none_ _ (List.mem_of_getElem? here)
        (within_of_closes closes)) (by omega)
    · rw [List.getElem?_append_right after] at here
      rw [stretch.closes_iff here]
      omega

/-- A stretch in front of more text. -/
theorem append_back (none_ : ∀ spot ∈ back, ¬ spot.Within scope)
    (stretch : Stretch all scope first closing past) :
    Stretch (all ++ back) scope first closing past where
  first_le := stretch.first_le
  closing_le := stretch.closing_le
  past_le := by
    rw [List.length_append]
    exact stretch.past_le.trans (Nat.le_add_right _ _)
  within_iff {i spot} here := by
    rcases Nat.lt_or_ge i all.length with before | after
    · rw [List.getElem?_append_left before] at here
      exact stretch.within_iff here
    · rw [List.getElem?_append_right after] at here
      have most := stretch.past_le
      exact iff_of_false (none_ _ (List.mem_of_getElem? here)) (by omega)
  closes_iff {i spot} here := by
    rcases Nat.lt_or_ge i all.length with before | after
    · rw [List.getElem?_append_left before] at here
      exact stretch.closes_iff here
    · rw [List.getElem?_append_right after] at here
      have most := stretch.past_le
      exact iff_of_false (fun closes => none_ _ (List.mem_of_getElem? here)
        (within_of_closes closes)) (by omega)

/-- The body of a SCOPE and the frees of its END_SCOPE. -/
theorem whole {frees : List Spot} (inside : ∀ spot ∈ all, spot.Within scope ∧ ¬ spot.Closes scope)
    (closes : ∀ spot ∈ frees, spot.Closes scope) :
    Stretch (all ++ frees) scope 0 all.length (all.length + frees.length) where
  first_le := Nat.zero_le _
  closing_le := Nat.le_add_right _ _
  past_le := by rw [List.length_append]
  within_iff {i spot} here := by
    have short := (List.getElem?_eq_some_iff.mp here).1
    rw [List.length_append] at short
    refine iff_of_true ?_ ⟨Nat.zero_le _, short⟩
    rcases List.mem_append.mp (List.mem_of_getElem? here) with body | free
    · exact (inside spot body).1
    · exact within_of_closes (closes spot free)
  closes_iff {i spot} here := by
    have short := (List.getElem?_eq_some_iff.mp here).1
    rw [List.length_append] at short
    rcases Nat.lt_or_ge i all.length with before | after
    · rw [List.getElem?_append_left before] at here
      exact iff_of_false (inside spot (List.mem_of_getElem? here)).2 (by omega)
    · rw [List.getElem?_append_right after] at here
      exact iff_of_true (closes spot (List.mem_of_getElem? here)) ⟨after, short⟩

/-- A path goes through one index at each depth. -/
theorem index_unique {path long : List Nat} {j k : Nat} (left : j :: path <:+ long)
    (right : k :: path <:+ long) :
    j = k := by
  have same := (List.suffix_of_suffix_length_le left right (by simp)).eq_of_length (by simp)
  exact (List.cons.inj same).1

/-- A path is not below itself. -/
theorem not_cons_suffix {path : List Nat} {j : Nat} : ¬ j :: path <:+ path := fun longer => by
  have short := longer.length_le
  rw [List.length_cons] at short
  omega

mutual

/-- A SCOPE inside a body is a stretch of its flattening. -/
theorem exists_in (path : List Nat) (k : Nat) (nodes : List Node) {scope : List Nat}
    (proper : ∃ j, j :: path <:+ scope) :
    ∃ first closing past, Stretch (spotsIn path k nodes) scope first closing past := by
  cases nodes with
  | nil => exact ⟨0, 0, 0, .empty fun _ member => by cases member⟩
  | cons node rest =>
      obtain ⟨j, inside⟩ := proper
      rw [spotsIn]
      by_cases here : j = k
      · subst here
        obtain ⟨first, closing, past, stretch⟩ := exists_of path j node inside
        refine ⟨first, closing, past, stretch.append_back fun spot member within => ?_⟩
        have through := inside.trans within
        rcases Spot.path_of_mem_spotsIn member with ⟨same, _⟩ | ⟨j', after, other⟩
        · exact not_cons_suffix (same ▸ through)
        · exact absurd (index_unique through other) (by omega)
      · obtain ⟨first, closing, past, stretch⟩ := exists_in path (k + 1) rest ⟨j, inside⟩
        refine ⟨_, _, _, stretch.append_front fun spot member within => ?_⟩
        have through := inside.trans within
        rcases Spot.path_of_mem_spotsOf member with ⟨same, _⟩ | other
        · exact not_cons_suffix (same ▸ through)
        · exact here (index_unique through other)

/-- The statements of a SCOPE are one stretch of the text. -/
theorem exists_of (path : List Nat) (k : Nat) (node : Node) {scope : List Nat}
    (inside : k :: path <:+ scope) :
    ∃ first closing past, Stretch (spotsOf path k node) scope first closing past := by
  cases node with
  | scope line inner =>
      rw [spotsOf]
      by_cases this : scope = k :: path
      · subst this
        refine ⟨_, _, _, .whole (fun spot member => ?_) fun spot member => ?_⟩
        · rcases Spot.path_of_mem_spotsIn member with ⟨same, plain⟩ | ⟨j, _, deeper⟩
          · refine ⟨by rw [Spot.Within, same], fun closes => ?_⟩
            exact absurd (plain.symm.trans closes.1) (by decide)
          · refine ⟨(List.suffix_cons j _).trans deeper, fun closes => ?_⟩
            rw [closes.2] at deeper
            exact not_cons_suffix deeper
        · obtain ⟨name, _, rfl⟩ := List.mem_map.mp member
          exact ⟨rfl, rfl⟩
      · have deeper : ∃ j, j :: k :: path <:+ scope := by
          obtain ⟨front, rfl⟩ := inside
          rcases List.eq_nil_or_concat front with rfl | ⟨front, j, rfl⟩
          · exact absurd rfl this
          · exact ⟨j, front, by simp⟩
        obtain ⟨first, closing, past, stretch⟩ := exists_in (k :: path) 0 inner deeper
        refine ⟨first, closing, past, stretch.append_back fun spot member within => ?_⟩
        obtain ⟨name, _, rfl⟩ := List.mem_map.mp member
        obtain ⟨j, through⟩ := deeper
        exact not_cons_suffix (through.trans within)
  | _ =>
      refine ⟨0, 0, 0, .empty fun spot member within => ?_⟩
      obtain rfl := List.mem_singleton.mp member
      exact not_cons_suffix (inside.trans within)

end

/-- Every SCOPE of a body is a stretch of its flattening. -/
theorem exists_spots (nodes : List Node) {scope : List Nat} (proper : scope ≠ []) :
    ∃ first closing past, Stretch (spots nodes) scope first closing past := by
  refine exists_in [] 0 nodes ?_
  rcases List.eq_nil_or_concat scope with rfl | ⟨front, j, rfl⟩
  · exact absurd rfl proper
  · exact ⟨j, front, by simp⟩

end Stretch

end Sigil
