import Sigil.Cfg.Scopes
import Sigil.Semantic.Lifetime

/-!
# The frees of END_SCOPE

A handle is known by the step that allocates it. When control leaves a SCOPE, the handles that
were allocated in it and not freed since are freed; the flattened body frees what some names
stand for, on the way through END_SCOPE.
-/

namespace Sigil

/-- What names stand for after a statement. -/
def Node.rebinds (step : Nat) (stands : String → Option Nat) : Node → String → Option Nat
  | assignment _ target (.alloc _ _ _) => Function.update stands target (some step)
  | assignment _ target (.var source) => Function.update stands target (stands source)
  | set _ target (.var source) =>
      if (stands target).isSome then stands else Function.update stands target (stands source)
  | node => fun name => if name ∈ node.assigned then none else stands name

section Run

variable (nodes : List Node) (run : List Nat)

/-- The statement where control stands after some steps. -/
def spotAt (step : Nat) : Option Spot := run[step]?.bind fun i => (spots nodes)[i]?

/-- The handle that a name stands for after some steps. -/
def standsFor : Nat → String → Option Nat
  | 0 => fun _ => none
  | step + 1 => match spotAt nodes run step with
    | some spot => spot.node.rebinds step (standsFor step)
    | none => standsFor step

def InScope (scope : List Nat) (step : Nat) : Prop :=
  ∃ spot, spotAt nodes run step = some spot ∧ spot.Within scope

/-- Control leaves the SCOPE with a step. -/
structure Exits (scope : List Nat) (step : Nat) : Prop where
  within : InScope nodes run scope step
  taken : step + 1 < run.length
  outside : ¬ InScope nodes run scope (step + 1)

/-- The handle that a statement frees after some steps. -/
def Spot.freed? (step : Nat) (spot : Spot) : Option Nat :=
    spot.node.freed?.bind (standsFor nodes run step)

/-- A FREE frees the handle; `synthetic` tells whether END_SCOPE brought it. -/
def Frees (synthetic : Bool) (step handle : Nat) : Prop :=
  step + 1 < run.length ∧ ∃ spot, spotAt nodes run step = some spot ∧ spot.synthetic = synthetic ∧
    spot.freed? nodes run step = some handle

/-- The handle was allocated directly in the SCOPE, and control has stayed in it since. -/
def Held (scope : List Nat) (step handle : Nat) : Prop :=
  (∃ spot, spotAt nodes run handle = some spot ∧ spot.node.allocTarget?.isSome ∧ spot.path =
    scope) ∧
    handle ≤ step ∧ ∀ between, handle ≤ between → between ≤ step → InScope nodes run scope between

/-- The handle was freed explicitly. -/
def Freed (step handle : Nat) : Prop := ∃ before ≤ step, Frees nodes run false before handle

/-- The SCOPE frees the handle when control leaves it. -/
structure ScopeFrees (scope : List Nat) (step handle : Nat) : Prop where
  proper : scope ≠ []
  leaves : Exits nodes run scope step
  held : Held nodes run scope step handle
  unfreed : ¬ Freed nodes run step handle

/-- From one step to another there are only frees of the END_SCOPE of the SCOPE. -/
def AtEnd (scope : List Nat) (first last : Nat) : Prop :=
  first ≤ last ∧ ∀ step, first ≤ step → step ≤ last →
    ∃ spot, spotAt nodes run step = some spot ∧ spot.Closes scope

/-- The frees that END_SCOPE brings are those of the SCOPEs that control leaves. -/
structure FreesAgree : Prop where
  sound : ∀ step spot, step + 1 < run.length → spotAt nodes run step = some spot → spot.synthetic →
    ∃ handle scope last, Frees nodes run true step handle ∧ AtEnd nodes run scope step last ∧
      ScopeFrees nodes run scope last handle
  complete : ∀ scope last handle, ScopeFrees nodes run scope last handle →
    ∃ step, AtEnd nodes run scope step last ∧ Frees nodes run true step handle
  once : ∀ step step' handle, Frees nodes run true step handle →
    Frees nodes run true step' handle → step = step'

/-- Control leaves a SCOPE through its END_SCOPE, and the names it frees stand for the handles
that were allocated in it and not freed, each for another one. -/
structure Balanced (scope : List Nat) (step : Nat) : Prop where
  held : ∀ spot ∈ spots nodes, spot.Closes scope → ∃ handle, spot.freed? nodes run step =
    some handle ∧
    Held nodes run scope step handle ∧ ¬ Freed nodes run step handle
  apart : (spots nodes).Pairwise fun left right => left.Closes scope → right.Closes scope →
    left.freed? nodes run step ≠ right.freed? nodes run step
  rest : ∀ handle, Held nodes run scope step handle → ¬ Freed nodes run step handle →
    ∃ spot ∈ spots nodes, spot.Closes scope ∧ spot.freed? nodes run step = some handle

/-- A SCOPE is left by JUMP or BRANCH with all handles allocated in it freed, and through
END_SCOPE in balance. -/
structure Tidy : Prop where
  jumps : ∀ scope step spot, scope ≠ [] → Exits nodes run scope step → spotAt nodes run step =
    some spot →
    spot.node.transfers → ∀ handle, Held nodes run scope step handle → Freed nodes run step handle
  ends : ∀ scope step spot, scope ≠ [] → Exits nodes run scope step → spotAt nodes run step =
    some spot →
    spot.node.transfers = false → Balanced nodes run scope step

end Run

section Walks

variable {nodes : List Node} {run : List Nat} {target step i j : Nat} {spot : Spot}
  {scope : List Nat}

/-- The flattened body is the list of spots without their places. -/
theorem flatten_getElem? : (flattenScopes nodes)[i]? = (spots nodes)[i]?.map Spot.node := by
  rw [← Spot.map_spots, List.getElem?_map]

/-- A spot of a run is the spot at the place the run stands on. -/
theorem spotAt_eq_some : spotAt nodes run step = some spot ↔ ∃ i, run[step]? = some i ∧
    (spots nodes)[i]? = some spot :=
  Option.bind_eq_some_iff

/-- A step of the walk. -/
theorem step_next (walk : ControlWalk (flattenScopes nodes) 0 target run)
    (here : run[step]? = some i)
    (there : run[step + 1]? = some j) : j ∈ next (flattenScopes nodes) i := by
  obtain ⟨short, rfl⟩ := List.getElem?_eq_some_iff.mp here
  obtain ⟨short', rfl⟩ := List.getElem?_eq_some_iff.mp there
  have parts : run = run.take step ++ run[step] :: run[step + 1] :: run.drop (step + 2) := by
    rw [← List.drop_eq_getElem_cons short', ← List.drop_eq_getElem_cons short,
      List.take_append_drop]
  rw [parts] at walk
  exact walk.edge

/-- A synthetic spot is a FREE. -/
theorem free_of_closes (at_ : spotAt nodes run step = some spot) (synthetic : spot.synthetic) :
    ∃ line name, spot.node = .free line name := by
  obtain ⟨i, _, member⟩ := spotAt_eq_some.mp at_
  exact Spot.free_of_mem_spotsIn (List.mem_of_getElem? member) synthetic

/-- Without a JUMP or BRANCH control goes on to the next statement. -/
theorem falls (walk : ControlWalk (flattenScopes nodes) 0 target run) (here : run[step]? = some i)
    (spotHere : (spots nodes)[i]? = some spot) (plain : spot.node.transfers = false)
      (taken : step + 1 < run.length) :
    run[step + 1]? = some (i + 1) := by
  have edge := step_next walk here (List.getElem?_eq_getElem taken)
  have node : (flattenScopes nodes)[i]? = some spot.node := by rw [flatten_getElem?, spotHere]; rfl
  rw [FlatBody.next_of_not_transfers node plain] at edge
  rw [List.getElem?_eq_getElem taken, List.mem_singleton.mp edge]

/-- A label that is found stands where it is found. -/
theorem label_at {flat : List Node} {name : String} (found : labelIndex flat name = some j) :
    ∃ node, flat[j]? = some node ∧ node.labelName? = some name := by
  obtain ⟨short, label, _⟩ := List.findIdx?_eq_some_iff_getElem.mp found
  exact ⟨flat[j], List.getElem?_eq_getElem short, by simpa using label⟩

/-- Control comes to a free of END_SCOPE from the statement before it. -/
theorem comes (walk : ControlWalk (flattenScopes nodes) 0 target run)
    (there : run[step + 1]? = some j)
    (spotThere : (spots nodes)[j]? = some spot) (synthetic : spot.synthetic) :
    ∃ i, j = i + 1 ∧ run[step]? = some i := by
  obtain ⟨line, name, free⟩ := Spot.free_of_mem_spotsIn (List.mem_of_getElem? spotThere) synthetic
  have noLabel {label : String} : labelIndex (flattenScopes nodes) label ≠ some j := fun found => by
    obtain ⟨node, at_, isLabel⟩ := label_at found
    rw [flatten_getElem?, spotThere, Option.map_some, free] at at_
    obtain rfl := Option.some.inj at_
    cases isLabel
  have short := (List.getElem?_eq_some_iff.mp there).1
  obtain ⟨i, here⟩ : ∃ i, run[step]? = some i :=
    ⟨_, List.getElem?_eq_getElem (Nat.lt_of_succ_lt short)⟩
  refine ⟨i, ?_, here⟩
  have edge := step_next walk here there
  unfold next at edge
  split at edge
  · exact absurd (Option.mem_toList.mp edge) noLabel
  · rcases List.mem_append.mp edge with left | right
    · exact absurd (Option.mem_toList.mp left) noLabel
    · exact absurd (Option.mem_toList.mp right) noLabel
  · exact List.mem_singleton.mp edge
  · cases edge

/-- The frees of END_SCOPE change no name. -/
theorem standsFor_atEnd {first last : Nat} (ended : AtEnd nodes run scope first last) :
    standsFor nodes run last = standsFor nodes run first := by
  obtain ⟨before, frees⟩ := ended
  induction last, before using Nat.le_induction with
  | base => rfl
  | succ last before ih =>
      have same := ih fun step after until_ => frees step after (Nat.le_succ_of_le until_)
      obtain ⟨spot, at_, closes⟩ := frees last before (Nat.le_succ last)
      obtain ⟨line, name, free⟩ := free_of_closes at_ closes.1
      rw [standsFor, at_, ← same]
      simp only [free]
      funext other
      simp [Node.rebinds, Node.assigned]

/-- Control does not stand still at a free of END_SCOPE. -/
theorem taken_of_synthetic (walk : ControlWalk (flattenScopes nodes) 0 target run)
    (settled : ∀ spot, (spots nodes)[target]? = some spot → spot.synthetic = false)
    (here : run[step]? = some i) (spotHere : (spots nodes)[i]? = some spot)
      (synthetic : spot.synthetic) :
    step + 1 < run.length := by
  obtain ⟨front, rfl⟩ := walk.last
  have short := (List.getElem?_eq_some_iff.mp here).1
  by_contra last
  rw [List.length_append, List.length_singleton] at last short
  obtain rfl : step = front.length := by omega
  rw [List.getElem?_concat_length] at here
  obtain rfl := Option.some.inj here
  exact absurd (synthetic.symm.trans (settled spot spotHere)) (by decide)

/-- A run that closes a scope and goes on closing it is at its end. -/
theorem atEnd_cons {last : Nat} (at_ : spotAt nodes run step = some spot)
    (closes : spot.Closes scope)
    (later : AtEnd nodes run scope (step + 1) last) : AtEnd nodes run scope step last := by
  refine ⟨Nat.le_of_succ_le later.1, fun between after until_ => ?_⟩
  rcases Nat.eq_or_lt_of_le after with rfl | after
  · exact ⟨spot, at_, closes⟩
  · exact later.2 between after until_

/-- A run that closes a scope at one step is at its end there. -/
theorem atEnd_single (at_ : spotAt nodes run step = some spot) (closes : spot.Closes scope) :
    AtEnd nodes run scope step step := by
  refine ⟨le_rfl, fun between after until_ => ?_⟩
  obtain rfl := Nat.le_antisymm until_ after
  exact ⟨spot, at_, closes⟩

section Stretches

variable {first closing past : Nat} (walk : ControlWalk (flattenScopes nodes) 0 target run)
  (stretch : Stretch (spots nodes) scope first closing past)

include stretch

/-- Between the first closing place and the place past the scope stands a closing spot. -/
theorem exists_closing (from_ : closing ≤ i) (until_ : i < past) :
    ∃ spot, (spots nodes)[i]? = some spot ∧ spot.Closes scope := by
  have short := until_.trans_le stretch.past_le
  exact ⟨_, List.getElem?_eq_getElem short,
    (stretch.closes_iff (List.getElem?_eq_getElem short)).mpr ⟨from_, until_⟩⟩

/-- A step is inside a scope exactly when its place lies between the scope's places. -/
theorem inScope_iff (here : run[step]? = some i) :
    InScope nodes run scope step ↔ first ≤ i ∧ i < past := by
  constructor
  · rintro ⟨spot, at_, within⟩
    obtain ⟨j, there, member⟩ := spotAt_eq_some.mp at_
    obtain rfl := Option.some.inj (here.symm.trans there)
    exact (stretch.within_iff member).mp within
  · intro inside
    have short := inside.2.trans_le stretch.past_le
    exact ⟨_, spotAt_eq_some.mpr ⟨i, here, List.getElem?_eq_getElem short⟩,
      (stretch.within_iff (List.getElem?_eq_getElem short)).mpr inside⟩

include walk

/-- From a free of END_SCOPE control goes through the frees behind it and leaves the SCOPE. -/
theorem end_forward (settled : ∀ spot, (spots nodes)[target]? = some spot → spot.synthetic = false)
    (here : run[step]? = some i) (from_ : closing ≤ i) (until_ : i < past) :
    AtEnd nodes run scope step (step + (past - 1 - i)) ∧
      Exits nodes run scope (step + (past - 1 - i)) := by
  induction more : past - 1 - i generalizing step i with
  | zero =>
      obtain ⟨spot, member, closes⟩ := exists_closing stretch from_ until_
      have at_ : spotAt nodes run step = some spot := spotAt_eq_some.mpr ⟨i, here, member⟩
      obtain ⟨line, name, free⟩ := free_of_closes at_ closes.1
      have taken := taken_of_synthetic walk settled here member closes.1
      have there := falls walk here member (by rw [free]; rfl) taken
      refine ⟨atEnd_single at_ closes, ⟨spot, at_, Stretch.within_of_closes closes⟩, taken,
        fun inside => ?_⟩
      have bounds := (inScope_iff stretch there).mp inside
      omega
  | succ more ih =>
      obtain ⟨spot, member, closes⟩ := exists_closing stretch from_ until_
      have at_ : spotAt nodes run step = some spot := spotAt_eq_some.mpr ⟨i, here, member⟩
      obtain ⟨line, name, free⟩ := free_of_closes at_ closes.1
      have taken := taken_of_synthetic walk settled here member closes.1
      have there := falls walk here member (by rw [free]; rfl) taken
      obtain ⟨ended, leaves⟩ := ih there (by omega) (by omega) (by omega)
      rw [Nat.add_right_comm] at ended leaves
      exact ⟨atEnd_cons at_ closes ended, leaves⟩

/-- Where control leaves a SCOPE without a JUMP or BRANCH, it went through all frees of
END_SCOPE. -/
theorem end_backward (leaves : Exits nodes run scope step) (at_ : spotAt nodes run step = some spot)
    (plain : spot.node.transfers = false) (from_ : closing ≤ i) (until_ : i < past) :
    ∃ before, before + (past - 1 - i) = step ∧ run[before]? = some i ∧
      AtEnd nodes run scope before step := by
  obtain ⟨last, here, member⟩ := spotAt_eq_some.mp at_
  have there := falls walk here member plain leaves.taken
  have within := (inScope_iff stretch here).mp leaves.within
  have outside := (inScope_iff stretch there).not.mp leaves.outside
  have end_ : last = past - 1 := by omega
  induction more : past - 1 - i generalizing i with
  | zero =>
      obtain rfl : i = last := by omega
      exact ⟨step, rfl, here, atEnd_single at_ ((stretch.closes_iff member).mpr ⟨from_, until_⟩)⟩
  | succ more ih =>
      obtain ⟨after, steps, next_, ended⟩ := ih (i := i + 1) (by omega) (by omega) (by omega)
      obtain ⟨closing_, member', closes⟩ :=
        exists_closing stretch (i := i + 1) (by omega) (by omega)
      cases after with
      | zero =>
          obtain ⟨rest, rfl⟩ := walk.head
          cases next_
      | succ before =>
          obtain ⟨j, same, here'⟩ := comes walk next_ member' closes.1
          obtain rfl : i = j := by omega
          obtain ⟨spot', member'', closes'⟩ := exists_closing stretch from_ until_
          exact ⟨before, by omega, here', atEnd_cons (spotAt_eq_some.mpr ⟨i, here', member''⟩) closes' ended⟩

end Stretches

/-- Control leaves a SCOPE once after it was in it. -/
theorem leaves_unique {first last last' : Nat} (leaves : Exits nodes run scope last)
    (leaves' : Exits nodes run scope last') (before : first ≤ last) (before' : first ≤ last')
    (stays : ∀ between, first ≤ between → between ≤ last → InScope nodes run scope between)
    (stays' : ∀ between, first ≤ between → between ≤ last' → InScope nodes run scope between) :
      last = last' := by
  rcases Nat.lt_trichotomy last last' with earlier | same | later
  · exact absurd (stays' (last + 1) (by omega) earlier) leaves.outside
  · exact same
  · exact absurd (stays (last' + 1) (by omega) later) leaves'.outside

/-- A run at the end of a scope is inside it. -/
theorem inScope_of_atEnd {first last between : Nat} (ended : AtEnd nodes run scope first last)
    (after : first ≤ between) (until_ : between ≤ last) : InScope nodes run scope between := by
  obtain ⟨spot, at_, closes⟩ := ended.2 between after until_
  exact ⟨spot, at_, Stretch.within_of_closes closes⟩

/-- A handle is held by one SCOPE. -/
theorem held_scope {scope' : List Nat} {last last' handle : Nat}
    (held : Held nodes run scope last handle)
    (held' : Held nodes run scope' last' handle) : scope = scope' := by
  obtain ⟨⟨spot, at_, _, rfl⟩, _⟩ := held
  obtain ⟨⟨spot', at_', _, rfl⟩, _⟩ := held'
  rw [at_] at at_'
  rw [Option.some.inj at_']

/-- A FREE does not transfer control. -/
theorem transfers_of_free {line : Nat} {name : String} (free : spot.node = .free line name) :
    spot.node.transfers = false := by
  rw [free]
  rfl

/-- What a free of END_SCOPE frees is what its name stands for when control leaves the SCOPE. -/
theorem frees_atEnd_iff {last handle : Nat} (ended : AtEnd nodes run scope step last)
    (leaves : Exits nodes run scope last)
    (at_ : spotAt nodes run step = some spot) :
    Frees nodes run true step handle ↔ spot.freed? nodes run last = some handle := by
  have taken : step + 1 < run.length := (Nat.add_le_add_right ended.1 1).trans_lt leaves.taken
  obtain ⟨spot', at_', closes⟩ := ended.2 step le_rfl ended.1
  obtain rfl := Option.some.inj (at_.symm.trans at_')
  rw [Spot.freed?, standsFor_atEnd ended]
  constructor
  · rintro ⟨_, spot', at_', _, freed⟩
    obtain rfl := Option.some.inj (at_.symm.trans at_')
    exact freed
  · exact fun freed => ⟨taken, spot, at_, closes.1, freed⟩

/-- One step frees one handle. -/
theorem frees_unique {synthetic : Bool} {handle handle' : Nat}
    (frees : Frees nodes run synthetic step handle)
    (frees' : Frees nodes run synthetic step handle') : handle = handle' := by
  obtain ⟨_, spot, at_, _, freed⟩ := frees
  obtain ⟨_, spot', at_', _, freed'⟩ := frees'
  obtain rfl := Option.some.inj (at_.symm.trans at_')
  exact Option.some.inj (freed.symm.trans freed')

/-- A free of END_SCOPE belongs to one SCOPE, and control leaves that once behind it. -/
theorem sound_atEnd {last last' : Nat} (ended : AtEnd nodes run scope step last)
    (leaves : Exits nodes run scope last)
    {scope' : List Nat} (ended' : AtEnd nodes run scope' step last')
      (leaves' : Exits nodes run scope' last') :
    scope = scope' ∧ last = last' := by
  obtain ⟨spot', at_', _, rfl⟩ := ended.2 step le_rfl ended.1
  obtain ⟨spot'', at_'', _, rfl⟩ := ended'.2 step le_rfl ended'.1
  rw [at_'] at at_''
  obtain rfl := Option.some.inj at_''
  exact ⟨rfl, leaves_unique leaves leaves' ended.1 ended'.1 (fun _ => inScope_of_atEnd ended)
    fun _ => inScope_of_atEnd ended'⟩

/-- A synthetic spot lies in some scope. -/
theorem path_of_synthetic (member : (spots nodes)[i]? = some spot) (synthetic : spot.synthetic)
    : spot.path ≠ [] := by
  rcases Spot.path_of_mem_spotsIn (List.mem_of_getElem? member) with ⟨_, plain⟩ | ⟨j, _, inside⟩
  · exact absurd (synthetic.symm.trans plain) (by decide)
  · intro none_
    rw [none_] at inside
    exact Stretch.not_cons_suffix inside

/-- On a tidy walk a free of END_SCOPE frees what its SCOPE frees. -/
theorem Tidy.atEnd {first closing past : Nat} (tidy : Tidy nodes run)
    (walk : ControlWalk (flattenScopes nodes) 0 target run)
    (settled : ∀ spot, (spots nodes)[target]? = some spot → spot.synthetic = false)
    (stretch : Stretch (spots nodes) scope first closing past) (here : run[step]? = some i)
    (member : (spots nodes)[i]? = some spot) (closes : spot.Closes scope) :
    ∃ last handle, step + (past - 1 - i) = last ∧ AtEnd nodes run scope step last ∧
      Frees nodes run true step handle ∧
      spot.freed? nodes run last = some handle ∧ ScopeFrees nodes run scope last handle ∧
      Balanced nodes run scope last := by
  obtain ⟨from_, until_⟩ := (stretch.closes_iff member).mp closes
  obtain ⟨ended, leaves⟩ := end_forward walk stretch settled here from_ until_
  have proper : scope ≠ [] := closes.2 ▸ path_of_synthetic member closes.1
  obtain ⟨last, atLast, closesLast⟩ := ended.2 _ ended.1 le_rfl
  obtain ⟨line, name, free⟩ := free_of_closes atLast closesLast.1
  have balanced := tidy.ends scope _ last proper leaves atLast (transfers_of_free free)
  obtain ⟨handle, freed, held, unfreed⟩ := balanced.held spot (List.mem_of_getElem? member) closes
  exact ⟨_, handle, rfl, ended,
    (frees_atEnd_iff ended leaves (spotAt_eq_some.mpr ⟨i, here, member⟩)).mpr freed, freed,
    ⟨proper, leaves, held, unfreed⟩, balanced⟩

/-- The frees agree with the SCOPEs exactly on a tidy walk. -/
theorem freesAgree_iff (nodes : List Node) (run : List Nat) (target : Nat)
    (walk : ControlWalk (flattenScopes nodes) 0 target run)
    (settled : ∀ spot, (spots nodes)[target]? = some spot → spot.synthetic = false) :
    FreesAgree nodes run ↔ Tidy nodes run := by
  constructor
  · intro agree
    refine ⟨fun scope step spot proper leaves at_ transfers handle held => ?_,
      fun scope step spot proper leaves at_ plain => ?_⟩
    · by_contra unfreed
      obtain ⟨before, ended, _⟩ := agree.complete scope step handle ⟨proper, leaves, held, unfreed⟩
      obtain ⟨spot', at_', closes⟩ := ended.2 step ended.1 le_rfl
      obtain rfl := Option.some.inj (at_.symm.trans at_')
      obtain ⟨line, name, free⟩ := free_of_closes at_ closes.1
      rw [transfers_of_free free] at transfers
      cases transfers
    · obtain ⟨first, closing, past, stretch⟩ := Stretch.exists_spots nodes proper
      -- Each free of END_SCOPE was passed, and what it freed is what the SCOPE frees.
      have passed {i : Nat} {spot : Spot} (member : (spots nodes)[i]? = some spot)
        (closes : spot.Closes scope) :
          ∃ before handle, run[before]? = some i ∧ AtEnd nodes run scope before step ∧
            Frees nodes run true before handle ∧ spot.freed? nodes run step = some handle ∧
            ScopeFrees nodes run scope step handle := by
        obtain ⟨from_, until_⟩ := (stretch.closes_iff member).mp closes
        obtain ⟨before, steps, here, ended⟩ :=
          end_backward walk stretch leaves at_ plain from_ until_
        have atBefore : spotAt nodes run before = some spot := spotAt_eq_some.mpr ⟨i, here, member⟩
        have taken : before + 1 < run.length :=
          (Nat.add_le_add_right ended.1 1).trans_lt leaves.taken
        obtain ⟨handle, scope', last, frees, ended', scopeFrees⟩ :=
          agree.sound before spot taken atBefore closes.1
        obtain ⟨rfl, rfl⟩ := sound_atEnd ended leaves ended' scopeFrees.leaves
        exact ⟨before, handle, here, ended, frees,
          (frees_atEnd_iff ended leaves atBefore).mp frees, scopeFrees⟩
      refine ⟨fun spot member closes => ?_, ?_, fun handle held unfreed => ?_⟩
      · obtain ⟨i, short, rfl⟩ := List.getElem_of_mem member
        obtain ⟨_, handle, _, _, _, freed, scopeFrees⟩ :=
          passed (List.getElem?_eq_getElem short) closes
        exact ⟨handle, freed, scopeFrees.held, scopeFrees.unfreed⟩
      · refine List.pairwise_iff_getElem.mpr fun i j short short' order closes closes' same => ?_
        obtain ⟨before, handle, here, _, frees, freed, _⟩ :=
          passed (List.getElem?_eq_getElem short) closes
        obtain ⟨before', handle', here', _, frees', freed', _⟩ :=
          passed (List.getElem?_eq_getElem short') closes'
        obtain rfl : handle = handle' := Option.some.inj (freed.symm.trans (same.trans freed'))
        obtain rfl := agree.once before before' handle frees frees'
        obtain rfl := Option.some.inj (here.symm.trans here')
        exact absurd order (Nat.lt_irrefl _)
      · obtain ⟨before, ended, frees⟩ := agree.complete scope step handle
          ⟨proper, leaves, held, unfreed⟩
        obtain ⟨spot, atBefore, closes⟩ := ended.2 before le_rfl ended.1
        obtain ⟨i, _, member⟩ := spotAt_eq_some.mp atBefore
        exact ⟨spot, List.mem_of_getElem? member, closes,
          (frees_atEnd_iff ended leaves atBefore).mp frees⟩
  · intro tidy
    refine ⟨fun step spot taken at_ synthetic => ?_, fun scope last handle scopeFrees => ?_,
      fun step step' handle frees frees' => ?_⟩
    · obtain ⟨i, here, member⟩ := spotAt_eq_some.mp at_
      obtain ⟨_, _, _, stretch⟩ := Stretch.exists_spots nodes (path_of_synthetic member synthetic)
      obtain ⟨last, handle, _, ended, frees, _, scopeFrees, _⟩ :=
        tidy.atEnd walk settled stretch here member ⟨synthetic, rfl⟩
      exact ⟨handle, spot.path, last, frees, ended, scopeFrees⟩
    · obtain ⟨first, closing, past, stretch⟩ := Stretch.exists_spots nodes scopeFrees.proper
      obtain ⟨spot, at_, _⟩ := scopeFrees.leaves.within
      cases transfers : spot.node.transfers with
      | true =>
          exact absurd (tidy.jumps scope last spot scopeFrees.proper scopeFrees.leaves at_
            transfers handle
          scopeFrees.held) scopeFrees.unfreed
      | false =>
          obtain ⟨_, _, rest⟩ := tidy.ends scope last spot scopeFrees.proper scopeFrees.leaves
            at_ transfers
          obtain ⟨free, member, closes, freed⟩ := rest handle scopeFrees.held scopeFrees.unfreed
          obtain ⟨i, short, rfl⟩ := List.getElem_of_mem member
          have found := List.getElem?_eq_getElem short
          obtain ⟨from_, until_⟩ := (stretch.closes_iff found).mp closes
          obtain ⟨before, _, here, ended⟩ := end_backward walk stretch scopeFrees.leaves at_
            transfers from_ until_
          exact ⟨before, ended, (frees_atEnd_iff ended scopeFrees.leaves
            (spotAt_eq_some.mpr ⟨i, here, found⟩)).mpr freed⟩
    · obtain ⟨_, spot, at_, synthetic, _⟩ := id frees
      obtain ⟨_, spot', at_', synthetic', _⟩ := id frees'
      obtain ⟨i, here, member⟩ := spotAt_eq_some.mp at_
      obtain ⟨i', here', member'⟩ := spotAt_eq_some.mp at_'
      obtain ⟨_, _, past, stretch⟩ := Stretch.exists_spots nodes
        (path_of_synthetic member synthetic)
      obtain ⟨_, _, _, stretch'⟩ := Stretch.exists_spots nodes
        (path_of_synthetic member' synthetic')
      obtain ⟨last, handle₁, steps, _, frees₁, freed, scopeFrees, balanced⟩ :=
        tidy.atEnd walk settled stretch here member ⟨synthetic, rfl⟩
      obtain ⟨_, handle₂, _, _, frees₂, _, scopeFrees', _⟩ :=
        tidy.atEnd walk settled stretch' here' member' ⟨synthetic', rfl⟩
      obtain rfl := frees_unique frees₁ frees
      obtain rfl := frees_unique frees₂ frees'
      -- Both frees belong to the SCOPE that holds the handle, and to one leaving of it.
      have closes' : spot'.Closes spot.path :=
        ⟨synthetic', (held_scope scopeFrees.held scopeFrees'.held).symm⟩
      obtain ⟨last', handle₃, steps', _, frees₃, freed', again, _⟩ :=
        tidy.atEnd walk settled stretch here' member' closes'
      obtain rfl := frees_unique frees₃ frees'
      obtain rfl : last = last' := leaves_unique scopeFrees.leaves again.leaves
        scopeFrees.held.2.1 again.held.2.1
        scopeFrees.held.2.2 again.held.2.2
      have bound := (stretch.closes_iff member).mp ⟨synthetic, rfl⟩
      have bound' := (stretch.closes_iff member').mp closes'
      have same : i = i' := by
        obtain ⟨short, rfl⟩ := List.getElem?_eq_some_iff.mp member
        obtain ⟨short', rfl⟩ := List.getElem?_eq_some_iff.mp member'
        have apart := List.pairwise_iff_getElem.mp balanced.apart
        rcases Nat.lt_trichotomy i i' with before | same | after
        · exact absurd (freed.trans freed'.symm)
            (apart i i' short short' before ⟨synthetic, rfl⟩ closes')
        · exact same
        · exact absurd (freed'.trans freed.symm)
            (apart i' i short' short after closes' ⟨synthetic, rfl⟩)
      omega

end Walks

/-- `h = ALLOC 8 int` in a SCOPE, and `g = ALLOC 8 int` in a SCOPE inside. -/
def nestedScopes : List Node :=
  [.scope 1 [.assignment 2 "h" (.alloc (.intLit 8) .int false),
    .scope 3 [.assignment 4 "g" (.alloc (.intLit 8) .int false)]]]

/-- A SCOPE inside a SCOPE. -/
theorem freesAgree_iff_nestedScopes : FreesAgree nestedScopes [0, 1, 2, 3, 4] ↔
    Tidy nestedScopes [0, 1, 2, 3, 4] :=
  freesAgree_iff nestedScopes [0, 1, 2, 3, 4] 4
    (.cons (b := 1) (by decide) (.cons (b := 2) (by decide)
      (.cons (b := 3) (by decide) (.cons (b := 4) (by decide)
      (.single 4))))) fun spot at_ => by cases at_

/-- A SCOPE that control jumps out of. -/
def jumpsOut : List Node :=
  [.scope 1 [.assignment 2 "h" (.alloc (.intLit 8) .int false), .jump 3 "out"], .label 5 "out"]

/-- A SCOPE that frees its handle on one of two ways. -/
def freesOnOneWay : List Node :=
  [.scope 1 [.assignment 2 "h" (.alloc (.intLit 8) .int false), .branch 3 (.var "c") "freed" "kept",
    .label 4 "freed", .free 5 "h", .label 6 "kept"]]

/-- The handle that the SCOPE frees is not freed on the walk. -/
theorem jumpsOut_disagrees :
    (ControlWalk (flattenScopes jumpsOut) 0 4 [0, 1, 3, 4] ∧ ¬ FreesAgree jumpsOut [0, 1, 3, 4]) ∧
      ControlWalk (flattenScopes freesOnOneWay) 0 5 [0, 1, 4, 5] ∧
        ¬ FreesAgree freesOnOneWay [0, 1, 4, 5] := by
  refine ⟨⟨?_, fun agree => ?_⟩, ?_, fun agree => ?_⟩
  · exact .cons (b := 1) (by decide) (.cons (b := 3) (by decide)
      (.cons (b := 4) (by decide) (.single 4)))
  · have left : ScopeFrees jumpsOut [0, 1, 3, 4] [0] 1 0 := by
      refine ⟨by decide, ⟨⟨_, rfl, by decide⟩, by decide, ?_⟩,
        ⟨⟨_, rfl, rfl, rfl⟩, by decide, fun between _ until_ => ?_⟩, ?_⟩
      · rintro ⟨spot, at_, within⟩
        obtain rfl := Option.some.inj at_
        exact absurd within (by decide)
      · interval_cases between <;> exact ⟨_, rfl, by decide⟩
      · rintro ⟨before, until_, _, spot, at_, _, freed⟩
        interval_cases before <;> obtain rfl := Option.some.inj at_ <;> cases freed
    obtain ⟨step, ended, _⟩ := agree.complete [0] 1 0 left
    obtain ⟨spot, at_, closes⟩ := ended.2 1 ended.1 le_rfl
    obtain rfl := Option.some.inj at_
    exact absurd closes.1 (by decide)
  · exact .cons (b := 1) (by decide) (.cons (b := 4) (by decide)
      (.cons (b := 5) (by decide) (.single 5)))
  · have left : ScopeFrees freesOnOneWay [0, 1, 4, 5] [0] 2 0 := by
      refine ⟨by decide, ⟨⟨_, rfl, by decide⟩, by decide, ?_⟩,
        ⟨⟨_, rfl, rfl, rfl⟩, by decide, fun between _ until_ => ?_⟩, ?_⟩
      · rintro ⟨spot, at_, _⟩
        cases at_
      · interval_cases between <;> exact ⟨_, rfl, by decide⟩
      · rintro ⟨before, until_, _, spot, at_, _, freed⟩
        interval_cases before <;> obtain rfl := Option.some.inj at_ <;> cases freed
    obtain ⟨step, ended, _⟩ := agree.complete [0] 2 0 left
    obtain ⟨spot, at_, closes⟩ := ended.2 2 ended.1 le_rfl
    obtain rfl := Option.some.inj at_
    exact absurd closes.1 (by decide)

end Sigil
