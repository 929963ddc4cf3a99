import Sigil.Flow.Walk

/-!
# Sweeps over a graph in a fixed order

A bit for every vertex is recomputed, vertex by vertex in increasing order, from the bits of its
predecessors: it is set when the vertex sets it, or when it is set at every predecessor that has
a bit by then. A bit that is clear after some sweeps is explained by a walk, and by the number of
its steps that do not go forward.
-/

namespace Flow

/-- Nothing is known of a vertex before it is visited. -/
abbrev Bits := Nat → Option Bool

section Sweep

variable (pred : Nat → List Nat) (writes : Nat → Bool)

/-- The bit that reaches a vertex. Without a predecessor that has one, it is clear. -/
def arriving (bits : Bits) (v : Nat) : Bool :=
  match (pred v).filterMap bits with
  | [] => false
  | arrived => arrived.all id

/-- Recompute the bit of a vertex. -/
def inspect (bits : Bits) (v : Nat) : Bits :=
  Function.update bits v (some (writes v || arriving pred bits v))

/-- Visit the first `n` vertices in order. -/
def sweep (n : Nat) (bits : Bits) : Bits := (List.range n).foldl (inspect pred writes) bits

/-- The bits after some sweeps; at first only that of vertex 0 is known, and clear. -/
def sweeps (n : Nat) : Nat → Bits
  | 0 => fun v => if v = 0 then some false else none
  | t + 1 => sweep pred writes n (sweeps n t)

/-- A vertex with a clear bit after `t` sweeps, and why it is. -/
inductive Stale : Nat → Nat → Prop where
  | source {t v : Nat} (silent : writes v = false) (none : pred v = []) : Stale (t + 1) v
  | late {v : Nat} (silent : writes v = false) (early : v = 0 ∨ ∀ p ∈ pred v, v ≤ p) : Stale 1 v
  | advance {t p v : Nat} (silent : writes v = false) (edge : p ∈ pred v) (ahead : p < v)
    (before : Stale t p) :
      Stale t v
  | retreat {t p v : Nat} (silent : writes v = false) (edge : p ∈ pred v) (back : v ≤ p)
    (before : Stale t p) :
      Stale (t + 1) v

end Sweep

section Sweeps

variable {pred : Nat → List Nat} {writes : Nat → Bool} {n t v p : Nat} {bits : Bits}

/-- The arriving bit is clear when no predecessor is known, or one is known to be clear. -/
theorem arriving_eq_false_iff :
    arriving pred bits v = false ↔ (∀ p ∈ pred v, bits p = none) ∨ ∃ p ∈ pred v, bits p =
      some false := by
  unfold arriving
  split
  next empty =>
    refine iff_of_true rfl (.inl fun p edge => ?_)
    exact List.filterMap_eq_nil_iff.mp empty p edge
  next some_ =>
    have known : ¬ ∀ p ∈ pred v, bits p = none :=
      fun none => some_ (List.filterMap_eq_nil_iff.mpr none)
    simp only [List.all_eq_false, List.mem_filterMap, known, false_or]
    constructor
    · rintro ⟨bit, ⟨p, edge, here⟩, clear⟩
      exact ⟨p, edge, by simpa [here] using clear⟩
    · rintro ⟨p, edge, here⟩
      exact ⟨false, ⟨p, edge, here⟩, by simp⟩

/-- What is known of the predecessors alone decides. -/
theorem arriving_congr {bits' : Bits} (same : ∀ p ∈ pred v, bits' p = bits p) :
    arriving pred bits' v = arriving pred bits v := by
  unfold arriving
  rw [List.filterMap_congr same]

/-- A sweep leaves the vertices beyond its end. -/
theorem sweep_of_le (beyond : n ≤ v) : sweep pred writes n bits v = bits v := by
  induction n with
  | zero => rfl
  | succ n ih =>
      unfold sweep at ih ⊢
      rw [List.range_succ, List.foldl_append, List.foldl_cons, List.foldl_nil, inspect,
        Function.update_of_ne (by omega), ih (by omega)]

/-- A vertex is not visited again. -/
theorem sweep_of_lt (inside : v < n) :
    sweep pred writes n bits v = sweep pred writes (v + 1) bits v := by
  induction n with
  | zero => omega
  | succ n ih =>
      rcases Nat.lt_succ_iff_lt_or_eq.mp inside with before | rfl
      · rw [← ih before]
        unfold sweep
        rw [List.range_succ, List.foldl_append, List.foldl_cons, List.foldl_nil, inspect,
          Function.update_of_ne (by omega)]
      · rfl

/-- A vertex sees the new bits of the vertices before it, and the old ones of the others. -/
theorem sweep_eq (inside : v < n) : sweep pred writes n bits v =
    some (writes v || arriving pred (fun p =>
      if p < v then sweep pred writes n bits p else bits p) v) := by
  have last : sweep pred writes (v + 1) bits v =
    some (writes v || arriving pred (sweep pred writes v bits) v) := by
    unfold sweep
    rw [List.range_succ, List.foldl_append, List.foldl_cons, List.foldl_nil, inspect,
      Function.update_self]
  rw [sweep_of_lt inside, last]
  congr 2
  refine arriving_congr fun p _ => ?_
  split
  next before => rw [sweep_of_lt before, sweep_of_lt (before.trans inside)]
  next after => exact sweep_of_le (Nat.le_of_not_lt after)

/-- Every vertex is known after a sweep. -/
theorem sweeps_isSome (inside : v < n) : (sweeps pred writes n (t + 1) v).isSome := by
  rw [sweeps, sweep_eq inside]
  rfl

/-- Nothing is stale in no time. -/
theorem Stale.pos (stale : Stale pred writes t v) : 1 ≤ t := by
  induction stale with
  | source => omega
  | late => omega
  | advance _ _ _ _ ih => exact ih
  | retreat => omega

/-- After the first sweep. -/
theorem first_sweep_iff (inside : v < n) : sweeps pred writes n 1 v = some false ↔ Stale pred writes 1 v := by
  induction v using Nat.strong_induction_on with
  | _ v ih =>
      rw [sweeps, sweep_eq inside, Option.some.injEq, Bool.or_eq_false_iff, arriving_eq_false_iff]
      constructor
      · rintro ⟨silent, unknown | ⟨p, edge, clear⟩⟩
        · refine .late silent (.inr fun p edge => Nat.le_of_not_lt fun ahead => ?_)
          have none := unknown p edge
          rw [if_pos ahead, sweep_eq (ahead.trans inside)] at none
          cases none
        · split at clear
          next ahead => exact .advance silent edge ahead ((ih p ahead (ahead.trans inside)).mp clear)
          next behind =>
            have first : p = 0 := by
              by_contra other
              simp [sweeps, other] at clear
            exact .late silent (.inl (by omega))
      · rintro stale
        cases stale with
        | source silent none => exact ⟨silent, .inl (by simp [none])⟩
        | late silent early =>
            refine ⟨silent, ?_⟩
            rcases early with rfl | early
            · by_cases loop : 0 ∈ pred 0
              · exact .inr ⟨0, loop, by simp [sweeps]⟩
              · refine .inl fun p edge => ?_
                have other : p ≠ 0 := fun here => loop (here ▸ edge)
                simp [sweeps, other]
            · by_cases loop : 0 ∈ pred v
              · have first : v = 0 := Nat.le_zero.mp (early 0 loop)
                subst first
                exact .inr ⟨0, loop, by simp [sweeps]⟩
              · refine .inl fun p edge => ?_
                have other : p ≠ 0 := fun here => loop (here ▸ edge)
                rw [if_neg (Nat.not_lt.mpr (early p edge))]
                simp [sweeps, other]
        | @advance _ p _ silent edge ahead before =>
            exact ⟨silent,
              .inr ⟨p, edge, by rw [if_pos ahead]; exact (ih p ahead (ahead.trans inside)).mpr before⟩⟩
        | retreat _ _ _ before => exact absurd before.pos (by omega)

/-- The bits that are clear after some sweeps are the explained ones. -/
theorem sweeps_eq_false_iff (inRange : ∀ v, ∀ p ∈ pred v, p < n) (inside : v < n) :
    sweeps pred writes n (t + 1) v = some false ↔ Stale pred writes (t + 1) v := by
  induction t generalizing v with
  | zero => exact first_sweep_iff inside
  | succ t earlier =>
      induction v using Nat.strong_induction_on with
      | _ v ih =>
          rw [sweeps, sweep_eq inside, Option.some.injEq, Bool.or_eq_false_iff,
            arriving_eq_false_iff]
          constructor
          · rintro ⟨silent, unknown | ⟨p, edge, clear⟩⟩
            · refine .source silent (List.eq_nil_iff_forall_not_mem.mpr fun p edge => ?_)
              have none := unknown p edge
              have known : (sweeps pred writes n (t + 1) p).isSome := sweeps_isSome (inRange v p edge)
              split at none
              next ahead =>
                rw [sweep_eq (ahead.trans inside)] at none
                cases none
              next => simp [none] at known
            · split at clear
              next ahead => exact .advance silent edge ahead ((ih p ahead (ahead.trans inside)).mp clear)
              next behind =>
                exact .retreat silent edge (Nat.le_of_not_lt behind)
                  ((earlier (inRange v p edge)).mp clear)
          · rintro stale
            cases stale with
            | source silent none => exact ⟨silent, .inl (by simp [none])⟩
            | @advance _ p _ silent edge ahead before =>
                exact ⟨silent,
                  .inr ⟨p, edge, by rw [if_pos ahead]; exact (ih p ahead (ahead.trans inside)).mpr before⟩⟩
            | @retreat _ p _ silent edge back before =>
                refine ⟨silent, .inr ⟨p, edge, ?_⟩⟩
                rw [if_neg (Nat.not_lt.mpr back)]
                exact (earlier (inRange v p edge)).mpr before

end Sweeps

section Walks

variable {pred : Nat → List Nat} {writes : Nat → Bool} {s t v : Nat} {path : List Nat}

/-- The steps of a walk that do not go forward. -/
def retreats : List Nat → Nat
  | a :: b :: rest => (if b ≤ a then 1 else 0) + retreats (b :: rest)
  | _ => 0

/-- A path retreats at its last edge or before. -/
theorem retreats_snoc {front : List Nat} {p v : Nat} :
    retreats (front ++ [p] ++ [v]) = retreats (front ++ [p]) + if v ≤ p then 1 else 0 := by
  induction front with
  | nil => simp [retreats]
  | cons a front ih =>
      cases front with
      | nil => simp [retreats]
      | cons b front =>
          simp only [List.cons_append, retreats] at ih ⊢
          rw [ih, Nat.add_assoc]

/-- A path retreats at most once an edge. -/
theorem retreats_le (path : List Nat) : retreats path ≤ path.length - 1 := by
  induction path with
  | nil => exact le_rfl
  | cons a rest ih =>
      cases rest with
      | nil => exact le_rfl
      | cons b rest =>
          simp only [retreats, List.length_cons] at ih ⊢
          split <;> omega

/-- Where a clear bit comes from: a vertex without predecessors, in any sweep, or in the first
sweep vertex 0 and a vertex without a predecessor before it. -/
def Origin (pred : Nat → List Nat) (t : Nat) (s back : Nat) : Prop :=
  (pred s = [] ∧ back + 1 ≤ t) ∨ ((s = 0 ∨ ∀ p ∈ pred s, s ≤ p) ∧ back + 1 = t)

/-- A walk that writes nothing carries staleness along. -/
theorem Stale.along (stale : Stale pred writes t s) (walk : Walk (fun a b => a ∈ pred b) s v path)
    (silent : ∀ u ∈ path, writes u = false) : Stale pred writes (t + retreats path) v := by
  induction walk generalizing t with
  | single s => exact stale
  | @cons s b v path edge rest ih =>
      obtain ⟨later, rfl⟩ := rest.head
      have quiet := List.forall_mem_cons.mp silent
      have here : writes b = false := quiet.2 b List.mem_cons_self
      rw [retreats, ← Nat.add_assoc]
      split
      next back => exact ih (.retreat here edge back stale) quiet.2
      next ahead => exact ih (.advance here edge (Nat.lt_of_not_le ahead) stale) quiet.2

/-- A clear bit is carried along a walk on which nothing sets it. -/
theorem stale_iff : Stale pred writes t v ↔ ∃ s path, Walk (fun a b => a ∈ pred b) s v path ∧
    (∀ u ∈ path, writes u = false) ∧ Origin pred t s (retreats path) := by
  constructor
  · intro stale
    have extend : ∀ {t p v : Nat}, writes v = false → p ∈ pred v →
      ∀ {k : Nat}, k = (if v ≤ p then 1 else 0) →
        (∃ s path, Walk (fun a b => a ∈ pred b) s p path ∧ (∀ u ∈ path, writes u = false) ∧
          Origin pred t s (retreats path)) →
        ∃ s path, Walk (fun a b => a ∈ pred b) s v path ∧ (∀ u ∈ path, writes u = false) ∧
          Origin pred (t + k) s (retreats path) := by
      rintro t p v silent edge k rfl ⟨s, path, walk, quiet, origin⟩
      obtain ⟨front, rfl⟩ := walk.last
      refine ⟨s, front ++ [p] ++ [v], walk.snoc edge, ?_, ?_⟩
      · intro u member
        rcases List.mem_append.mp member with old | new
        · exact quiet u old
        · rw [List.mem_singleton.mp new]
          exact silent
      · rw [retreats_snoc]
        rcases origin with ⟨none, enough⟩ | ⟨early, exactly⟩
        · exact .inl ⟨none, by omega⟩
        · exact .inr ⟨early, by omega⟩
    induction stale with
    | @source t v silent none =>
        exact ⟨v, [v], .single v, by simpa using silent, .inl ⟨none, by simp [retreats]⟩⟩
    | @late v silent early =>
        exact ⟨v, [v], .single v, by simpa using silent, .inr ⟨early, by simp [retreats]⟩⟩
    | advance silent edge ahead before ih => exact extend silent edge (by rw [if_neg (by omega)]) ih
    | retreat silent edge back before ih => exact extend silent edge (by rw [if_pos back]) ih
  · rintro ⟨s, path, walk, silent, origin⟩
    obtain ⟨later, rfl⟩ := walk.head
    have here : writes s = false := silent s List.mem_cons_self
    rcases origin with ⟨none, enough⟩ | ⟨early, exactly⟩
    · obtain ⟨k, rfl⟩ := Nat.exists_eq_add_of_le enough
      have start : Stale pred writes (k + 1) s := .source here none
      have found := start.along walk silent
      rwa [show k + 1 + retreats (s :: later) = retreats (s :: later) + 1 + k by omega] at found
    · have start : Stale pred writes 1 s := .late here early
      have found := start.along walk silent
      rwa [Nat.add_comm, exactly] at found

end Walks

end Flow
