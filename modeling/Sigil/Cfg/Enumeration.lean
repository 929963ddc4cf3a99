import Sigil.Cfg.Graph

/-!
# The paths of any graph

`CFG.allPaths` finishes on every graph whose ids are in range. It lists the block sequences
from the entry along successors that repeat no block and stop at the first exit they enter,
each of them once unless a block has one successor twice.
-/

namespace Sigil

namespace CFG

variable {cfg : CFG} {path : List BlockId}

/-- The entry and every successor are blocks. -/
structure InRange (cfg : CFG) : Prop where
  entry : cfg.entry < cfg.blocks.length
  successors : ∀ block ∈ cfg.blocks, ∀ next ∈ block.successors, next < cfg.blocks.length

/-- A block sequence from the entry along successors to an exit, no block twice. -/
def ExitPath (cfg : CFG) (path : List BlockId) : Prop :=
  ∃ exit, Flow.Walk (fun a b => b ∈ cfg.succ a) cfg.entry exit path ∧
    cfg.isExit exit = true ∧ path.Nodup

/-- The last block of a path is the first exit on it. -/
def StopsFirst (cfg : CFG) (path : List BlockId) : Prop := ∀ b ∈ path.dropLast, cfg.isExit b = false

/-- The successors are those of the block. -/
theorem succ_eq {b : BlockId} {block : BasicBlock} (at_ : cfg.blocks[b]? = some block) :
    cfg.succ b = block.successors := by
  simp [succ, at_]

/-- A block lists no more successors than the degree of the graph. -/
theorem length_succ_le_degree (cfg : CFG) (b : BlockId) : (cfg.succ b).length ≤ cfg.degree := by
  unfold succ
  split
  next block at_ =>
    apply List.le_max_of_le' 0 (a := block.successors.length) _ le_rfl
    exact List.mem_map.mpr ⟨block, List.mem_of_getElem? at_, rfl⟩
  next => simp

/-- An edge leads to a block. -/
theorem InRange.succ_lt (inRange : cfg.InRange) {b next : BlockId} (edge : next ∈ cfg.succ b) :
    next < cfg.blocks.length := by
  cases at_ : cfg.blocks[b]? with
  | none => simp [succ, at_] at edge
  | some block => exact inRange.successors block (List.mem_of_getElem? at_) next (succ_eq at_ ▸ edge)

/-- The fuel of `allPaths` is enough. -/
theorem InRange.finishes (inRange : cfg.InRange) :
    Flow.enumerate cfg.succ cfg.isExit cfg.pathFuel [⟨cfg.entry, [cfg.entry], []⟩] [] =
      some cfg.allPaths := by
  have some_ : (Flow.enumerate cfg.succ cfg.isExit cfg.pathFuel
      [⟨cfg.entry, [cfg.entry], []⟩] []).isSome := by
    apply Flow.enumerate_isSome (List.range cfg.blocks.length) cfg.degree
    · exact fun v _ next edge => List.mem_range.mpr (inRange.succ_lt edge)
    · exact fun v _ => length_succ_le_degree _ v
    · intro frame member
      obtain rfl := List.mem_singleton.mp member
      exact List.mem_range.mpr inRange.entry
    · simp [Flow.Frame.remaining, pathFuel]
  obtain ⟨paths, finished⟩ := Option.isSome_iff_exists.mp some_
  rw [allPaths, finished, Option.getD_some]

/-- What `allPaths` lists. -/
theorem InRange.mem_allPaths_iff (inRange : cfg.InRange) :
    path ∈ cfg.allPaths ↔ cfg.ExitPath path ∧ cfg.StopsFirst path := by
  rw [Flow.mem_enumerate_iff inRange.finishes]
  simp only [List.not_mem_nil, List.mem_singleton, exists_eq_left, false_or]
  constructor
  · rintro ⟨tail, completes, rfl⟩
    obtain ⟨exit, walk, stops, nodup, _⟩ := completes.walk
    exact ⟨⟨exit, walk, stops, nodup⟩, completes.continues⟩
  · rintro ⟨⟨exit, walk, stops, nodup⟩, first⟩
    obtain ⟨tail, rfl⟩ := walk.head
    exact ⟨tail, .of_walk walk stops first nodup (by simp), rfl⟩

/-- No edge stands twice. -/
theorem nodup_succ (distinct : ∀ block ∈ cfg.blocks, block.successors.Nodup) (b : BlockId) :
    (cfg.succ b).Nodup := by
  cases at_ : cfg.blocks[b]? with
  | none => simp [succ, at_]
  | some block => exact succ_eq at_ ▸ distinct block (List.mem_of_getElem? at_)

/-- No path is listed twice. -/
theorem InRange.nodup_allPaths (inRange : cfg.InRange)
    (distinct : ∀ block ∈ cfg.blocks, block.successors.Nodup) : cfg.allPaths.Nodup :=
  (Flow.enumerate_pairwise (nodup_succ distinct) inRange.finishes (by simp)).imp Flow.Diverge.ne

/-- The enumeration finishes with the sequences to the first exit, each once. -/
theorem allPaths_enumerates (inRange : cfg.InRange) :
    Flow.enumerate cfg.succ cfg.isExit cfg.pathFuel [⟨cfg.entry, [cfg.entry], []⟩] [] =
        some cfg.allPaths ∧
      (∀ path, path ∈ cfg.allPaths ↔ cfg.ExitPath path ∧ cfg.StopsFirst path) ∧
      ((∀ block ∈ cfg.blocks, block.successors.Nodup) → cfg.allPaths.Nodup) :=
  ⟨inRange.finishes, fun _ => inRange.mem_allPaths_iff, inRange.nodup_allPaths⟩

/-- Two branches that meet again. -/
def diamond : CFG where
  blocks := [{ id := 0, successors := [1, 2] }, { id := 1, successors := [3] },
    { id := 2, successors := [3, 0] }, { id := 3, terminator := .return }]
  entry := 0
  exits := [3]
  labelToBlock := ∅

/-- A graph with two arms has two paths. -/
theorem allPaths_enumerates_diamond :
    diamond.InRange ∧
      Flow.enumerate diamond.succ diamond.isExit diamond.pathFuel [⟨diamond.entry, [diamond.entry], []⟩] [] =
          some diamond.allPaths ∧
        (∀ path, path ∈ diamond.allPaths ↔ diamond.ExitPath path ∧ diamond.StopsFirst path) ∧
        ((∀ block ∈ diamond.blocks, block.successors.Nodup) → diamond.allPaths.Nodup) :=
  have inRange : diamond.InRange := ⟨by decide, by decide⟩
  ⟨inRange, allPaths_enumerates inRange⟩

/-- A block that returns and has a successor. -/
def passedReturn : CFG where
  blocks := [{ id := 0, successors := [1], terminator := .return }, { id := 1 }]
  entry := 0
  exits := [0, 1]
  labelToBlock := ∅

/-- The sequence through the block that returns is not listed. -/
theorem passedReturn_unlisted : ∃ cfg : CFG, cfg.InRange ∧
    ¬ ∀ path, path ∈ cfg.allPaths ↔ cfg.ExitPath path := by
  refine ⟨passedReturn, ⟨by decide, by decide⟩, fun listed => ?_⟩
  have through : passedReturn.ExitPath [0, 1] :=
    ⟨1, .cons (by decide) (.single 1), by decide, by decide⟩
  exact absurd ((listed [0, 1]).mpr through) (by decide)

end CFG

end Sigil
