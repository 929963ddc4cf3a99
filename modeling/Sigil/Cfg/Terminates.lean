import Sigil.Cfg.Executions
import Sigil.Flow.Closure
import Sigil.Flow.Saturate

/-!
# The termination check

`CFG.allPathsTerminate` combines a search forward from the entry with a saturation backward from
the exits. It accepts exactly the graphs in which every walk from the entry can go on to an exit.
-/

namespace Sigil

namespace CFG

open Flow

variable {nodes : List Node} {b : BlockId}

section Forward

variable {cfg : CFG} {bad : BlockId → Bool} {fuel : Nat} {stack seen : List BlockId}

/-- What has been seen stays seen. -/
theorem mem_reachableLoop (member : b ∈ seen) : b ∈ cfg.reachableLoop fuel stack seen := by
  induction fuel generalizing stack seen with
  | zero => exact member
  | succ fuel ih =>
      cases stack with
      | nil => exact member
      | cons c stack =>
          unfold reachableLoop
          split_ifs
          · exact ih member
          · exact ih (List.mem_cons_of_mem c member)

/-- The search collects what a search for bad blocks looks at. -/
theorem reachableLoop_clean_iff {result : Option BlockId}
    (finished : firstBad cfg.succ bad fuel stack seen = some result)
      (clean : ∀ b ∈ seen, bad b = false) :
    (∀ b ∈ cfg.reachableLoop fuel stack seen, bad b = false) ↔ result = none := by
  induction fuel generalizing stack seen with
  | zero => simp [firstBad] at finished
  | succ fuel ih =>
      cases stack with
      | nil =>
          obtain rfl : none = result := by simpa [firstBad] using finished
          exact iff_of_true clean rfl
      | cons c stack =>
          unfold reachableLoop
          unfold firstBad at finished
          split_ifs at finished ⊢ with known isBad
          · exact ih finished clean
          · obtain rfl : some c = result := by simpa using finished
            refine iff_of_false (fun all => ?_) (by simp)
            have good := all c (mem_reachableLoop List.mem_cons_self)
            exact Bool.false_ne_true (good.symm.trans isBad)
          · exact ih finished (List.forall_mem_cons.mpr ⟨by simpa using isBad, clean⟩)

end Forward

/-- Blocks of the graph are where their ids say. -/
theorem succ_id {block : BasicBlock} (member : block ∈ (build nodes).blocks) :
    (build nodes).succ block.id = block.successors := by
  obtain ⟨i, at_⟩ := List.getElem?_of_mem member
  rw [build_id at_, succ_eq at_]

/-- The backward rounds saturate over the ids of the blocks. -/
theorem canExitRound_eq (canExit : List BlockId) : (build nodes).canExitRound canExit =
    saturateRound (build nodes).succ ((build nodes).blocks.map BasicBlock.id) canExit := by
  unfold canExitRound saturateRound
  rw [List.foldl_map]
  refine List.foldl_ext _ _ _ fun canExit block member => ?_
  rw [succ_id member]

/-- The loop of the code saturates the set of blocks that reach an exit. -/
theorem canExitLoop_eq (fuel : Nat) (canExit : List BlockId) :
    (build nodes).canExitLoop fuel canExit =
    saturate (build nodes).succ ((build nodes).blocks.map BasicBlock.id) fuel canExit := by
  induction fuel generalizing canExit with
  | zero => rfl
  | succ fuel ih =>
      unfold canExitLoop saturate
      rw [canExitRound_eq]
      simp only [ih]

/-- The steps of the forward search are enough. -/
theorem search_finishes (nodes : List Node) (bad : BlockId → Bool) :
    ∃ result, firstBad (build nodes).succ bad
      (((build nodes).blocks.map fun block => block.successors.length).sum + 2)
        [(build nodes).entry] [] =
        some result := by
  apply Option.isSome_iff_exists.mp
  have distinct : (List.range (build nodes).blocks.length).Nodup := List.nodup_range
  refine firstBad_isSome distinct ?_ ?_
  · intro b outside
    by_contra some_
    exact outside (List.mem_range.mpr (lt_of_succ some_))
  · have edges : unexplored (build nodes).succ (List.range (build nodes).blocks.length) [] =
        ((build nodes).blocks.map fun block => block.successors.length).sum := by
      unfold unexplored
      rw [List.filter_eq_self.mpr (by simp), ← build_ids, List.map_map]
      congr 1
      exact List.map_congr_left fun block member => congrArg List.length (succ_id member)
    rw [edges, List.length_singleton]
    omega

/-- The backward rounds find the blocks that can reach an exit. -/
theorem mem_canExit_iff : b ∈ (build nodes).canExitLoop ((build nodes).blocks.length + 1)
    (build nodes).exits ↔
    ∃ exit ∈ (build nodes).exits, Relation.ReflTransGen (fun a c => c ∈ (build nodes).succ a) b
      exit := by
  rw [canExitLoop_eq]
  have ids : (build nodes).exits.Sublist (List.range (build nodes).blocks.length) := by
    rw [← build_ids]
    exact List.filter_sublist.map _
  refine mem_saturate_iff (ids.nodup List.nodup_range) (fun exit member => ⟨exit, member, .refl⟩)
    (fun _ => id) ?_ ?_ ?_
  · rw [build_ids]
    exact fun exit member => ids.subset member
  · rw [List.length_map]
    omega
  · intro c some_
    rw [build_ids]
    exact List.mem_range.mpr (lt_of_succ some_)

/-- The check accepts a graph exactly when every walk from the entry can go on to an exit. -/
theorem allPathsTerminate_iff (nodes : List Node) : (build nodes).allPathsTerminate = true ↔
    ∀ b path, Walk (fun a c => c ∈ (build nodes).succ a) (build nodes).entry b path →
      ∃ exit ∈ (build nodes).exits, ∃ rest,
        Walk (fun a c => c ∈ (build nodes).succ a) b exit rest := by
  let stuck : BlockId → Bool := fun b =>
    b ∉ (build nodes).canExitLoop ((build nodes).blocks.length + 1) (build nodes).exits
  obtain ⟨result, finished⟩ := search_finishes nodes stuck
  have accepts : (build nodes).allPathsTerminate = true ↔ result = none := by
    rw [← reachableLoop_clean_iff finished (by simp)]
    simp [allPathsTerminate, stuck]
  rw [accepts, firstBad_eq_none_iff finished]
  simp only [List.mem_singleton, forall_eq, ← Walk.exists_iff_reflTransGen, stuck,
    decide_eq_false_iff_not,
    not_not, mem_canExit_iff, forall_exists_index]

end CFG

end Sigil
