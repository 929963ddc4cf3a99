import Sigil.Semantic.Reports

/-!
# The writes_output guarantee

The checker looks at the finitely many paths that repeat no block. Erasing the
loops of an arbitrary walk only drops statements, so a walk that misses an output
exists exactly when such a path does.
-/

namespace Sigil

open OwnershipState

variable {nodes : List Node} {ctx : AnalysisContext} {output : String}

/-- With `writes_output` declared, the error names exactly the outputs that some
walk from the entry to the end of the body does not write. -/
theorem outputNotWritten_names_iff (body : FlatBody nodes)
    (declared : ctx.hasGuarantee .writesOutput = true) :
    NamesOutput (validateOwnershipCfg nodes ctx) output ↔
      ctx.isOutput output = true ∧ ∃ executed,
        ControlWalk nodes 0 nodes.length (executed ++ [nodes.length]) ∧
          ∀ i ∈ executed, ¬ Holds nodes (output ∈ ·.writes) i := by
  rw [namesOutput_iff body declared]
  constructor
  · rintro ⟨isOutput, executed, walk, _, unwritten⟩
    exact ⟨isOutput, executed, walk, unwritten⟩
  · rintro ⟨isOutput, executed, walk, unwritten⟩
    obtain ⟨erased, simple, nodup, subset⟩ := exists_simple_execution walk
    exact ⟨isOutput, erased, simple, nodup, fun i member => unwritten i (subset member)⟩

/-- `BRANCH 1 yes no`, `LABEL yes`, `SET o 1`, `LABEL no`. -/
def writesOnOneArm : List Node :=
  [.branch 1 (.intLit 1) "yes" "no", .label 2 "yes", .set 3 "o" (.intLit 1), .label 4 "no"]

/-- One int output `o`, and `writes_output` declared. -/
def oneOutput : AnalysisContext where
  guarantees := [.writesOutput]
  dependencyContracts := ∅
  patternNames := []
  outputs := AList.insert "o" ⟨"o", .int, 8⟩ ∅

/-- An OUTPUT that one arm writes. -/
theorem outputNotWritten_names_iff_writesOnOneArm :
    NamesOutput (validateOwnershipCfg writesOnOneArm oneOutput) "o" ↔
      oneOutput.isOutput "o" = true ∧ ∃ executed,
        ControlWalk writesOnOneArm 0 writesOnOneArm.length (executed ++ [writesOnOneArm.length]) ∧
          ∀ i ∈ executed, ¬ Holds writesOnOneArm ("o" ∈ ·.writes) i :=
  outputNotWritten_names_iff (by decide) (by decide)

end Sigil
