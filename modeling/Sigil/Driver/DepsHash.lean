import Sigil.Driver.Reuse
import Sigil.Preimage
import Sigil.Flow.Sha256

/-!
# What the dependency hash tells apart

The dependencies of a unit are hashed as lines in the order of their names. A name has no
`@` and a contract hash no line end, so the lines can be read back.
-/

namespace Sigil

open Flow

/-- A byte that stays inside a name or a contract hash. -/
def WordByte (b : UInt8) : Prop := b ≠ 0x40 ∧ b ≠ 0x0A

instance : DecidablePred WordByte := fun b => inferInstanceAs (Decidable (b ≠ 0x40 ∧ b ≠ 0x0A))

/-- A dependency under the name of a behavior, with the digits of its contract hash. -/
structure DepSpelled (dep : String × String) : Prop where
  name : IsIdentifier dep.1
  hash : dep.2.toList.all Char.isHexDigit

/-- The bytes that are hashed for some dependencies. -/
def depsText (deps : List (String × String)) : List UInt8 := (sortedDeps deps).flatMap depLine

/-- The bytes of a hash text are word bytes. -/
theorem wordByte_of_mem {text : String} (word : IsHashText text) :
    ∀ b ∈ utf8Bytes text, WordByte b := by
  intro b member
  rw [utf8Bytes_eq] at member
  obtain ⟨c, known, coded⟩ := List.mem_flatMap.mp member
  have all := forall_isIdentChar (P := fun c => (String.utf8EncodeChar c).all fun b =>
    decide (WordByte b))
    (by decide +kernel) (List.all_eq_true.mp word c known)
  exact of_decide_eq_true (List.all_eq_true.mp all b coded)

/-- Hexadecimal digits are a hash text. -/
theorem isHashText_of_hex {text : String} (hex : text.toList.all Char.isHexDigit) :
    IsHashText text :=
  List.all_eq_true.mpr fun c known => isIdentChar_of_isHexDigit (List.all_eq_true.mp hex c known)

/-- A spelled dependency consists of word bytes. -/
theorem DepSpelled.words {dep : String × String} (spelled : DepSpelled dep) :
    (∀ b ∈ utf8Bytes dep.1, WordByte b) ∧ ∀ b ∈ utf8Bytes dep.2, WordByte b :=
  ⟨wordByte_of_mem spelled.name.isHashText, wordByte_of_mem (isHashText_of_hex spelled.hash)⟩

/-- A dependency's line is its name, an at-sign, its hash and a line break. -/
theorem depLine_eq (dep : String × String) :
    depLine dep = utf8Bytes dep.1 ++ 0x40 :: (utf8Bytes dep.2 ++ [0x0A]) := by
  simp [depLine, show utf8Bytes "@" = [0x40] by decide, show utf8Bytes "\n" = [0x0A] by decide]

/-- Lines can be read off a text that ends in an empty line. -/
theorem framed_depLine : Framed DepSpelled depLine [0x0A] where
  read := by
    intro dep dep' s t spelled spelled' same
    obtain ⟨name, hash⟩ := spelled.words
    obtain ⟨name', hash'⟩ := spelled'.words
    simp only [depLine_eq, List.append_assoc, List.cons_append, List.nil_append] at same
    obtain ⟨names, -, rest⟩ := (word_inj name name' (by decide) (by decide)).mp same
    obtain ⟨hashes, -, tails⟩ := (word_inj hash hash' (by decide) (by decide)).mp rest
    exact ⟨Prod.ext (utf8Bytes_injective names) (utf8Bytes_injective hashes), tails⟩
  ends := by
    intro dep s t spelled same
    simp only [depLine_eq, List.append_assoc, List.cons_append] at same
    obtain ⟨-, joint, -⟩ := (word_inj (u := utf8Bytes dep.1) (v := []) spelled.words.1 (by simp)
      (by decide) (by decide)).mp same
    exact absurd joint (by decide)

section Sorted

variable {deps deps' : List (String × String)}

/-- Sorting only reorders the dependencies. -/
theorem sortedDeps_perm (deps : List (String × String)) : (sortedDeps deps).Perm deps :=
  List.mergeSort_perm _ _

/-- The text tells the dependencies in the order of their names. -/
theorem depsText_inj (spelled : ∀ dep ∈ deps, DepSpelled dep)
    (spelled' : ∀ dep ∈ deps', DepSpelled dep) :
    depsText deps = depsText deps' ↔ sortedDeps deps = sortedDeps deps' := by
  have read := @Framed.flatMap_inj _ _ _ _ _ framed_depLine (sortedDeps deps) (sortedDeps deps')
    [] []
    (fun dep listed => spelled dep (SourceBuild.mem_sortedDeps.mp listed))
    (fun dep listed => spelled' dep (SourceBuild.mem_sortedDeps.mp listed))
  simpa [depsText] using read

/-- One order of distinct names. -/
theorem sortedDeps_eq_iff (distinct : (deps.map Prod.fst).Nodup) :
    sortedDeps deps = sortedDeps deps' ↔ deps.Perm deps' := by
  have ordered : ∀ deps, (sortedDeps deps).Pairwise fun a b : String × String => a.1 ≤ b.1 := by
    intro deps
    have sorted := @List.pairwise_mergeSort _ (fun a b : String × String => decide (a.1 ≤ b.1))
      (by simpa using fun a b c => le_trans) (by simpa using fun a b => le_total _ _) deps
    simpa [sortedDeps] using sorted
  constructor
  · intro same
    exact (sortedDeps_perm deps).symm.trans (same ▸ sortedDeps_perm deps')
  · intro moved
    have perm := (sortedDeps_perm deps).trans (moved.trans (sortedDeps_perm deps').symm)
    refine perm.eq_of_pairwise ?_ (ordered deps) (ordered deps')
    intro a b listed listed' before after
    exact List.inj_on_of_nodup_map distinct (SourceBuild.mem_sortedDeps.mp listed)
      (moved.mem_iff.mpr (SourceBuild.mem_sortedDeps.mp listed')) (le_antisymm before after)

end Sorted

section Digits

/-- Different digits have different characters. -/
theorem digitChar_inj {m n : Nat} (hm : m < 16) (hn : n < 16) (same : m.digitChar = n.digitChar)
    : m = n := by
  have all : ∀ m < 16, ∀ n < 16, m.digitChar = n.digitChar → m = n := by decide
  exact all m hm n hn same

/-- The digits tell the bytes. -/
theorem hexEncode_injective : Function.Injective hexEncode := by
  intro u v same
  have digits := String.ofList_injective same
  induction u generalizing v with
  | nil => cases v with
    | nil => rfl
    | cons b v => simp at digits
  | cons a u ih => cases v with
    | nil => simp at digits
    | cons b v =>
        simp only [List.flatMap_cons, List.cons_append, List.nil_append, List.cons.injEq] at digits
        obtain ⟨high, low, rest⟩ := digits
        have bound := a.toNat_lt
        have bound' := b.toNat_lt
        have quotients := digitChar_inj (by omega) (by omega) high
        have remainders := digitChar_inj (by omega) (by omega) low
        have bytes : a = b := UInt8.toNat_inj.mp (by omega)
        rw [bytes, ih (congrArg String.ofList rest) rest]

/-- Every byte takes two digits. -/
theorem length_hexEncode (bytes : List UInt8) : (hexEncode bytes).length = 2 * bytes.length := by
  simp [hexEncode, Nat.mul_comm]

end Digits

/-- On texts that the first eight bytes of the digest tell apart, two lists of dependencies
with distinct names have one hash exactly when one is the other in another order. -/
theorem computeDepsHash_eq_iff_perm {sha256 : List UInt8 → List UInt8} {texts : Set (List UInt8)}
    (digest : ∀ bytes, (sha256 bytes).length = 32)
    (collisionFree : texts.InjOn fun bytes => (sha256 bytes).take 8)
      {deps deps' : List (String × String)}
    (hashed : depsText deps ∈ texts) (hashed' : depsText deps' ∈ texts)
    (spelled : ∀ dep ∈ deps, DepSpelled dep) (spelled' : ∀ dep ∈ deps', DepSpelled dep)
    (distinct : (deps.map Prod.fst).Nodup) :
    computeDepsHash sha256 deps = computeDepsHash sha256 deps' ↔ deps.Perm deps' := by
  have literal : ∀ deps, "none" ≠ hexEncode ((sha256 (depsText deps)).take 8) := by
    intro deps same
    have length := congrArg String.length same
    rw [length_hexEncode, List.length_take, digest] at length
    exact absurd length (by decide)
  rw [← sortedDeps_eq_iff distinct]
  refine ⟨fun same => ?_, SourceBuild.computeDepsHash_congr⟩
  unfold computeDepsHash at same
  split at same
  next empty =>
    split at same
    next empty' => rw [List.isEmpty_iff.mp empty, List.isEmpty_iff.mp empty']
    next => exact absurd same (literal deps')
  next =>
    split at same
    next => exact absurd same.symm (literal deps)
    next =>
      have kept := hexEncode_injective same
      exact (depsText_inj spelled spelled').mp (collisionFree hashed hashed' kept)

def scaleDeps : List (String × String) := [("scale", "deadbeef"), ("trim", "0a1b2c3d")]

/-- The same names with another contract for `trim`. -/
def trimmedDeps : List (String × String) := [("scale", "deadbeef"), ("trim", "0a1b2c3e")]

/-- Two lists of dependencies under the hash function of the compiler. -/
theorem computeDepsHash_eq_iff_perm_scale :
    computeDepsHash Flow.Sha256.digest scaleDeps = computeDepsHash Flow.Sha256.digest trimmedDeps ↔
      scaleDeps.Perm trimmedDeps := by
  have sorted : ∀ a b, depsText [("scale", a), ("trim", b)] =
      depLine ("scale", a) ++ depLine ("trim", b) := by
    intro a b
    rw [depsText, sortedDeps, List.mergeSort_of_pairwise (by simp)]
    simp
  have texts : depsText scaleDeps = utf8Bytes "scale@deadbeef\ntrim@0a1b2c3d\n" ∧
      depsText trimmedDeps = utf8Bytes "scale@deadbeef\ntrim@0a1b2c3e\n" := by
    constructor <;> exact (sorted _ _).trans (by decide +kernel)
  have apart : (Flow.Sha256.digest (depsText scaleDeps)).take 8 ≠
      (Flow.Sha256.digest (depsText trimmedDeps)).take 8 := by
    rw [texts.1, texts.2]
    decide +kernel
  have spelled : ∀ deps ∈ [scaleDeps, trimmedDeps], ∀ dep ∈ deps, DepSpelled dep := by
    intro deps one dep listed
    simp only [List.mem_cons, List.not_mem_nil, or_false] at one
    rcases one with rfl | rfl <;>
      simp only [scaleDeps, trimmedDeps, List.mem_cons, List.not_mem_nil, or_false] at listed <;>
      rcases listed with rfl | rfl <;>
      exact ⟨⟨⟨_, _, rfl, by decide, by decide⟩, by decide⟩, by decide⟩
  have collisionFree : Set.InjOn (fun bytes => (Flow.Sha256.digest bytes).take 8)
      {depsText scaleDeps, depsText trimmedDeps} := by
    rintro u (rfl | rfl) v (rfl | rfl) same
    · rfl
    · exact absurd same apart
    · exact absurd same.symm apart
    · rfl
  exact computeDepsHash_eq_iff_perm Flow.Sha256.length_digest collisionFree (by simp) (by simp)
    (spelled _ (by simp)) (spelled _ (by simp)) (by decide)

end Sigil
