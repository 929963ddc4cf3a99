import Sigil.Parser.Pins

/-!
# Clauses of a contract

The lines of a CONTRACT section as the language reference describes them, and what the
parser keeps of them: of REQUIRES the last line only, with the MEMORY names behind it, and of
GUARANTEES the last clause.
-/

namespace Sigil

open Flow

/-- Newlines and indentation. -/
structure Blanks where
  kinds : List TokenKind
  blank : ∀ k ∈ kinds, Parser.isBlank k

/-- The end of a line, with blank lines and the indentation of the next one. -/
structure Break extends Blanks where
  filled : kinds ≠ []

/-- `name interpretation size`; a string may leave out its size. -/
structure ParamLine where
  param : Parameter
  sized : Bool
  fits : param.size < 2 ^ 64
  optional : sized = false → param.typ = .string ∧ param.size = 0

/-- A line of references. -/
structure RefLine where
  refs : List BehaviorRef
  filled : refs ≠ []
  pins : ∀ ref ∈ refs, IsPin ref.hash
  ended : Break

/-- A clause of a CONTRACT as it is written. -/
inductive ClauseLine where
  | input (line : ParamLine) (ended : Break)
  | output (line : ParamLine) (ended : Break)
  | requires (lead : Blanks) (lines : List RefLine)
  | memory (names : List String) (ended : Break)
  | guarantees (listed : List Guarantee) (ended : Break)

def ParamLine.kinds (line : ParamLine) : List TokenKind :=
  .identifier line.param.name :: .keyword (.typ line.param.typ) ::
    if line.sized then [.integer (BitVec.ofNat 64 line.param.size)] else []

def RefLine.kinds (line : RefLine) : List TokenKind :=
  line.refs.flatMap Parser.refKinds ++ line.ended.kinds

namespace ClauseLine

/-- The tokens of a clause. -/
def kinds : ClauseLine → List TokenKind
  | input line ended => .keyword .input :: (line.kinds ++ ended.kinds)
  | output line ended => .keyword .output :: (line.kinds ++ ended.kinds)
  | requires lead lines => .keyword .requires :: (lead.kinds ++ lines.flatMap RefLine.kinds)
  | memory names ended => .keyword .memory :: (names.map .identifier ++ ended.kinds)
  | guarantees listed ended =>
      .keyword .guarantees :: (listed.map (fun g => .keyword (.guarantee g)) ++ ended.kinds)

def inputs : ClauseLine → List Parameter
  | input line _ => [line.param]
  | _ => []

def outputs : ClauseLine → List Parameter
  | output line _ => [line.param]
  | _ => []

/-- The lines of a REQUIRES clause. -/
def refLines : ClauseLine → Option (List RefLine)
  | requires _ lines => some lines
  | _ => none

def names : ClauseLine → List String
  | memory names _ => names
  | _ => []

def listedGuarantees : ClauseLine → Option (List Guarantee)
  | guarantees listed _ => some listed
  | _ => none

end ClauseLine

/-- All references that the lines list. -/
def listedRefs (lines : List ClauseLine) : List BehaviorRef :=
  (lines.filterMap ClauseLine.refLines).flatten.flatMap RefLine.refs

/-- The references of the last line of the last REQUIRES. -/
def lastRefs (lines : List ClauseLine) : List BehaviorRef :=
  (((lines.filterMap ClauseLine.refLines).getLast?.bind List.getLast?).map RefLine.refs).getD []

/-- The MEMORY names behind the last REQUIRES. -/
def laterNames (lines : List ClauseLine) : List String :=
  (lines.reverse.takeWhile fun line => line.refLines.isNone).reverse.flatMap ClauseLine.names

/-- The guarantees of the last GUARANTEES. -/
def lastGuarantees (lines : List ClauseLine) : List Guarantee :=
  (lines.filterMap ClauseLine.listedGuarantees).getLast?.getD []

/-- A contract has what the lines list. -/
structure Contract.Keeps (contract : Contract) (lines : List ClauseLine) : Prop where
  inputs : contract.inputs = lines.flatMap ClauseLine.inputs
  outputs : contract.outputs = lines.flatMap ClauseLine.outputs
  refs : ∀ ref ∈ listedRefs lines, ref ∈ contract.requires.behaviors
  memory : ∀ name ∈ lines.flatMap ClauseLine.names, name ∈ contract.requires.memory
  guarantees : ∀ g ∈ (lines.filterMap ClauseLine.listedGuarantees).flatten, g ∈ contract.guarantees

/-- What the lines list is not replaced by a later line, and no pin swallows a name. -/
structure NothingLost (lines : List ClauseLine) : Prop where
  apart : ∀ line ∈ lines, ∀ listed ∈ line.refLines, ∀ line ∈ listed, Parser.Apart line.refs
  refs : ∀ ref ∈ listedRefs lines, ref ∈ lastRefs lines
  memory : ∀ name ∈ lines.flatMap ClauseLine.names, name ∈ laterNames lines
  guarantees : ∀ g ∈ (lines.filterMap ClauseLine.listedGuarantees).flatten, g ∈ lastGuarantees lines

namespace Parser

/-- What a clause makes of the contract read so far. -/
def addClause (contract : Contract) : ClauseLine → Contract
  | .input line _ => { contract with inputs := contract.inputs ++ [line.param] }
  | .output line _ => { contract with outputs := contract.outputs ++ [line.param] }
  | .requires _ lines => { contract with
      requires := { behaviors := (lines.getLast?.map RefLine.refs).getD [] } }
  | .memory names _ => { contract with
      requires := { contract.requires with memory := contract.requires.memory ++ names } }
  | .guarantees listed _ => { contract with guarantees := listed }

/-- What is read of the lines altogether. -/
theorem foldl_addClause (lines : List ClauseLine) :
    lines.foldl addClause { inputs := [], outputs := [], guarantees := [] } =
      { inputs := lines.flatMap ClauseLine.inputs, outputs := lines.flatMap ClauseLine.outputs,
        requires := ⟨lastRefs lines, laterNames lines⟩, guarantees := lastGuarantees lines } := by
  induction lines using List.reverseRecOn with
  | nil => rfl
  | append_singleton lines line ih =>
      rw [List.foldl_append, ih]
      cases line <;>
        simp [addClause, lastRefs, laterNames, lastGuarantees, ClauseLine.refLines,
          ClauseLine.names,
          ClauseLine.inputs, ClauseLine.outputs, ClauseLine.listedGuarantees, List.filterMap_append]

section Lines

variable {α β : Type} {a : α} {b : β} {ks : List TokenKind} {F G : TokenKind → Prop} {n : Nat}

/-- A parameter line is read as its parameter. -/
theorem yields_parameter (line : ParamLine) :
    Yields parseParameter line.kinds (fun k => isBlank k) line.param := by
  obtain ⟨⟨name, typ, size⟩, sized, fits, optional⟩ := line
  have size : Yields (parseSize typ) (if sized then [.integer (BitVec.ofNat 64 size)] else [])
      (fun k => isBlank k) size := by
    cases sized with
    | true =>
        have integer : Yields parseInteger [.integer (BitVec.ofNat 64 size)]
          (fun k => isBlank k) (BitVec.ofNat 64 size) :=
          .peek (.advance_bind (by simp) .pure)
        have number := integer.last (g := BitVec.toNat)
        rw [BitVec.toNat_ofNat, Nat.mod_eq_of_lt fits] at number
        refine .peek ?_
        rw [if_neg (by simp [isInteger])]
        exact number
    | false =>
        obtain ⟨rfl, rfl⟩ := optional rfl
        refine .peek_nil (q := pure 0) (fun k blank => if_pos ⟨rfl, ?_⟩) .pure
        cases k <;> first | rfl | cases blank
  exact .name_bind (.typ_bind size.last)

/-- The names of a MEMORY clause are read in order. -/
theorem yields_names {names : List String} (enough : names.length < n) :
    Yields (parseMemory n) (names.map .identifier) (fun k => isBlank k) names := by
  induction names generalizing n with
  | nil =>
      obtain ⟨n, rfl⟩ := Nat.exists_eq_add_of_lt enough
      refine .peek_nil (q := pure []) (fun k blank => ?_) .pure
      cases k <;> first | rfl | cases blank
  | cons name names ih =>
      obtain ⟨n, rfl⟩ := Nat.exists_eq_add_of_lt enough
      exact .peek (.advance_bind (by simp) (ih (by rw [List.length_cons]; omega)).last)

/-- The words of a GUARANTEES clause are read in order. -/
theorem yields_guarantees {listed : List Guarantee} (enough : listed.length < n) :
    Yields (parseGuarantees n) (listed.map fun g => .keyword (.guarantee g))
      (fun k => isBlank k) listed := by
  induction listed generalizing n with
  | nil =>
      obtain ⟨n, rfl⟩ := Nat.exists_eq_add_of_lt enough
      refine .peek_nil (q := pure []) (fun k blank => ?_) .pure
      cases k <;> first | rfl | cases blank
  | cons g listed ih =>
      obtain ⟨n, rfl⟩ := Nat.exists_eq_add_of_lt enough
      exact .peek (.advance_bind (by simp) (ih (by rw [List.length_cons]; omega)).last)

/-- A break is a blank in front of whatever follows it. -/
theorem headKind_break (ended : Break) (ks : List TokenKind) (k : TokenKind) :
    isBlank (headKind (ended.kinds ++ ks) k) := by
  obtain ⟨first, later, same⟩ := List.exists_cons_of_ne_nil ended.filled
  rw [same]
  exact ended.blank first (by rw [same]; exact List.mem_cons_self)

/-- The last of the lines of a REQUIRES is kept. -/
theorem yields_refLines (lead : Blanks) {lines : List RefLine} (acc : List BehaviorRef)
    (apart : ∀ line ∈ lines, Apart line.refs) (enough : lines.length < n) :
    Yields (parseRequires n acc) (lead.kinds ++ lines.flatMap RefLine.kinds)
      (fun k => NotName k ∧ isBlank k = false) ((lines.getLast?.map RefLine.refs).getD acc) := by
  induction lines generalizing lead acc n with
  | nil =>
      obtain ⟨n, rfl⟩ := Nat.exists_eq_add_of_lt enough
      rw [List.flatMap_nil, List.append_nil]
      exact yields_requiresEnd lead.blank
  | cons line lines ih =>
      obtain ⟨n, rfl⟩ := Nat.exists_eq_add_of_lt enough
      obtain ⟨apart, later⟩ := List.forall_mem_cons.mp apart
      have rest := ih line.ended.toBlanks line.refs later (n := (line :: lines).length + n)
        (by rw [List.length_cons]; omega)
      have named : ∃ name later, line.refs.flatMap refKinds = .identifier name :: later := by
        obtain ⟨ref, refs, same⟩ := List.exists_cons_of_ne_nil line.filled
        exact ⟨ref.name, _, by rw [same]; rfl⟩
      have both := yields_requiresLine acc lead.blank named
        (fun m enough => yields_refs line.pins apart ((length_le_refKinds _).trans_lt enough)) rest
        fun k _ name same => by
          have blank := headKind_break line.ended (lines.flatMap RefLine.kinds) k
          rw [same] at blank
          cases blank
      rw [List.flatMap_cons, RefLine.kinds, List.append_assoc]
      have last : (((line :: lines).getLast?).map RefLine.refs).getD acc =
          (lines.getLast?.map RefLine.refs).getD line.refs := by
        rw [List.getLast?_cons]
        cases lines.getLast? <;> rfl
      rw [last]
      exact both

/-- The parser of a REQUIRES stops in a line where a pin swallows a name. -/
theorem yields_badRefLines (lines : List RefLine) (bad : ¬ ∀ line ∈ lines, Apart line.refs) :
    ∃ used left last, lines.flatMap RefLine.kinds = used ++ .atSign :: left ∧
      (∃ name later, used = .identifier name :: later) ∧
        ∀ (lead : Blanks) (acc : List BehaviorRef) (n : Nat),
        used.length < n → Yields (parseRequires n acc) (lead.kinds ++ used) (· = .atSign) last := by
  induction lines with
  | nil => simp at bad
  | cons line lines ih =>
      have named {used : List TokenKind} {left : List TokenKind}
          (parts : line.refs.flatMap refKinds = used ++ .atSign :: left) :
          ∃ name later, used = .identifier name :: later := by
        obtain ⟨ref, refs, same⟩ := List.exists_cons_of_ne_nil line.filled
        rw [same] at parts
        cases used with
        | nil => cases parts
        | cons k used => exact ⟨ref.name, used, congrArg (· :: used) (List.cons.inj parts).1.symm⟩
      by_cases apart : Apart line.refs
      · have later : ¬ ∀ line ∈ lines, Apart line.refs := fun all =>
          bad (List.forall_mem_cons.mpr ⟨apart, all⟩)
        obtain ⟨used, left, last, parts, begins, reads⟩ := ih later
        have first : ∃ name later, line.refs.flatMap refKinds = .identifier name :: later := by
          obtain ⟨ref, refs, same⟩ := List.exists_cons_of_ne_nil line.filled
          exact ⟨ref.name, _, by rw [same]; rfl⟩
        refine ⟨line.kinds ++ used, left, last, ?_, ?_, fun lead acc n enough => ?_⟩
        · rw [List.flatMap_cons, parts, List.append_assoc]
        · obtain ⟨name, rest, same⟩ := first
          exact ⟨name, _, by rw [RefLine.kinds, same]; rfl⟩
        · obtain ⟨n, rfl⟩ := Nat.exists_eq_add_of_lt enough
          have both := yields_requiresLine acc lead.blank first
            (fun m enough => yields_refs line.pins apart ((length_le_refKinds _).trans_lt enough))
            (reads line.ended.toBlanks line.refs ((line.kinds ++ used).length + n) ?_)
            fun k _ name same => by
              have blank := headKind_break line.ended used k
              rw [same] at blank
              cases blank
          · rwa [← List.append_assoc (line.refs.flatMap refKinds)] at both
          · obtain ⟨name, rest, same⟩ := first
            rw [RefLine.kinds, same, List.length_append, List.length_append, List.length_cons]
            omega
      · obtain ⟨used, left, read, parts, -, reads⟩ := yields_swallowed line.pins apart
        refine ⟨used, left ++ line.ended.kinds ++ lines.flatMap RefLine.kinds, read, ?_,
          named parts,
          fun lead acc n enough => ?_⟩
        · rw [List.flatMap_cons, RefLine.kinds, parts]
          simp
        · obtain ⟨name, later, rfl⟩ := named parts
          obtain ⟨n, rfl⟩ := Nat.exists_eq_add_of_lt enough
          have last : Yields (parseRequires (later.length + 1 + n) read) [] (· = .atSign) read := by
            rw [Nat.add_right_comm]
            exact (yields_requiresEnd (by simp)).mono fun k same =>
              ⟨(endsClauses_of_mark (.inr same)).2,
              (endsClauses_of_mark (.inr same)).1.1⟩
          have both := yields_requiresLine acc lead.blank ⟨name, later, rfl⟩ reads last
            fun _ same => same
          rwa [List.append_nil] at both

/-- Blanks in front of the clauses. -/
theorem yields_lead {contract : Contract} {after : Contract} (lead : Blanks)
    (reads : Yields (parseClauses (n + 1) contract) ks G after) :
    Yields (parseClauses (n + 1) contract) (lead.kinds ++ ks) G after := by
  intro tokens rest spelled follows
  obtain ⟨t₁, t₂, rfl, spelled₁, spelled₂⟩ := spelled_append spelled
  obtain ⟨u, m, skipped, returned⟩ := returns_bind.mp (reads t₂ rest spelled₂ follows)
  have skips : (t₁ ++ (t₂ ++ rest)).dropWhile (fun token => isBlank token.kind) =
      (t₂ ++ rest).dropWhile fun token => isBlank token.kind := by
    refine List.dropWhile_append_of_pos fun token member => ?_
    exact lead.blank _ (spelled₁ ▸ List.mem_map_of_mem member)
  rw [List.append_assoc]
  refine returns_bind.mpr ⟨u, m, returns_modify.mpr ?_, returned⟩
  rw [skips]
  exact returns_modify.mp skipped

/-- A clause keyword is no blank and no name. -/
theorem solid_keyword {word : Keyword} :
    isBlank (.keyword word) = false ∧ NotName (.keyword word) :=
  ⟨rfl, fun _ same => by cases same⟩

/-- Every clause line begins with a keyword. -/
theorem kinds_keyword (line : ClauseLine) : ∃ word later, line.kinds = .keyword word :: later := by
  cases line <;> exact ⟨_, _, rfl⟩

/-- Reference lines are no more than their tokens. -/
theorem length_le_refLines (lines : List RefLine) :
    lines.length ≤ (lines.flatMap RefLine.kinds).length := by
  induction lines with
  | nil => exact le_rfl
  | cons line lines ih =>
      have some_ := List.length_pos_of_ne_nil line.ended.filled
      rw [List.flatMap_cons, RefLine.kinds, List.length_append, List.length_append,
        List.length_cons]
      omega

/-- One clause, with blanks and other clauses behind it. -/
theorem yields_clause {contract after : Contract} (line : ClauseLine)
    (apart : ∀ refs ∈ line.refLines, ∀ line ∈ refs, Apart line.refs)
    (later : ∀ lead : Blanks, Yields (parseClauses n (addClause contract line))
      (lead.kinds ++ ks) G after)
    (solid : ∀ k, G k → isBlank (headKind ks k) = false ∧ NotName (headKind ks k)) :
    Yields (parseClauses (n + 1) contract) (line.kinds ++ ks) G after := by
  have blank (ended : Break) (k : TokenKind) := headKind_break ended ks k
  cases line with
  | input line ended =>
      rw [ClauseLine.kinds, List.cons_append, List.append_assoc]
      refine .solid_bind (.peek (.advance_bind (by simp) ?_)) fun _ _ => rfl
      exact (yields_parameter line).bind (later ended.toBlanks) fun k _ => blank ended k
  | output line ended =>
      rw [ClauseLine.kinds, List.cons_append, List.append_assoc]
      refine .solid_bind (.peek (.advance_bind (by simp) ?_)) fun _ _ => rfl
      exact (yields_parameter line).bind (later ended.toBlanks) fun k _ => blank ended k
  | requires lead lines =>
      have reads (m : Nat) (enough : (lines.flatMap RefLine.kinds).length < m) :=
        yields_refLines (n := m)
        ⟨[], by simp⟩ [] (apart lines rfl) ((length_le_refLines lines).trans_lt enough)
      rw [ClauseLine.kinds, List.cons_append, List.append_assoc]
      refine yields_requiresClause lead.blank reads (later ⟨[], by simp⟩) (fun k allowed => ?_)
        fun k allowed => (solid k allowed).symm
      cases lines with
      | nil => exact (solid k allowed).1
      | cons line lines =>
          obtain ⟨ref, refs, same⟩ := List.exists_cons_of_ne_nil line.filled
          simp [RefLine.kinds, same, refKinds, headKind, isBlank]
  | memory names ended =>
      rw [ClauseLine.kinds, List.cons_append, List.append_assoc]
      refine .solid_bind (.peek (.advance_bind (by simp) ?_)) fun _ _ => rfl
      exact .within_bind (fun m enough => yields_names (by simpa using enough))
        (later ended.toBlanks)
        fun k _ => blank ended k
  | guarantees listed ended =>
      rw [ClauseLine.kinds, List.cons_append, List.append_assoc]
      refine .solid_bind (.peek (.advance_bind (by simp) ?_)) fun _ _ => rfl
      exact .within_bind (fun m enough => yields_guarantees (by simpa using enough))
        (later ended.toBlanks)
        fun k _ => blank ended k

/-- A clause keyword stands where the next clause does. -/
theorem solid_clauses {lines : List ClauseLine} {k : TokenKind} (ends : EndsClauses k) :
    isBlank (headKind (lines.flatMap ClauseLine.kinds) k) = false ∧
      NotName (headKind (lines.flatMap ClauseLine.kinds) k) := by
  cases lines with
  | nil => exact ⟨ends.1, ends.2.1⟩
  | cons line lines =>
      obtain ⟨word, later, same⟩ := kinds_keyword line
      rw [List.flatMap_cons, same]
      exact solid_keyword

/-- The clauses of a contract are all read when no pin swallows a name. -/
theorem yields_clauses {contract : Contract} {lines : List ClauseLine} (lead : Blanks)
    (apart : ∀ line ∈ lines, ∀ listed ∈ line.refLines, ∀ line ∈ listed, Apart line.refs)
    (enough : lines.length < n) :
    Yields (parseClauses n contract) (lead.kinds ++ lines.flatMap ClauseLine.kinds) EndsClauses
      (lines.foldl addClause contract) := by
  induction lines generalizing lead contract n with
  | nil =>
      obtain ⟨n, rfl⟩ := Nat.exists_eq_add_of_lt enough
      exact yields_lead lead yields_clausesEnd
  | cons line lines ih =>
      obtain ⟨n, rfl⟩ := Nat.exists_eq_add_of_lt enough
      obtain ⟨here, apart⟩ := List.forall_mem_cons.mp apart
      exact yields_lead lead (yields_clause line here
        (fun lead => ih lead apart (by rw [List.length_cons]; omega)) fun _ ends =>
          solid_clauses ends)

/-- The parser of the clauses stops in a line where a pin swallows a name. -/
theorem yields_badClauses {lines : List ClauseLine}
    (bad : ¬ ∀ line ∈ lines, ∀ listed ∈ line.refLines, ∀ line ∈ listed, Apart line.refs) :
    ∃ used left, lines.flatMap ClauseLine.kinds = used ++ .atSign :: left ∧
      (∃ word later, used = .keyword word :: later) ∧ ∀ (contract : Contract) (n : Nat),
        used.length < n →
        ∃ after, ∀ lead : Blanks, Yields (parseClauses n contract) (lead.kinds ++ used)
          (· = .atSign) after := by
  induction lines with
  | nil => simp at bad
  | cons line lines ih =>
      by_cases here : ∀ listed ∈ line.refLines, ∀ line ∈ listed, Apart line.refs
      · obtain ⟨used, left, parts, ⟨first, more, begins⟩, reads⟩ :=
          ih fun all => bad (List.forall_mem_cons.mpr ⟨here, all⟩)
        obtain ⟨word, later, same⟩ := kinds_keyword line
        refine ⟨line.kinds ++ used, left, ?_, ⟨word, later ++ used, by rw [same]; rfl⟩,
          fun contract n enough => ?_⟩
        · rw [List.flatMap_cons, parts, List.append_assoc]
        · obtain ⟨n, rfl⟩ := Nat.exists_eq_add_of_lt enough
          have fewer : used.length < (line.kinds ++ used).length + n := by
            rw [same, List.cons_append, List.length_cons, List.length_append]
            omega
          obtain ⟨after, reads⟩ := reads (addClause contract line) _ fewer
          refine ⟨after, fun lead => yields_lead lead (yields_clause line here reads fun k _ => ?_)⟩
          rw [begins]
          exact solid_keyword
      · cases line with
        | requires lead refLines =>
            obtain ⟨used, left, last, parts, begins, reads⟩ := yields_badRefLines refLines
              fun all => here fun listed same => by obtain rfl := Option.some.inj same; exact all
            obtain ⟨name, later, filled⟩ := begins
            refine ⟨.keyword .requires :: (lead.kinds ++ used),
              left ++ lines.flatMap ClauseLine.kinds, ?_,
              ⟨_, _, rfl⟩, fun contract n enough => ?_⟩
            · rw [List.flatMap_cons, ClauseLine.kinds, parts]
              simp
            · obtain ⟨n, rfl⟩ := Nat.exists_eq_add_of_lt enough
              have stop :
                Yields (parseClauses
                  ((TokenKind.keyword .requires :: (lead.kinds ++ used)).length + n)
                    { contract with requires := { behaviors := last } }) [] (· = .atSign)
                  { contract with requires := { behaviors := last } } :=
                yields_clausesEnd.mono fun k same => (endsClauses_of_mark (.inr same)).1
              have both := yields_requiresClause lead.blank (reads ⟨[], by simp⟩ []) stop
                (fun k _ => by rw [filled]; rfl) fun _ same => same
              rw [List.append_nil] at both
              exact ⟨_, fun lead => yields_lead lead both⟩
        | input | output | memory | guarantees => exact absurd (fun _ same => by cases same) here

end Lines

/-- Clause lines are no more than their tokens. -/
theorem length_le_clauses (lines : List ClauseLine) :
    lines.length ≤ (lines.flatMap ClauseLine.kinds).length := by
  induction lines with
  | nil => exact le_rfl
  | cons line lines ih =>
      obtain ⟨word, later, same⟩ := kinds_keyword line
      rw [List.flatMap_cons, same, List.length_append, List.length_cons, List.length_cons]
      omega

/-- The parser keeps what the clauses list exactly when no later clause replaces it and no pin
swallows a name. -/
theorem parseContract_keeps_iff {lines : List ClauseLine} (lead : Blanks) {tokens rest : List Token}
    (spelled : tokens.map Token.kind = lead.kinds ++ lines.flatMap ClauseLine.kinds)
    (ends : EndsClauses (peek rest).kind) :
    (∃ contract, Returns parseContract (tokens ++ rest) contract rest ∧ contract.Keeps lines) ↔
      NothingLost lines := by
  by_cases apart : ∀ line ∈ lines, ∀ listed ∈ line.refLines, ∀ line ∈ listed, Apart line.refs
  · have reads : Yields parseContract (lead.kinds ++ lines.flatMap ClauseLine.kinds) EndsClauses
        (lines.foldl addClause { inputs := [], outputs := [], guarantees := [] }) := by
      refine .within (g := fun n => parseClauses n _) fun n enough => yields_clauses lead apart ?_
      have most := length_le_clauses lines
      rw [List.length_append] at enough
      omega
    have returned := reads tokens rest spelled ends
    rw [foldl_addClause] at returned
    constructor
    · rintro ⟨contract, read, keeps⟩
      obtain ⟨rfl, -⟩ := read.unique returned
      exact ⟨apart, keeps.refs, keeps.memory, keeps.guarantees⟩
    · exact fun kept => ⟨_, returned, rfl, rfl, kept.refs, kept.memory, kept.guarantees⟩
  · refine iff_of_false ?_ fun kept => apart kept.apart
    rintro ⟨contract, read, -⟩
    obtain ⟨used, left, parts, -, reads⟩ := yields_badClauses apart
    obtain ⟨after, stops⟩ := reads { inputs := [], outputs := [], guarantees := [] }
      ((tokens ++ rest).length + 1) (by
      have whole := congrArg List.length (spelled.trans (congrArg (lead.kinds ++ ·) parts))
      simp only [List.length_map, List.length_append, List.length_cons] at whole ⊢
      omega)
    rw [parts, ← List.append_assoc] at spelled
    obtain ⟨front, back, rfl, before, behind⟩ := spelled_append spelled
    obtain ⟨mark, later, rfl, isMark, -⟩ := spelled_cons behind
    rw [List.append_assoc] at read
    have stopped := stops lead front (mark :: later ++ rest) before isMark
    obtain ⟨m, t, one, two⟩ := returns_bind.mp read
    obtain ⟨rfl, rfl⟩ := returns_get.mp one
    rw [List.append_assoc] at stopped
    obtain ⟨-, same⟩ := two.unique stopped
    have longer := congrArg List.length same
    rw [List.length_append, List.length_cons] at longer
    omega

end Parser

def newline : Break := ⟨⟨[.newline], by decide⟩, by decide⟩

/-- `name@hash` on a line of its own. -/
def lineOfOne (name hash : String) (pin : IsPin hash) (ended : Break) : RefLine :=
  ⟨[⟨name, hash⟩], by simp, fun _ member => by obtain rfl := List.mem_singleton.mp member; exact pin, ended⟩

/-- `INPUT n int 8`, `REQUIRES parse@0abc1234`, `MEMORY config` and `GUARANTEES pure`. -/
def keptClauses : List ClauseLine :=
  [.input ⟨⟨"n", .int, 8⟩, true, by decide, by simp⟩ newline,
    .requires ⟨[], by simp⟩ [lineOfOne "parse" "0abc1234" ⟨by decide, by decide⟩ newline],
    .memory ["config"] newline, .guarantees [.pure] newline]

/-- An INPUT, a reference, a MEMORY name and a guarantee. -/
theorem parseContract_keeps_iff_kept :
    let tokens := (keptClauses.flatMap ClauseLine.kinds).map fun kind => Token.mk kind ⟨1, 1, 1⟩
    (∃ contract, Returns Parser.parseContract (tokens ++ [⟨.eof, ⟨5, 1, 0⟩⟩]) contract
      [⟨.eof, ⟨5, 1, 0⟩⟩] ∧
      contract.Keeps keptClauses) ↔ NothingLost keptClauses := by
  refine Parser.parseContract_keeps_iff ⟨[], by simp⟩ ?_ (endsClauses_of_mark (.inl rfl)).1
  rw [List.map_map]
  exact List.map_id _

/-- A list broken over two lines behind a MEMORY, and two GUARANTEES. -/
def replacedText : String :=
  "CONTRACT\nMEMORY config\nREQUIRES parse@0abc1234\n  serve@12345678\nGUARANTEES pure\nGUARANTEES no_alloc\n"

def replacedClauses : List ClauseLine :=
  [.memory ["config"] newline,
    .requires ⟨[], by simp⟩ [
      lineOfOne "parse" "0abc1234" ⟨by decide, by decide⟩
        ⟨⟨[.newline, .indent 2], by decide⟩, by decide⟩,
      lineOfOne "serve" "12345678" ⟨by decide, by decide⟩ newline],
    .guarantees [.pure] newline, .guarantees [.noAlloc] newline]

/-- One reference, the memory and one guarantee are lost. -/
theorem contractOf_replaced :
    (lex replacedText).toOption.map (·.map Token.kind) =
        some (.keyword .contract :: .newline :: replacedClauses.flatMap ClauseLine.kinds ++
          [.eof]) ∧
      contractOf replacedText = some ⟨[], [], ⟨[⟨"serve", "12345678"⟩], []⟩, [.noAlloc]⟩ ∧
      ∀ contract, contractOf replacedText = some contract → ¬ contract.Keeps replacedClauses := by
  have read : contractOf replacedText =
    some ⟨[], [], ⟨[⟨"serve", "12345678"⟩], []⟩, [.noAlloc]⟩ := by
    decide +kernel
  refine ⟨by decide +kernel, read, fun contract same keeps => ?_⟩
  rw [read] at same
  obtain rfl := Option.some.inj same
  have kept := keeps.memory "config" (by simp [replacedClauses, ClauseLine.names])
  simp at kept

end Sigil
