import Sigil.Lexer.Places
import Sigil.Parser.Sections

/-!
# Columns of tokens

No part of the parser looks at the column a token stands in.
-/

namespace Sigil

namespace Parser

open Flow

variable {α β : Type} {s s' t : List Token}

/-- Texts on the same lines begin with tokens on the same line. -/
theorem level_peek (same : SameLines s s') : (peek s).Level (peek s') := by
  cases same with
  | nil => exact ⟨rfl, rfl⟩
  | cons level _ => exact level

/-- Texts on the same lines stay so behind a token. -/
theorem sameLines_next (same : SameLines s s') : SameLines (next s) (next s') := by
  unfold next
  rw [(level_peek same).kind]
  split
  · exact same
  · cases same with
    | nil => exact .nil
    | cons _ rest => exact rest

/-- Texts on the same lines stay so behind the blank tokens. -/
theorem sameLines_skip (same : SameLines s s') :
    SameLines (s.dropWhile fun token => isBlank token.kind)
      (s'.dropWhile fun token => isBlank token.kind) := by
  induction same with
  | nil => exact .nil
  | cons level rest ih =>
      rw [List.dropWhile_cons, List.dropWhile_cons, level.kind]
      split
      · exact ih
      · exact .cons level rest

/-- The parser returns the same when the tokens stand in other columns. -/
class Columnless (p : Parser α) : Prop where
  returns : ∀ ⦃s s' : List Token⦄ ⦃a : α⦄ ⦃t : List Token⦄, SameLines s s' → Returns p s a t →
    ∃ t', SameLines t t' ∧ Returns p s' a t'

section Rules

variable {x : Parser α} {f : α → Parser β}

instance columnless_bind [first : Columnless x] [rest : ∀ a, Columnless (f a)] :
    Columnless (x >>= f) where
  returns := by
    intro s s' b t same returned
    obtain ⟨a, m, one, two⟩ := returns_bind.mp returned
    obtain ⟨m', same', one'⟩ := first.returns same one
    obtain ⟨t', same'', two'⟩ := (rest a).returns same' two
    exact ⟨t', same'', returns_bind.mpr ⟨a, m', one', two'⟩⟩

instance columnless_pure (a : α) : Columnless (pure a : Parser α) where
  returns := by
    intro s s' b t same returned
    obtain ⟨rfl, rfl⟩ := returns_pure.mp returned
    exact ⟨s', same, returns_pure.mpr ⟨rfl, rfl⟩⟩

instance columnless_fail (kind : ParseErrorKind) : Columnless (fail kind : Parser α) where
  returns := fun _ _ _ _ _ returned => absurd returned not_returns_fail

instance columnless_advance : Columnless advance where
  returns := by
    intro s s' u t same returned
    rw [returns_advance.mp returned]
    exact ⟨_, sameLines_next same, returns_advance.mpr rfl⟩

instance columnless_skipNewlines : Columnless skipNewlines where
  returns := by
    intro s s' u t same returned
    rw [returns_skipNewlines.mp returned]
    exact ⟨_, sameLines_skip same, returns_skipNewlines.mpr rfl⟩

instance columnless_peekKind : Columnless peekKind where
  returns := by
    intro s s' kind t same returned
    obtain ⟨rfl, rfl⟩ := returns_peekKind.mp returned
    exact ⟨s', same, returns_peekKind.mpr ⟨(level_peek same).kind, rfl⟩⟩

/-- What is looked up of the tokens does not depend on their columns. -/
theorem columnless_get {f : List Token → Parser β} (looks : ∀ s s', SameLines s s' → f s = f s')
    (rest : ∀ s, Columnless (f s)) : Columnless (get >>= f) where
  returns := by
    intro s s' b t same returned
    obtain ⟨seen, left, read, later⟩ := returns_bind.mp returned
    obtain ⟨rfl, rfl⟩ := returns_get.mp read
    rw [looks left s' same] at later
    obtain ⟨t', same', returned'⟩ := (rest s').returns same later
    exact ⟨t', same', returns_bind.mpr ⟨s', s', returns_get.mpr ⟨rfl, rfl⟩, returned'⟩⟩

/-- A loop that is bounded by the number of tokens left. -/
theorem columnless_sized (g : Nat → Parser β) [loop : ∀ n, Columnless (g n)] :
    Columnless (get >>= fun s => g (s.length + 1)) :=
  columnless_get (fun _ _ same => by rw [same.length_eq]) fun _ => loop _

instance columnless_currentLine : Columnless currentLine :=
  columnless_get (fun _ _ same => by rw [(level_peek same).line]) fun _ => inferInstance

end Rules

section Words

instance {expected : TokenKind} : Columnless (expect expected) := by
  refine @columnless_bind _ _ _ _ _ fun kind => ?_
  split <;> infer_instance

instance : Columnless expectIdentifier := by
  refine @columnless_bind _ _ _ _ _ fun kind => ?_
  split <;> infer_instance

instance : Columnless parseType := by
  refine @columnless_bind _ _ _ _ _ fun kind => ?_
  split <;> infer_instance

instance : Columnless parseInteger := by
  refine @columnless_bind _ _ _ _ _ fun kind => ?_
  split <;> infer_instance

instance : Columnless hashText := by
  refine @columnless_bind _ _ _ _ _ fun kind => ?_
  split
  · infer_instance
  · refine @columnless_bind _ _ _ _ _ fun _ => @columnless_bind _ _ _ _ _ fun kind => ?_
    split
    · split <;> infer_instance
    · infer_instance
  · infer_instance

instance : Columnless expectHexString := by
  unfold expectHexString
  infer_instance

instance (typ : AstType) : Columnless (parseSize typ) := by
  refine @columnless_bind _ _ _ _ _ fun kind => ?_
  split <;> infer_instance

instance : Columnless parseParameter := by
  unfold parseParameter
  infer_instance

instance : Columnless parsePin := by
  refine @columnless_bind _ _ _ _ _ fun kind => ?_
  split <;> infer_instance

end Words

section Clauses

instance columnless_parseBehaviorRefs (n : Nat) : Columnless (parseBehaviorRefs n) := by
  induction n with
  | zero => exact columnless_pure _
  | succ n ih =>
      refine @columnless_bind _ _ _ _ _ fun kind => ?_
      split <;> infer_instance

instance columnless_parseGuarantees (n : Nat) : Columnless (parseGuarantees n) := by
  induction n with
  | zero => exact columnless_pure _
  | succ n ih =>
      refine @columnless_bind _ _ _ _ _ fun kind => ?_
      split <;> infer_instance

instance columnless_parseMemory (n : Nat) : Columnless (parseMemory n) := by
  induction n with
  | zero => exact columnless_pure _
  | succ n ih =>
      refine @columnless_bind _ _ _ _ _ fun kind => ?_
      split <;> infer_instance

instance columnless_parseRequires (n : Nat) (behaviors : List BehaviorRef) :
    Columnless (parseRequires n behaviors) := by
  induction n generalizing behaviors with
  | zero => exact columnless_pure _
  | succ n ih =>
      refine @columnless_bind _ _ _ _ _ fun _ => @columnless_bind _ _ _ _ _ fun kind => ?_
      split
      · exact columnless_sized fun size => parseBehaviorRefs size >>= fun refs =>
          parseRequires n refs
      · infer_instance

instance columnless_parseClauses (n : Nat) (contract : Contract) :
    Columnless (parseClauses n contract) := by
  induction n generalizing contract with
  | zero => exact columnless_pure _
  | succ n ih =>
      refine @columnless_bind _ _ _ _ _ fun _ => @columnless_bind _ _ _ _ _ fun kind => ?_
      have requires : Columnless (do
          let behaviors ← parseRequires ((← get).length + 1) []
          parseClauses n { contract with requires := { behaviors := behaviors } }) :=
        columnless_sized fun size => parseRequires size [] >>= fun behaviors =>
          parseClauses n { contract with requires := { behaviors := behaviors } }
      have guarantees : Columnless (do
          let guarantees ← parseGuarantees ((← get).length + 1)
          parseClauses n { contract with guarantees := guarantees }) :=
        columnless_sized fun size => parseGuarantees size >>= fun guarantees =>
          parseClauses n { contract with guarantees := guarantees }
      have memory : Columnless (do
          let memory ← parseMemory ((← get).length + 1)
          parseClauses n { contract with
            requires := { contract.requires with memory := contract.requires.memory ++ memory }
              }) :=
        columnless_sized fun size => parseMemory size >>= fun memory =>
          parseClauses n { contract with
          requires := { contract.requires with memory := contract.requires.memory ++ memory } }
      split <;> infer_instance

instance : Columnless parseContract := columnless_sized fun size => parseClauses size _

end Clauses

section Operands

variable {operand : Parser Expr}

instance columnless_parseArgs (ends : TokenKind → Bool) [Columnless operand] (n : Nat) :
    Columnless (parseArgs operand ends n) := by
  induction n with
  | zero => exact columnless_fail _
  | succ n ih =>
      refine @columnless_bind _ _ _ _ _ fun kind => ?_
      split <;> infer_instance

instance columnless_parseHandles (n : Nat) : Columnless (parseHandles n) := by
  induction n with
  | zero => exact columnless_fail _
  | succ n ih =>
      refine @columnless_bind _ _ _ _ _ fun kind => ?_
      split <;> infer_instance

instance columnless_parseMoreNames (n : Nat) : Columnless (parseMoreNames n) := by
  induction n with
  | zero => exact columnless_fail _
  | succ n ih =>
      refine @columnless_bind _ _ _ _ _ fun kind => ?_
      split <;> infer_instance

instance : Columnless parseSomeHandles := by
  refine @columnless_bind _ _ _ _ _ fun handle => ?_
  exact columnless_sized fun size => parseHandles size >>= fun rest => pure (handle :: rest)

instance : Columnless parseOutputs := by
  refine @columnless_bind _ _ _ _ _ fun kind => ?_
  split
  · refine @columnless_bind _ _ _ _ _ fun _ => @columnless_bind _ _ _ _ _ fun name => ?_
    exact columnless_sized fun size => parseMoreNames size >>= fun rest => pure (name :: rest)
  · infer_instance

instance [Columnless operand] : Columnless (parseOffset operand) := by
  refine @columnless_bind _ _ _ _ _ fun kind => ?_
  split <;> infer_instance

instance : Columnless parseSizeOf := by
  unfold parseSizeOf
  infer_instance

instance : Columnless parseVar := by
  refine @columnless_bind _ _ _ _ _ fun name => @columnless_bind _ _ _ _ _ fun kind => ?_
  split <;> infer_instance

instance [Columnless operand] {constructor : Expr → Nat → Expr} :
    Columnless (parseUnaryOp operand constructor) := by
  unfold parseUnaryOp
  infer_instance

instance [Columnless operand] {constructor : Expr → Expr → Nat → Expr} :
    Columnless (parseBinaryOp operand constructor) := by
  unfold parseBinaryOp
  infer_instance

instance [Columnless operand] {constructor : Expr → Nat → Nat → Expr} :
    Columnless (parseConversion operand constructor) := by
  unfold parseConversion
  infer_instance

instance columnless_parseKeyword [Columnless operand] (word : Keyword) :
    Columnless (parseKeyword operand word) := by
  have typed (size : Expr) (typ : AstType) : Columnless (do
      match ← peekKind with
      | .keyword .shared =>
          advance
          return .alloc size typ true
      | _ => return .alloc size typ false : Parser Expr) := by
    refine @columnless_bind _ _ _ _ _ fun kind => ?_
    split <;> infer_instance
  have args (ends : TokenKind → Bool) (node : String → List Expr → Expr) (name : String) :
    Columnless (do
      let args ← parseArgs operand ends ((← get).length + 1)
      return node name args) :=
    columnless_sized fun size => parseArgs operand ends size >>= fun args => pure (node name args)
  have call := args endsCall .call
  have spawn := args endsSpawn .spawn
  cases word <;> (unfold parseKeyword; infer_instance)

end Operands

section Statements

variable {double : String → BitVec 64} {body : Parser (List Node)}

instance columnless_parseExprWithin (n : Nat) : Columnless (parseExprWithin double n) := by
  induction n with
  | zero => exact columnless_fail _
  | succ n ih =>
      refine @columnless_bind _ _ _ _ _ fun kind => ?_
      split <;> infer_instance

instance : Columnless (parseExpr double) := columnless_sized fun size => parseExprWithin double size

instance {line : Nat} {name : String} : Columnless (parseAssigned double line name) := by
  refine @columnless_bind _ _ _ _ _ fun kind => ?_
  split <;> infer_instance

instance : Columnless expectEquals := by
  refine @columnless_bind _ _ _ _ _ fun kind => ?_
  split <;> infer_instance

instance {line : Nat} {name : String} : Columnless (parseTargets line name) := by
  have handles (which : String) : Columnless (do
      let handles ← parseHandles ((← get).length + 1)
      return .waitAny line name which handles : Parser Node) :=
    columnless_sized fun size => parseHandles size >>= fun handles =>
      pure (Node.waitAny line name which handles)
  have targets (more : List String) : Columnless (do
      expectEquals
      match ← peekKind with
      | .keyword .waitAny =>
          advance
          match more with
          | [which] =>
              let handles ← parseHandles ((← get).length + 1)
              return .waitAny line name which handles
          | _ => fail .waitAnyTargets
      | .keyword .waitAll =>
          advance
          let handles ← parseSomeHandles
          return .waitAll line (name :: more) handles
      | _ => fail .expectedWait : Parser Node) := by
    refine @columnless_bind _ _ _ _ _ fun _ => @columnless_bind _ _ _ _ _ fun kind => ?_
    split
    · refine @columnless_bind _ _ _ _ _ fun _ => ?_
      split <;> infer_instance
    · infer_instance
    · infer_instance
  exact columnless_sized fun size => parseMoreNames size >>= _

instance columnless_parseStatement [Columnless body] {line : Nat} (word : Keyword) :
    Columnless (parseStatement double body line word) := by
  have call (behavior : String) : Columnless (do
      let args ← parseArgs (parseExpr double) endsCall ((← get).length + 1)
      let outputs ← parseOutputs
      return .call line none behavior args outputs : Parser Node) :=
    columnless_sized fun size => parseArgs (parseExpr double) endsCall size >>= fun args =>
      parseOutputs >>= fun outputs => pure (Node.call line none behavior args outputs)
  cases word <;> (unfold parseStatement; infer_instance)

instance : Columnless skipIndent := by
  refine @columnless_bind _ _ _ _ _ fun kind => ?_
  split <;> infer_instance

instance [Columnless body] {line : Nat} : Columnless (parseUnindented double body line) := by
  refine @columnless_bind _ _ _ _ _ fun kind => ?_
  split
  · infer_instance
  · refine @columnless_bind _ _ _ _ _ fun _ => @columnless_bind _ _ _ _ _ fun kind => ?_
    split <;> infer_instance
  · infer_instance

instance [Columnless body] : Columnless (parseNode double body) := by
  unfold parseNode
  infer_instance

instance columnless_parseNodes (inScope : Bool) (n : Nat) :
    Columnless (parseNodes double inScope n) := by
  induction n generalizing inScope with
  | zero => exact columnless_fail _
  | succ n ih =>
      refine @columnless_bind _ _ _ _ _ fun _ => @columnless_bind _ _ _ _ _ fun kind => ?_
      split
      · infer_instance
      · split <;> infer_instance

instance : Columnless (parseImplementation double) :=
  columnless_sized fun size => parseNodes double false size

end Statements

section Sections

variable {double : String → BitVec 64}

/-- A DESCRIPTION scans texts on the same lines alike. -/
theorem sameLines_scan {atLineStart : Bool} {endLine : Nat} (same : SameLines s s') :
    (scanDescription atLineStart endLine s).1 = (scanDescription atLineStart endLine s').1 ∧
      SameLines (scanDescription atLineStart endLine s).2
        (scanDescription atLineStart endLine s').2 := by
  induction same generalizing atLineStart endLine with
  | nil => exact ⟨rfl, .nil⟩
  | cons level rest ih =>
      rw [scanDescription, scanDescription, level.kind, level.line]
      split
      · exact ⟨rfl, .cons level rest⟩
      · split
        · exact ⟨rfl, .cons level rest⟩
        · exact ih
        · exact ih
        · exact ih

instance : Columnless describedLines where
  returns := by
    intro s s' lines t same returned
    obtain ⟨rfl, rfl⟩ := returns_describedLines.mp returned
    have skipped := sameLines_skip same
    rw [(level_peek skipped).line]
    obtain ⟨last, left⟩ := @sameLines_scan _ _ true
      (peek (s'.dropWhile fun token => isBlank token.kind)).span.line skipped
    exact ⟨_, left, returns_describedLines.mpr ⟨by rw [last], rfl⟩⟩

instance : Columnless parsePlatform := by
  refine @columnless_bind _ _ _ _ _ fun kind => ?_
  split <;> infer_instance

instance (platform : Option String) : Columnless (endPlatform platform) := by
  refine @columnless_bind _ _ _ _ _ fun kind => ?_
  split
  · split <;> infer_instance
  · infer_instance

instance (kind : TokenKind) : Columnless (parseSectionOf double kind) := by
  unfold parseSectionOf
  split <;> infer_instance

instance : Columnless (parseSection double) := by
  unfold parseSection
  infer_instance

instance columnless_parseSections (n : Nat) : Columnless (parseSections double n) := by
  induction n with
  | zero => exact columnless_fail _
  | succ n ih =>
      refine @columnless_bind _ _ _ _ _ fun first => ?_
      split <;> infer_instance

end Sections

end Parser

end Sigil
