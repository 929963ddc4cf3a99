import Sigil.Parser.Bodies

/-!
# SCOPEs of accepted bodies

What the parser passes over on the way through a body. Statements other than SCOPE have none of
the tokens that open, close or end something; a SCOPE is closed by END_SCOPE, or left open where
the body ends.
-/

namespace Sigil.Parser

open Flow

variable {α β : Type} {p : Parser α} {f : α → Parser β} {k : TokenKind}
  {double : String → BitVec 64}

/-- A body ends at END and at the end of the file. -/
def endsBody : TokenKind → Bool
  | .keyword .endBehavior | .eof => true
  | _ => false

/-- A body ends at END or at the end of the text. -/
theorem endsBody_iff : endsBody k = true ↔ k = .keyword .endBehavior ∨ k = .eof := by
  unfold endsBody
  split <;> simp_all

/-- A token that ends a body is no blank. -/
theorem visible_of_endsBody (ends : endsBody k = true) : isBlank k = false := by
  rcases endsBody_iff.mp ends with rfl | rfl <;> rfl

/-- The token neither opens nor closes a SCOPE and ends no body. -/
def Plain (k : TokenKind) : Prop :=
  k ≠ .keyword .scope ∧ k ≠ .keyword .endScope ∧ endsBody k = false

/-- A blank token is plain. -/
theorem plain_of_isBlank (blank : isBlank k = true) : Plain k := by
  cases k <;> simp_all [isBlank, Plain, endsBody]

/-- A returning run has passed over plain tokens. -/
def PassesFrom (p : Parser α) (s : List Token) : Prop :=
  ∀ a t, Returns p s a t → ∃ used, s = used ++ t ∧ ∀ token ∈ used, Plain token.kind

/-- Every returning run passes over plain tokens. -/
def Passes (p : Parser α) : Prop := ∀ s, PassesFrom p s

/-- The same of the runs that start at a token of the kind. -/
def PassesAt (k : TokenKind) (p : Parser α) : Prop := ∀ s, (peek s).kind = k → PassesFrom p s

namespace Passes

/-- A parser that reads nothing passes. -/
theorem pure {a : α} : Passes (pure a : Parser α) := by
  intro s a' t returned
  obtain ⟨rfl, rfl⟩ := returns_pure.mp returned
  exact ⟨[], rfl, by simp⟩

/-- A failing parser passes. -/
theorem fail {kind : ParseErrorKind} : Passes (Parser.fail kind : Parser α) := by
  intro s a t returned
  obtain ⟨_, _, _, two⟩ := returns_bind.mp returned
  exact absurd two not_returns_throw

/-- The tokens of one part and those of the next. -/
theorem join {s m t : List Token} (first : ∃ used, s = used ++ m ∧ ∀ token ∈ used, Plain token.kind)
    (second : ∃ used, m = used ++ t ∧ ∀ token ∈ used, Plain token.kind) :
    ∃ used, s = used ++ t ∧ ∀ token ∈ used, Plain token.kind := by
  obtain ⟨used, rfl, plain⟩ := first
  obtain ⟨later, rfl, plain'⟩ := second
  refine ⟨used ++ later, (List.append_assoc ..).symm, fun token inside => ?_⟩
  exact (List.mem_append.mp inside).elim (plain token) (plain' token)

/-- Passing parsers one after the other pass. -/
theorem bind (first : Passes p) (second : ∀ a, Passes (f a)) : Passes (p >>= f) := by
  intro s b t returned
  obtain ⟨a, m, one, two⟩ := returns_bind.mp returned
  exact join (first s a m one) (second a m b t two)

/-- What is read last. -/
theorem last {g : α → β} (first : Passes p) : Passes (do
    let x ← p
    return g x) := first.bind fun _ => .pure

/-- A parser that peeks passes when each branch does. -/
theorem peek {f : TokenKind → Parser β} (second : ∀ k, PassesAt k (f k)) :
    Passes (peekKind >>= f) := by
  intro s b t returned
  obtain ⟨k, m, one, two⟩ := returns_bind.mp returned
  obtain ⟨rfl, rfl⟩ := returns_peekKind.mp one
  exact second _ m rfl b t two

/-- The number of tokens left bounds a loop. -/
theorem within {f : List Token → Parser β} (second : ∀ tokens, Passes (f tokens)) :
    Passes (do f (← get)) := by
  intro s b t returned
  obtain ⟨tokens, m, one, two⟩ := returns_bind.mp returned
  obtain ⟨rfl, rfl⟩ := returns_get.mp one
  exact second _ _ b t two

/-- A parser that passes does so in front of every token. -/
theorem from_kind (passes : Passes p) : PassesAt k p := fun s _ => passes s

end Passes

/-- A plain token is passed. -/
theorem PassesAt.advance {f : Unit → Parser β} (plain : Plain k) (second : Passes (f ())) :
    PassesAt k (Parser.advance >>= f) := by
  intro s here b t returned
  obtain ⟨u, m, one, two⟩ := returns_bind.mp returned
  obtain rfl := returns_advance.mp one
  refine Passes.join ?_ (second _ b t two)
  cases s with
  | nil => exact ⟨[], rfl, by simp⟩
  | cons x s =>
      rw [peek_cons] at here
      refine ⟨[x], ?_, by simpa [here] using plain⟩
      rw [next_cons (by rintro same; simp [← here, same, Plain, endsBody] at plain),
        List.singleton_append]

/-- A name is passed. -/
theorem passes_expectIdentifier : Passes expectIdentifier := by
  refine .peek fun k => ?_
  cases k with
  | identifier n => exact .advance (by simp [Plain, endsBody]) .pure
  | _ => exact Passes.fail.from_kind

/-- A type is passed. -/
theorem passes_parseType : Passes parseType := by
  refine .peek fun k => ?_
  split
  next typ => exact .advance (by simp [Plain, endsBody]) .pure
  next => exact Passes.fail.from_kind

/-- A size is passed. -/
theorem passes_parseSizeOf : Passes parseSizeOf := by
  refine Passes.last (.peek fun k => ?_)
  cases k with
  | integer n => exact .advance (by simp [Plain, endsBody]) .pure
  | _ => exact Passes.fail.from_kind

/-- A variable is passed. -/
theorem passes_parseVar : Passes parseVar := by
  refine .bind passes_expectIdentifier fun name => .peek fun k => ?_
  cases k with
  | dot => exact .advance (by simp [Plain, endsBody]) passes_expectIdentifier.last
  | _ => exact Passes.pure.from_kind

/-- Handles are passed. -/
theorem passes_parseHandles {steps : Nat} : Passes (parseHandles steps) := by
  induction steps with
  | zero => exact .fail
  | succ steps ih =>
      refine .peek fun k => ?_
      cases k with
      | identifier n => exact (passes_expectIdentifier.bind fun _ => ih.last).from_kind
      | _ => exact Passes.pure.from_kind

/-- One handle and more are passed. -/
theorem passes_parseSomeHandles : Passes parseSomeHandles :=
  passes_expectIdentifier.bind fun _ => .within fun _ => passes_parseHandles.last

/-- Names behind commas are passed. -/
theorem passes_parseMoreNames {steps : Nat} : Passes (parseMoreNames steps) := by
  induction steps with
  | zero => exact .fail
  | succ steps ih =>
      refine .peek fun k => ?_
      cases k with
      | comma =>
          exact .advance (by simp [Plain, endsBody]) (passes_expectIdentifier.bind fun _ => ih.last)
      | _ => exact Passes.pure.from_kind

/-- Outputs are passed. -/
theorem passes_parseOutputs : Passes parseOutputs := by
  refine .peek fun k => ?_
  cases k with
  | arrow =>
      refine .advance (by simp [Plain, endsBody]) (passes_expectIdentifier.bind fun _ => ?_)
      exact .within fun _ => passes_parseMoreNames.last
  | _ => exact Passes.pure.from_kind

section Operands

variable {operand : Parser Expr} (passes : Passes operand)
include passes

/-- Arguments are passed when operands are. -/
theorem passes_parseArgs {ends : TokenKind → Bool} {steps : Nat} :
    Passes (parseArgs operand ends steps) := by
  induction steps with
  | zero => exact .fail
  | succ steps ih =>
      refine .peek fun k => ?_
      split
      · exact Passes.pure.from_kind
      · exact (passes.bind fun _ => ih.last).from_kind

/-- An offset is passed when operands are. -/
theorem passes_parseOffset : Passes (parseOffset operand) := by
  refine .peek fun k => ?_
  cases k with
  | integer n | identifier n => exact passes.last.from_kind
  | _ => exact Passes.pure.from_kind

/-- An operation of one operand is passed. -/
theorem passes_parseUnaryOp {constructor : Expr → Nat → Expr} (plain : Plain k) :
    PassesAt k (parseUnaryOp operand constructor) :=
  .advance plain (passes.bind fun _ => passes_parseSizeOf.last)

/-- An operation of two operands is passed. -/
theorem passes_parseBinaryOp {constructor : Expr → Expr → Nat → Expr} (plain : Plain k) :
    PassesAt k (parseBinaryOp operand constructor) :=
  .advance plain (passes.bind fun _ => passes.bind fun _ => passes_parseSizeOf.last)

/-- A conversion is passed. -/
theorem passes_parseConversion {constructor : Expr → Nat → Nat → Expr} (plain : Plain k) :
    PassesAt k (parseConversion operand constructor) :=
  .advance plain (passes.bind fun _ => passes_parseSizeOf.bind fun _ => passes_parseSizeOf.last)

/-- What a keyword begins is passed. -/
theorem passes_parseKeyword {word : Keyword} : PassesAt (.keyword word) (parseKeyword operand word) := by
  have size := passes_parseSizeOf
  have name := passes_expectIdentifier
  cases word with
  | load =>
      exact .advance (by simp [Plain, endsBody])
        (passes.bind fun _ => size.bind fun _ => (passes_parseOffset passes).last)
  | alloc =>
      refine .advance (by simp [Plain, endsBody])
        (passes.bind fun _ => passes_parseType.bind fun _ => .peek fun k => ?_)
      split
      next => exact .advance (by simp [Plain, endsBody]) .pure
      next => exact Passes.pure.from_kind
  | intArith op | intCmp op | bitwise op | floatArith op | floatCmp op | atomicStore | atomicRmw op =>
      exact passes_parseBinaryOp passes (by simp [Plain, endsBody])
  | ineg | not | fneg | atomicLoad => exact passes_parseUnaryOp passes (by simp [Plain, endsBody])
  | cas =>
      exact .advance (by simp [Plain, endsBody])
        (passes.bind fun _ => passes.bind fun _ => passes.bind fun _ => size.last)
  | ftoi | itof => exact passes_parseConversion passes (by simp [Plain, endsBody])
  | call | spawn =>
      refine .advance (by simp [Plain, endsBody]) (name.bind fun _ => ?_)
      exact .within fun _ => (passes_parseArgs passes).last
  | channelReceive | wait => exact .advance (by simp [Plain, endsBody]) name.last
  | channel =>
      exact .advance (by simp [Plain, endsBody]) (passes_parseType.bind fun _ => passes.last)
  | _ => exact Passes.fail.from_kind

end Operands

/-- An expression within a number of steps is passed. -/
theorem passes_parseExprWithin {steps : Nat} : Passes (parseExprWithin double steps) := by
  induction steps with
  | zero => exact .fail
  | succ steps ih =>
      refine .peek fun k => ?_
      cases k with
      | integer n | floatLit text | stringLit s => exact .advance (by simp [Plain, endsBody]) .pure
      | identifier n => exact passes_parseVar.from_kind
      | keyword word => exact passes_parseKeyword ih
      | _ => exact Passes.fail.from_kind

/-- An expression is passed. -/
theorem passes_parseExpr : Passes (parseExpr double) := .within fun _ => passes_parseExprWithin

/-- The right side of an assignment is passed. -/
theorem passes_parseAssigned {line : Nat} {name : String} :
    Passes (parseAssigned double line name) := by
  refine .peek fun k => ?_
  split
  next => exact .advance (by simp [Plain, endsBody]) passes_parseSomeHandles.last
  next => exact passes_parseExpr.last.from_kind

/-- An equals sign is passed. -/
theorem passes_expectEquals : Passes expectEquals := by
  refine .peek fun k => ?_
  cases k with
  | equals =>
      have advances : PassesAt .equals (advance >>= Pure.pure) :=
        .advance (by simp [Plain, endsBody]) .pure
      rwa [bind_pure] at advances
  | _ => exact Passes.fail.from_kind

/-- The targets of a CALL are passed. -/
theorem passes_parseTargets {line : Nat} {name : String} : Passes (parseTargets line name) := by
  refine .within fun _ => passes_parseMoreNames.bind fun more =>
    passes_expectEquals.bind fun _ => .peek fun k => ?_
  split
  next =>
      refine .advance (by simp [Plain, endsBody]) ?_
      split
      next => exact .within fun _ => passes_parseHandles.last
      next => exact .fail
  next => exact .advance (by simp [Plain, endsBody]) passes_parseSomeHandles.last
  next => exact Passes.fail.from_kind

/-- The statements other than SCOPE that begin with a keyword. -/
theorem passes_parseStatement {body : Parser (List Node)} {line : Nat} {word : Keyword}
    (other : word ≠ .scope) :
    PassesAt (.keyword word) (parseStatement double body line word) := by
  have name := passes_expectIdentifier
  have expr : Passes (parseExpr double) := passes_parseExpr
  cases word with
  | scope => exact absurd rfl other
  | label | jump | free | channelClose => exact .advance (by simp [Plain, endsBody]) name.last
  | branch =>
      exact .advance (by simp [Plain, endsBody]) (expr.bind fun _ => name.bind fun _ => name.last)
  | set | channelSend => exact .advance (by simp [Plain, endsBody]) (name.bind fun _ => expr.last)
  | discard => exact .advance (by simp [Plain, endsBody]) passes_parseVar.last
  | store =>
      exact .advance (by simp [Plain, endsBody]) (name.bind fun _ => expr.bind fun _ =>
        passes_parseSizeOf.bind fun _ => (passes_parseOffset expr).last)
  | waitAll => exact .advance (by simp [Plain, endsBody]) passes_parseSomeHandles.last
  | call =>
      refine .advance (by simp [Plain, endsBody]) (name.bind fun _ => ?_)
      exact .within fun _ => (passes_parseArgs expr).bind fun _ => passes_parseOutputs.last
  | _ => exact Passes.fail.from_kind

/-- A statement that is no SCOPE. -/
theorem passes_parseUnindented {body : Parser (List Node)} {line : Nat}
    (other : k ≠ .keyword .scope) :
    PassesAt k (parseUnindented double body line) := by
  intro s here node t returned
  obtain ⟨_, m, one, two⟩ := returns_bind.mp returned
  obtain ⟨rfl, rfl⟩ := returns_peekKind.mp one
  rw [here] at two
  cases k with
  | keyword word =>
      have different : word ≠ .scope := by
        rintro rfl
        exact other rfl
      exact passes_parseStatement different m here node t two
  | identifier name =>
      refine PassesAt.advance (by simp [Plain, endsBody]) (.peek fun k' => ?_) m here node t two
      split
      next => exact .advance (by simp [Plain, endsBody]) passes_parseAssigned
      next => exact passes_parseTargets.from_kind
      next => exact Passes.fail.from_kind
  | _ => exact Passes.fail m node t two

/-- Each SCOPE among the tokens is closed by its own END_SCOPE. -/
inductive Balanced : List Token → Prop where
  | nil : Balanced []
  | token {x : Token} {tokens : List Token} (plain : Plain x.kind) (later : Balanced tokens) :
    Balanced (x :: tokens)
  | scope {first last : Token} {inner tokens : List Token} (opens : first.kind = .keyword .scope)
      (inside : Balanced inner) (closes : last.kind = .keyword .endScope)
        (later : Balanced tokens) :
      Balanced (first :: (inner ++ last :: tokens))

/-- The tokens leave so many SCOPEs open. -/
inductive Unclosed : Nat → List Token → Prop where
  | none {tokens : List Token} (balanced : Balanced tokens) : Unclosed 0 tokens
  | scope {n : Nat} {first : Token} {tokens later : List Token} (balanced : Balanced tokens)
      (opens : first.kind = .keyword .scope) (inside : Unclosed n later) :
        Unclosed (n + 1) (tokens ++ first :: later)

/-- Plain tokens are balanced. -/
theorem balanced_of_plain {tokens : List Token} (plain : ∀ token ∈ tokens, Plain token.kind) :
    Balanced tokens := by
  induction tokens with
  | nil => exact .nil
  | cons x tokens ih =>
      exact .token (plain x (by simp)) (ih fun token inside => plain token (by simp [inside]))

/-- Balanced tokens follow each other. -/
theorem Balanced.append {tokens later : List Token} (first : Balanced tokens)
    (second : Balanced later) :
    Balanced (tokens ++ later) := by
  induction first with
  | nil => exact second
  | token plain _ ih => exact .token plain ih
  | scope opens inside closes _ _ ih =>
      rw [List.cons_append, List.append_assoc, List.cons_append]
      exact .scope opens inside closes ih

/-- Balanced tokens in front close no SCOPE. -/
theorem Unclosed.prepend {n : Nat} {tokens later : List Token} (first : Balanced tokens)
    (second : Unclosed n later) :
    Unclosed n (tokens ++ later) := by
  cases second with
  | none balanced => exact .none (first.append balanced)
  | scope balanced opens inside =>
      rw [← List.append_assoc]
      exact .scope (first.append balanced) opens inside

/-- How often a keyword comes. -/
def occurrences (word : Keyword) (tokens : List Token) : Nat :=
  tokens.countP fun token => token.kind = .keyword word

/-- Balanced tokens open and close as many SCOPEs. -/
theorem Balanced.occurrences {tokens : List Token} (balanced : Balanced tokens) :
    occurrences .scope tokens = occurrences .endScope tokens := by
  induction balanced with
  | nil => rfl
  | token plain _ ih =>
      simp only [Parser.occurrences] at ih ⊢
      simp [plain.1, plain.2.1, ih]
  | scope opens _ closes _ inside ih =>
      simp only [Parser.occurrences] at inside ih ⊢
      simp only [List.countP_cons, List.countP_append, opens, closes]
      simp
      omega

/-- What is left open is what is missing from the END_SCOPEs. -/
theorem Unclosed.occurrences {n : Nat} {tokens : List Token} (unclosed : Unclosed n tokens) :
    occurrences .scope tokens = occurrences .endScope tokens + n := by
  induction unclosed with
  | none balanced => exact balanced.occurrences
  | scope balanced opens _ ih =>
      have before := balanced.occurrences
      simp only [Parser.occurrences] at before ih ⊢
      simp only [List.countP_cons, List.countP_append, opens]
      simp
      omega

/-- Tokens are balanced exactly when they open and close as many SCOPEs. -/
theorem Unclosed.balanced_iff {n : Nat} {tokens : List Token} (unclosed : Unclosed n tokens) :
    Balanced tokens ↔ Parser.occurrences .scope tokens = Parser.occurrences .endScope tokens := by
  constructor
  · exact Balanced.occurrences
  · intro same
    have difference := unclosed.occurrences
    obtain rfl : n = 0 := by omega
    cases unclosed with
    | none balanced => exact balanced

/-- Nothing is read where a body ends. -/
theorem returns_parseNodes_ended {inScope : Bool} {steps : Nat} {s t : List Token}
    {nodes : List Node}
    (ended : endsBody (peek s).kind = true)
      (returned : Returns (parseNodes double inScope steps) s nodes t) : t = s := by
  cases steps with
  | zero => exact absurd (returns_bind.mp returned) (by simp)
  | succ steps =>
      have kept : s.dropWhile (fun token => isBlank token.kind) = s := by
        cases s with
        | nil => rfl
        | cons x s =>
            exact List.dropWhile_cons_of_neg (by simp [visible_of_endsBody (peek_cons ▸ ended)])
      rw [returns_parseNodes_succ, kept, if_pos (endsBody_iff.mp ended)] at returned
      exact (returns_pure.mp returned).2.symm

/-- What is read of a body: the statements of a SCOPE with its END_SCOPE, or everything up to
the end. -/
def Closes (inScope : Bool) (used t : List Token) : Prop :=
  (inScope = true ∧ ∃ inner last, used = inner ++ [last] ∧ Balanced inner ∧ last.kind =
    .keyword .endScope) ∨
    (endsBody (peek t).kind = true ∧ ∃ n, Unclosed n used)

/-- Balanced tokens in front close no body. -/
theorem Closes.prepend {inScope : Bool} {first used t : List Token} (balanced : Balanced first)
    (closes : Closes inScope used t) : Closes inScope (first ++ used) t := by
  rcases closes with ⟨inside, inner, last, rfl, before, close⟩ | ⟨ended, n, unclosed⟩
  · exact .inl ⟨inside, first ++ inner, last, (List.append_assoc ..).symm,
      balanced.append before, close⟩
  · exact .inr ⟨ended, n, unclosed.prepend balanced⟩

/-- A statement is read whole, or holds a SCOPE that is open where the body ends. -/
theorem closes_parseUnindented {steps line : Nat} {s t : List Token} {node : Node}
    (inside : ∀ {s nodes t}, Returns (parseNodes double true steps) s nodes t →
      ∃ used, s = used ++ t ∧ Closes true used t)
    (returned : Returns (parseUnindented double (parseNodes double true steps) line) s node t) :
    ∃ used, s = used ++ t ∧ (Balanced used ∨ endsBody (peek t).kind = true ∧ ∃ n,
      Unclosed n used) := by
  by_cases opens : (peek s).kind = .keyword .scope
  · cases s with
    | nil => cases opens
    | cons x s =>
        rw [peek_cons] at opens
        obtain ⟨nodes, returned, -⟩ := (returns_scope opens).mp returned
        obtain ⟨used, rfl, closes⟩ := inside returned
        refine ⟨x :: used, rfl, ?_⟩
        rcases closes with ⟨-, inner, last, rfl, balanced, close⟩ | ⟨ended, n, unclosed⟩
        · exact .inl (.scope opens balanced close .nil)
        · exact .inr ⟨ended, n + 1, .scope .nil opens unclosed⟩
  · obtain ⟨used, rfl, plain⟩ := passes_parseUnindented opens s rfl node t returned
    exact ⟨used, rfl, .inl (balanced_of_plain plain)⟩

/-- The blanks in front, and the tokens behind them. -/
theorem exists_blanks (s : List Token) : ∃ blanks shown, s = blanks ++ shown ∧ Balanced blanks ∧
    s.dropWhile (fun token => isBlank token.kind) = shown ∧ isBlank (peek shown).kind = false := by
  refine ⟨s.takeWhile fun token => isBlank token.kind, _,
    (List.takeWhile_append_dropWhile ..).symm, ?_, rfl, ?_⟩
  · refine balanced_of_plain fun token inside => plain_of_isBlank ?_
    exact List.mem_takeWhile_imp (p := fun token : Token => isBlank token.kind) inside
  · induction s with
    | nil => rfl
    | cons x s ih => cases blank : isBlank x.kind <;> simp [blank, ih, peek_cons]

/-- What the parser reads as a body closes the SCOPEs it opens. -/
theorem closes_parseNodes {inScope : Bool} {steps : Nat} {s t : List Token} {nodes : List Node}
    (returned : Returns (parseNodes double inScope steps) s nodes t) :
      ∃ used, s = used ++ t ∧ Closes inScope used t := by
  induction steps generalizing inScope s nodes t with
  | zero => exact absurd (returns_bind.mp returned) (by simp)
  | succ steps ih =>
      obtain ⟨blanks, shown, whole, blank, same, visible⟩ := exists_blanks s
      rw [returns_parseNodes_succ, same] at returned
      subst whole
      -- It is enough to follow what comes after the blanks.
      suffices read : ∃ used, shown = used ++ t ∧ Closes inScope used t by
        obtain ⟨used, rfl, closes⟩ := read
        exact ⟨blanks ++ used, (List.append_assoc ..).symm, closes.prepend blank⟩
      split at returned
      next ended =>
          obtain ⟨-, rfl⟩ := returns_pure.mp returned
          exact ⟨[], rfl, .inr ⟨endsBody_iff.mpr ended, 0, .none .nil⟩⟩
      split at returned
      next close =>
          obtain ⟨u, m, one, two⟩ := returns_bind.mp returned
          obtain rfl := returns_advance.mp one
          obtain ⟨-, rfl⟩ := returns_pure.mp two
          cases shown with
          | nil => cases close.2
          | cons x shown =>
              rw [peek_cons] at close
              refine ⟨[x], ?_, .inl ⟨close.1, [], x, rfl, .nil, close.2⟩⟩
              rw [next_cons (by simp [close.2]), List.singleton_append]
      next more _ =>
          obtain ⟨node, m, first, returned⟩ := returns_bind.mp returned
          obtain ⟨later, m', second, last⟩ := returns_bind.mp returned
          obtain ⟨-, rfl⟩ := returns_pure.mp last
          obtain ⟨x, shown, rfl⟩ : ∃ x rest, shown = x :: rest :=
            List.exists_cons_of_ne_nil fun empty => more (.inr (by rw [empty]; rfl))
          rw [peek_cons] at visible
          have stated := (returns_parseNode visible).mp first
          obtain ⟨used, read, closed⟩ := closes_parseUnindented ih stated
          rw [read]
          rcases closed with balanced | ⟨ended, n, unclosed⟩
          · obtain ⟨used', rfl, closes⟩ := ih second
            exact ⟨used ++ used', (List.append_assoc ..).symm, closes.prepend balanced⟩
          · obtain rfl := returns_parseNodes_ended ended second
            exact ⟨used, rfl, .inr ⟨ended, n, unclosed⟩⟩

/-- The tokens of a body, up to END or the end of the file. -/
def bodyTokens (tokens : List Token) : List Token :=
    tokens.takeWhile fun token => !endsBody token.kind

/-- No balanced token ends a body. -/
theorem Balanced.inside {tokens : List Token} (balanced : Balanced tokens) :
    ∀ token ∈ tokens, endsBody token.kind = false := by
  induction balanced with
  | nil => simp
  | token plain _ ih => exact List.forall_mem_cons.mpr ⟨plain.2.2, ih⟩
  | scope opens _ closes _ inside ih =>
      simp only [List.forall_mem_cons, List.forall_mem_append, opens, closes]
      exact ⟨rfl, inside, rfl, ih⟩

/-- No token of an unclosed body ends it. -/
theorem Unclosed.inside {n : Nat} {tokens : List Token} (unclosed : Unclosed n tokens) :
    ∀ token ∈ tokens, endsBody token.kind = false := by
  induction unclosed with
  | none balanced => exact balanced.inside
  | scope balanced opens _ ih =>
      simp only [List.forall_mem_cons, List.forall_mem_append, opens]
      exact ⟨balanced.inside, rfl, ih⟩

/-- What an accepted body leaves open. -/
theorem unclosed_of_returns {tokens rest : List Token} {nodes : List Node}
    (returned : Returns (parseImplementation double) tokens nodes rest) :
    tokens = bodyTokens tokens ++ rest ∧ ∃ n, Unclosed n (bodyTokens tokens) := by
  obtain ⟨_, _, one, two⟩ := returns_bind.mp returned
  obtain ⟨-, same⟩ := returns_get.mp one
  rw [same] at two
  obtain ⟨used, whole, closes⟩ := closes_parseNodes two
  rcases closes with ⟨absent, -⟩ | ⟨ended, n, unclosed⟩
  · cases absent
  · have read : bodyTokens tokens = used := by
      have stops : rest.takeWhile (fun token => !endsBody token.kind) = [] := by
        cases rest with
        | nil => rfl
        | cons x rest => exact List.takeWhile_cons_of_neg (by simp [peek_cons ▸ ended])
      rw [whole, bodyTokens, List.takeWhile_append_of_pos (by simpa using unclosed.inside),
        stops, List.append_nil]
    rw [read]
    exact ⟨whole, n, unclosed⟩

/-- The parser succeeds on the bodies of the grammar that it has branches for, and on no others;
in a body it accepts, each SCOPE has its own END_SCOPE exactly when there are as many of the one
as of the other. -/
theorem parseImplementation_grammar (double : String → BitVec 64) :
    (∀ statements tokens last rest, Statement.Derives statements tokens →
      last.kind = .keyword .endBehavior →
      ((∃ nodes, Statement.nodes? statements = some nodes ∧
        Returns (parseImplementation double) (tokens ++ last :: rest) nodes (last :: rest)) ↔
          Statement.readAll statements = true)) ∧
    ∀ tokens nodes rest, Returns (parseImplementation double) tokens nodes rest →
      (Balanced (bodyTokens tokens) ↔
        occurrences .scope (bodyTokens tokens) = occurrences .endScope (bodyTokens tokens)) := by
  refine ⟨fun statements tokens last rest derives ends =>
    returns_parseImplementation_iff derives ends, ?_⟩
  intro tokens nodes rest returned
  obtain ⟨-, n, unclosed⟩ := unclosed_of_returns returned
  exact unclosed.balanced_iff

/-- A token on the first line. -/
def shown (kind : TokenKind) : Token := ⟨kind, ⟨1, 1, 1⟩⟩

/-- `STORE p v 8` on a line of its own. -/
def storeLine : List Token :=
  [.keyword .store, .identifier "p", .identifier "v", .integer 8, .newline].map shown

/-- `IADD a b 8` on a line of its own. -/
def addLine : List Token :=
  [.keyword (.intArith .add), .identifier "a", .identifier "b", .integer 8, .newline].map shown

/-- A SCOPE that END follows. -/
def openScope : List Token := [.keyword .scope, .newline, .keyword .endBehavior].map shown

/-- A body of one STORE. -/
theorem parseImplementation_grammar_storeLine :
    (∃ nodes, Statement.nodes? [.line 1 (.primitive (.store (.name "p") (.name "v") 8 none))] =
      some nodes ∧
      Returns (parseImplementation fun _ => 0) (storeLine ++ [shown (.keyword .endBehavior)]) nodes
        [shown (.keyword .endBehavior)]) ∧
    ¬ Balanced (bodyTokens openScope) := by
  obtain ⟨covered, nested⟩ := parseImplementation_grammar fun _ => 0
  constructor
  · refine (covered _ storeLine _ [] ?_ rfl).mpr rfl
    have spelled : storeLine.dropLast.map (·.kind) =
        LineForm.kinds (.primitive (.store (.name "p") (.name "v") 8 none)) := rfl
    exact .line (List.forall_mem_nil _) spelled rfl (.nil (List.forall_mem_nil _))
  · exact fun balanced => absurd ((nested openScope [.scope 1 []] _ rfl).mp balanced) (by decide)

/-- A primitive call without a target is refused, and a SCOPE is accepted that END closes. -/
theorem parseImplementation_misses :
    (Statement.Derives [.line 1 (.primitive (.intArith .add (.name "a") (.name "b") 8))] addLine ∧
      ¬ ∃ nodes rest, Returns (parseImplementation fun _ => 0)
        (addLine ++ [shown (.keyword .endBehavior)]) nodes rest) ∧
    Returns (parseImplementation fun _ => 0) openScope [.scope 1 []]
      [shown (.keyword .endBehavior)] ∧
      ¬ Balanced (bodyTokens openScope) := by
  refine ⟨⟨?_, ?_⟩, rfl, fun balanced => absurd balanced.occurrences (by decide)⟩
  · have spelled : addLine.dropLast.map (·.kind) =
        LineForm.kinds (.primitive (.intArith .add (.name "a") (.name "b") 8)) := rfl
    exact .line (List.forall_mem_nil _) spelled rfl (.nil (List.forall_mem_nil _))
  · rintro ⟨nodes, rest, returned⟩
    have failed : parseImplementation (fun _ => 0) (addLine ++ [shown (.keyword .endBehavior)]) =
        .error ⟨⟨1, 1, 1⟩, .unexpectedStatement (.keyword (.intArith .add))⟩ := rfl
    cases failed.symm.trans returned

end Sigil.Parser
