import Sigil.Parser.Forms

/-!
# Bodies of the documented grammar

A body of the grammar is parsed, to the syntax tree it stands for, exactly when the parser has a
branch for every statement in it.
-/

namespace Sigil.Parser

open Flow

variable {double : String → BitVec 64} {inScope : Bool} {steps : Nat} {blanks s t rest : List Token}
  {x last : Token} {nodes : List Node}

/-- `skip_newlines` drops the blank tokens. -/
theorem returns_skipNewlines {u : Unit} :
    Returns skipNewlines s u t ↔ t = s.dropWhile fun token => isBlank token.kind :=
  returns_modify

/-- The parser peeks at the first token. -/
theorem peek_cons : peek (x :: s) = x := rfl

/-- Blanks are skipped. -/
theorem skip_blanks (blank : ∀ token ∈ blanks, isBlank token.kind) :
    (blanks ++ s).dropWhile (fun token => isBlank token.kind) = s.dropWhile fun token =>
      isBlank token.kind :=
  List.dropWhile_append_of_pos blank

/-- The kinds that statements start with. -/
def Starts : TokenKind → Prop
  | .identifier _ => True
  | .keyword word => word ≠ .endBehavior ∧ word ≠ .endScope
  | _ => False

/-- Every form begins with a token that starts a statement. -/
theorem begins_form (form : LineForm) : ∃ k ks, form.kinds = k :: ks ∧ Starts k := by
  cases form with
  | primitive prim => cases prim <;> exact ⟨_, _, rfl, by simp [Starts]⟩
  | call target => cases target <;> exact ⟨_, _, rfl, by simp [Starts]⟩
  | waitAll targets => cases targets <;> exact ⟨_, _, rfl, by simp [Starts]⟩
  | _ => exact ⟨_, _, rfl, by simp [Starts]⟩

/-- A round of the loop, by the first token that is not blank. -/
theorem returns_parseNodes_succ : Returns (parseNodes double inScope (steps + 1)) s nodes t ↔
    Returns (if (peek (s.dropWhile fun token => isBlank token.kind)).kind = .keyword .endBehavior ∨
        (peek (s.dropWhile fun token => isBlank token.kind)).kind = .eof then pure []
      else if inScope ∧ (peek (s.dropWhile fun token => isBlank token.kind)).kind =
        .keyword .endScope then do
        advance
        return []
      else do
        let node ← parseNode double (parseNodes double true steps)
        let rest ← parseNodes double inScope steps
        return node :: rest) (s.dropWhile fun token => isBlank token.kind) nodes t := by
  rw [parseNodes]
  simp only [returns_bind, returns_skipNewlines, returns_peekKind]
  constructor
  · rintro ⟨_, _, rfl, _, _, ⟨rfl, rfl⟩, returned⟩
    exact returned
  · intro returned
    exact ⟨(), _, rfl, _, _, ⟨rfl, rfl⟩, returned⟩

/-- Nothing but blanks is skipped in front of the end of a body. -/
theorem returns_parseNodes_last (blank : ∀ token ∈ blanks, isBlank token.kind)
    (ends : last.kind = if inScope then .keyword .endScope else .keyword .endBehavior) :
    Returns (parseNodes double inScope (steps + 1)) (blanks ++ last :: rest) nodes t ↔
      nodes = [] ∧ t = if inScope then rest else last :: rest := by
  have visible : isBlank last.kind = false := by
    rw [ends]
    cases inScope <;> rfl
  rw [returns_parseNodes_succ, skip_blanks blank, List.dropWhile_cons_of_neg (by simp [visible])]
  cases inScope with
  | false =>
      rw [peek_cons, if_pos (.inl ends), returns_pure]
      exact and_congr eq_comm eq_comm
  | true =>
      have inside : last.kind ≠ .eof := by simp [ends]
      rw [peek_cons, if_neg (by simp [ends]), if_pos ⟨rfl, ends⟩]
      simp only [returns_bind, returns_advance, returns_pure, next_cons inside]
      constructor
      · rintro ⟨_, _, rfl, rfl, rfl⟩
        exact ⟨rfl, rfl⟩
      · rintro ⟨rfl, rfl⟩
        exact ⟨(), _, rfl, rfl, rfl⟩

/-- A statement that no blank stands in front of is parsed as it stands. -/
theorem returns_parseNode {body : Parser (List Node)} {node : Node}
    (visible : isBlank x.kind = false) :
    Returns (parseNode double body) (x :: s) node t ↔
      Returns (parseUnindented double body x.span.line) (x :: s) node t := by
  have skip : ∀ {u m}, Returns skipIndent (x :: s) u m ↔ m = x :: s := by
    intro u m
    unfold skipIndent
    simp only [returns_bind, returns_peekKind, peek_cons]
    constructor
    · rintro ⟨_, _, ⟨rfl, rfl⟩, returned⟩
      split at returned
      next same => simp [same, isBlank] at visible
      next => exact (returns_pure.mp returned).2.symm
    · rintro rfl
      refine ⟨_, _, ⟨rfl, rfl⟩, ?_⟩
      split
      next same => simp [same, isBlank] at visible
      next => exact returns_pure.mpr ⟨rfl, rfl⟩
  have line : ∀ {n m}, Returns currentLine (x :: s) n m ↔ n = x.span.line ∧ m = x :: s := by
    intro n m
    unfold currentLine
    simp only [returns_bind, returns_get, returns_pure]
    grind [peek_cons]
  unfold parseNode
  simp only [returns_bind, skip]
  constructor
  · rintro ⟨_, _, rfl, _, _, found, returned⟩
    obtain ⟨rfl, rfl⟩ := line.mp found
    exact returned
  · intro returned
    exact ⟨(), _, rfl, _, _, line.mpr ⟨rfl, rfl⟩, returned⟩

/-- A statement is read, and the ones after it. -/
theorem returns_parseNodes_cons (blank : ∀ token ∈ blanks, isBlank token.kind)
    (visible : isBlank x.kind = false) (more : x.kind ≠ .keyword .endBehavior ∧ x.kind ≠ .eof)
    (inside : inScope = true → x.kind ≠ .keyword .endScope) :
    Returns (parseNodes double inScope (steps + 1)) (blanks ++ x :: s) nodes t ↔ ∃ node m later,
      Returns (parseUnindented double (parseNodes double true steps) x.span.line) (x :: s) node m ∧
        Returns (parseNodes double inScope steps) m later t ∧ nodes = node :: later := by
  rw [returns_parseNodes_succ, skip_blanks blank, List.dropWhile_cons_of_neg (by simp [visible]),
    peek_cons, if_neg (not_or.mpr more), if_neg fun both => inside both.1 both.2]
  simp only [returns_bind, returns_parseNode visible, returns_pure]
  grind

/-- A stray token neither is blank nor ends a body or a SCOPE. -/
theorem shown_of_stray {k : TokenKind} (stray : Stray k) : isBlank k = false ∧
    (k ≠ .keyword .endBehavior ∧ k ≠ .eof) ∧ k ≠ .keyword .endScope := by
  cases k <;> simp_all [Stray, isBlank]

/-- No statement begins with a stray token. -/
theorem rejects_stray {k : TokenKind} {body : Parser (List Node)} {line : Nat} (stray : Stray k) :
    Rejects (parseUnindented double body line) [k] fun _ => True := by
  cases k with
  | dot | arrow | stringLit => exact .peek .fail
  | _ => exact stray.elim

/-- No statement starts with a stray token. -/
theorem not_stray (returned : Returns (parseNodes double inScope steps) s nodes t) :
    ¬ Stray (peek s).kind := by
  intro stray
  cases s with
  | nil => exact stray
  | cons x s =>
      cases steps with
      | zero =>
          obtain ⟨_, _, _, two⟩ := returns_bind.mp returned
          exact not_returns_throw two
      | succ steps =>
          rw [peek_cons] at stray
          obtain ⟨visible, more, inside⟩ := shown_of_stray stray
          have alone : ∀ token ∈ ([] : List Token), isBlank token.kind := by simp
          obtain ⟨node, m, later, first, -⟩ :=
            (returns_parseNodes_cons alone visible more fun _ => inside).mp returned
          exact rejects_stray stray [x] s rfl trivial node m first

/-- Skipping goes on behind a blank token. -/
theorem skip_blank (blank : isBlank x.kind = true) :
    (x :: s).dropWhile (fun token => isBlank token.kind) = s.dropWhile fun token =>
      isBlank token.kind :=
  List.dropWhile_cons_of_pos blank

/-- A blank in front makes no difference. -/
theorem returns_parseNodes_blank (blank : isBlank x.kind = true) :
    Returns (parseNodes double inScope steps) (x :: s) nodes t ↔
      Returns (parseNodes double inScope steps) s nodes t := by
  cases steps with
  | zero =>
      exact Iff.intro (fun returned => absurd (returns_bind.mp returned) (by simp)) fun returned =>
      absurd (returns_bind.mp returned) (by simp)
  | succ steps => rw [returns_parseNodes_succ, returns_parseNodes_succ, skip_blank blank]

/-- A token that starts a statement neither is blank nor ends a body or a SCOPE. -/
theorem shown_of_starts {k : TokenKind} (starts : Starts k) : isBlank k = false ∧
    (k ≠ .keyword .endBehavior ∧ k ≠ .eof) ∧ k ≠ .keyword .endScope := by
  cases k <;> simp_all [Starts, isBlank]

/-- The statements of a body that the parser has branches for have a syntax tree. -/
theorem exists_nodes_of_readAll {statements : List Statement} {tokens : List Token}
    (derives : Statement.Derives statements tokens) (read : Statement.readAll statements = true) :
    ∃ nodes, Statement.nodes? statements = some nodes := by
  induction derives with
  | nil => exact ⟨[], rfl⟩
  | @line _ tokens _ _ form _ _ _ _ _ ih =>
      simp only [Statement.readAll, Statement.Read, Bool.and_eq_true] at read
      obtain ⟨node, found, _⟩ := yields_form (fun _ => 0) (pure []) (peek tokens).span.line read.1
      obtain ⟨nodes, later⟩ := ih read.2
      exact ⟨node :: nodes, by simp [Statement.nodes?, Statement.node?, found, later]⟩
  | @scope _ _ _ first _ _ _ _ _ _ _ _ _ _ inside ih =>
      simp only [Statement.readAll, Statement.Read, Bool.and_eq_true] at read
      obtain ⟨inner, here⟩ := inside read.1
      obtain ⟨nodes, later⟩ := ih read.2
      exact ⟨.scope first.span.line inner ::
        nodes, by simp [Statement.nodes?, Statement.node?, here, later]⟩

/-- Blanks that are skipped before a body make no difference. -/
theorem returns_parseNodes_skip :
    Returns (parseNodes double inScope steps) (s.dropWhile fun token => isBlank token.kind)
      nodes t ↔
      Returns (parseNodes double inScope steps) s nodes t := by
  induction s with
  | nil => rfl
  | cons x s ih =>
      cases blank : isBlank x.kind with
      | false => rw [List.dropWhile_cons_of_neg (by simp [blank])]
      | true => rw [skip_blank blank, ih,
          returns_parseNodes_blank blank]

/-- A SCOPE has the statements up to what ends it. -/
theorem returns_scope {line : Nat} {node : Node} (opens : x.kind = .keyword .scope) :
    Returns (parseUnindented double (parseNodes double true steps) line) (x :: s) node t ↔
      ∃ nodes, Returns (parseNodes double true steps) s nodes t ∧ node = .scope line nodes := by
  have inside : x.kind ≠ .eof := by simp [opens]
  have begins : Returns (parseUnindented double (parseNodes double true steps) line)
    (x :: s) node t ↔
      Returns (parseStatement double (parseNodes double true steps) line .scope) (x :: s) node
        t := by
    unfold parseUnindented
    simp only [returns_bind, returns_peekKind, peek_cons, opens]
    constructor
    · rintro ⟨_, _, ⟨rfl, rfl⟩, returned⟩
      exact returned
    · exact fun returned => ⟨_, _, ⟨rfl, rfl⟩, returned⟩
  rw [begins, parseStatement]
  simp only [returns_bind, returns_advance, next_cons inside, returns_skipNewlines, returns_pure]
  constructor
  · rintro ⟨_, _, rfl, _, _, rfl, nodes, _, returned, rfl, rfl⟩
    exact ⟨nodes, returns_parseNodes_skip.mp returned, rfl⟩
  · rintro ⟨nodes, returned, rfl⟩
    exact ⟨(), _, rfl, (), _, rfl, nodes, _, returns_parseNodes_skip.mpr returned, rfl, rfl⟩

/-- A body is read when the parser has a branch for each of its statements, and only then. -/
theorem returns_parseNodes_body {statements : List Statement} {tokens : List Token}
    (derives : Statement.Derives statements tokens) (enough : tokens.length < steps)
    (ends : last.kind = if inScope then .keyword .endScope else .keyword .endBehavior) :
    Returns (parseNodes double inScope steps) (tokens ++ last :: rest) nodes t ↔
      Statement.readAll statements = true ∧ Statement.nodes? statements = some nodes ∧
        t = if inScope then rest else last :: rest := by
  induction derives generalizing inScope steps last rest nodes t with
  | nil blank =>
      obtain ⟨steps, rfl⟩ := Nat.exists_eq_succ_of_ne_zero (Nat.ne_of_gt (Nat.zero_lt_of_lt enough))
      rw [returns_parseNodes_last blank ends]
      simp [Statement.readAll, Statement.nodes?, eq_comm]
  | @line blanks tokens later stop form statements blank spelled newline _ ih =>
      obtain ⟨k, ks, begins, starts⟩ := begins_form form
      obtain ⟨x, ts, rfl, rfl, -⟩ := spelled_cons (spelled.trans begins)
      obtain ⟨steps, rfl⟩ := Nat.exists_eq_succ_of_ne_zero (Nat.ne_of_gt (Nat.zero_lt_of_lt enough))
      obtain ⟨visible, more, inside⟩ := shown_of_starts starts
      have whole : blanks ++ (x :: ts ++ stop :: later) ++ last :: rest =
          blanks ++ x :: (ts ++ (stop :: (later ++ last :: rest))) := by simp
      have blankStop : isBlank stop.kind = true := by rw [newline]; rfl
      have shorter : later.length < steps := by
        simp only [List.length_append, List.length_cons] at enough
        omega
      rw [whole, returns_parseNodes_cons blank visible more fun _ => inside]
      by_cases read : form.Read = true
      · obtain ⟨node, found, yields⟩ := yields_form double (parseNodes double true steps)
          x.span.line read
        have first := yields (x :: ts) (stop :: (later ++ last :: rest)) spelled newline
        have nodes_ : Statement.nodes? (.line (peek (x :: ts)).span.line form :: statements) =
            (Statement.nodes? statements).map (node :: ·) := by
          rw [Statement.nodes?, Statement.node?, peek_cons, found]
          cases Statement.nodes? statements <;> rfl
        rw [Statement.readAll, Statement.Read, read, Bool.true_and, nodes_]
        constructor
        · rintro ⟨node', m, nodes', first', second, rfl⟩
          obtain ⟨rfl, rfl⟩ := first.unique first'
          obtain ⟨all, found', left⟩ := (ih shorter ends).mp
            ((returns_parseNodes_blank blankStop).mp second)
          exact ⟨all, by rw [found']; rfl, left⟩
        · rintro ⟨all, found', left⟩
          obtain ⟨nodes', mapped, rfl⟩ := Option.map_eq_some_iff.mp found'
          exact ⟨node, _, nodes', first, (returns_parseNodes_blank blankStop).mpr
            ((ih shorter ends).mpr ⟨all, mapped, left⟩), rfl⟩
      · simp only [Bool.not_eq_true] at read
        refine iff_of_false ?_ ?_
        · rintro ⟨node, m, _, first, second, -⟩
          have stranded :
            Strands (parseUnindented double (parseNodes double true steps) x.span.line) form.kinds
              (· = .newline) := strands_form read
          exact not_stray second (stranded (x :: ts) (stop :: (later ++ last :: rest)) spelled
            newline node m first)
        · rintro ⟨all, -⟩
          simp [Statement.readAll, Statement.Read, read] at all
  | @scope blanks inner later first close stop body statements blank opens _ closes newline _
    inside ih =>
      obtain ⟨steps, rfl⟩ := Nat.exists_eq_succ_of_ne_zero (Nat.ne_of_gt (Nat.zero_lt_of_lt enough))
      have whole : blanks ++ (first :: (inner ++ close :: stop :: later)) ++ last :: rest =
          blanks ++ first :: (inner ++ close :: (stop :: (later ++ last :: rest))) := by simp
      have blankStop : isBlank stop.kind = true := by rw [newline]; rfl
      have shorter : inner.length < steps ∧ later.length < steps := by
        simp only [List.length_append, List.length_cons] at enough
        omega
      have starts : Starts first.kind := by simp [opens, Starts]
      obtain ⟨visible, more, other⟩ := shown_of_starts starts
      have nodes_ : Statement.nodes? (.scope first.span.line body :: statements) =
          (Statement.nodes? body).bind fun inner =>
            (Statement.nodes? statements).map (.scope first.span.line inner :: ·) := by
        rw [Statement.nodes?, Statement.node?]
        cases Statement.nodes? body <;> cases Statement.nodes? statements <;> rfl
      rw [whole, returns_parseNodes_cons blank visible more fun _ => other, Statement.readAll,
        Statement.Read,
        Bool.and_eq_true, nodes_]
      simp only [returns_scope opens]
      constructor
      · rintro ⟨node, m, nodes', ⟨inner', first', rfl⟩, second, rfl⟩
        obtain ⟨all, found, rfl⟩ := (inside shorter.1 closes).mp first'
        obtain ⟨all', found', left⟩ := (ih shorter.2 ends).mp
          ((returns_parseNodes_blank blankStop).mp second)
        exact ⟨⟨all, all'⟩, by rw [found, found']; rfl, left⟩
      · rintro ⟨⟨all, all'⟩, found, left⟩
        obtain ⟨inner', here, found⟩ := Option.bind_eq_some_iff.mp found
        obtain ⟨nodes', there, rfl⟩ := Option.map_eq_some_iff.mp found
        exact ⟨_, _, nodes', ⟨inner', (inside shorter.1 closes).mpr ⟨all, here, rfl⟩, rfl⟩,
          (returns_parseNodes_blank blankStop).mpr
            ((ih shorter.2 ends).mpr ⟨all', there, left⟩), rfl⟩

/-- The parser succeeds on a body of the grammar, with the tree of the derivation and up to END,
when it has a branch for every statement of it, and only then. -/
theorem returns_parseImplementation_iff {statements : List Statement} {tokens : List Token}
    (derives : Statement.Derives statements tokens) (ends : last.kind = .keyword .endBehavior) :
    (∃ nodes, Statement.nodes? statements = some nodes ∧
      Returns (parseImplementation double) (tokens ++ last :: rest) nodes (last :: rest)) ↔
        Statement.readAll statements = true := by
  have bounded : ∀ nodes, Returns (parseImplementation double) (tokens ++ last :: rest) nodes
    (last :: rest) ↔
      Returns (parseNodes double false ((tokens ++ last :: rest).length + 1))
        (tokens ++ last :: rest) nodes
        (last :: rest) := by
    intro nodes
    unfold parseImplementation
    simp only [returns_bind, returns_get]
    grind
  have enough : tokens.length < (tokens ++ last :: rest).length + 1 := by
    rw [List.length_append]
    omega
  constructor
  · rintro ⟨nodes, -, returned⟩
    exact ((returns_parseNodes_body derives enough (by simpa using ends)).mp
      ((bounded nodes).mp returned)).1
  · intro read
    obtain ⟨nodes, found⟩ := exists_nodes_of_readAll derives read
    refine ⟨nodes, found, (bounded nodes).mpr ?_⟩
    exact (returns_parseNodes_body derives enough (by simpa using ends)).mpr ⟨read, found, by simp⟩

end Sigil.Parser
