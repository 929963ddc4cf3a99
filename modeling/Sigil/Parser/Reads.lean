import Sigil.Parser.Grammar

/-!
# What the parser reads

Rules that follow a parser along the kinds of the tokens in front of it: it reads them and
returns, or it cannot go on, or it stops before a token that no statement starts with.
-/

namespace Sigil.Parser

open Flow

variable {α β : Type} {p : Parser α} {f : α → Parser β} {a : α} {b : β} {k : TokenKind}
  {kinds kinds₁ kinds₂ ks : List TokenKind} {F G : TokenKind → Prop}

/-- The kind after some others. -/
def headKind : List TokenKind → TokenKind → TokenKind
  | [], k => k
  | first :: _, _ => first

/-- Tokens that are spelled out are peeked at first. -/
theorem peek_append {tokens rest : List Token} (spelled : tokens.map (·.kind) = kinds) :
    (peek (tokens ++ rest)).kind = headKind kinds (peek rest).kind := by
  subst spelled
  cases tokens <;> rfl

/-- From tokens of these kinds, with one after them that `F` allows, the parser returns `a` and
has read them. -/
def Yields (p : Parser α) (kinds : List TokenKind) (F : TokenKind → Prop) (a : α) : Prop :=
  ∀ tokens rest, tokens.map (·.kind) = kinds → F (peek rest).kind →
    Returns p (tokens ++ rest) a rest

/-- No statement starts with a token of the kind, and no section or SCOPE ends with it. -/
def Stray : TokenKind → Prop
  | .dot | .arrow | .stringLit _ => True
  | _ => False

/-- From tokens of these kinds the parser does not return, or leaves tokens of which `P` holds. -/
def Leaves (P : List Token → Prop) (p : Parser α) (kinds : List TokenKind)
    (F : TokenKind → Prop) : Prop :=
  ∀ tokens rest, tokens.map (·.kind) = kinds → F (peek rest).kind →
    ∀ a t, Returns p (tokens ++ rest) a t → P t

/-- The parser does not return. -/
def Rejects (p : Parser α) (kinds : List TokenKind) (F : TokenKind → Prop) : Prop :=
  Leaves (fun _ => False) p kinds F

/-- The parser does not return, or leaves a stray token. -/
def Strands (p : Parser α) (kinds : List TokenKind) (F : TokenKind → Prop) : Prop :=
  Leaves (fun t => Stray (peek t).kind) p kinds F

/-- Peeking returns the kind of the first token and leaves it. -/
theorem returns_peekKind {tokens t : List Token} :
    Returns peekKind tokens k t ↔ k = (peek tokens).kind ∧ t = tokens := by
  unfold peekKind
  simp only [returns_bind, returns_get, returns_pure]
  grind

/-- Advancing leaves what is behind the first token. -/
theorem returns_advance {tokens t : List Token} {u : Unit} :
    Returns advance tokens u t ↔ t = next tokens :=
  returns_modify

/-- A failing parser returns nothing. -/
theorem not_returns_fail {kind : ParseErrorKind} {s t : List Token} :
    ¬ Returns (fail kind : Parser α) s a t := by
  intro returned
  obtain ⟨_, _, _, thrown⟩ := returns_bind.mp returned
  exact not_returns_throw thrown

/-- Behind a token that does not end the text stand the others. -/
theorem next_cons {token : Token} {tokens : List Token} (inside : token.kind ≠ .eof) :
    next (token :: tokens) = tokens := if_neg inside

/-- A list of kinds in two parts. -/
theorem spelled_append {tokens : List Token} (spelled : tokens.map (·.kind) = kinds₁ ++ kinds₂) :
    ∃ t₁ t₂, tokens = t₁ ++ t₂ ∧ t₁.map (·.kind) = kinds₁ ∧ t₂.map (·.kind) = kinds₂ :=
  List.map_eq_append_iff.mp spelled

/-- Tokens that spell a kind and more are a token of it and the rest. -/
theorem spelled_cons {tokens : List Token} (spelled : tokens.map (·.kind) = k :: ks) :
    ∃ token rest, tokens = token :: rest ∧ token.kind = k ∧ rest.map (·.kind) = ks :=
  List.map_eq_cons_iff.mp spelled

namespace Yields

/-- A parser that reads nothing yields its value. -/
theorem pure : Yields (pure a) [] F a := by
  intro tokens rest spelled _
  obtain rfl := List.map_eq_nil_iff.mp spelled
  exact returns_pure.mpr ⟨rfl, rfl⟩

/-- Parsers one after the other read their tokens one after the other. -/
theorem bind (first : Yields p kinds₁ F a) (second : Yields (f a) kinds₂ G b)
    (meets : ∀ k, G k → F (headKind kinds₂ k)) : Yields (p >>= f) (kinds₁ ++ kinds₂) G b := by
  intro tokens rest spelled follows
  obtain ⟨t₁, t₂, rfl, spelled₁, spelled₂⟩ := spelled_append spelled
  rw [List.append_assoc]
  refine returns_bind.mpr ⟨a, t₂ ++ rest, first t₁ _ spelled₁ ?_, second t₂ rest spelled₂ follows⟩
  rw [peek_append spelled₂]
  exact meets _ follows

/-- What is read in front of more tokens is read in front of fewer. -/
theorem mono (yields : Yields p kinds F a) (weaker : ∀ k, G k → F k) : Yields p kinds G a :=
  fun tokens rest spelled follows => yields tokens rest spelled (weaker _ follows)

/-- The kind of the token at hand is looked at. -/
theorem look {f : TokenKind → Parser β} {q : Parser β} (same : ∀ k, G k → f (headKind kinds k) = q)
    (reads : Yields q kinds G b) : Yields (peekKind >>= f) kinds G b := by
  intro tokens rest spelled follows
  refine returns_bind.mpr ⟨_, tokens ++ rest, returns_peekKind.mpr ⟨rfl, rfl⟩, ?_⟩
  rw [peek_append spelled, same _ follows]
  exact reads tokens rest spelled follows

/-- A parser that peeks reads what its branch for the token reads. -/
theorem peek {f : TokenKind → Parser β} (reads : Yields (f k) (k :: ks) G b) :
    Yields (peekKind >>= f) (k :: ks) G b := .look (fun _ _ => rfl) reads

/-- The token behind is looked at, and not read. -/
theorem peek_nil {f : TokenKind → Parser β} {q : Parser β} (same : ∀ k, G k → f k = q)
    (reads : Yields q [] G b) : Yields (peekKind >>= f) [] G b := .look same reads

/-- A bound from the tokens left is enough. -/
theorem within {g : Nat → Parser β} (reads : ∀ n, kinds.length < n → Yields (g n) kinds G b) :
    Yields (do g ((← get).length + 1)) kinds G b := by
  intro tokens rest spelled follows
  refine returns_bind.mpr ⟨tokens ++ rest, tokens ++ rest, returns_get.mpr ⟨rfl, rfl⟩, ?_⟩
  refine reads _ ?_ tokens rest spelled follows
  rw [← spelled, List.length_map, List.length_append]
  omega

/-- What is read last. -/
theorem last {g : α → β} (reads : Yields p kinds F a) :
    Yields (do
      let x ← p
      return g x) kinds F (g a) := by
  have read : Yields (p >>= fun x => Pure.pure (g x)) (kinds ++ []) F (g a) :=
    reads.bind .pure fun _ allowed => allowed
  rwa [List.append_nil] at read

/-- A loop with steps enough for the text reads its tokens, and the rest follows. -/
theorem within_bind {g : Nat → Parser α} (reads : ∀ n, kinds₁.length < n → Yields (g n) kinds₁ F a)
    (second : Yields (f a) kinds₂ G b) (meets : ∀ k, G k → F (headKind kinds₂ k)) :
    Yields (do
      let x ← g ((← get).length + 1)
      f x) (kinds₁ ++ kinds₂) G b := by
  have read := (within reads).bind second meets
  rwa [bind_assoc] at read

/-- A loop with steps enough for the text reads its tokens. -/
theorem within_last {g : Nat → Parser α} {h : α → β}
    (reads : ∀ n, kinds.length < n → Yields (g n) kinds F a) :
    Yields (do
      let x ← g ((← get).length + 1)
      return h x) kinds F (h a) := by
  have read := (within reads).last (g := h)
  rwa [bind_assoc] at read

/-- A token that is passed is read. -/
theorem advance_bind {f : Unit → Parser β} (inside : k ≠ .eof) (reads : Yields (f ()) ks G b) :
    Yields (advance >>= f) (k :: ks) G b := by
  intro tokens rest spelled follows
  obtain ⟨token, later, rfl, rfl, after⟩ := spelled_cons spelled
  exact returns_bind.mpr ⟨(), later ++ rest, returns_advance.mpr (next_cons inside).symm,
    reads later rest after follows⟩

/-- A name is read where one is expected. -/
theorem name {n : String} : Yields expectIdentifier [.identifier n] F n :=
  .peek (.advance_bind (by simp) .pure)

/-- A name is read where one is expected, and the rest follows. -/
theorem name_bind {n : String} {f : String → Parser β} (reads : Yields (f n) ks G b) :
    Yields (expectIdentifier >>= f) (.identifier n :: ks) G b := by
  have first : Yields expectIdentifier [.identifier n] (fun _ => True) n := .name
  exact first.bind reads fun _ _ => trivial

/-- A type is read where one is expected, and the rest follows. -/
theorem typ_bind {typ : AstType} {f : AstType → Parser β} (reads : Yields (f typ) ks G b) :
    Yields (parseType >>= f) (.keyword (.typ typ) :: ks) G b := by
  have first : Yields parseType [.keyword (.typ typ)] (fun _ => True) typ :=
    .peek (.advance_bind (by simp) .pure)
  exact first.bind reads fun _ _ => trivial

/-- A size is read where one is expected, and the rest follows. -/
theorem size_bind {n : BitVec 64} {f : Nat → Parser β} (reads : Yields (f n.toNat) ks G b) :
    Yields (parseSizeOf >>= f) (.integer n :: ks) G b := by
  have integer : Yields parseInteger [.integer n] (fun _ => True) n :=
    .peek (.advance_bind (by simp) .pure)
  have size : Yields parseSizeOf [.integer n] (fun _ => True) n.toNat := integer.last
  exact size.bind reads fun _ _ => trivial

end Yields

namespace Leaves

variable {P Q : List Token → Prop}

theorem mono (leaves : Leaves P p kinds F) (weaker : ∀ t, P t → Q t) (follows : ∀ k, G k → F k) :
    Leaves Q p kinds G :=
  fun tokens rest spelled allowed a t returned =>
    weaker t (leaves tokens rest spelled (follows _ allowed) a t returned)

theorem bind (first : Yields p kinds₁ F a) (second : Leaves P (f a) kinds₂ G)
    (meets : ∀ k, G k → F (headKind kinds₂ k)) : Leaves P (p >>= f) (kinds₁ ++ kinds₂) G := by
  intro tokens rest spelled follows b t returned
  obtain ⟨t₁, t₂, rfl, spelled₁, spelled₂⟩ := spelled_append spelled
  rw [List.append_assoc] at returned
  obtain ⟨a', m, one, two⟩ := returns_bind.mp returned
  have next := first t₁ (t₂ ++ rest) spelled₁ (by rw [peek_append spelled₂]; exact meets _ follows)
  obtain ⟨rfl, rfl⟩ := next.unique one
  exact second t₂ rest spelled₂ follows b t two

/-- A parser whose first part does not return. -/
theorem first (rejects : Rejects p kinds₁ F) (meets : ∀ k, G k → F (headKind kinds₂ k)) :
    Leaves P (p >>= f) (kinds₁ ++ kinds₂) G := by
  intro tokens rest spelled follows b t returned
  obtain ⟨t₁, t₂, rfl, spelled₁, spelled₂⟩ := spelled_append spelled
  rw [List.append_assoc] at returned
  obtain ⟨a, m, one, -⟩ := returns_bind.mp returned
  have here : (Parser.peek (t₂ ++ rest)).kind = headKind kinds₂ (Parser.peek rest).kind :=
    peek_append spelled₂
  exact (rejects t₁ (t₂ ++ rest) spelled₁ (here ▸ meets _ follows) a m one).elim

/-- A parser whose first part rejects leaves nothing. -/
theorem stops (rejects : Rejects p kinds F) : Leaves P (p >>= f) kinds F := by
  have leaves : Leaves P (p >>= f) (kinds ++ []) F := first rejects fun _ allowed => allowed
  rwa [List.append_nil] at leaves

theorem look {f : TokenKind → Parser β} {q : Parser β} (same : ∀ k, G k → f (headKind kinds k) = q)
    (leaves : Leaves P q kinds G) : Leaves P (peekKind >>= f) kinds G := by
  intro tokens rest spelled follows b t returned
  obtain ⟨k', m, one, two⟩ := returns_bind.mp returned
  obtain ⟨rfl, rfl⟩ := returns_peekKind.mp one
  rw [peek_append spelled, same _ follows] at two
  exact leaves tokens rest spelled follows b t two

theorem within_bind {g : Nat → Parser α}
    (leaves : ∀ n, kinds.length < n → Leaves P (g n >>= f) kinds G) :
    Leaves P (do
      let x ← g ((← get).length + 1)
      f x) kinds G := by
  intro tokens rest spelled follows b t returned
  obtain ⟨s, m, one, two⟩ := returns_bind.mp returned
  obtain ⟨rfl, rfl⟩ := returns_get.mp one
  refine leaves _ ?_ tokens rest spelled follows b t two
  rw [← spelled, List.length_map, List.length_append]
  omega

theorem peek {f : TokenKind → Parser β} (leaves : Leaves P (f k) (k :: ks) G) :
    Leaves P (peekKind >>= f) (k :: ks) G := .look (fun _ _ => rfl) leaves

/-- A failing parser leaves nothing. -/
theorem fail {kind : ParseErrorKind} : Leaves P (Parser.fail kind : Parser α) kinds F := by
  intro tokens rest _ _ a t returned
  obtain ⟨_, _, _, two⟩ := returns_bind.mp returned
  exact absurd two not_returns_throw

theorem advance_bind {f : Unit → Parser β} (inside : k ≠ .eof) (leaves : Leaves P (f ()) ks G) :
    Leaves P (advance >>= f) (k :: ks) G := by
  intro tokens rest spelled follows b t returned
  obtain ⟨token, later, rfl, rfl, after⟩ := spelled_cons spelled
  obtain ⟨u, m, one, two⟩ := returns_bind.mp returned
  obtain rfl := returns_advance.mp one
  rw [List.cons_append, next_cons inside] at two
  exact leaves later rest after follows b t two

theorem name_bind {n : String} {f : String → Parser β} (leaves : Leaves P (f n) ks G) :
    Leaves P (expectIdentifier >>= f) (.identifier n :: ks) G := by
  have first : Yields expectIdentifier [.identifier n] (fun _ => True) n := .name
  exact .bind first leaves fun _ _ => trivial

theorem within {g : Nat → Parser β} (leaves : ∀ n, kinds.length < n → Leaves P (g n) kinds G) :
    Leaves P (do g ((← get).length + 1)) kinds G := by
  intro tokens rest spelled follows b t returned
  obtain ⟨s, m, one, two⟩ := returns_bind.mp returned
  obtain ⟨rfl, rfl⟩ := returns_get.mp one
  refine leaves _ ?_ tokens rest spelled follows b t two
  rw [← spelled, List.length_map, List.length_append]
  omega

end Leaves

/-- A parser that rejects leaves nothing. -/
theorem Rejects.leaves {P : List Token → Prop} (rejects : Rejects p kinds F) : Leaves P p kinds F :=
  rejects.mono (fun _ => False.elim) fun _ => id

/-- A parser that reads a part of the tokens, with a stray one behind. -/
theorem Yields.strands (yields : Yields p kinds₁ F a) (ks : List TokenKind) (allowed : F k)
    (stray : Stray k) :
    Strands p (kinds₁ ++ k :: ks) G := by
  intro tokens rest spelled _ b t returned
  obtain ⟨t₁, t₂, rfl, spelled₁, spelled₂⟩ := spelled_append spelled
  have here : (Parser.peek (t₂ ++ rest)).kind = k := by rw [peek_append spelled₂, headKind]
  rw [List.append_assoc] at returned
  obtain ⟨rfl, rfl⟩ := (yields t₁ (t₂ ++ rest) spelled₁ (here ▸ allowed)).unique returned
  rw [here]
  exact stray

end Sigil.Parser
