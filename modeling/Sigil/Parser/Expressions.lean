import Sigil.Lexer.Spelling
import Sigil.Parser.Operands

/-!
# The prefix text of expressions

An expression is written as its operator, operands and sizes with single spaces between. The
text has no brackets: LOAD takes a number or name behind it for its offset, and the arguments
of CALL and SPAWN go to the end of the line.
-/

namespace Sigil

open Flow

/-- A size as the number that is cast to it. -/
def sizeKind (size : Nat) : TokenKind := .integer (BitVec.ofNat 64 size)

/-- An operator with its operands and sizes. -/
def operationKinds (word : Keyword) (operands : List TokenKind) (sizes : List Nat) :
    List TokenKind :=
  .keyword word :: (operands ++ sizes.map sizeKind)

namespace Expr

section Text

variable (decimal : BitVec 64 → String)

mutual

/-- The tokens of an expression; `decimal` is the text of a float literal. -/
def kinds : Expr → List TokenKind
  | intLit n => [.integer n]
  | floatLit bits => [.floatLit (decimal bits)]
  | stringLit s => [.stringLit s]
  | var name => [.identifier name]
  | field base name => base.kinds ++ [.dot, .identifier name]
  | load source size none => operationKinds .load source.kinds [size]
  | load source size (some offset) => operationKinds .load source.kinds [size] ++ offset.kinds
  | alloc size typ shared =>
      .keyword .alloc :: (size.kinds ++ .keyword (.typ typ) :: if shared then
        [.keyword .shared] else [])
  | intArith op a b size => operationKinds (.intArith op) (a.kinds ++ b.kinds) [size]
  | ineg a size => operationKinds .ineg a.kinds [size]
  | floatArith op a b size => operationKinds (.floatArith op) (a.kinds ++ b.kinds) [size]
  | fneg a size => operationKinds .fneg a.kinds [size]
  | intCmp op a b size => operationKinds (.intCmp op) (a.kinds ++ b.kinds) [size]
  | floatCmp op a b size => operationKinds (.floatCmp op) (a.kinds ++ b.kinds) [size]
  | bitwise op a b size => operationKinds (.bitwise op) (a.kinds ++ b.kinds) [size]
  | not a size => operationKinds .not a.kinds [size]
  | atomicLoad source size => operationKinds .atomicLoad source.kinds [size]
  | atomicStore target value size =>
      operationKinds .atomicStore (target.kinds ++ value.kinds) [size]
  | cas addr expected new size =>
      operationKinds .cas (addr.kinds ++ (expected.kinds ++ new.kinds)) [size]
  | atomicRmw op target value size =>
      operationKinds (.atomicRmw op) (target.kinds ++ value.kinds) [size]
  | ftoi value floatSize intSize => operationKinds .ftoi value.kinds [floatSize, intSize]
  | itof value intSize floatSize => operationKinds .itof value.kinds [intSize, floatSize]
  | call behavior args => .keyword .call :: .identifier behavior :: listKinds args
  | channel typ capacity => .keyword .channel :: .keyword (.typ typ) :: capacity.kinds
  | channelReceive name => [.keyword .channelReceive, .identifier name]
  | spawn pattern args => .keyword .spawn :: .identifier pattern :: listKinds args
  | wait handle => [.keyword .wait, .identifier handle]

def listKinds : List Expr → List TokenKind
  | [] => []
  | e :: rest => e.kinds ++ listKinds rest

end

/-- The text of an expression. -/
def text (e : Expr) : String := String.ofList (spaced (e.kinds decimal))

end Text

/-- The names an expression itself is written with. -/
def words : Expr → List String
  | var name | field _ name | call name _ | channelReceive name | spawn name _ | wait name => [name]
  | _ => []

def sizes : Expr → List Nat
  | load _ size _ | intArith _ _ _ size | ineg _ size | floatArith _ _ _ size | fneg _ size
  | intCmp _ _ _ size | floatCmp _ _ _ size | bitwise _ _ _ size | not _ size | atomicLoad _ size
  | atomicStore _ _ size | cas _ _ _ size | atomicRmw _ _ _ size => [size]
  | ftoi _ fromSize toSize | itof _ fromSize toSize => [fromSize, toSize]
  | _ => []

/-- Names are identifiers, sizes are words, only a name has fields, and `double` reads the text
of each float literal back. -/
structure Spelled (decimal : BitVec 64 → String) (double : String → BitVec 64) (e : Expr) :
    Prop where
  words : ∀ x ∈ e.subexprs, ∀ name ∈ x.words, IsIdentifier name
  sizes : ∀ x ∈ e.subexprs, ∀ size ∈ x.sizes, size < 2 ^ 64
  bases : ∀ base name, .field base name ∈ e.subexprs → ∃ x, base = .var x
  floats : ∀ bits, .floatLit bits ∈ e.subexprs → IsDecimal (decimal bits) ∧
    double (decimal bits) = bits

end Expr

/-- The operands of a spelled expression are spelled. -/
theorem Expr.Spelled.child {decimal : BitVec 64 → String} {double : String → BitVec 64} {e a : Expr}
    (spelled : e.Spelled decimal double) (member : a ∈ e.children) : a.Spelled decimal double where
  words x inside := spelled.words x (Expr.mem_subexprs_of_child member inside)
  sizes x inside := spelled.sizes x (Expr.mem_subexprs_of_child member inside)
  bases base name inside := spelled.bases base name (Expr.mem_subexprs_of_child member inside)
  floats bits inside := spelled.floats bits (Expr.mem_subexprs_of_child member inside)

/-- What stands behind an expression, as far as it matters where that ends. -/
inductive Next where
  | word
  | other
  | ended
  deriving DecidableEq, Repr

/-- A number or a name, the end of the line, or something else. -/
def Next.of : TokenKind → Next
  | .integer _ | .identifier _ => .word
  | .newline | .eof | .arrow => .ended
  | _ => .other

/-- A token that is no number and no name is not a word. -/
theorem Next.of_ne_word {k : TokenKind} (integer : ∀ n, k = .integer n → False)
    (identifier : ∀ name, k = .identifier name → False) : Next.of k ≠ .word := by
  cases k with
  | integer n => exact fun _ => integer n rfl
  | identifier name => exact fun _ => identifier name rfl
  | _ => exact fun same => Next.noConfusion same

namespace Expr

/-- What an expression begins with. -/
def begins : Expr → Next
  | intLit _ | var _ => .word
  | field base _ => base.begins
  | _ => .other

/-- What arguments begin with, or what ends them. -/
def listBegins : List Expr → Next
  | [] => .ended
  | e :: _ => e.begins

mutual

/-- In front of what stands behind it the expression ends where the parser ends it: a LOAD
without an offset is not in front of a number or a name, an offset begins with one, and the
arguments of CALL and SPAWN are the last ones of the line. -/
def Delimited : Expr → Next → Bool
  | load source _ none, next => source.Delimited .word && next != .word
  | load source _ (some offset), next =>
      source.Delimited .word && (offset.begins == .word && offset.Delimited next)
  | alloc size _ _, _ => size.Delimited .other
  | intArith _ a b _, _ | floatArith _ a b _, _ | intCmp _ a b _, _ | floatCmp _ a b _, _
  | bitwise _ a b _, _ | atomicStore a b _, _ | atomicRmw _ a b _, _ =>
      a.Delimited b.begins && b.Delimited .word
  | ineg a _, _ | fneg a _, _ | not a _, _ | atomicLoad a _, _ | ftoi a _ _, _ | itof a _ _, _ =>
      a.Delimited .word
  | cas a b c _, _ => a.Delimited b.begins && (b.Delimited c.begins && c.Delimited .word)
  | call _ args, next | spawn _ args, next => next == .ended && listDelimited args
  | channel _ capacity, next => capacity.Delimited next
  | _, _ => true

def listDelimited : List Expr → Bool
  | [] => true
  | e :: rest => e.Delimited (listBegins rest) && listDelimited rest

end

end Expr

namespace Parser

variable {double : String → BitVec 64} {decimal : BitVec 64 → String} {operand : Parser Expr}
  {e : Expr}
  {s t : List Token}

/-- Whatever the parser returns ends where it is taken to end. -/
def Sound (operand : Parser Expr) : Prop :=
  ∀ s e t, Returns operand s e t → e.Delimited (Next.of (peek t).kind) ∧ e.begins =
    Next.of (peek s).kind

/-- A size begins with a number. -/
theorem next_size {size : Nat} (returned : Returns parseSizeOf s size t) :
    Next.of (peek s).kind = .word := by
  unfold parseSizeOf parseInteger at returned
  simp only [returns_bind, returns_peekKind] at returned
  obtain ⟨n, m, ⟨_, _, ⟨rfl, rfl⟩, read⟩, _⟩ := returned
  split at read
  next same => rw [same]; rfl
  next => exact absurd read not_returns_fail

/-- Behind a token that is read as a type no word was expected. -/
theorem next_type {typ : AstType} (returned : Returns parseType s typ t) :
    Next.of (peek s).kind = .other := by
  unfold parseType at returned
  simp only [returns_bind, returns_peekKind] at returned
  obtain ⟨_, _, ⟨rfl, rfl⟩, read⟩ := returned
  split at read
  next same => rw [same]; rfl
  next => exact absurd read not_returns_fail

/-- What is read as an operation of one operand is one. -/
theorem Sound.unaryOp (sound : Sound operand) {constructor : Expr → Nat → Expr}
    (returned : Returns (parseUnaryOp operand constructor) s e t) :
    ∃ a size, e = constructor a size ∧ a.Delimited .word := by
  unfold parseUnaryOp at returned
  simp only [returns_bind, returns_pure] at returned
  obtain ⟨_, _, _, a, m, first, size, _, read, rfl, _⟩ := returned
  exact ⟨a, size, rfl, next_size read ▸ (sound _ _ _ first).1⟩

/-- What is read as an operation of two operands is one. -/
theorem Sound.binaryOp (sound : Sound operand) {constructor : Expr → Expr → Nat → Expr}
    (returned : Returns (parseBinaryOp operand constructor) s e t) :
    ∃ a b size, e = constructor a b size ∧ a.Delimited b.begins ∧ b.Delimited .word := by
  unfold parseBinaryOp at returned
  simp only [returns_bind, returns_pure] at returned
  obtain ⟨_, _, _, a, m, first, b, m', second, size, _, read, rfl, _⟩ := returned
  obtain ⟨ended, begun⟩ := sound _ _ _ second
  exact ⟨a, b, size, rfl, begun ▸ (sound _ _ _ first).1, next_size read ▸ ended⟩

/-- What is read as a conversion is one. -/
theorem Sound.conversion (sound : Sound operand) {constructor : Expr → Nat → Nat → Expr}
    (returned : Returns (parseConversion operand constructor) s e t) :
    ∃ a fromSize toSize, e = constructor a fromSize toSize ∧ a.Delimited .word := by
  unfold parseConversion at returned
  simp only [returns_bind, returns_pure] at returned
  obtain ⟨_, _, _, a, m, first, fromSize, _, read, toSize, _, _, rfl, _⟩ := returned
  exact ⟨a, fromSize, toSize, rfl, next_size read ▸ (sound _ _ _ first).1⟩

/-- What is read as arguments is a list of them. -/
theorem Sound.args (sound : Sound operand) {ends : TokenKind → Bool} {steps : Nat}
    {args : List Expr}
    (ended : ∀ k, ends k → Next.of k = .ended)
      (returned : Returns (parseArgs operand ends steps) s args t) :
    Expr.listDelimited args ∧ Expr.listBegins args = Next.of (peek s).kind ∧
      Next.of (peek t).kind = .ended := by
  induction steps generalizing s args with
  | zero => exact absurd returned not_returns_fail
  | succ steps ih =>
      rw [parseArgs] at returned
      simp only [returns_bind, returns_peekKind] at returned
      obtain ⟨_, _, ⟨rfl, rfl⟩, read⟩ := returned
      split at read
      next last =>
        obtain ⟨rfl, rfl⟩ := returns_pure.mp read
        exact ⟨rfl, (ended _ last).symm, ended _ last⟩
      next =>
        simp only [returns_bind, returns_pure] at read
        obtain ⟨arg, m, first, rest, _, later, rfl, rfl⟩ := read
        obtain ⟨all, begun, done⟩ := ih later
        obtain ⟨here, head⟩ := sound _ _ _ first
        refine ⟨?_, head, done⟩
        rw [Expr.listDelimited, begun, here, all]
        rfl

/-- The offset of a LOAD is read exactly when a number or a name stands behind the size. -/
theorem Sound.offset (sound : Sound operand) {offset : Option Expr}
    (returned : Returns (parseOffset operand) s offset t) :
    match offset with
    | none => Next.of (peek t).kind ≠ .word
    | some offset => offset.begins = .word ∧ offset.Delimited (Next.of (peek t).kind) := by
  unfold parseOffset at returned
  simp only [returns_bind, returns_peekKind] at returned
  obtain ⟨_, _, ⟨rfl, rfl⟩, read⟩ := returned
  split at read
  next same =>
    simp only [returns_bind, returns_pure] at read
    obtain ⟨offset, m, first, rfl, rfl⟩ := read
    obtain ⟨here, head⟩ := sound _ _ _ first
    exact ⟨by rw [head, same]; rfl, here⟩
  next same =>
    simp only [returns_bind, returns_pure] at read
    obtain ⟨offset, m, first, rfl, rfl⟩ := read
    obtain ⟨here, head⟩ := sound _ _ _ first
    exact ⟨by rw [head, same]; rfl, here⟩
  next integer identifier =>
    obtain ⟨rfl, rfl⟩ := returns_pure.mp read
    exact Next.of_ne_word integer identifier

/-- What a keyword begins is an expression that it begins. -/
theorem Sound.keyword (sound : Sound operand) {word : Keyword}
    (returned : Returns (parseKeyword operand word) s e t) :
    e.Delimited (Next.of (peek t).kind) ∧ e.begins = .other := by
  cases word with
  | load =>
      simp only [parseKeyword, returns_bind, returns_pure] at returned
      obtain ⟨_, _, _, source, _, first, size, _, read, offset, _, last, rfl, rfl⟩ := returned
      have here := next_size read ▸ (sound _ _ _ first).1
      have behind := sound.offset last
      cases offset with
      | none => exact ⟨by simpa [Expr.Delimited, here] using behind, rfl⟩
      | some offset => exact ⟨by simpa [Expr.Delimited, here] using behind, rfl⟩
  | alloc =>
      simp only [parseKeyword, returns_bind, returns_peekKind] at returned
      obtain ⟨_, _, _, size, _, first, typ, m, read, _, _, ⟨rfl, rfl⟩, last⟩ := returned
      have here := next_type read ▸ (sound _ _ _ first).1
      split at last
      · simp only [returns_bind, returns_pure] at last
        obtain ⟨_, _, _, rfl, _⟩ := last
        exact ⟨here, rfl⟩
      · obtain ⟨rfl, _⟩ := returns_pure.mp last
        exact ⟨here, rfl⟩
  | intArith | intCmp | bitwise | floatArith | floatCmp | atomicStore | atomicRmw =>
      obtain ⟨a, b, size, rfl, here, last⟩ := sound.binaryOp returned
      exact ⟨by simp [Expr.Delimited, here, last], rfl⟩
  | ineg | not | fneg | atomicLoad =>
      obtain ⟨a, size, rfl, here⟩ := sound.unaryOp returned
      exact ⟨here, rfl⟩
  | ftoi | itof =>
      obtain ⟨a, fromSize, toSize, rfl, here⟩ := sound.conversion returned
      exact ⟨here, rfl⟩
  | cas =>
      simp only [parseKeyword, returns_bind, returns_pure] at returned
      obtain ⟨_, _, _, addr, _, first, expected, _, second, new, _, third, size, _, read, rfl,
        _⟩ := returned
      obtain ⟨ended, begun⟩ := sound _ _ _ second
      obtain ⟨ended', begun'⟩ := sound _ _ _ third
      have here := begun ▸ (sound _ _ _ first).1
      have last := next_size read ▸ ended'
      exact ⟨by simp [Expr.Delimited, here, begun' ▸ ended, last], rfl⟩
  | call =>
      simp only [parseKeyword, returns_bind, returns_get, returns_pure] at returned
      obtain ⟨_, _, _, behavior, _, _, _, _, _, args, _, listed, rfl, rfl⟩ := returned
      obtain ⟨all, _, ended⟩ := sound.args
        (fun k last => by cases k <;> first | rfl | cases last) listed
      exact ⟨by simp [Expr.Delimited, all, ended], rfl⟩
  | spawn =>
      simp only [parseKeyword, returns_bind, returns_get, returns_pure] at returned
      obtain ⟨_, _, _, pattern, _, _, _, _, _, args, _, listed, rfl, rfl⟩ := returned
      obtain ⟨all, _, ended⟩ := sound.args
        (fun k last => by cases k <;> first | rfl | cases last) listed
      exact ⟨by simp [Expr.Delimited, all, ended], rfl⟩
  | channel =>
      simp only [parseKeyword, returns_bind, returns_pure] at returned
      obtain ⟨_, _, _, typ, _, _, capacity, _, last, rfl, rfl⟩ := returned
      exact ⟨(sound _ _ _ last).1, rfl⟩
  | channelReceive | wait =>
      simp only [parseKeyword, returns_bind, returns_pure] at returned
      obtain ⟨_, _, _, name, _, _, rfl, _⟩ := returned
      exact ⟨rfl, rfl⟩
  | _ => exact absurd returned not_returns_fail

/-- What the parser returns is delimited by what it leaves. -/
theorem sound_parseExprWithin (steps : Nat) : Sound (parseExprWithin double steps) := by
  induction steps with
  | zero => exact fun s e t returned => absurd returned not_returns_fail
  | succ steps ih =>
      intro s e t returned
      rw [parseExprWithin] at returned
      obtain ⟨k, m, looked, read⟩ := returns_bind.mp returned
      obtain ⟨rfl, rfl⟩ := returns_peekKind.mp looked
      split at read
      next same =>
        simp only [returns_bind, returns_pure] at read
        obtain ⟨_, _, _, rfl, _⟩ := read
        exact ⟨rfl, by rw [same]; rfl⟩
      next same =>
        simp only [returns_bind, returns_pure] at read
        obtain ⟨_, _, _, rfl, _⟩ := read
        exact ⟨rfl, by rw [same]; rfl⟩
      next same =>
        simp only [returns_bind, returns_pure] at read
        obtain ⟨_, _, _, rfl, _⟩ := read
        exact ⟨rfl, by rw [same]; rfl⟩
      next same =>
        unfold parseVar at read
        simp only [returns_bind, returns_peekKind] at read
        obtain ⟨name, m, _, _, _, ⟨rfl, rfl⟩, last⟩ := read
        split at last
        · simp only [returns_bind, returns_pure] at last
          obtain ⟨_, _, _, field, _, _, rfl, _⟩ := last
          exact ⟨rfl, by rw [same]; rfl⟩
        · obtain ⟨rfl, _⟩ := returns_pure.mp last
          exact ⟨rfl, by rw [same]; rfl⟩
      next word same =>
        obtain ⟨here, head⟩ := ih.keyword read
        exact ⟨here, by rw [head, same]; rfl⟩
      next => exact absurd read not_returns_fail

section Completeness

/-- A token that stands behind an operand, or at the end of the line. -/
def After (next : Next) (k : TokenKind) : Prop :=
  Next.of k = next ∧ k ≠ .dot ∧ k ≠ .arrow ∧ k ≠ .keyword .shared

/-- A size may follow where a word may. -/
theorem after_size (size : Nat) : After .word (sizeKind size) := ⟨rfl, by simp [sizeKind]⟩

/-- A type may follow where another token may. -/
theorem after_type (typ : AstType) : After .other (.keyword (.typ typ)) := ⟨rfl, by simp⟩

/-- Only the end of the line follows a list of arguments. -/
theorem after_ended {k : TokenKind} (after : After .ended k) : k = .newline ∨ k = .eof := by
  obtain ⟨same, -, arrow, -⟩ := after
  cases k with
  | newline => exact .inl rfl
  | eof => exact .inr rfl
  | arrow => exact absurd rfl arrow
  | _ => cases same

/-- An expression begins with a token of its own. -/
theorem kinds_begin (decimal : BitVec 64 → String) (e : Expr) :
    ∃ k ks, e.kinds decimal = k :: ks ∧ After e.begins k := by
  induction e using Expr.inductionOnChildren with
  | step e ih =>
      cases e with
      | field base name =>
          obtain ⟨k, ks, same, after⟩ := ih base (by simp [Expr.children])
          exact ⟨k, ks ++ [.dot, .identifier name], by rw [Expr.kinds, same]; rfl, after⟩
      | load source size offset => cases offset <;> exact ⟨_, _, rfl, rfl, by simp⟩
      | _ => exact ⟨_, _, rfl, rfl, by simp⟩

/-- No expression begins with the end of a line. -/
theorem begins_ne_ended (e : Expr) : e.begins ≠ .ended := by
  induction e using Expr.inductionOnChildren with
  | step e ih =>
      cases e with
      | field base name => exact ih base (by simp [Expr.children])
      | _ => exact fun same => Next.noConfusion same

/-- An expression may follow where its first token may. -/
theorem after_head {e : Expr} {ks : List TokenKind} {k : TokenKind} :
    After e.begins (headKind (e.kinds decimal ++ ks) k) := by
  obtain ⟨first, later, same, after⟩ := kinds_begin decimal e
  rw [same]
  exact after

/-- Every expression has a token. -/
theorem kinds_pos (decimal : BitVec 64 → String) (e : Expr) : 0 < (e.kinds decimal).length := by
  obtain ⟨first, later, same, -⟩ := kinds_begin decimal e
  rw [same]
  exact Nat.succ_pos _

variable {α : Type} {a b c : Expr} {size : Nat} {word : Keyword} {G : TokenKind → Prop}
  {ks : List TokenKind}

/-- A size that fits 64 bits is read as itself. -/
theorem Yields.sized {f : Nat → Parser α} {r : α} (fits : size < 2 ^ 64)
    (later : Yields (f size) ks G r) :
    Yields (parseSizeOf >>= f) (sizeKind size :: ks) G r := by
  refine .size_bind ?_
  rwa [BitVec.toNat_ofNat, Nat.mod_eq_of_lt fits]

/-- The parser reads an expression in front of what may stand behind it. -/
def ReadsIn (operand : Parser Expr) (decimal : BitVec 64 → String) (e : Expr) (next : Next) :
    Prop :=
  Yields operand (e.kinds decimal) (After next) e

/-- An operation is read back when its operand is. -/
theorem ReadsIn.unaryOp {constructor : Expr → Nat → Expr} (first : ReadsIn operand decimal a .word)
    (fits : size < 2 ^ 64) : Yields (parseUnaryOp operand constructor)
      (operationKinds word (a.kinds decimal) [size]) G (constructor a size) :=
  .advance_bind (by simp) (Yields.bind first (.sized fits .pure) fun _ _ => after_size size)

/-- An operation is read back when its two operands are. -/
theorem ReadsIn.binaryOp {constructor : Expr → Expr → Nat → Expr}
    (first : ReadsIn operand decimal a b.begins)
    (second : ReadsIn operand decimal b .word) (fits : size < 2 ^ 64) :
      Yields (parseBinaryOp operand constructor)
      (operationKinds word (a.kinds decimal ++ b.kinds decimal) [size]) G
        (constructor a b size) := by
  rw [operationKinds, List.append_assoc]
  exact .advance_bind (by simp) (Yields.bind first (Yields.bind second (.sized fits .pure)
    fun _ _ => after_size size) fun _ _ => after_head)

/-- A conversion is read back when its operand is. -/
theorem ReadsIn.conversion {constructor : Expr → Nat → Nat → Expr} {toSize : Nat}
    (first : ReadsIn operand decimal a .word) (fits : size < 2 ^ 64) (fits' : toSize < 2 ^ 64) :
    Yields (parseConversion operand constructor)
      (operationKinds word (a.kinds decimal) [size, toSize]) G
      (constructor a size toSize) :=
  .advance_bind (by simp) (Yields.bind first (.sized fits (.sized fits' .pure)) fun _ _ =>
    after_size size)

/-- Arguments are read up to the end of the line. -/
theorem yields_delimitedArgs {ends : TokenKind → Bool} {steps : Nat} {args : List Expr}
    (reads : ∀ arg ∈ args, ∀ next, arg.Delimited next → ReadsIn operand decimal arg next)
    (stops : ∀ k, After .ended k → ends k) (goes : ∀ k, ends k → Next.of k = .ended)
    (enough : (Expr.listKinds decimal args).length < steps) (delimited : Expr.listDelimited args) :
    Yields (parseArgs operand ends steps) (Expr.listKinds decimal args) (After .ended) args := by
  induction args generalizing steps with
  | nil =>
      obtain ⟨steps, rfl⟩ := Nat.exists_eq_succ_of_ne_zero (Nat.ne_of_gt enough)
      exact .peek_nil (q := pure []) (fun k last => if_pos (stops k last)) .pure
  | cons arg args ih =>
      obtain ⟨steps, rfl⟩ := Nat.exists_eq_succ_of_ne_zero (Nat.ne_of_gt (Nat.zero_lt_of_lt enough))
      obtain ⟨here, delimited⟩ := Bool.and_eq_true_iff.mp delimited
      obtain ⟨first, reads⟩ := List.forall_mem_cons.mp reads
      have some_ := kinds_pos decimal arg
      rw [Expr.listKinds, List.length_append] at enough
      have fewer : (Expr.listKinds decimal args).length < steps := by omega
      have later := ih reads fewer delimited
      rw [Expr.listKinds]
      refine .look (fun k _ => if_neg fun last => ?_)
        (Yields.bind (first _ here) later.last fun k ended => ?_)
      · exact begins_ne_ended arg (after_head.1.symm.trans (goes _ last))
      · cases args with
        | nil => exact ended
        | cons next args => exact after_head

/-- The tokens of arguments are those of each, in order. -/
theorem listKinds_eq_flatMap (args : List Expr) :
    Expr.listKinds decimal args = args.flatMap (Expr.kinds decimal) := by
  induction args with
  | nil => rfl
  | cons arg args ih => rw [Expr.listKinds, ih, List.flatMap_cons]

/-- An operand has fewer tokens. -/
theorem kinds_length_lt (member : a ∈ e.children) :
    (a.kinds decimal).length < (e.kinds decimal).length := by
  cases e with
  | load source size offset =>
      cases offset <;> simp [Expr.children] at member <;> rcases member with rfl | rfl <;>
        simp only [Expr.kinds, operationKinds, List.length_cons, List.length_append] <;> omega
  | call name args | spawn name args =>
      have part :=
        (List.sublist_flatten_of_mem (List.mem_map_of_mem (f := Expr.kinds decimal)
          member)).length_le
      rw [Expr.kinds, listKinds_eq_flatMap, List.length_cons, List.length_cons]
      exact Nat.lt_succ_of_le (Nat.le_succ_of_le part)
  | intLit | floatLit | stringLit | var | channelReceive | wait => cases member
  | intArith op a b size | floatArith op a b size | intCmp op a b size | floatCmp op a b size
  | bitwise op a b size | atomicStore a b size | atomicRmw op a b size =>
      simp [Expr.children] at member
      rcases member with rfl | rfl <;>
        simp only [Expr.kinds, operationKinds, List.length_cons, List.length_append] <;> omega
  | cas a b c size =>
      simp [Expr.children] at member
      rcases member with rfl | rfl | rfl <;>
        simp only [Expr.kinds, operationKinds, List.length_cons, List.length_append] <;> omega
  | _ =>
      obtain rfl := List.mem_singleton.mp member
      simp [Expr.kinds, operationKinds]
      try omega

/-- A keyword and what it begins. -/
theorem readsIn_keyword {next : Next} {n : Nat} {word : Keyword} {ks : List TokenKind}
    (kinds : e.kinds decimal = .keyword word :: ks)
    (reads : Yields (parseKeyword (parseExprWithin double n) word) (.keyword word :: ks)
      (After next) e) :
    ReadsIn (parseExprWithin double (n + 1)) decimal e next := by
  rw [ReadsIn, kinds]
  exact .peek reads

/-- The type of an allocation and whether it is shared. -/
theorem yields_sharedType {next : Next} (size : Expr) (typ : AstType) (shared : Bool) :
    Yields (do
      let typ ← parseType
      match ← peekKind with
      | .keyword .shared =>
          advance
          return Expr.alloc size typ true
      | _ => return Expr.alloc size typ false)
      (.keyword (.typ typ) :: if shared then [.keyword .shared] else []) (After next)
      (Expr.alloc size typ shared) := by
  refine .typ_bind ?_
  cases shared with
  | true => exact .peek (.advance_bind (by simp) .pure)
  | false =>
      refine .peek_nil (q := pure _) (fun k after => ?_) .pure
      split
      · exact absurd rfl after.2.2.2
      · rfl

/-- A delimited expression is read. -/
theorem readsIn_parseExprWithin {next : Next} {n : Nat} (spelled : e.Spelled decimal double)
    (enough : (e.kinds decimal).length ≤ n) (delimited : e.Delimited next) :
    ReadsIn (parseExprWithin double n) decimal e next := by
  induction e using Expr.inductionOnChildren generalizing n next with
  | step e ih =>
      obtain ⟨n, rfl⟩ := Nat.exists_eq_add_of_lt ((kinds_pos decimal e).trans_le enough)
      rw [Nat.zero_add] at enough ⊢
      have operand {child : Expr} (member : child ∈ e.children) (next : Next)
          (delimited : child.Delimited next) :
            ReadsIn (parseExprWithin double n) decimal child next :=
        ih child member (spelled.child member)
          (Nat.le_of_lt_succ ((kinds_length_lt member).trans_le enough)) delimited
      have fits : ∀ size ∈ e.sizes, size < 2 ^ 64 := spelled.sizes e e.self_mem_subexprs
      cases e with
      | intLit m => exact .peek (.advance_bind (by simp) .pure)
      | stringLit s => exact .peek (.advance_bind (by simp) .pure)
      | floatLit bits =>
          have reads : Yields (parseExprWithin double (n + 1)) [.floatLit (decimal bits)]
            (After next)
              (.floatLit (double (decimal bits))) := .peek (.advance_bind (by simp) .pure)
          rwa [(spelled.floats bits (by simp)).2] at reads
      | var name => exact .peek (yields_parseVar_name.mono fun k after => after.2.1)
      | field base name =>
          obtain ⟨x, rfl⟩ := spelled.bases base name (by simp)
          exact .peek yields_parseVar_field
      | load source size offset =>
          have word : size < 2 ^ 64 := fits size (by simp [Expr.sizes])
          cases offset with
          | none =>
              obtain ⟨here, apart⟩ := Bool.and_eq_true_iff.mp delimited
              have none_ : Yields (parseOffset (parseExprWithin double n)) [] (After next)
                none := by
                refine .peek_nil (q := pure none) (fun k after => ?_) .pure
                obtain ⟨rfl, -⟩ := after
                cases k with
                | integer | identifier => cases apart
                | _ => rfl
              exact readsIn_keyword rfl (.advance_bind (by simp) (Yields.bind
                (operand (by simp [Expr.children]) _ here) (.sized word none_.last) fun _ _ =>
                  after_size size))
          | some offset =>
              obtain ⟨here, begun, last⟩ : source.Delimited .word ∧ offset.begins = .word ∧
                offset.Delimited next := by
                simpa [Expr.Delimited] using delimited
              have read := operand (by simp [Expr.children]) _ last
              have some_ : Yields (parseOffset (parseExprWithin double n))
                (offset.kinds decimal) (After next)
                  (some offset) := by
                obtain ⟨first, later, same, after, -⟩ := kinds_begin decimal offset
                have whole : Yields _ (offset.kinds decimal) (After next) (some offset) :=
                  Yields.last read
                rw [same] at whole ⊢
                rw [begun] at after
                cases first with
                | integer | identifier => exact .peek whole
                | _ => cases after
              have kinds : (Expr.load source size (some offset)).kinds decimal = .keyword .load ::
                  (source.kinds decimal ++ sizeKind size :: offset.kinds decimal) := by
                simp [Expr.kinds, operationKinds]
              exact readsIn_keyword kinds (.advance_bind (by simp) (Yields.bind
                (operand (by simp [Expr.children]) _ here) (.sized word some_.last) fun _ _ =>
                  after_size size))
      | alloc size typ shared =>
          exact readsIn_keyword rfl (.advance_bind (by simp) (Yields.bind
            (operand (by simp [Expr.children]) _ delimited) (yields_sharedType size typ shared)
              fun _ _ => after_type typ))
      | intArith op a b size | floatArith op a b size | intCmp op a b size | floatCmp op a b size
      | bitwise op a b size | atomicStore a b size | atomicRmw op a b size =>
          obtain ⟨here, last⟩ := Bool.and_eq_true_iff.mp delimited
          exact readsIn_keyword rfl (ReadsIn.binaryOp (operand (by simp [Expr.children]) _ here)
            (operand (by simp [Expr.children]) _ last) (fits _ (by simp [Expr.sizes])))
      | ineg a size | not a size | fneg a size | atomicLoad a size =>
          exact readsIn_keyword rfl (ReadsIn.unaryOp (operand (by simp [Expr.children]) _ delimited)
            (fits _ (by simp [Expr.sizes])))
      | ftoi value floatSize intSize | itof value intSize floatSize =>
          exact readsIn_keyword rfl (ReadsIn.conversion
            (operand (by simp [Expr.children]) _ delimited)
            (fits _ (by simp [Expr.sizes])) (fits _ (by simp [Expr.sizes])))
      | cas addr expected new size =>
          obtain ⟨first, second, third⟩ : addr.Delimited expected.begins ∧
            expected.Delimited new.begins ∧
              new.Delimited .word := by simpa [Expr.Delimited] using delimited
          have kinds : (Expr.cas addr expected new size).kinds decimal = .keyword .cas ::
              (addr.kinds decimal ++ (expected.kinds decimal ++
                (new.kinds decimal ++ [sizeKind size]))) := by
            simp [Expr.kinds, operationKinds]
          exact readsIn_keyword kinds (.advance_bind (by simp) (Yields.bind
            (operand (by simp [Expr.children]) _ first)
              (Yields.bind (operand (by simp [Expr.children]) _ second)
              (Yields.bind (operand (by simp [Expr.children]) _ third)
                (.sized (fits _ (by simp [Expr.sizes])) .pure) fun _ _ => after_size size)
              fun _ _ => after_head) fun _ _ => after_head))
      | call behavior args =>
          obtain ⟨last, listed⟩ := Bool.and_eq_true_iff.mp delimited
          obtain rfl := beq_iff_eq.mp last
          exact readsIn_keyword rfl (.advance_bind (by simp)
            (.name_bind (.within_last fun m enough =>
            yields_delimitedArgs (fun arg member _ => operand member _)
              (fun k after => by rcases after_ended after with rfl | rfl <;> rfl)
              (fun k ends => by cases k <;> first | rfl | cases ends) enough listed)))
      | spawn pattern args =>
          obtain ⟨last, listed⟩ := Bool.and_eq_true_iff.mp delimited
          obtain rfl := beq_iff_eq.mp last
          exact readsIn_keyword rfl (.advance_bind (by simp)
            (.name_bind (.within_last fun m enough =>
            yields_delimitedArgs (fun arg member _ => operand member _)
              (fun k after => by rcases after_ended after with rfl | rfl <;> rfl)
              (fun k ends => by cases k <;> first | rfl | cases ends) enough listed)))
      | channel typ capacity =>
          exact readsIn_keyword rfl (.advance_bind (by simp) (.typ_bind
            (Yields.last (operand (by simp [Expr.children]) _ delimited))))
      | channelReceive name | wait name =>
          exact readsIn_keyword rfl (.advance_bind (by simp) (.name_bind .pure))

end Completeness

end Parser

/-- The parser returns the expression from its text and reads all of it. -/
def Expr.ReadsBack (decimal : BitVec 64 → String) (double : String → BitVec 64) (e : Expr) : Prop :=
  ∃ tokens eof, lex (e.text decimal) = .ok (tokens ++ [eof]) ∧ eof.kind = .eof ∧
    Returns (Parser.parseExpr double) (tokens ++ [eof]) e [eof]

section Text

variable {double : String → BitVec 64} {decimal : BitVec 64 → String} {e : Expr}

/-- Tokens that are read back from their text with single spaces between them. -/
structure Readable (ks : List TokenKind) : Prop where
  written : ∀ k ∈ ks, Spellable k
  pointed : Pointed ks

/-- No tokens are readable. -/
theorem Readable.nil : Readable [] := ⟨by simp, List.isChain_nil⟩

/-- A spellable token in front keeps tokens readable when they do not begin with a dot. -/
theorem Readable.cons {k : TokenKind} {ks : List TokenKind} (written : Spellable k)
    (later : Readable ks)
    (apart : ∀ k ∈ ks.head?, k ≠ .dot) : Readable (k :: ks) :=
  ⟨List.forall_mem_cons.mpr ⟨written, later.written⟩,
    Pointed.append (List.isChain_singleton k : Pointed [k]) later.pointed apart⟩

/-- Readable tokens follow each other when the second do not begin with a dot. -/
theorem Readable.append {ks ks' : List TokenKind} (first : Readable ks) (second : Readable ks')
    (apart : ∀ k ∈ ks'.head?, k ≠ .dot) : Readable (ks ++ ks') :=
  ⟨fun k member => (List.mem_append.mp member).elim (first.written k) (second.written k),
    first.pointed.append second.pointed apart⟩

/-- No expression begins with a dot. -/
theorem head_kinds (e : Expr) : ∀ k ∈ (e.kinds decimal).head?, k ≠ .dot := by
  obtain ⟨first, later, same, -, apart, -⟩ := Parser.kinds_begin decimal e
  intro k member
  rw [same] at member
  obtain rfl := Option.some.inj member
  exact apart

/-- Sizes are readable and do not begin with a dot. -/
theorem readable_sizes (sizes : List Nat) : Readable (sizes.map sizeKind) ∧
    ∀ k ∈ (sizes.map sizeKind).head?, k ≠ .dot := by
  induction sizes with
  | nil => exact ⟨.nil, by simp⟩
  | cons size sizes ih => exact ⟨.cons .integer ih.1 ih.2, by simp [sizeKind]⟩

/-- An operation is readable when its operands are. -/
theorem readable_operation {word : Keyword} {operands : List TokenKind} {sizes : List Nat}
    (inside : word ≠ .description) (readable : Readable operands)
      (apart : ∀ k ∈ operands.head?, k ≠ .dot) :
    Readable (operationKinds word operands sizes) := by
  obtain ⟨later, apart'⟩ := readable_sizes sizes
  refine .cons (.keyword inside) (readable.append later apart') fun k member => ?_
  cases operands with
  | nil => exact apart' k member
  | cons first operands => exact apart k member

/-- What begins with an expression does not begin with a dot. -/
theorem head_append {ks : List TokenKind} : ∀ k ∈ (e.kinds decimal ++ ks).head?, k ≠ .dot := by
  obtain ⟨first, later, same, -, apart, -⟩ := Parser.kinds_begin decimal e
  intro k member
  rw [same] at member
  obtain rfl := Option.some.inj member
  exact apart

/-- Arguments are readable when each is. -/
theorem readable_args {args : List Expr} (readable : ∀ arg ∈ args, Readable (arg.kinds decimal)) :
    Readable (Expr.listKinds decimal args) ∧ ∀ k ∈ (Expr.listKinds decimal args).head?,
      k ≠ .dot := by
  induction args with
  | nil => exact ⟨.nil, by simp [Expr.listKinds]⟩
  | cons arg args ih =>
      obtain ⟨first, readable⟩ := List.forall_mem_cons.mp readable
      exact ⟨first.append (ih readable).1 (ih readable).2, head_append⟩

/-- The tokens of an expression are read back from its text. -/
theorem readable_kinds (spelled : e.Spelled decimal double) : Readable (e.kinds decimal) := by
  induction e using Expr.inductionOnChildren with
  | step e ih =>
      have operand {child : Expr} (member : child ∈ e.children) :=
        ih child member (spelled.child member)
      have ident : ∀ name ∈ e.words, Readable [.identifier name] := fun name member =>
        .cons (.identifier (spelled.words e e.self_mem_subexprs name member)) .nil (by simp)
      cases e with
      | intLit => exact .cons .integer .nil (by simp)
      | floatLit bits => exact .cons (.floatLit (spelled.floats bits (by simp)).1) .nil (by simp)
      | stringLit => exact .cons .stringLit .nil (by simp)
      | var name => exact ident name (by simp [Expr.words])
      | field base name =>
          obtain ⟨x, rfl⟩ := spelled.bases base name (by simp)
          have field : Readable [.dot, .identifier name] :=
            .cons .dot (ident name (by simp [Expr.words])) (by simp)
          refine ⟨List.forall_mem_cons.mpr ⟨?_, field.written⟩,
            List.isChain_cons_cons.mpr ⟨?_, field.pointed⟩⟩
          · have base : Readable ((Expr.var x).kinds decimal) := operand (by simp [Expr.children])
            exact base.written _ (by simp [Expr.kinds])
          · exact fun _ => ⟨x, rfl⟩
      | load source size offset =>
          have read : Readable (source.kinds decimal) :=
            operand (by cases offset <;> simp [Expr.children])
          have whole : Readable (operationKinds .load (source.kinds decimal) [size]) :=
            readable_operation (by decide) read (head_kinds source)
          cases offset with
          | none => exact whole
          | some offset =>
              exact whole.append (operand (by simp [Expr.children])) (head_kinds offset)
      | alloc size typ shared =>
          refine .cons (.keyword (by decide)) ((operand (by simp [Expr.children])).append ?_ ?_)
            head_append
          · cases shared with
            | true =>
                exact .cons (.keyword (by simp)) (.cons (.keyword (by decide)) .nil (by simp))
                  (by simp)
            | false => exact .cons (.keyword (by simp)) .nil (by simp)
          · simp
      | intArith op a b size | floatArith op a b size | intCmp op a b size | floatCmp op a b size
      | bitwise op a b size | atomicStore a b size | atomicRmw op a b size =>
          exact readable_operation (by simp) ((operand (by simp [Expr.children])).append
            (operand (by simp [Expr.children])) (head_kinds b)) head_append
      | ineg | not | fneg | atomicLoad | ftoi | itof =>
          exact readable_operation (by decide) (operand (by simp [Expr.children])) (head_kinds _)
      | cas addr expected new size =>
          exact readable_operation (by decide) ((operand (by simp [Expr.children])).append
            ((operand (by simp [Expr.children])).append (operand (by simp [Expr.children]))
              (head_kinds new))
            head_append) head_append
      | call name args | spawn name args =>
          obtain ⟨listed, apart⟩ := readable_args fun _ member => operand member
          exact .cons (.keyword (by decide)) ((ident name (by simp [Expr.words])).append listed
            apart) (by simp)
      | channel typ capacity =>
          exact .cons (.keyword (by decide)) (.cons (.keyword (by simp))
            (operand (by simp [Expr.children]))
            (head_kinds capacity)) (by simp)
      | channelReceive name | wait name =>
          exact .cons (.keyword (by decide)) (ident name (by simp [Expr.words])) (by simp)

/-- The text of an expression is lexed to its tokens and the end of the file. -/
theorem lex_text (spelled : e.Spelled decimal double) :
    ∃ tokens eof, lex (e.text decimal) = .ok (tokens ++ [eof]) ∧
    tokens.map Token.kind = e.kinds decimal ∧ eof.kind = .eof := by
  obtain ⟨first, later, same, -⟩ := Parser.kinds_begin decimal e
  have readable := readable_kinds spelled
  rw [same] at readable
  obtain ⟨read, lexed, spelling⟩ := lex_spaced readable.written readable.pointed
  obtain ⟨tokens, last, rfl, kinds, ended⟩ := List.map_eq_append_iff.mp spelling
  obtain ⟨eof, rfl, isEof⟩ := List.map_eq_singleton_iff.mp ended
  rw [← same] at lexed kinds
  exact ⟨tokens, eof, lexed, kinds, isEof⟩

end Text

/-- An expression is read back from its text exactly when its operands end where the parser ends
them. -/
theorem Expr.readsBack_iff (decimal : BitVec 64 → String) (double : String → BitVec 64) (e : Expr)
    (spelled : e.Spelled decimal double) : e.ReadsBack decimal double ↔ e.Delimited .ended := by
  obtain ⟨tokens, eof, lexed, kinds, isEof⟩ := lex_text spelled
  constructor
  · rintro ⟨tokens', eof', _, isEof', returned⟩
    obtain ⟨_, _, _, parsed⟩ := returns_bind.mp returned
    have delimited := (Parser.sound_parseExprWithin _ _ _ _ parsed).1
    rwa [show (Parser.peek [eof']).kind = .eof from isEof'] at delimited
  · intro delimited
    refine ⟨tokens, eof, lexed, isEof, ?_⟩
    have reads : Parser.Yields (Parser.parseExpr double) (e.kinds decimal) (Parser.After .ended)
      e :=
      .within fun n enough => Parser.readsIn_parseExprWithin spelled enough.le delimited
    refine reads tokens [eof] kinds ?_
    rw [show (Parser.peek [eof]).kind = .eof from isEof]
    exact ⟨rfl, by simp⟩

/-- The bits of the float 1.5. -/
def oneAndAHalf : BitVec 64 := 0x3FF8000000000000

/-- `FADD LOAD p 8 i 1.5 8`. -/
def loadAndFloat : Expr := .floatArith .add (.load (.var "p") 8 (some (.var "i")))
    (.floatLit oneAndAHalf) 8

/-- The names of the two examples. -/
theorem isIdentifier_names : ∀ name ∈ ["p", "i", "x", "f"], IsIdentifier name := by
  intro name member
  refine ⟨?_, ?_⟩
  · simp only [List.mem_cons, List.not_mem_nil, or_false] at member
    rcases member with rfl | rfl | rfl | rfl
    · exact ⟨'p', [], by decide, by decide, rfl⟩
    · exact ⟨'i', [], by decide, by decide, rfl⟩
    · exact ⟨'x', [], by decide, by decide, rfl⟩
    · exact ⟨'f', [], by decide, by decide, rfl⟩
  · revert name
    decide

/-- A LOAD without an offset in front of a float. -/
theorem readsBack_iff_loadAndFloat :
    loadAndFloat.ReadsBack (fun _ => "1.5") (fun _ => oneAndAHalf) ↔
      loadAndFloat.Delimited .ended := by
  refine Expr.readsBack_iff (fun _ => "1.5") (fun _ => oneAndAHalf) loadAndFloat ⟨?_, ?_, ?_, ?_⟩
  · intro x inside name member
    refine isIdentifier_names name ?_
    revert name
    revert x
    simp [loadAndFloat, Expr.subexprs, Expr.words]
  · simp [loadAndFloat, Expr.subexprs, Expr.sizes]
  · simp [loadAndFloat, Expr.subexprs]
  · intro bits inside
    obtain rfl : bits = oneAndAHalf := by simpa [loadAndFloat, Expr.subexprs] using inside
    exact ⟨⟨false, '1', [], ['5'], by decide, by decide, by decide⟩, rfl⟩

/-- `CALL f LOAD p 8 x` with two arguments. -/
def callWithLoad : Expr := .call "f" [.load (.var "p") 8 none, .var "x"]

/-- The second argument is taken for the offset of the LOAD in front of it. -/
theorem callWithLoad_reassociated :
    callWithLoad.Spelled (fun _ => "1.5") (fun _ => oneAndAHalf) ∧
      callWithLoad.text (fun _ => "1.5") = "CALL f LOAD p 8 x" ∧
      (∃ tokens eof, lex "CALL f LOAD p 8 x" = .ok (tokens ++ [eof]) ∧
        Returns (Parser.parseExpr fun _ => oneAndAHalf) (tokens ++ [eof])
          (.call "f" [.load (.var "p") 8 (some (.var "x"))]) [eof]) ∧
      ¬ callWithLoad.ReadsBack (fun _ => "1.5") (fun _ => oneAndAHalf) := by
  refine ⟨⟨?_, ?_, ?_, ?_⟩, ?_, ?_, ?_⟩
  · intro x inside name member
    refine isIdentifier_names name ?_
    revert name
    revert x
    simp [callWithLoad, Expr.subexprs, Expr.listSubexprs, Expr.words]
  · simp [callWithLoad, Expr.subexprs, Expr.listSubexprs, Expr.sizes]
  · simp [callWithLoad, Expr.subexprs, Expr.listSubexprs]
  · simp [callWithLoad, Expr.subexprs, Expr.listSubexprs]
  · have kinds : callWithLoad.kinds (fun _ => "1.5") =
      [.keyword .call, .identifier "f", .keyword .load, .identifier "p",
        .integer 8, .identifier "x"] := rfl
    have text : spaced [.keyword .call, .identifier "f", .keyword .load, .identifier "p",
      .integer 8,
        .identifier "x"] = "CALL f LOAD p 8 x".toList := by decide +kernel
    rw [Expr.text, kinds, text, String.ofList_toList]
  · refine ⟨[⟨.keyword .call, ⟨1, 1, 4⟩⟩, ⟨.identifier "f", ⟨1, 6, 1⟩⟩, ⟨.keyword .load, ⟨1, 8, 4⟩⟩,
      ⟨.identifier "p", ⟨1, 13, 1⟩⟩, ⟨.integer 8, ⟨1, 15, 1⟩⟩, ⟨.identifier "x", ⟨1, 17, 1⟩⟩],
      ⟨.eof, ⟨1, 18, 0⟩⟩, by decide +kernel, rfl⟩
  · rintro ⟨tokens, eof, _, isEof, returned⟩
    obtain ⟨_, _, _, parsed⟩ := returns_bind.mp returned
    have delimited := (Parser.sound_parseExprWithin _ _ _ _ parsed).1
    rw [show (Parser.peek [eof]).kind = .eof from isEof] at delimited
    cases delimited

end Sigil
