import Sigil.Parser.Reads

/-!
# Values, arguments and primitive calls

What the expression parser reads of the grammar's operands and of each primitive call.
-/

namespace Sigil.Parser

open Flow

variable {double : String → BitVec 64} {operand : Parser Expr} {F G : TokenKind → Prop} {n : Nat}

/-- A parser of operands: it reads every value that no dot follows, and no interpretation. -/
structure Operand (operand : Parser Expr) : Prop where
  value : ∀ v : Value, Yields operand v.kinds (· ≠ .dot) v.expr
  typ : ∀ typ, Rejects operand [.keyword (.typ typ)] fun _ => True

/-- A name that no dot follows is read as a variable. -/
theorem yields_parseVar_name {name : String} :
    Yields parseVar [.identifier name] (· ≠ .dot) (.var name) := by
  refine .name_bind (.peek_nil (q := pure (.var name)) (fun k apart => ?_) .pure)
  split
  · exact absurd rfl apart
  · rfl

/-- A name, a dot and a name are read as a field. -/
theorem yields_parseVar_field {name field : String} :
    Yields parseVar [.identifier name, .dot, .identifier field] F (.field (.var name) field) :=
  .name_bind (.peek (.advance_bind (by simp) (.name_bind .pure)))

/-- Expressions read within a number of steps are operands. -/
theorem operand_within : Operand (parseExprWithin double (n + 1)) where
  value v := by
    cases v with
    | name name => exact .peek yields_parseVar_name
    | field base field => exact .peek yields_parseVar_field
    | int n => exact .peek (.advance_bind (by simp) .pure)
    | string s => exact .peek (.advance_bind (by simp) .pure)
  typ typ := .peek .fail

/-- No value begins with a dot. -/
theorem headKind_value {v : Value} {ks : List TokenKind} {k : TokenKind} :
    headKind (v.kinds ++ ks) k ≠ .dot := by
  cases v <;> simp [Value.kinds, headKind]

namespace Operand

variable (reads : Operand operand)

include reads

/-- A value is read where an operand is expected. -/
theorem value_bind {v : Value} {α : Type} {f : Expr → Parser α} {ks : List TokenKind} {b : α}
    (later : Yields (f v.expr) ks G b) (meets : ∀ k, G k → headKind ks k ≠ .dot) :
    Yields (operand >>= f) (v.kinds ++ ks) G b :=
  .bind (reads.value v) later meets

/-- An operation of one operand is read as it is written. -/
theorem unaryOp {word : Keyword} {constructor : Expr → Nat → Expr} {a : Value} {size : BitVec 64} :
    Yields (parseUnaryOp operand constructor) (PrimitiveCall.operation word [a] [size]) F
      (constructor a.expr size.toNat) := by
  unfold PrimitiveCall.operation
  simp only [List.flatMap_cons, List.flatMap_nil, List.append_nil, List.map_cons, List.map_nil]
  exact .advance_bind (by simp) (reads.value_bind (.size_bind .pure) fun _ _ => by simp [headKind])

/-- An operation of two operands is read as it is written. -/
theorem binaryOp {word : Keyword} {constructor : Expr → Expr → Nat → Expr} {a b : Value}
    {size : BitVec 64} :
    Yields (parseBinaryOp operand constructor) (PrimitiveCall.operation word [a, b] [size]) F
      (constructor a.expr b.expr size.toNat) := by
  unfold PrimitiveCall.operation
  simp only [List.flatMap_cons, List.flatMap_nil, List.append_nil, List.map_cons, List.map_nil,
    List.append_assoc]
  exact .advance_bind (by simp) (reads.value_bind (reads.value_bind (.size_bind .pure)
    fun _ _ => by simp [headKind]) fun _ _ => headKind_value)

/-- A conversion is read as it is written. -/
theorem conversion {word : Keyword} {constructor : Expr → Nat → Nat → Expr} {value : Value}
    {fromSize toSize : BitVec 64} :
    Yields (parseConversion operand constructor)
      (PrimitiveCall.operation word [value] [fromSize, toSize]) F
      (constructor value.expr fromSize.toNat toSize.toNat) := by
  unfold PrimitiveCall.operation
  simp only [List.flatMap_cons, List.flatMap_nil, List.append_nil, List.map_cons, List.map_nil]
  exact .advance_bind (by simp) (reads.value_bind (.size_bind (.size_bind .pure))
    fun _ _ => by simp [headKind])

/-- The handle and the size of a LOAD are read in order. -/
theorem load_bind {handle : Value} {size : BitVec 64} {α : Type} {f : Expr → Nat → Parser α}
    {ks : List TokenKind} {b : α} (later : Yields (f handle.expr size.toNat) ks G b) :
    Yields (do
      advance
      let source ← operand
      let size ← parseSizeOf
      f source size) (PrimitiveCall.operation .load [handle] [size] ++ ks) G b := by
  unfold PrimitiveCall.operation
  simp only [List.flatMap_cons, List.flatMap_nil, List.append_nil, List.map_cons, List.map_nil,
    List.cons_append, List.append_assoc, List.nil_append]
  exact .advance_bind (by simp) (reads.value_bind (.size_bind later) fun _ _ => by simp [headKind])

end Operand

/-- What may stand behind a primitive call: the end of the line, or what is no operand. -/
def AfterCall : TokenKind → Prop
  | .newline | .stringLit _ => True
  | _ => False

namespace Operand

variable (reads : Operand operand)

include reads

/-- An offset is read where one stands. -/
theorem offset {offset : Option Value} (known : ∀ v ∈ offset, v.isString = false) :
    Yields (parseOffset operand) (PrimitiveCall.offsetKinds offset) AfterCall
      (offset.map Value.expr) := by
  have some_ : ∀ v : Value, Yields (do
      let offset ← operand
      return some offset) v.kinds (· ≠ .dot) (some v.expr) := fun v => (reads.value v).last
  have apart : ∀ k, AfterCall k → k ≠ .dot := by
    rintro _ allowed rfl
    exact allowed
  cases offset with
  | none =>
      refine .peek_nil (q := pure none) (fun k allowed => ?_) .pure
      split
      · exact allowed.elim
      · exact allowed.elim
      · rfl
  | some v =>
      have read := (some_ v).mono apart
      cases v with
      | name name => exact .peek read
      | field base field => exact .peek read
      | int n => exact .peek read
      | string s => exact absurd (known _ rfl) (by simp [Value.isString])

/-- An ALLOC is read as it is written. -/
theorem alloc {size : Value} {typ : AstType} {shared : Bool} :
    Yields (parseKeyword operand .alloc) (PrimitiveCall.kinds (.alloc size typ shared)) AfterCall
      (.alloc size.expr typ shared) := by
  refine .advance_bind (by simp) (reads.value_bind (.typ_bind ?_) fun _ _ => by simp [headKind])
  cases shared with
  | true => exact .peek (.advance_bind (by simp) .pure)
  | false =>
      refine .peek_nil (q := pure _) (fun k allowed => ?_) .pure
      split
      · exact allowed.elim
      · rfl

/-- A CAS is read as it is written. -/
theorem cas {handle expected new : Value} {size : BitVec 64} :
    Yields (parseKeyword operand .cas) (PrimitiveCall.kinds (.cas handle expected new size)) F
      (.cas handle.expr expected.expr new.expr size.toNat) := by
  unfold PrimitiveCall.kinds PrimitiveCall.operation
  simp only [List.flatMap_cons, List.flatMap_nil, List.append_nil, List.map_cons, List.map_nil,
    List.append_assoc]
  exact .advance_bind (by simp) (reads.value_bind
    (reads.value_bind (reads.value_bind (.size_bind .pure)
    fun _ _ => by simp [headKind]) fun _ _ => headKind_value) fun _ _ => headKind_value)

end Operand

/-- The word a primitive call begins with, and its operands. -/
theorem kinds_primitive (prim : PrimitiveCall) : ∃ word ks, prim.kinds = .keyword word :: ks := by
  cases prim <;> exact ⟨_, _, rfl⟩

/-- The parser reads the primitive calls that have an expression, but for a text as an offset. -/
theorem yields_primitive (double : String → BitVec 64) (n : Nat) {prim : PrimitiveCall}
    (assignable : prim.Assignable) :
    ∃ e, prim.expr? = some e ∧ Yields (parseExprWithin double (n + 2)) prim.kinds AfterCall e := by
  have reads : Operand (parseExprWithin double (n + 1)) := operand_within
  cases prim with
  | alloc => exact ⟨_, rfl, .peek reads.alloc⟩
  | load handle size offset =>
      refine ⟨_, rfl, .peek (reads.load_bind ?_)⟩
      have known : ∀ v ∈ offset, v.isString = false := by
        rintro v rfl
        simpa [PrimitiveCall.Assignable] using assignable
      exact (reads.offset known).last
  | store => simp [PrimitiveCall.Assignable] at assignable
  | free => simp [PrimitiveCall.Assignable] at assignable
  | cas => exact ⟨_, rfl, .peek reads.cas⟩
  | ftoi | itof => exact ⟨_, rfl, .peek reads.conversion⟩
  | atomicLoad | ineg | fneg | not => exact ⟨_, rfl, .peek reads.unaryOp⟩
  | _ => exact ⟨_, rfl, .peek reads.binaryOp⟩

/-- A primitive call without an expression is refused. -/
theorem rejects_primitive {prim : PrimitiveCall} (none : prim.expr? = none) :
    Rejects (parseExprWithin double n) prim.kinds F := by
  cases n with
  | zero => exact .fail
  | succ n =>
      cases prim with
      | store => exact .peek .fail
      | free => exact .peek .fail
      | _ => simp [PrimitiveCall.expr?] at none

/-- Every value has a token. -/
theorem value_kinds_pos {v : Value} : 0 < v.kinds.length := by
  cases v <;> simp [Value.kinds]

/-- Expressions are operands. -/
theorem operand_parseExpr (double : String → BitVec 64) : Operand (parseExpr double) where
  value v := by
    refine .within fun n enough => ?_
    obtain ⟨m, rfl⟩ := Nat.exists_eq_succ_of_ne_zero
      (Nat.ne_of_gt (Nat.lt_trans value_kinds_pos enough))
    exact operand_within.value v
  typ typ := by
    refine .within fun n _ => ?_
    cases n with
    | zero => exact .fail
    | succ n => exact operand_within.typ typ

/-- A primitive call that may be assigned is read as its expression. -/
theorem yields_parseExpr_primitive (double : String → BitVec 64) {prim : PrimitiveCall}
    (assignable : prim.Assignable) :
    ∃ e, prim.expr? = some e ∧ Yields (parseExpr double) prim.kinds AfterCall e := by
  obtain ⟨word, ks, begins⟩ := kinds_primitive prim
  obtain ⟨e, found, _⟩ := yields_primitive double 0 assignable
  refine ⟨e, found, .within fun n enough => ?_⟩
  rw [begins, List.length_cons] at enough
  obtain ⟨m, rfl⟩ := Nat.exists_eq_add_of_le (show 2 ≤ n by omega)
  rw [Nat.add_comm]
  obtain ⟨e', found', yields⟩ := yields_primitive double m assignable
  obtain rfl := Option.some.inj (found.symm.trans found')
  exact yields

/-- The kinds that end a list of arguments, as opposed to those that begin one. -/
structure EndsArgs (ends : TokenKind → Bool) : Prop where
  begins : ∀ (v : Value) (ks : List TokenKind) (k : TokenKind),
    ends (headKind (v.kinds ++ ks) k) = false
  typ : ∀ typ, ends (.keyword (.typ typ)) = false
  dot : ends .dot = false

/-- The arguments of a CALL end where `ends_call` says. -/
theorem endsArgs_endsCall : EndsArgs endsCall where
  begins v ks k := by cases v <;> rfl
  typ _ := rfl
  dot := rfl

/-- The arguments of a SPAWN end where `ends_spawn` says. -/
theorem endsArgs_endsSpawn : EndsArgs endsSpawn where
  begins v ks k := by cases v <;> rfl
  typ _ := rfl
  dot := rfl

section Args

variable {ends : TokenKind → Bool} {args : List Argument} {steps : Nat}

/-- The first token of an argument, or what comes after the arguments. -/
theorem headKind_args (endsArgs : EndsArgs ends) {k : TokenKind} (last : ends k = true) :
    headKind (LineForm.argKinds args) k ≠ .dot := by
  cases args with
  | nil =>
      rintro rfl
      exact absurd (last.symm.trans endsArgs.dot) (by decide)
  | cons arg args =>
      cases arg with
      | value v => exact headKind_value
      | interpretation typ => simp [LineForm.argKinds, Argument.kinds, headKind]

/-- Arguments that are values are read up to what ends them. -/
theorem yields_parseArgs (reads : Operand operand) (endsArgs : EndsArgs ends)
    (values : args.all fun arg => arg.expr?.isSome)
      (enough : (LineForm.argKinds args).length < steps) :
    ∃ exprs, args.mapM Argument.expr? = some exprs ∧
      Yields (parseArgs operand ends steps) (LineForm.argKinds args) (fun k => ends k = true)
        exprs := by
  induction args generalizing steps with
  | nil =>
      obtain ⟨steps, rfl⟩ := Nat.exists_eq_succ_of_ne_zero (Nat.ne_of_gt enough)
      exact ⟨[], rfl, .peek_nil (q := pure []) (fun k last => if_pos last) .pure⟩
  | cons arg args ih =>
      obtain ⟨steps, rfl⟩ := Nat.exists_eq_succ_of_ne_zero (Nat.ne_of_gt (Nat.zero_lt_of_lt enough))
      simp only [List.all_cons, Bool.and_eq_true] at values
      cases arg with
      | interpretation typ => simp [Argument.expr?] at values
      | value v =>
          have kinds : LineForm.argKinds (.value v :: args) =
            v.kinds ++ LineForm.argKinds args := rfl
          have more := value_kinds_pos (v := v)
          rw [kinds, List.length_append] at enough
          have fewer : (LineForm.argKinds args).length < steps := by omega
          obtain ⟨exprs, mapped, later⟩ := ih values.2 fewer
          refine ⟨v.expr :: exprs, by simp [Argument.expr?, mapped], ?_⟩
          refine .look (fun k _ => if_neg (by simp [kinds, endsArgs.begins])) ?_
          exact reads.value_bind later.last fun _ last => headKind_args endsArgs last

/-- An interpretation among the arguments is refused. -/
theorem rejects_parseArgs (reads : Operand operand) (endsArgs : EndsArgs ends)
    (other : (args.all fun arg => arg.expr?.isSome) = false) :
    Rejects (parseArgs operand ends steps) (LineForm.argKinds args) fun k => ends k = true := by
  induction args generalizing steps with
  | nil => simp at other
  | cons arg args ih =>
      cases steps with
      | zero => exact .fail
      | succ steps =>
          cases arg with
          | interpretation typ =>
              refine .look
                (fun k _ =>
                  if_neg (by simp [LineForm.argKinds, Argument.kinds, headKind, endsArgs.typ])) ?_
              exact .first (reads.typ typ) fun _ _ => trivial
          | value v =>
              have kinds : LineForm.argKinds (.value v :: args) =
                v.kinds ++ LineForm.argKinds args := rfl
              refine .look (fun k _ => if_neg (by simp [kinds, endsArgs.begins])) ?_
              have later : Rejects (parseArgs operand ends steps) (LineForm.argKinds args)
                fun k => ends k = true :=
                ih (by simpa [Argument.expr?] using other)
              exact .bind (reads.value v) (.stops later) fun _ last => headKind_args endsArgs last

end Args

end Sigil.Parser
