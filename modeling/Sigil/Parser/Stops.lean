import Sigil.Parser.Statement
import Sigil.Parser.Bodies

/-!
# Reading up to the word HASH

HASH stands in no clause and in no statement. What a parser reads in front of it does not
depend on what stands behind, and takes no token from there. The bounds of the loops count all
the tokens left, so a parser is compared with itself under another bound.
-/

namespace Sigil.Parser

open Flow

variable {α β : Type} {L : Nat}

/-- In front of a HASH token the parsers return the same and use the same tokens, `read` of them or
more. There is room for `L` tokens in front of it. -/
def Agree (admits : List Token → Prop) (read L : Nat) (p p' : Parser α) : Prop :=
  ∀ ⦃front : List Token⦄ ⦃mark : Token⦄ ⦃rest : List Token⦄ ⦃a : α⦄ ⦃t : List Token⦄, admits front →
    front.length ≤ L → mark.kind = .keyword .hash → Returns p (front ++ mark :: rest) a t →
      ∃ used left, front = used ++ left ∧ read ≤ used.length ∧ t = left ++ mark :: rest ∧
        ∀ rest', Returns p' (front ++ mark :: rest') a (left ++ mark :: rest')

/-- Some tokens, the first of them not the end of the file. -/
def Begun : List Token → Prop
  | [] => False
  | token :: _ => token.kind ≠ .eof

/-- Some tokens, the first of them of a kind that is not the end of the file. -/
def BegunWith (kind : TokenKind) : List Token → Prop
  | [] => False
  | token :: _ => token.kind = kind ∧ kind ≠ .eof

/-- From any tokens. -/
class Stops (L : Nat) (p p' : Parser α) : Prop where
  agree : Agree (fun _ => True) 0 L p p'

/-- From any tokens, and at least one is read. -/
class Eats (L : Nat) (p p' : Parser α) : Prop where
  agree : Agree (fun _ => True) 1 L p p'

/-- From one token on. -/
class Enters (L : Nat) (p p' : Parser α) : Prop where
  agree : Agree Begun 0 L p p'

/-- From one token on, and at least one is read. -/
class Takes (L : Nat) (p p' : Parser α) : Prop where
  agree : Agree Begun 1 L p p'

section Rules

variable {x x' : Parser α} {f f' : α → Parser β} {p p' : Parser α}

/-- Parsers that agree, one after the other, agree. -/
theorem Agree.bind {admits : List Token → Prop} {read later : Nat}
    (first : Agree admits read L x x')
    (rest : ∀ a, Agree (fun _ => True) later (L - read) (f a) (f' a)) :
    Agree admits (read + later) L (x >>= f) (x' >>= f') := by
  intro front mark tail b t allowed fits isMark returned
  obtain ⟨a, m, one, two⟩ := returns_bind.mp returned
  obtain ⟨used, left, rfl, enough, rfl, same⟩ := first allowed fits isMark one
  rw [List.length_append] at fits
  obtain ⟨used', left', rfl, enough', rfl, same'⟩ := rest a trivial (by omega) isMark two
  refine ⟨used ++ used', left', (List.append_assoc ..).symm, ?_, rfl, fun tail' =>
    returns_bind.mpr ⟨a, _, same tail', same' tail'⟩⟩
  rw [List.length_append]
  omega

/-- Agreement on more tokens is agreement on fewer. -/
theorem Agree.mono {admits admits' : List Token → Prop} {read read' L' : Nat}
    (agree : Agree admits read L p p') (le : L' ≤ L) (fewer : read' ≤ read)
    (allows : ∀ front, admits' front → admits front) : Agree admits' read' L' p p' := by
  intro front mark tail b t allowed fits isMark returned
  obtain ⟨used, left, parts, enough, same⟩ :=
    agree (allows front allowed) (fits.trans le) isMark returned
  exact ⟨used, left, parts, fewer.trans enough, same⟩

/-- Agreement once something is read is agreement behind a given token. -/
theorem Agree.begunWith {read : Nat} {kind : TokenKind} (agree : Agree Begun read L p p') :
    Agree (BegunWith kind) read L p p' := by
  refine agree.mono le_rfl le_rfl fun front begun => ?_
  cases front with
  | nil => exact begun
  | cons token front => exact fun last => begun.2 (begun.1.symm.trans last)

/-- A parser that stops in more tokens stops in fewer. -/
theorem Stops.mono {L' : Nat} (stops : Stops L p p') (le : L' ≤ L) : Stops L' p p' :=
  ⟨stops.agree.mono le le_rfl fun _ allowed => allowed⟩

/-- A parser that reads in more tokens reads in fewer. -/
theorem Eats.mono {L' : Nat} (eats : Eats L p p') (le : L' ≤ L) : Eats L' p p' :=
  ⟨eats.agree.mono le le_rfl fun _ allowed => allowed⟩

instance (priority := low) stops_of_eats [eats : Eats L p p'] : Stops L p p' :=
  ⟨eats.agree.mono le_rfl (Nat.zero_le 1) fun _ allowed => allowed⟩

instance (priority := low) enters_of_stops [stops : Stops L p p'] : Enters L p p' :=
  ⟨stops.agree.mono le_rfl le_rfl fun _ _ => trivial⟩

instance (priority := low) takes_of_eats [eats : Eats L p p'] : Takes L p p' :=
  ⟨eats.agree.mono le_rfl le_rfl fun _ _ => trivial⟩

instance (priority := low) enters_of_takes [takes : Takes L p p'] : Enters L p p' :=
  ⟨takes.agree.mono le_rfl (Nat.zero_le 1) fun _ allowed => allowed⟩

instance stops_bind [first : Stops L x x'] [rest : ∀ a, Stops L (f a) (f' a)] :
    Stops L (x >>= f) (x' >>= f') := ⟨first.agree.bind fun a => (rest a).agree⟩

instance eats_bind [first : Eats L x x'] [rest : ∀ a, Stops (L - 1) (f a) (f' a)] :
    Eats L (x >>= f) (x' >>= f') := ⟨first.agree.bind fun a => (rest a).agree⟩

instance takes_bind [first : Takes L x x'] [rest : ∀ a, Stops (L - 1) (f a) (f' a)] :
    Takes L (x >>= f) (x' >>= f') := ⟨first.agree.bind fun a => (rest a).agree⟩

/-- A stopping parser and then one that reads, read. -/
theorem eats_bind_last (first : Stops L x x') (rest : ∀ a, Eats L (f a) (f' a)) :
    Eats L (x >>= f) (x' >>= f') := ⟨first.agree.bind fun a => (rest a).agree⟩

/-- Stopping parsers one after the other stop. -/
theorem stops_bind_of [Stops L x x'] (rest : ∀ a, Stops L (f a) (f' a)) :
    Stops L (x >>= f) (x' >>= f') := inferInstance

instance stops_pure (a : α) : Stops L (pure a : Parser α) (pure a) where
  agree := by
    intro front mark tail b t _ _ _ returned
    obtain ⟨rfl, rfl⟩ := returns_pure.mp returned
    exact ⟨[], front, rfl, le_rfl, rfl, fun _ => returns_pure.mpr ⟨rfl, rfl⟩⟩

instance eats_fail (kind : ParseErrorKind) : Eats L (fail kind : Parser α) p' where
  agree := fun _ _ _ _ _ _ _ _ returned => absurd returned not_returns_fail

/-- With no room there is no token to begin with. -/
theorem takes_zero : Takes 0 p p' where
  agree := by
    intro front _ _ _ _ begun fits
    obtain rfl := List.length_eq_zero_iff.mp (Nat.le_zero.mp fits)
    exact begun.elim

/-- In no tokens every parser enters. -/
theorem enters_zero : Enters 0 p p' :=
  @enters_of_takes _ _ p p' takes_zero

instance takes_advance : Takes L advance advance where
  agree := by
    intro front mark tail u t begun _ _ returned
    cases front with
    | nil => exact begun.elim
    | cons token front =>
        rw [returns_advance.mp returned]
        refine ⟨[token], front, rfl, le_rfl, next_cons begun, fun tail' => returns_advance.mpr ?_⟩
        exact (next_cons begun).symm

/-- HASH is not blank. -/
theorem dropWhile_mark {front tail : List Token} {mark : Token}
    (isMark : mark.kind = .keyword .hash) :
    (front ++ mark :: tail).dropWhile (fun token => isBlank token.kind) =
      front.dropWhile (fun token => isBlank token.kind) ++ mark :: tail := by
  have ends : isBlank mark.kind = false := by rw [isMark]; rfl
  induction front with
  | nil => simp [ends]
  | cons token front ih =>
      rw [List.cons_append, List.dropWhile_cons, List.dropWhile_cons]
      split
      · exact ih
      · rfl

instance stops_skipNewlines : Stops L skipNewlines skipNewlines where
  agree := by
    intro front mark tail u t _ _ isMark returned
    rw [returns_skipNewlines.mp returned, dropWhile_mark isMark]
    exact ⟨_, _, List.takeWhile_append_dropWhile.symm, Nat.zero_le _, rfl, fun tail' =>
      returns_skipNewlines.mpr (dropWhile_mark isMark).symm⟩

instance stops_currentLine : Stops L currentLine currentLine where
  agree := by
    intro front mark tail line t _ _ _ returned
    obtain ⟨s, _, read, returned⟩ := returns_bind.mp returned
    obtain ⟨rfl, rfl⟩ := returns_get.mp read
    obtain ⟨rfl, rfl⟩ := returns_pure.mp returned
    refine ⟨[], front, rfl, le_rfl, rfl, fun tail' =>
      returns_bind.mpr ⟨_, _, returns_get.mpr ⟨rfl, rfl⟩, ?_⟩⟩
    refine returns_pure.mpr ⟨?_, rfl⟩
    cases front <;> rfl

section Looks

variable {f f' : TokenKind → Parser β} {admits : List Token → Prop} {read : Nat}

/-- The kind of the token at hand is looked at: that of HASH, the end of the file, or another. -/
theorem Agree.peek (hash : Agree (fun _ => True) read L (f (.keyword .hash)) (f' (.keyword .hash)))
    (ended : Agree (fun _ => True) read L (f .eof) (f' .eof))
    (more : ∀ kind, Agree (BegunWith kind) read L (f kind) (f' kind)) :
    Agree admits read L (peekKind >>= f) (peekKind >>= f') := by
  intro front mark tail b t _ fits isMark returned
  obtain ⟨kind, _, looked, returned⟩ := returns_bind.mp returned
  obtain ⟨rfl, rfl⟩ := returns_peekKind.mp looked
  have look : ∀ tail' : List Token, ∀ b t, Returns (f' (Parser.peek (front ++ mark :: tail)).kind)
      (front ++ mark :: tail') b t → Returns (peekKind >>= f') (front ++ mark :: tail') b t := by
    intro tail' b t read
    refine returns_bind.mpr ⟨_, _, returns_peekKind.mpr ⟨rfl, rfl⟩, ?_⟩
    cases front <;> exact read
  have apart : ∃ used left, front = used ++ left ∧ read ≤ used.length ∧ t = left ++ mark :: tail ∧
      ∀ tail', Returns (f' (Parser.peek (front ++ mark :: tail)).kind) (front ++ mark :: tail') b
        (left ++ mark :: tail') := by
    cases front with
    | nil =>
        have here : (Parser.peek ([] ++ mark :: tail)).kind = .keyword .hash := isMark
        rw [here] at returned ⊢
        exact hash trivial fits isMark returned
    | cons token front =>
        have here : (Parser.peek (token :: front ++ mark :: tail)).kind = token.kind := rfl
        rw [here] at returned ⊢
        by_cases last : token.kind = .eof
        · rw [last] at returned ⊢
          exact ended trivial fits isMark returned
        · exact more token.kind ⟨rfl, last⟩ fits isMark returned
  obtain ⟨used, left, parts, enough, same, again⟩ := apart
  exact ⟨used, left, parts, enough, same, fun tail' => look tail' b _ (again tail')⟩

/-- A parser that peeks stops when each branch does. -/
theorem stops_peek (hash : Stops L (f (.keyword .hash)) (f' (.keyword .hash)))
    (ended : Stops L (f .eof) (f' .eof)) (more : ∀ kind, Enters L (f kind) (f' kind)) :
    Stops L (peekKind >>= f) (peekKind >>= f') :=
  ⟨.peek hash.agree ended.agree fun kind => (more kind).agree.begunWith⟩

/-- A parser that peeks reads when each branch does. -/
theorem eats_peek (hash : Eats L (f (.keyword .hash)) (f' (.keyword .hash)))
    (ended : Eats L (f .eof) (f' .eof)) (more : ∀ kind, Takes L (f kind) (f' kind)) :
    Eats L (peekKind >>= f) (peekKind >>= f') :=
  ⟨.peek hash.agree ended.agree fun kind => (more kind).agree.begunWith⟩

/-- The token at hand is of a kind that is known. -/
theorem Agree.peeked {kind : TokenKind} (agree : Agree (BegunWith kind) read L (f kind) (f' kind)) :
    Agree (BegunWith kind) read L (peekKind >>= f) (peekKind >>= f') := by
  intro front mark tail b t begun fits isMark returned
  cases front with
  | nil => exact begun.elim
  | cons token front =>
      obtain ⟨_, _, looked, returned⟩ := returns_bind.mp returned
      obtain ⟨rfl, rfl⟩ := returns_peekKind.mp looked
      have here : ∀ tail : List Token, (Parser.peek (token :: front ++ mark :: tail)).kind = kind :=
        fun _ => begun.1
      rw [here] at returned
      obtain ⟨used, left, parts, enough, same, again⟩ := agree begun fits isMark returned
      refine ⟨used, left, parts, enough, same, fun tail' => returns_bind.mpr
        ⟨_, _, returns_peekKind.mpr ⟨(here tail').symm, rfl⟩, again tail'⟩⟩

end Looks

section Loops

variable {g g' : Nat → Parser α} {c c' : α → Parser β}

/-- A loop under two bounds that both suffice. -/
class Loops (L : Nat) (g g' : Nat → Parser α) : Prop where
  within : ∀ L' ≤ L, ∀ n m, L' < n → L' < m → Stops L' (g n) (g' m)

/-- A loop that is bounded by the number of tokens left. -/
theorem Agree.sized {admits : List Token → Prop} {read later : Nat}
    (loop : ∀ L' ≤ L, ∀ n m, L' < n → L' < m → Agree admits read L' (g n) (g' m))
    (rest : ∀ a, Agree (fun _ => True) later (L - read) (c a) (c' a)) :
    Agree admits (read + later) L (get >>= fun s => g (s.length + 1) >>= c)
      (get >>= fun s => g' (s.length + 1) >>= c') := by
  intro front mark tail b t allowed fits isMark returned
  obtain ⟨s, _, looked, returned⟩ := returns_bind.mp returned
  obtain ⟨rfl, rfl⟩ := returns_get.mp looked
  have room : ∀ tail : List Token, front.length < (front ++ mark :: tail).length + 1 := by simp
  have both : ∀ tail', Agree admits (read + later) front.length
      (g ((front ++ mark :: tail).length + 1) >>= c)
        (g' ((front ++ mark :: tail').length + 1) >>= c') :=
    fun tail' => (loop _ fits _ _ (room tail) (room tail')).bind fun a =>
      (rest a).mono (by omega) le_rfl fun _ _ => trivial
  obtain ⟨used, left, parts, enough, same, _⟩ := both tail allowed le_rfl isMark returned
  refine ⟨used, left, parts, enough, same, fun tail' =>
    returns_bind.mpr ⟨_, _, returns_get.mpr ⟨rfl, rfl⟩, ?_⟩⟩
  obtain ⟨_, left', _, _, same', again⟩ := both tail' allowed le_rfl isMark returned
  rw [same] at same'
  rw [List.append_cancel_right same']
  exact again tail'

/-- A loop with steps enough for the text stops, and the rest follows. -/
theorem stops_sized (g g' : Nat → Parser α) (loop : Loops L g g')
    (rest : ∀ a, Stops L (c a) (c' a)) :
    Stops L (get >>= fun s => g (s.length + 1) >>= c) (get >>= fun s => g' (s.length + 1) >>= c') :=
  ⟨.sized (fun L' le n m enough enough' => (loop.within L' le n m enough enough').agree)
    fun a => (rest a).agree⟩

/-- A loop with steps enough for the text stops. -/
theorem stops_sized_last (g g' : Nat → Parser α) (loop : Loops L g g') :
    Stops L (get >>= fun s => g (s.length + 1)) (get >>= fun s => g' (s.length + 1)) := by
  have both : Stops L (get >>= fun s => g (s.length + 1) >>= pure)
      (get >>= fun s => g' (s.length + 1) >>= pure) := stops_sized g g' loop fun a => stops_pure a
  simpa only [bind_pure] using both

end Loops

end Rules

section Words

instance : Eats L expectIdentifier expectIdentifier := by
  refine eats_peek (eats_fail _) (eats_fail _) fun kind => ?_
  split <;> infer_instance

instance : Eats L parseType parseType := by
  refine eats_peek (eats_fail _) (eats_fail _) fun kind => ?_
  split <;> infer_instance

instance : Eats L parseInteger parseInteger := by
  refine eats_peek (eats_fail _) (eats_fail _) fun kind => ?_
  split <;> infer_instance

instance : Eats L hashText hashText := by
  refine eats_peek (eats_fail _) (eats_fail _) fun kind => ?_
  split
  · infer_instance
  · have digits : ∀ n : BitVec 64, Stops (L - 1) (do
        match ← peekKind with
        | .identifier s =>
            if s.toList.all Char.isHexDigit then do
              advance
              return (toString n.toInt).toList ++ s.toList
            else return (toString n.toInt).toList
        | _ => return (toString n.toInt).toList : Parser (List Char)) (do
        match ← peekKind with
        | .identifier s =>
            if s.toList.all Char.isHexDigit then do
              advance
              return (toString n.toInt).toList ++ s.toList
            else return (toString n.toInt).toList
        | _ => return (toString n.toInt).toList) := by
      intro n
      refine stops_peek (stops_pure _) (stops_pure _) fun kind => ?_
      split
      · split <;> infer_instance
      · infer_instance
    infer_instance
  · infer_instance

instance : Eats L expectHexString expectHexString := by
  unfold expectHexString
  infer_instance

instance (typ : AstType) : Stops L (parseSize typ) (parseSize typ) := by
  refine stops_peek ?_ ?_ fun kind => ?_
  · split <;> infer_instance
  · split <;> infer_instance
  · split <;> infer_instance

instance : Eats L parseParameter parseParameter := by
  unfold parseParameter
  infer_instance

instance : Stops L parsePin parsePin := by
  refine stops_peek (stops_pure _) (stops_pure _) fun kind => ?_
  split <;> infer_instance

end Words

section Clauses

variable {n m : Nat}

/-- Reading references stops in front of HASH. -/
theorem stops_parseBehaviorRefs (enough : L < n) (enough' : L < m) :
    Stops L (parseBehaviorRefs n) (parseBehaviorRefs m) := by
  induction n generalizing m L with
  | zero => omega
  | succ n ih =>
      obtain ⟨m, rfl⟩ := Nat.exists_eq_succ_of_ne_zero (Nat.ne_of_gt (Nat.zero_lt_of_lt enough'))
      refine stops_peek (stops_pure _) (stops_pure _) fun kind => ?_
      rcases L with _ | L
      · exact enters_zero
      · have rest : Stops (L + 1 - 1) (parseBehaviorRefs n) (parseBehaviorRefs m) :=
          ih (by omega) (by omega)
        split <;> infer_instance

/-- Reading guarantees stops in front of HASH. -/
theorem stops_parseGuarantees (enough : L < n) (enough' : L < m) :
    Stops L (parseGuarantees n) (parseGuarantees m) := by
  induction n generalizing m L with
  | zero => omega
  | succ n ih =>
      obtain ⟨m, rfl⟩ := Nat.exists_eq_succ_of_ne_zero (Nat.ne_of_gt (Nat.zero_lt_of_lt enough'))
      refine stops_peek (stops_pure _) (stops_pure _) fun kind => ?_
      rcases L with _ | L
      · exact enters_zero
      · have rest : Stops (L + 1 - 1) (parseGuarantees n) (parseGuarantees m) :=
          ih (by omega) (by omega)
        split <;> infer_instance

/-- Reading a MEMORY clause stops in front of HASH. -/
theorem stops_parseMemory (enough : L < n) (enough' : L < m) :
    Stops L (parseMemory n) (parseMemory m) := by
  induction n generalizing m L with
  | zero => omega
  | succ n ih =>
      obtain ⟨m, rfl⟩ := Nat.exists_eq_succ_of_ne_zero (Nat.ne_of_gt (Nat.zero_lt_of_lt enough'))
      refine stops_peek (stops_pure _) (stops_pure _) fun kind => ?_
      rcases L with _ | L
      · exact enters_zero
      · have rest : Stops (L + 1 - 1) (parseMemory n) (parseMemory m) := ih (by omega) (by omega)
        split <;> infer_instance

instance : Loops L parseBehaviorRefs parseBehaviorRefs := ⟨fun _ _ _ _ => stops_parseBehaviorRefs⟩
instance : Loops L parseGuarantees parseGuarantees := ⟨fun _ _ _ _ => stops_parseGuarantees⟩
instance : Loops L parseMemory parseMemory := ⟨fun _ _ _ _ => stops_parseMemory⟩

/-- A line of references has at least the one it begins with. -/
theorem takes_refsLine {name : String} (enough : L < n) (enough' : L < m) :
    Agree (BegunWith (.identifier name)) 1 L (parseBehaviorRefs n) (parseBehaviorRefs m) := by
  obtain ⟨n, rfl⟩ := Nat.exists_eq_succ_of_ne_zero (Nat.ne_of_gt (Nat.zero_lt_of_lt enough))
  obtain ⟨m, rfl⟩ := Nat.exists_eq_succ_of_ne_zero (Nat.ne_of_gt (Nat.zero_lt_of_lt enough'))
  rcases L with _ | L
  · exact fun front _ _ _ _ begun fits => by
      obtain rfl := List.length_eq_zero_iff.mp (Nat.le_zero.mp fits)
      exact begun.elim
  · have rest : Stops (L + 1 - 1) (parseBehaviorRefs n) (parseBehaviorRefs m) :=
      stops_parseBehaviorRefs (by omega) (by omega)
    have line : Takes (L + 1) (do
        advance
        let hash ← parsePin
        let rest ← parseBehaviorRefs n
        return ⟨name, hash⟩ :: rest : Parser (List BehaviorRef)) (do
        advance
        let hash ← parsePin
        let rest ← parseBehaviorRefs m
        return ⟨name, hash⟩ :: rest) := inferInstance
    exact .peeked line.agree.begunWith

/-- Reading a REQUIRES clause stops in front of HASH. -/
theorem stops_parseRequires {behaviors : List BehaviorRef} (enough : L < n) (enough' : L < m) :
    Stops L (parseRequires n behaviors) (parseRequires m behaviors) := by
  induction n generalizing m L behaviors with
  | zero => omega
  | succ n ih =>
      obtain ⟨m, rfl⟩ := Nat.exists_eq_succ_of_ne_zero (Nat.ne_of_gt (Nat.zero_lt_of_lt enough'))
      have looks : Stops L (do
          match ← peekKind with
          | .identifier _ =>
              let behaviors ← parseBehaviorRefs ((← get).length + 1)
              parseRequires n behaviors
          | _ => return behaviors) (do
          match ← peekKind with
          | .identifier _ =>
              let behaviors ← parseBehaviorRefs ((← get).length + 1)
              parseRequires m behaviors
          | _ => return behaviors) := by
        refine ⟨.peek (stops_pure _).agree (stops_pure _).agree fun kind => ?_⟩
        split
        · rcases L with _ | L
          · exact fun front _ _ _ _ begun fits => by
              obtain rfl := List.length_eq_zero_iff.mp (Nat.le_zero.mp fits)
              exact begun.elim
          · refine (Agree.sized (fun L' _ n m => takes_refsLine) fun refs => ?_).mono le_rfl
              (Nat.zero_le (1 + 0)) fun _ begun => begun
            exact (ih (by omega) (by omega)).agree
        · exact (inferInstance : Enters L (pure behaviors : Parser (List BehaviorRef))
            _).agree.begunWith
      unfold parseRequires
      infer_instance

instance (behaviors : List BehaviorRef) :
    Loops L (fun n => parseRequires n behaviors) (fun n => parseRequires n behaviors) :=
  ⟨fun _ _ _ _ => stops_parseRequires⟩

/-- Reading clauses stops in front of HASH. -/
theorem stops_parseClauses {contract : Contract} (enough : L < n) (enough' : L < m) :
    Stops L (parseClauses n contract) (parseClauses m contract) := by
  induction n generalizing m L contract with
  | zero => omega
  | succ n ih =>
      obtain ⟨m, rfl⟩ := Nat.exists_eq_succ_of_ne_zero (Nat.ne_of_gt (Nat.zero_lt_of_lt enough'))
      refine stops_bind_of fun _ => stops_peek (stops_pure _) (stops_pure _) fun kind => ?_
      rcases L with _ | L
      · exact enters_zero
      · have rest : ∀ contract, Stops (L + 1 - 1) (parseClauses n contract)
          (parseClauses m contract) :=
          fun contract => ih (by omega) (by omega)
        split
        · infer_instance
        · infer_instance
        · have requires : Stops (L + 1 - 1) (do
              let behaviors ← parseRequires ((← get).length + 1) []
              parseClauses n { contract with requires := { behaviors := behaviors } }) (do
              let behaviors ← parseRequires ((← get).length + 1) []
              parseClauses m { contract with requires := { behaviors := behaviors } }) :=
            stops_sized (fun n => parseRequires n []) (fun n => parseRequires n [])
              inferInstance fun _ => rest _
          infer_instance
        · have guarantees : Stops (L + 1 - 1) (do
              let guarantees ← parseGuarantees ((← get).length + 1)
              parseClauses n { contract with guarantees := guarantees }) (do
              let guarantees ← parseGuarantees ((← get).length + 1)
              parseClauses m { contract with guarantees := guarantees }) :=
            stops_sized parseGuarantees parseGuarantees inferInstance fun _ => rest _
          infer_instance
        · have memory : Stops (L + 1 - 1) (do
              let memory ← parseMemory ((← get).length + 1)
              parseClauses n { contract with
                requires := { contract.requires with memory :=
                  contract.requires.memory ++ memory } }) (do
              let memory ← parseMemory ((← get).length + 1)
              parseClauses m { contract with
                requires := { contract.requires with memory :=
                  contract.requires.memory ++ memory } }) :=
            stops_sized parseMemory parseMemory inferInstance fun _ => rest _
          infer_instance
        · infer_instance

instance : Stops L parseContract parseContract :=
  stops_sized_last (fun n => parseClauses n _) (fun n => parseClauses n _)
    ⟨fun _ _ _ _ => stops_parseClauses⟩

end Clauses

section Operands

variable {n m : Nat} {operand operand' : Parser Expr} {ends : TokenKind → Bool}

/-- Reading arguments stops in front of HASH. -/
theorem stops_parseArgs (each : ∀ L' ≤ L, Eats L' operand operand')
    (hash : ends (.keyword .hash) = false)
    (enough : L < n) (enough' : L < m) :
    Stops L (parseArgs operand ends n) (parseArgs operand' ends m) := by
  induction n generalizing m L with
  | zero => omega
  | succ n ih =>
      obtain ⟨m, rfl⟩ := Nat.exists_eq_succ_of_ne_zero (Nat.ne_of_gt (Nat.zero_lt_of_lt enough'))
      have here : Eats L operand operand' := each L le_rfl
      have more : Stops L (do
          let arg ← operand
          let rest ← parseArgs operand ends n
          return arg :: rest : Parser (List Expr)) (do
          let arg ← operand'
          let rest ← parseArgs operand' ends m
          return arg :: rest) := by
        rcases L with _ | L
        · refine ⟨fun front mark tail a t _ fits isMark returned => ?_⟩
          obtain ⟨_, _, one, _⟩ := returns_bind.mp returned
          obtain ⟨used, _, rfl, enough, _⟩ := here.agree trivial fits isMark one
          rw [List.length_append] at fits
          omega
        · have rest : Stops (L + 1 - 1) (parseArgs operand ends n) (parseArgs operand' ends m) :=
            ih (fun L' le => each L' (by omega)) (by omega) (by omega)
          infer_instance
      refine stops_peek ?_ ?_ fun kind => ?_
      · rw [hash]
        exact more
      · split <;> infer_instance
      · split <;> infer_instance

/-- Reading handles stops in front of HASH. -/
theorem stops_parseHandles (enough : L < n) (enough' : L < m) :
    Stops L (parseHandles n) (parseHandles m) := by
  induction n generalizing m L with
  | zero => omega
  | succ n ih =>
      obtain ⟨m, rfl⟩ := Nat.exists_eq_succ_of_ne_zero (Nat.ne_of_gt (Nat.zero_lt_of_lt enough'))
      refine stops_peek (stops_pure _) (stops_pure _) fun kind => ?_
      rcases L with _ | L
      · exact enters_zero
      · have rest : Stops (L + 1 - 1) (parseHandles n) (parseHandles m) := ih (by omega) (by omega)
        split <;> infer_instance

/-- Reading names behind commas stops in front of HASH. -/
theorem stops_parseMoreNames (enough : L < n) (enough' : L < m) :
    Stops L (parseMoreNames n) (parseMoreNames m) := by
  induction n generalizing m L with
  | zero => omega
  | succ n ih =>
      obtain ⟨m, rfl⟩ := Nat.exists_eq_succ_of_ne_zero (Nat.ne_of_gt (Nat.zero_lt_of_lt enough'))
      refine stops_peek (stops_pure _) (stops_pure _) fun kind => ?_
      rcases L with _ | L
      · exact enters_zero
      · have rest : Stops (L + 1 - 1) (parseMoreNames n) (parseMoreNames m) :=
          ih (by omega) (by omega)
        have name : Stops (L + 1 - 1) (do
            let name ← expectIdentifier
            let rest ← parseMoreNames n
            return name :: rest : Parser (List String)) (do
            let name ← expectIdentifier
            let rest ← parseMoreNames m
            return name :: rest) := inferInstance
        split <;> infer_instance

instance : Loops L parseHandles parseHandles := ⟨fun _ _ _ _ => stops_parseHandles⟩
instance : Loops L parseMoreNames parseMoreNames := ⟨fun _ _ _ _ => stops_parseMoreNames⟩

instance : Eats L parseSomeHandles parseSomeHandles := by
  have rest : ∀ handle, Stops (L - 1) (do
      let rest ← parseHandles ((← get).length + 1)
      return handle :: rest : Parser (List String)) (do
      let rest ← parseHandles ((← get).length + 1)
      return handle :: rest) := fun _ => stops_sized parseHandles parseHandles inferInstance
        inferInstance
  unfold parseSomeHandles
  infer_instance

instance : Stops L parseOutputs parseOutputs := by
  refine stops_peek (stops_pure _) (stops_pure _) fun kind => ?_
  have rest : ∀ name, Stops (L - 1) (do
      let rest ← parseMoreNames ((← get).length + 1)
      return name :: rest : Parser (List String)) (do
      let rest ← parseMoreNames ((← get).length + 1)
      return name :: rest) := fun _ => stops_sized parseMoreNames parseMoreNames inferInstance
        inferInstance
  split <;> infer_instance

instance [Eats L operand operand'] : Stops L (parseOffset operand) (parseOffset operand') := by
  refine stops_peek (stops_pure _) (stops_pure _) fun kind => ?_
  split <;> infer_instance

instance : Eats L parseSizeOf parseSizeOf := by
  unfold parseSizeOf
  infer_instance

instance : Eats L parseVar parseVar := by
  have field : ∀ name, Stops (L - 1) (do
      match ← peekKind with
      | .dot =>
          advance
          let field ← expectIdentifier
          return .field (.var name) field
      | _ => return .var name : Parser Expr) (do
      match ← peekKind with
      | .dot =>
          advance
          let field ← expectIdentifier
          return .field (.var name) field
      | _ => return .var name) := by
    intro name
    refine stops_peek (stops_pure _) (stops_pure _) fun kind => ?_
    split <;> infer_instance
  unfold parseVar
  infer_instance

/-- Operands at every bound below. -/
class Reads (L : Nat) (operand operand' : Parser Expr) : Prop where
  within : ∀ L' ≤ L, Eats L' operand operand'

/-- Operands read in more tokens are read in fewer. -/
theorem Reads.mono {L' : Nat} (reads : Reads L operand operand') (le : L' ≤ L) :
    Reads L' operand operand' :=
  ⟨fun _ fewer => reads.within _ (fewer.trans le)⟩

instance (priority := low) eats_of_reads [reads : Reads L operand operand'] :
    Eats L operand operand' :=
  reads.within L le_rfl

instance (priority := low) reads_pred [reads : Reads L operand operand'] :
    Reads (L - 1) operand operand' :=
  reads.mono (Nat.sub_le L 1)

instance {constructor : Expr → Nat → Expr} [Reads (L - 1) operand operand'] :
    Takes L (parseUnaryOp operand constructor) (parseUnaryOp operand' constructor) := by
  unfold parseUnaryOp
  infer_instance

instance {constructor : Expr → Expr → Nat → Expr} [Reads (L - 1) operand operand'] :
    Takes L (parseBinaryOp operand constructor) (parseBinaryOp operand' constructor) := by
  unfold parseBinaryOp
  infer_instance

instance {constructor : Expr → Nat → Nat → Expr} [Reads (L - 1) operand operand'] :
    Takes L (parseConversion operand constructor) (parseConversion operand' constructor) := by
  unfold parseConversion
  infer_instance

/-- The type of an allocation and whether it is shared. -/
theorem stops_sharedType (size : Expr) : Stops L (do
      let typ ← parseType
      match ← peekKind with
      | .keyword .shared =>
          advance
          return .alloc size typ true
      | _ => return .alloc size typ false : Parser Expr) (do
      let typ ← parseType
      match ← peekKind with
      | .keyword .shared =>
          advance
          return .alloc size typ true
      | _ => return .alloc size typ false) := by
  refine stops_bind_of fun typ => stops_peek (stops_pure _) (stops_pure _) fun kind => ?_
  split <;> infer_instance

/-- What a keyword begins takes it. -/
theorem takes_parseKeyword (reads : Reads (L - 1) operand operand') (word : Keyword) :
    Takes L (parseKeyword operand word) (parseKeyword operand' word) := by
  have typed := @stops_sharedType
  have args : ∀ (ends : TokenKind → Bool) (node : String → List Expr → Expr),
    ends (.keyword .hash) = false →
      ∀ name, Stops (L - 1 - 1) (do
        let args ← parseArgs operand ends ((← get).length + 1)
        return node name args) (do
        let args ← parseArgs operand' ends ((← get).length + 1)
        return node name args) := fun ends node hash name =>
    stops_sized (parseArgs operand ends) (parseArgs operand' ends)
      ⟨fun L' le n m => stops_parseArgs (fun L'' le' => reads.within L'' (by omega)) hash⟩
        fun _ => stops_pure _
  have call := args endsCall .call rfl
  have spawn := args endsSpawn .spawn rfl
  cases word <;> (unfold parseKeyword; infer_instance)

end Operands

section Statements

variable {n m : Nat} {double : String → BitVec 64} {body body' : Parser (List Node)}

/-- An expression is read. -/
theorem eats_parseExprWithin (enough : L < n) (enough' : L < m) :
    Eats L (parseExprWithin double n) (parseExprWithin double m) := by
  induction n generalizing m L with
  | zero => omega
  | succ n ih =>
      obtain ⟨m, rfl⟩ := Nat.exists_eq_succ_of_ne_zero (Nat.ne_of_gt (Nat.zero_lt_of_lt enough'))
      refine eats_peek (eats_fail _) (eats_fail _) fun kind => ?_
      rcases L with _ | L
      · exact takes_zero
      · have reads : Reads (L + 1 - 1) (parseExprWithin double n) (parseExprWithin double m) :=
          ⟨fun L' le => ih (by omega) (by omega)⟩
        split
        · infer_instance
        · infer_instance
        · infer_instance
        · infer_instance
        · exact takes_parseKeyword reads _
        · infer_instance

instance : Eats L (parseExpr double) (parseExpr double) where
  agree := by
    have sized : Agree (fun _ => True) (1 + 0) L
      (get >>= fun s => parseExprWithin double (s.length + 1) >>= pure)
        (get >>= fun s => parseExprWithin double (s.length + 1) >>= pure) :=
      .sized (fun L' _ n m enough enough' => (eats_parseExprWithin (L := L') enough enough').agree)
        fun a => (stops_pure a).agree
    simp only [bind_pure] at sized
    exact sized

instance {line : Nat} {name : String} :
    Stops L (parseAssigned double line name) (parseAssigned double line name) := by
  unfold parseAssigned
  refine stops_peek ?_ ?_ fun kind => ?_
  · infer_instance
  · infer_instance
  · split <;> infer_instance

instance : Stops L expectEquals expectEquals := by
  refine stops_peek inferInstance inferInstance fun kind => ?_
  split <;> infer_instance

instance {line : Nat} {name : String} :
    Stops L (parseTargets line name) (parseTargets line name) := by
  refine stops_sized parseMoreNames parseMoreNames inferInstance fun more =>
    stops_bind_of fun _ => ?_
  refine stops_peek inferInstance inferInstance fun kind => ?_
  split
  · have handles : ∀ which, Stops (L - 1) (do
        let handles ← parseHandles ((← get).length + 1)
        return .waitAny line name which handles : Parser Node) (do
        let handles ← parseHandles ((← get).length + 1)
        return .waitAny line name which handles) := fun which =>
      stops_sized parseHandles parseHandles inferInstance fun _ => stops_pure _
    have last : Stops (L - 1) (match more with
        | [which] => do
            let handles ← parseHandles ((← get).length + 1)
            return .waitAny line name which handles
        | _ => fail .waitAnyTargets : Parser Node) (match more with
        | [which] => do
            let handles ← parseHandles ((← get).length + 1)
            return .waitAny line name which handles
        | _ => fail .waitAnyTargets) := by
      split <;> infer_instance
    infer_instance
  · infer_instance
  · infer_instance

/-- A statement that a keyword begins takes it. -/
theorem takes_parseStatement (nodes : Stops (L - 1) body body') {line : Nat} (word : Keyword) :
    Takes L (parseStatement double body line word) (parseStatement double body' line word) := by
  have call : ∀ behavior, Stops (L - 1 - 1) (do
      let args ← parseArgs (parseExpr double) endsCall ((← get).length + 1)
      let outputs ← parseOutputs
      return .call line none behavior args outputs : Parser Node) (do
      let args ← parseArgs (parseExpr double) endsCall ((← get).length + 1)
      let outputs ← parseOutputs
      return .call line none behavior args outputs) := fun behavior =>
    stops_sized (parseArgs (parseExpr double) endsCall) (parseArgs (parseExpr double) endsCall)
      ⟨fun _ _ _ _ => stops_parseArgs (fun _ _ => inferInstance) rfl⟩ fun _ => inferInstance
  cases word <;> (unfold parseStatement; infer_instance)

instance : Stops L skipIndent skipIndent := by
  refine stops_peek (stops_pure _) (stops_pure _) fun kind => ?_
  split <;> infer_instance

/-- What follows the name a statement begins with. -/
theorem stops_assigned {line : Nat} {name : String} : Stops L (do
      match ← peekKind with
      | .equals =>
          advance
          parseAssigned double line name
      | .comma => parseTargets line name
      | got => fail (.unexpectedAfterIdentifier name got) : Parser Node) (do
      match ← peekKind with
      | .equals =>
          advance
          parseAssigned double line name
      | .comma => parseTargets line name
      | got => fail (.unexpectedAfterIdentifier name got)) := by
  refine stops_peek inferInstance inferInstance fun kind => ?_
  split <;> infer_instance

/-- A statement without its indent is read. -/
theorem eats_parseUnindented (nodes : ∀ L' < L, Stops L' body body') {line : Nat} :
    Eats L (parseUnindented double body line) (parseUnindented double body' line) := by
  refine eats_peek ?_ (eats_fail _) fun kind => ?_
  · exact eats_fail _
  · split
    · rcases L with _ | L
      · exact takes_zero
      · have nodes : Stops (L + 1 - 1) body body' := nodes L (Nat.lt_succ_self L)
        exact takes_parseStatement nodes _
    next name =>
      have assigned := @stops_assigned (L - 1) double line name
      infer_instance
    · infer_instance

/-- A statement is read. -/
theorem eats_parseNode (nodes : ∀ L' < L, Stops L' body body') :
    Eats L (parseNode double body) (parseNode double body') := by
  unfold parseNode
  exact eats_bind_last inferInstance fun _ => eats_bind_last inferInstance fun _ =>
    eats_parseUnindented nodes

/-- Reading statements stops in front of HASH. -/
theorem stops_parseNodes {inScope : Bool} (enough : L < n) (enough' : L < m) :
    Stops L (parseNodes double inScope n) (parseNodes double inScope m) := by
  induction n generalizing m L inScope with
  | zero => omega
  | succ n ih =>
      obtain ⟨m, rfl⟩ := Nat.exists_eq_succ_of_ne_zero (Nat.ne_of_gt (Nat.zero_lt_of_lt enough'))
      have node : Eats L (parseNode double (parseNodes double true n))
        (parseNode double (parseNodes double true m)) :=
        eats_parseNode fun L' less => ih (by omega) (by omega)
      have more : Stops L (do
          let node ← parseNode double (parseNodes double true n)
          let rest ← parseNodes double inScope n
          return node :: rest : Parser (List Node)) (do
          let node ← parseNode double (parseNodes double true m)
          let rest ← parseNodes double inScope m
          return node :: rest) := by
        rcases L with _ | L
        · refine ⟨fun front mark tail a t _ fits isMark returned => ?_⟩
          obtain ⟨_, _, one, _⟩ := returns_bind.mp returned
          obtain ⟨used, _, rfl, enough, _⟩ := node.agree trivial fits isMark one
          rw [List.length_append] at fits
          omega
        · have rest : Stops (L + 1 - 1) (parseNodes double inScope n)
            (parseNodes double inScope m) :=
            ih (by omega) (by omega)
          infer_instance
      refine stops_bind_of fun _ => stops_peek ?_ ?_ fun kind => ?_
      · rw [if_neg (by simp), if_neg (by simp), if_neg (by simp), if_neg (by simp)]
        exact more
      · rw [if_pos (.inr rfl), if_pos (.inr rfl)]
        infer_instance
      · split
        · infer_instance
        · split <;> infer_instance

instance : Stops L (parseImplementation double) (parseImplementation double) :=
  stops_sized_last (fun n => parseNodes double false n) (fun n => parseNodes double false n)
    ⟨fun _ _ _ _ => stops_parseNodes⟩

end Statements

end Sigil.Parser
