import Sigil.Parser.Stops
import Sigil.Parser.Description

/-!
# Parser of behaviors

The sections of a BEHAVIOR, read one after the other, and what each makes of the behavior. A
section that is given again replaces the earlier one, except that implementations add up.
-/

namespace Sigil

/-- A behavior and the text of its DESCRIPTION. -/
structure Described extends Behavior where
  description : Option String
  deriving Repr

/-- With no section read. -/
def Described.new (name : String) : Described where
  name
  description := none
  contract := { inputs := [], outputs := [], requires := {}, guarantees := [] }
  hash := ""
  implementations := []
  composition := none

namespace Parser

open Flow

/-- A token of a kind that carries nothing. -/
def expect (expected : TokenKind) : Parser Unit := do
  let got ← peekKind
  if got = expected then advance else fail (.expected expected got)

/-- What a section says; a DESCRIPTION is the lines from one to another. -/
inductive Section where
  | description (first last : Nat)
  | contract (contract : Contract)
  | hash (hash : String)
  | implementation (implementation : PlatformImpl)
  | composition (composition : Composition)
  | native
  | ended
  deriving Repr

namespace Section

/-- Nothing is read behind NATIVE and END. -/
def isLast : Section → Bool
  | native | ended => true
  | _ => false

def isHash : Section → Bool
  | hash _ => true
  | _ => false

/-- The behavior with what a section of the source says. -/
def apply (source : String) (behavior : Described) : Section → Described
  | description first last =>
      { behavior with description := some (descriptionText source first last) }
  | .contract clauses => { behavior with contract := clauses }
  | .hash text => { behavior with hash := text }
  | .implementation body => { behavior with implementations := behavior.implementations ++ [body] }
  | .composition body => { behavior with composition := some body }
  | native => { behavior with isNative := true }
  | ended => behavior

end Section

/-- `[platform]`, or nothing. -/
def parsePlatform : Parser (Option String) := do
  match ← peekKind with
  | .leftBracket =>
      advance
      let platform ← expectIdentifier
      expect .rightBracket
      return some platform
  | _ => return none

/-- The END of an implementation for one platform is its own. -/
def endPlatform (platform : Option String) : Parser Unit := do
  match ← peekKind with
  | .keyword .endBehavior => if platform.isSome then advance
  | _ => return

/-- A section by its first token. -/
def parseSectionOf (double : String → BitVec 64) (kind : TokenKind) : Parser Section :=
  match kind with
  | .keyword .description => do
      advance
      let (first, last) ← describedLines
      return .description first last
  | .keyword .contract => do
      advance
      skipNewlines
      let contract ← parseContract
      return .contract contract
  | .keyword .hash => do
      advance
      let hash ← expectHexString
      return .hash hash
  | .keyword .implementation => do
      advance
      let platform ← parsePlatform
      skipNewlines
      let nodes ← parseImplementation double
      endPlatform platform
      return .implementation ⟨platform, nodes⟩
  | .keyword .composition => do
      advance
      skipNewlines
      let nodes ← parseImplementation double
      return .composition ⟨nodes⟩
  | .keyword .native => do
      advance
      return .native
  | .keyword .endBehavior => do
      advance
      return .ended
  | .eof => fail .unexpectedEndOfFile
  | got => fail (.unexpectedInBehavior got)

def parseSection (double : String → BitVec 64) : Parser Section := do
  skipNewlines
  let kind ← peekKind
  parseSectionOf double kind

/-- The sections up to the one that is the last. -/
def parseSections (double : String → BitVec 64) : Nat → Parser (List Section)
  | 0 => fail .stepsExhausted
  | steps + 1 => do
      let first ← parseSection double
      if first.isLast then return [first]
      else
        let rest ← parseSections double steps
        return first :: rest

def isKeyword : TokenKind → Bool
  | .keyword _ => true
  | _ => false

/-- `BEHAVIOR name`. -/
def parseName : Parser String := do
  skipNewlines
  expect (.keyword .behavior)
  let name ← expectIdentifier
  skipNewlines
  return name

/-- Every section begins with a keyword. -/
def sectionsLeft (tokens : List Token) : Nat := tokens.countP (isKeyword ·.kind) + 1

def parseBehavior (double : String → BitVec 64) (source : String) : Parser Described := do
  let name ← parseName
  let sections ← parseSections double (sectionsLeft (← get))
  return sections.foldl (Section.apply source) (.new name)

/-- The behavior of a source, or nothing if it does not lex or does not parse. -/
def parse (double : String → BitVec 64) (source : String) : Option Described :=
  match lex source with
  | .error _ => none
  | .ok tokens => match parseBehavior double source tokens with
    | .error _ => none
    | .ok (behavior, _) => some behavior

section Locality

variable {L : Nat} {double : String → BitVec 64} {front blanks rest : List Token} {mark : Token}

/-- An expected token other than HASH is read. -/
theorem eats_expect {expected : TokenKind} (more : expected ≠ .eof)
    (other : expected ≠ .keyword .hash) :
    Eats L (expect expected) (expect expected) := by
  refine eats_peek ?_ ?_ fun kind => ?_
  · rw [if_neg other.symm]
    exact eats_fail _
  · rw [if_neg more.symm]
    exact eats_fail _
  · split <;> infer_instance

instance : Stops L parsePlatform parsePlatform := by
  have bracket : Eats (L - 1) (expect .rightBracket) (expect .rightBracket) :=
    eats_expect (by simp) (by simp)
  refine stops_peek (stops_pure _) (stops_pure _) fun kind => ?_
  split <;> infer_instance

instance (platform : Option String) : Stops L (endPlatform platform) (endPlatform platform) := by
  refine stops_peek (stops_pure _) (stops_pure _) fun kind => ?_
  split
  · split <;> infer_instance
  · infer_instance

instance : Stops L parseName parseName := by
  have word : Eats L (expect (.keyword .behavior)) (expect (.keyword .behavior)) :=
    eats_expect (by simp) (by simp)
  unfold parseName
  infer_instance

/-- A section other than the DESCRIPTION is entered. -/
theorem enters_section {kind : TokenKind} (plain : kind ≠ .keyword .description) :
    Enters L (parseSectionOf double kind) (parseSectionOf double kind) := by
  unfold parseSectionOf
  split
  · exact absurd rfl plain
  all_goals infer_instance

/-- Tokens in front of a line that is not indented. -/
def LineEnd (front : List Token) : Prop := ∀ last ∈ front.getLast?, last.kind = .newline

/-- What is left in front of a line end stands in front of it. -/
theorem LineEnd.behind {used left : List Token} (ends : LineEnd (used ++ left)) : LineEnd left := by
  intro last member
  refine ends last ?_
  rw [List.getLast?_append, Option.mem_def.mp member]
  rfl

/-- Behind a token the line end is the same. -/
theorem LineEnd.tail {token : Token} (ends : LineEnd (token :: front)) : LineEnd front :=
  @LineEnd.behind [token] front ends

/-- A HASH token that begins a line ends a description. -/
theorem scan_mark (isMark : mark.kind = .keyword .hash) (atLineStart : Bool) (endLine : Nat)
    (begins : front = [] → atLineStart = true) (ends : LineEnd front) :
    ∃ used left last, front = used ++ left ∧ ∀ rest,
      scanDescription atLineStart endLine (front ++ mark :: rest) =
        (last, left ++ mark :: rest) := by
  induction front generalizing atLineStart endLine with
  | nil =>
      refine ⟨[], [], endLine, rfl, fun rest => ?_⟩
      simp [scanDescription, begins rfl, isMark, endsDescription]
  | cons token front ih =>
      have later : LineEnd front := ends.tail
      have alone : front = [] → token.kind = .newline := by
        rintro rfl
        exact ends token rfl
      have pass (start : Bool) (endLine' : Nat) (begins' : front = [] → start = true)
          (same : ∀ rest, scanDescription atLineStart endLine (token :: front ++ mark :: rest) =
            scanDescription start endLine' (front ++ mark :: rest)) :
          ∃ used left last, token :: front = used ++ left ∧ ∀ rest,
            scanDescription atLineStart endLine (token :: front ++ mark :: rest) =
              (last, left ++ mark :: rest) := by
        obtain ⟨used, left, last, rfl, scanned⟩ := ih start endLine' begins' later
        exact ⟨token :: used, left, last, rfl, fun rest => (same rest).trans (scanned rest)⟩
      by_cases stops : (atLineStart && endsDescription token.kind) = true
      · exact ⟨[], token :: front, endLine, rfl,
          fun rest => by rw [List.cons_append, scanDescription, if_pos stops]⟩
      · cases kind : token.kind with
        | eof =>
            exact ⟨[], token :: front, endLine, rfl, fun rest => by
            rw [List.cons_append, scanDescription, if_neg stops, kind]⟩
        | newline =>
            exact pass true token.span.line (fun _ => rfl) fun rest => by
              rw [List.cons_append, scanDescription, if_neg stops, kind]
        | indent width =>
            refine pass atLineStart endLine (fun none_ => ?_) fun rest => by
              rw [List.cons_append, scanDescription, if_neg stops, kind]
            rw [alone none_] at kind
            cases kind
        | _ =>
            refine pass false token.span.line (fun none_ => ?_) fun rest => by
              rw [List.cons_append, scanDescription, if_neg stops, kind]
            rw [alone none_] at kind
            cases kind

/-- The lines of a DESCRIPTION are those from its first token to where it is left. -/
theorem returns_describedLines {s t : List Token} {lines : Nat × Nat} :
    Returns describedLines s lines t ↔
    lines = ((peek (s.dropWhile fun token => isBlank token.kind)).span.line,
      (scanDescription true (peek (s.dropWhile fun token => isBlank token.kind)).span.line
        (s.dropWhile fun token => isBlank token.kind)).1) ∧
      t = (scanDescription true (peek (s.dropWhile fun token => isBlank token.kind)).span.line
        (s.dropWhile fun token => isBlank token.kind)).2 := by
  have run :
    describedLines s = .ok (((peek (s.dropWhile fun token => isBlank token.kind)).span.line,
      (scanDescription true (peek (s.dropWhile fun token => isBlank token.kind)).span.line
        (s.dropWhile fun token => isBlank token.kind)).1),
      (scanDescription true (peek (s.dropWhile fun token => isBlank token.kind)).span.line
        (s.dropWhile fun token => isBlank token.kind)).2) := rfl
  unfold Returns
  rw [run, Except.ok.injEq, Prod.mk.injEq]
  exact and_congr eq_comm eq_comm

/-- The lines of a description in front of a line that begins with HASH. -/
theorem describedLines_mark (isMark : mark.kind = .keyword .hash) (ends : LineEnd front)
    {lines : Nat × Nat}
    {t : List Token} (returned : Returns describedLines (front ++ mark :: rest) lines t) :
    ∃ used left, front = used ++ left ∧ t = left ++ mark :: rest ∧
      ∀ rest', Returns describedLines (front ++ mark :: rest') lines (left ++ mark :: rest') := by
  obtain ⟨blanks, skipped⟩ : ∃ blanks, front = blanks ++ front.dropWhile fun token =>
    isBlank token.kind :=
    ⟨_, List.takeWhile_append_dropWhile.symm⟩
  have line (rest : List Token) :
    (peek ((front.dropWhile fun token => isBlank token.kind) ++ mark :: rest)).span.line =
      (peek ((front.dropWhile fun token => isBlank token.kind) ++ [mark])).span.line := by
    cases front.dropWhile fun token => isBlank token.kind <;> rfl
  obtain ⟨used, left, last, parts, scanned⟩ := scan_mark isMark true
    (peek ((front.dropWhile fun token => isBlank token.kind) ++ [mark])).span.line (fun _ => rfl)
    (LineEnd.behind (skipped ▸ ends))
  have all (rest : List Token) : Returns describedLines (front ++ mark :: rest)
      ((peek ((front.dropWhile fun token => isBlank token.kind) ++ [mark])).span.line, last)
        (left ++ mark :: rest) := by
    rw [returns_describedLines, dropWhile_mark isMark, line rest, scanned rest]
    exact ⟨rfl, rfl⟩
  obtain ⟨rfl, rfl⟩ := (all rest).unique returned
  exact ⟨blanks ++ used, left, by rw [List.append_assoc, ← parts]; exact skipped, rfl, all⟩

/-- A section that begins in front of a line that begins with HASH, and what is left of the text
there. -/
theorem parseSection_mark (isMark : mark.kind = .keyword .hash) (ends : LineEnd front)
    {read : Section} {t : List Token}
    (begins : (front.dropWhile fun token => isBlank token.kind) ≠ [])
    (returned : Returns (parseSection double) (front ++ mark :: rest) read t) :
    ∃ left, LineEnd left ∧ t = left ++ mark :: rest ∧
      ∀ rest', Returns (parseSection double) (front ++ mark :: rest') read
        (left ++ mark :: rest') := by
  obtain ⟨token, behind, skipped⟩ := List.exists_cons_of_ne_nil begins
  have parts : front = (front.takeWhile fun token => isBlank token.kind) ++ token :: behind := by
    rw [← skipped, List.takeWhile_append_dropWhile]
  have section_ (rest : List Token) {read : Section} {t : List Token} :
      Returns (parseSection double) (front ++ mark :: rest) read t ↔
        Returns (parseSectionOf double token.kind) (token :: behind ++ mark :: rest) read t := by
    unfold parseSection
    simp only [returns_bind, returns_skipNewlines, returns_peekKind, dropWhile_mark isMark, skipped]
    constructor
    · rintro ⟨_, _, rfl, _, _, ⟨rfl, rfl⟩, returned⟩
      exact returned
    · exact fun returned => ⟨(), _, rfl, _, _, ⟨rfl, rfl⟩, returned⟩
  have later : LineEnd (token :: behind) := LineEnd.behind (parts ▸ ends)
  simp only [section_] at returned ⊢
  by_cases last : token.kind = .eof
  · rw [last] at returned
    exact absurd returned not_returns_fail
  · by_cases text : token.kind = .keyword .description
    · simp only [text, parseSectionOf, returns_bind, returns_advance, List.cons_append,
        next_cons last] at returned ⊢
      obtain ⟨_, _, rfl, lines, _, described, returned⟩ := returned
      obtain ⟨rfl, rfl⟩ := returns_pure.mp returned
      have fewer : LineEnd behind := later.tail
      obtain ⟨used, left, rfl, rfl, same⟩ := describedLines_mark isMark fewer described
      exact ⟨left, fewer.behind, rfl, fun rest' =>
        ⟨(), _, rfl, lines, _, same rest', returns_pure.mpr ⟨rfl, rfl⟩⟩⟩
    · have begun : Begun (token :: behind) := last
      have enters : Enters (token :: behind).length (parseSectionOf double token.kind)
        (parseSectionOf double token.kind) :=
        enters_section text
      obtain ⟨used, left, used_, -, rfl, same⟩ := enters.agree begun le_rfl isMark returned
      exact ⟨left, LineEnd.behind (used_ ▸ later), rfl, same⟩

end Locality

section Runs

variable {double : String → BitVec 64} {front rest s t m : List Token} {mark : Token}
  {first : Section}
  {all sections later : List Section} {n steps : Nat}

/-- Blanks in front of a section make no difference. -/
theorem returns_parseSection_skip :
    Returns (parseSection double) (s.dropWhile fun token => isBlank token.kind) first t ↔
    Returns (parseSection double) s first t := by
  unfold parseSection
  simp only [returns_bind, returns_skipNewlines, returns_peekKind, List.dropWhile_idempotent]

/-- Sections are read one by one up to the last. -/
theorem returns_parseSections_succ : Returns (parseSections double (n + 1)) s all t ↔
    ∃ first m, Returns (parseSection double) s first m ∧
      if first.isLast then all = [first] ∧ t = m
      else ∃ rest, Returns (parseSections double n) m rest t ∧ all = first :: rest := by
  rw [parseSections, returns_bind]
  refine exists_congr fun first => exists_congr fun m => and_congr_right fun _ => ?_
  split
  · rw [returns_pure]
    exact and_congr eq_comm eq_comm
  · simp only [returns_bind, returns_pure]
    constructor
    · rintro ⟨rest, _, returned, rfl, rfl⟩
      exact ⟨rest, returned, rfl⟩
    · rintro ⟨rest, returned, rfl⟩
      exact ⟨rest, _, returned, rfl, rfl⟩

/-- Blank tokens in front of a section do not count. -/
theorem returns_parseSections_skip :
    Returns (parseSections double n) (s.dropWhile fun token => isBlank token.kind) all t ↔
    Returns (parseSections double n) s all t := by
  cases n with
  | zero => exact iff_of_false not_returns_fail not_returns_fail
  | succ n => simp only [returns_parseSections_succ, returns_parseSection_skip]

/-- The sections that are read up to where the tokens `stop` are at hand, behind blanks. -/
inductive Arrives (double : String → BitVec 64) (stop : List Token) :
    List Token → List Section → Prop where
  | here {s : List Token} (reached : (s.dropWhile fun token =>
      isBlank token.kind) = stop) : Arrives double stop s []
  | read {s t : List Token} {first : Section} {rest : List Section}
      (more : (s.dropWhile fun token => isBlank token.kind) ≠ stop)
        (returned : Returns (parseSection double) s first t)
      (goesOn : first.isLast = false) (later : Arrives double stop t rest) :
        Arrives double stop s (first :: rest)

/-- The run goes on where the sections in front of `stop` have been read. -/
theorem Arrives.behind {stop : List Token} (arrives : Arrives double stop s sections)
    (returned : Returns (parseSections double n) s (sections ++ later) t) :
    ∃ steps, n = steps + sections.length ∧ Returns (parseSections double steps) stop later t := by
  induction arrives generalizing n with
  | here reached =>
      subst reached
      exact ⟨n, rfl, returns_parseSections_skip.mpr returned⟩
  | read more first goesOn _ ih =>
      cases n with
      | zero => exact absurd returned not_returns_fail
      | succ n =>
          obtain ⟨first', m, first'', rest⟩ := returns_parseSections_succ.mp returned
          obtain ⟨rfl, rfl⟩ := first.unique first''
          rw [goesOn, if_neg Bool.false_ne_true] at rest
          obtain ⟨tail, rest, same⟩ := rest
          obtain rfl := (List.cons.inj same).2
          obtain ⟨steps, rfl, behind⟩ := ih rest
          exact ⟨steps, rfl, behind⟩

/-- What stands behind a line that begins with HASH makes no difference to the sections in front
of it. -/
theorem Arrives.run (isMark : mark.kind = .keyword .hash) (ends : LineEnd front)
    (arrives : Arrives double (mark :: rest) (front ++ mark :: rest) sections) {rest' : List Token}
    (returned : Returns (parseSections double n) (mark :: rest') later t) :
    Returns (parseSections double (n + sections.length)) (front ++ mark :: rest')
      (sections ++ later) t := by
  generalize whole : front ++ mark :: rest = s at arrives
  induction arrives generalizing front with
  | here reached =>
      subst whole
      rw [dropWhile_mark isMark] at reached
      have blank : (front.dropWhile fun token => isBlank token.kind) = [] :=
        List.append_left_eq_self.mp reached
      rw [← returns_parseSections_skip, dropWhile_mark isMark, blank]
      exact returned
  | @read _ m first sections more read goesOn _ ih =>
      subst whole
      have begins : (front.dropWhile fun token => isBlank token.kind) ≠ [] := by
        intro blank
        rw [dropWhile_mark isMark, blank] at more
        exact more rfl
      obtain ⟨left, ends', rfl, same⟩ := parseSection_mark isMark ends begins read
      refine returns_parseSections_succ.mpr ⟨first, _, same rest', ?_⟩
      rw [goesOn, if_neg Bool.false_ne_true]
      exact ⟨_, ih ends' rfl, rfl⟩

end Runs

end Parser

end Sigil
