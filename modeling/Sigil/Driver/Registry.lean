import Sigil.Driver.Build
import Sigil.Driver.Rewrite
import Sigil.Lexer.HashLines
import Sigil.Lexer.Spelling
import Sigil.Parser.Clauses
import Sigil.Parser.Sections
import Sigil.Parser.WholeLines

/-!
# The registry of a library

A library is built with an index of its names and a registry of its contracts, and is linked by
what is read of both. The registry is a text in the syntax of behaviors, without bodies; its
reader looks for `BEHAVIOR ` and the `END` that begins a line, and parses what is in between.
-/

namespace Sigil

open Flow Lexer Sigil.Parser

section Generate

/-- `name interpretation size`. -/
def paramText (param : Parameter) : List Char :=
  param.name.toList ++ ' ' :: (param.typ.debug.toList.map Char.toLower ++ ' ' ::
    (toString param.size).toList)

def guaranteeText : Guarantee → String
  | .pure => "pure"
  | .noAlloc => "no_alloc"
  | .writesOutput => "writes_output"

/-- The lines of a contract. -/
def contractLines (contract : Contract) : List (List Char) :=
  contract.inputs.map (fun param => "  INPUT ".toList ++ paramText param) ++
    contract.outputs.map (fun param => "  OUTPUT ".toList ++ paramText param) ++
    (if contract.requires.behaviors = [] then []
      else ["  REQUIRES".toList ++ contract.requires.behaviors.flatMap refText]) ++
    (if contract.guarantees = [] then []
      else ["  GUARANTEES".toList ++ contract.guarantees.flatMap fun g =>
        ' ' :: (guaranteeText g).toList])

def descriptionLines : Option String → List (List Char)
  | none => []
  | some text =>
      "DESCRIPTION".toList :: (sourceLines text.toList).map fun line => ' ' :: ' ' :: line

/-- What the registry has of a behavior in front of END. -/
def registryLines (behavior : Described) : List (List Char) :=
  ["BEHAVIOR ".toList ++ behavior.name.toList] ++ descriptionLines behavior.description ++
    ["CONTRACT".toList] ++ contractLines behavior.contract ++
      ["HASH ".toList ++ behavior.hash.toList]

/-- `behaviors.index`, a line for each name. -/
def behaviorsIndex (behaviors : List (String × Described)) : String :=
  String.ofList
    (linesText (behaviors.map fun entry => entry.1.toList ++ '@' :: entry.2.hash.toList))

/-- `contracts.registry`. -/
def contractsRegistry (behaviors : List (String × Described)) : String :=
  String.ofList (behaviors.flatMap fun entry =>
    linesText (registryLines entry.2 ++ ["END".toList, []]))

end Generate

section Load

/-- The text in front of the first place where a pattern occurs, and the text from there on. -/
def findText (pattern : List Char) : List Char → Option (List Char × List Char)
  | [] => if pattern = [] then some ([], []) else none
  | c :: rest =>
      if pattern.isPrefixOf (c :: rest) then some ([], c :: rest)
      else (findText pattern rest).map fun found => (c :: found.1, found.2)

/-- The blocks of a registry, from `BEHAVIOR ` to `END`. The steps bound their number. -/
def registryBlocks : Nat → List Char → List (List Char)
  | 0, _ => []
  | steps + 1, content =>
      match findText "BEHAVIOR ".toList content with
      | none => []
      | some (_, begun) =>
          match findText "\nEND".toList begun with
          | none => []
          | some (block, ended) => (block ++ "\nEND".toList) :: registryBlocks steps (ended.drop 4)

/-- The blocks that can be parsed. -/
def registryBehaviors (double : String → BitVec 64) (content : String) : List Described :=
  (registryBlocks (content.length + 1) content.toList).filterMap fun block =>
    Parser.parse double (String.ofList block)

/-- What the driver keeps of a registry; a later block replaces an earlier one. -/
def loadLibraryContracts (double : String → BitVec 64) (content : String) : Contracts :=
  (registryBehaviors double content).foldl (fun contracts behavior =>
    contracts.insert behavior.name behavior.contract) ∅

/-- What the graph builder keeps of a registry. -/
def loadRegistry (double : String → BitVec 64) (content : String) : AList fun _ :
    String => Contract × String :=
  (registryBehaviors double content).foldl (fun contracts behavior =>
    contracts.insert behavior.name (behavior.contract, behavior.hash)) ∅

/-- The names of an index, up to `@`. -/
def loadLibrarySymbols (content : String) : List String :=
  (sourceLines content.toList).filterMap fun line =>
    let name := Parser.trim (line.takeWhile (· != '@'))
    if name = [] then none else some (String.ofList name)

/-- A library as a build that links it sees it. -/
def loadLibrary (double : String → BitVec 64) (index registry : String) : Library where
  symbols := loadLibrarySymbols index
  contracts := loadLibraryContracts double registry

end Load

/-- A contract the registry can hold: sizes are written in decimal and read as signed numbers of
64 bits, a pin is eight digits, and none is followed by a name that continues it. -/
structure Contract.Registrable (contract : Contract) : Prop where
  inputs : ∀ param ∈ contract.inputs, IsIdentifier param.name ∧ param.size < 2 ^ 63
  outputs : ∀ param ∈ contract.outputs, IsIdentifier param.name ∧ param.size < 2 ^ 63
  names : ∀ ref ∈ contract.requires.behaviors, IsIdentifier ref.name
  pins : ∀ ref ∈ contract.requires.behaviors, IsPin ref.hash
  apart : Apart contract.requires.behaviors

/-- A behavior the registry can hold. -/
structure Described.Registrable (behavior : Described) : Prop where
  name : IsIdentifier behavior.name
  hash : IsPin behavior.hash
  contract : behavior.contract.Registrable
  description : ∀ text ∈ behavior.description, ∀ line ∈ sourceLines text.toList, FreeLine line

section Blocks

variable {lines : List (List Char)} {line rest text : List Char}

/-- A pattern in front of the text is found at once. -/
theorem findText_here (pattern : List Char) (filled : pattern ≠ []) :
    findText pattern (pattern ++ rest) = some ([], pattern ++ rest) := by
  obtain ⟨c, pattern, rfl⟩ := List.exists_cons_of_ne_nil filled
  rw [List.cons_append, findText, if_pos]
  simp

/-- No END begins before the lines have ended. -/
theorem findText_end (inLine : ∀ line ∈ lines, '\n' ∉ line)
    (apart : ∀ line ∈ lines, ∀ c ∈ line.head?, c ≠ 'E')
    (filled : lines ≠ []) : ∃ body, body ++ ['\n'] = linesText lines ∧
      findText "\nEND".toList (linesText lines ++ ("END".toList ++ rest)) =
        some (body, "\nEND".toList ++ rest) := by
  have skipped {line text : List Char} (inLine : '\n' ∉ line) :
    findText "\nEND".toList (line ++ '\n' :: text) =
      (findText "\nEND".toList ('\n' :: text)).map fun found => (line ++ found.1, found.2) := by
    induction line with
    | nil => simp
    | cons c line ih =>
        obtain ⟨other, inLine⟩ := not_or.mp (List.mem_cons.not.mp inLine)
        rw [List.cons_append, findText, if_neg (by simp [other]), ih inLine, Option.map_map]
        rfl
  induction lines with
  | nil => exact absurd rfl filled
  | cons line lines ih =>
      obtain ⟨here, inLine⟩ := List.forall_mem_cons.mp inLine
      obtain ⟨-, apart⟩ := List.forall_mem_cons.mp apart
      rw [linesText_cons, List.append_assoc, List.cons_append, skipped here]
      rcases lines with _ | ⟨next, lines⟩
      · refine ⟨line, rfl, ?_⟩
        rw [linesText_nil, List.nil_append, show ('\n' :: ("END".toList ++ rest)) =
          "\nEND".toList ++ rest from rfl,
          findText_here _ (by decide)]
        simp
      · obtain ⟨body, whole, found⟩ := ih inLine apart (by simp)
        refine ⟨line ++ '\n' :: body, by rw [← whole]; simp, ?_⟩
        rw [findText, if_neg, found]
        · rfl
        · have begins := (List.forall_mem_cons.mp apart).1
          rw [linesText_cons]
          rcases next with _ | ⟨c, next⟩
          · simp
          · simp [Ne.symm (begins c rfl)]

end Blocks

section Clauses

/-- A clause without what ends its line, and what it adds to a contract. -/
structure OpenClause where
  kinds : List TokenKind
  adds : Contract → Contract
  line : Break → ClauseLine
  spelled : ∀ ended, (line ended).kinds = kinds ++ ended.kinds
  added : ∀ contract ended, addClause contract (line ended) = adds contract
  apart : ∀ ended, ∀ listed ∈ (line ended).refLines, ∀ line ∈ listed, Apart line.refs

namespace OpenClause

/-- On an indented line of its own. -/
def lineKinds (clause : OpenClause) : List TokenKind := .indent 2 :: (clause.kinds ++ [.newline])

/-- The end of a line is blank. -/
theorem blank_lineEnd : ∀ k ∈ [TokenKind.newline], Parser.isBlank k :=
    List.forall_mem_singleton.mpr rfl

/-- The end of a line has a token. -/
theorem lineEnd_ne_nil : [TokenKind.newline] ≠ [] := List.cons_ne_nil _ _

def lineEnd : Break := ⟨⟨[.newline], blank_lineEnd⟩, lineEnd_ne_nil⟩

/-- The end of a line in front of an indented one is blank. -/
theorem blank_indentedEnd : ∀ k ∈ [TokenKind.newline, .indent 2], Parser.isBlank k :=
  List.forall_mem_cons.mpr ⟨rfl, List.forall_mem_singleton.mpr rfl⟩

/-- The end of a line in front of an indented one has a token. -/
theorem indentedEnd_ne_nil : [TokenKind.newline, .indent 2] ≠ [] := List.cons_ne_nil _ _

/-- With the indentation of the next line. -/
def indentedEnd : Break := ⟨⟨[.newline, .indent 2], blank_indentedEnd⟩, indentedEnd_ne_nil⟩

/-- Clauses one after the other, each with the indentation of the next one. -/
def close : List OpenClause → List ClauseLine
  | [] => []
  | [clause] => [clause.line lineEnd]
  | clause :: next :: clauses => clause.line indentedEnd :: close (next :: clauses)

/-- The indentation of the first clause. -/
def lead (clauses : List OpenClause) : List TokenKind := if clauses = [] then [] else [.indent 2]

/-- The clauses have the same tokens with each indent at its own line and at the line before. -/
theorem lead_close (clauses : List OpenClause) :
    lead clauses ++ (close clauses).flatMap ClauseLine.kinds = clauses.flatMap lineKinds := by
  induction clauses with
  | nil => rfl
  | cons clause clauses ih =>
      rcases clauses with _ | ⟨next, clauses⟩
      · simp [lead, close, lineKinds, clause.spelled, lineEnd]
      · have ih : [.indent 2] ++ (close (next :: clauses)).flatMap ClauseLine.kinds = _ := ih
        rw [close, List.flatMap_cons, clause.spelled, List.flatMap_cons, ← ih]
        simp [lead, lineKinds, indentedEnd]

/-- The clauses add the same wherever the indents stand. -/
theorem foldl_close (clauses : List OpenClause) (contract : Contract) :
    (close clauses).foldl addClause contract =
      clauses.foldl (fun contract clause => clause.adds contract) contract := by
  induction clauses generalizing contract with
  | nil => rfl
  | cons clause clauses ih =>
      rcases clauses with _ | ⟨next, clauses⟩
      · exact clause.added contract _
      · rw [close, List.foldl_cons, clause.added, ih]
        rfl

/-- The references of the clauses stay apart wherever the indents stand. -/
theorem apart_close (clauses : List OpenClause) :
    ∀ line ∈ close clauses, ∀ listed ∈ line.refLines, ∀ line ∈ listed, Apart line.refs := by
  induction clauses with
  | nil => simp [close]
  | cons clause clauses ih =>
      rcases clauses with _ | ⟨next, clauses⟩
      · rw [close, List.forall_mem_singleton]
        exact clause.apart _
      · exact List.forall_mem_cons.mpr ⟨clause.apart _, ih⟩

/-- `name interpretation size` with its size. -/
def paramLine (param : Parameter) (fits : param.size < 2 ^ 63) : ParamLine where
  param
  sized := true
  fits := by omega
  optional := by simp

def input (param : Parameter) (fits : param.size < 2 ^ 63) : OpenClause where
  kinds := .keyword .input :: (paramLine param fits).kinds
  adds contract := { contract with inputs := contract.inputs ++ [param] }
  line := .input (paramLine param fits)
  spelled _ := rfl
  added _ _ := rfl
  apart _ _ listed := by cases listed

def output (param : Parameter) (fits : param.size < 2 ^ 63) : OpenClause where
  kinds := .keyword .output :: (paramLine param fits).kinds
  adds contract := { contract with outputs := contract.outputs ++ [param] }
  line := .output (paramLine param fits)
  spelled _ := rfl
  added _ _ := rfl
  apart _ _ listed := by cases listed

def requires (refs : List BehaviorRef) (filled : refs ≠ []) (pins : ∀ ref ∈ refs, IsPin ref.hash)
    (apart : Apart refs) : OpenClause where
  kinds := .keyword .requires :: refs.flatMap refKinds
  adds contract := { contract with requires := { behaviors := refs } }
  line ended := .requires ⟨[], no_blanks⟩ [⟨refs, filled, pins, ended⟩]
  spelled ended := by simp [ClauseLine.kinds, RefLine.kinds]
  added _ _ := rfl
  apart ended listed member := by
    obtain rfl := Option.some.inj member
    simpa using apart

def guarantees (listed : List Guarantee) : OpenClause where
  kinds := .keyword .guarantees :: listed.map fun g => .keyword (.guarantee g)
  adds contract := { contract with guarantees := listed }
  line := .guarantees listed
  spelled _ := rfl
  added _ _ := rfl
  apart _ _ listed := by cases listed

end OpenClause

/-- What stands behind the word CONTRACT, up to HASH. -/
theorem yields_closed (clauses : List OpenClause) :
    Yields (do skipNewlines; parseContract) (.newline :: clauses.flatMap OpenClause.lineKinds)
      (· = .keyword .hash)
      (clauses.foldl (fun contract clause => clause.adds contract) { inputs := [], outputs := [], guarantees := [] }) := by
  have reads : Yields parseContract ((OpenClause.close clauses).flatMap ClauseLine.kinds)
    (· = .keyword .hash)
      ((OpenClause.close clauses).foldl addClause { inputs := [], outputs := [], guarantees :=
        [] }) := by
    refine (Yields.within (g := fun n => parseClauses n _) fun n enough => ?_).mono
      (F := EndsClauses) ?_
    · exact yields_clauses ⟨[], no_blanks⟩ (OpenClause.apart_close clauses)
        ((length_le_clauses _).trans_lt enough)
    · rintro _ rfl
      simp [EndsClauses, NotName, isBlank]
  rw [OpenClause.foldl_close] at reads
  rw [← OpenClause.lead_close, ← List.cons_append]
  refine .skip_bind (fun k member => ?_) reads fun k last => ?_
  · unfold OpenClause.lead at member
    split at member
    · obtain rfl := List.mem_singleton.mp member
      rfl
    · obtain rfl | member := List.mem_cons.mp member
      · rfl
      · obtain rfl := List.mem_singleton.mp member
        rfl
  · subst last
    exact (solid_clauses (k := .keyword .hash) (by simp [EndsClauses, NotName, isBlank])).1

end Clauses

section Text

variable {lines lines' : List (List Char)} {text : List Char} {kinds : List TokenKind}
  {stop : List Char → Prop}
  {f g : Contract → Contract} {contract : Contract}

/-- Lines that are read as clauses, and what these do to a contract. -/
def ClauseText (lines : List (List Char)) (f : Contract → Contract) : Prop :=
  ∃ clauses : List OpenClause, ScansLines lines (clauses.flatMap OpenClause.lineKinds) ∧
    ∀ contract, clauses.foldl (fun contract clause => clause.adds contract) contract = f contract

/-- No lines add nothing. -/
theorem ClauseText.nil : ClauseText [] id := ⟨[], .nil, fun _ => rfl⟩

/-- Lines of clauses follow each other. -/
theorem ClauseText.append (first : ClauseText lines f) (second : ClauseText lines' g) :
    ClauseText (lines ++ lines') (g ∘ f) := by
  obtain ⟨clauses, scans, adds⟩ := first
  obtain ⟨clauses', scans', adds'⟩ := second
  refine ⟨clauses ++ clauses', ?_, fun contract => ?_⟩
  · rw [List.flatMap_append]
    exact scans.append scans'
  · rw [List.foldl_append, adds, adds']
    rfl

/-- A clause that begins with a keyword. -/
theorem ClauseText.clause {word : Keyword} (clause : OpenClause)
    (spelled : clause.kinds = .keyword word :: kinds)
    (inside : word ≠ .description) (scans : Scans false (' ' :: text) kinds stop)
      (ends : ∀ rest, stop ('\n' :: rest)) :
    ClauseText [' ' :: ' ' :: (word.text.toList ++ ' ' :: text)] clause.adds := by
  refine ⟨[clause], ?_, fun _ => rfl⟩
  obtain ⟨entry, member, rfl⟩ := List.mem_map.mp (keyword_known word)
  obtain ⟨-, begins, -, filled⟩ := keyword_text entry member
  have reads : Scans false (entry.2.text.toList ++ ' ' :: text) ([.keyword entry.2] ++ kinds)
    stop := by
    refine (scans_keyword inside).append scans fun rest _ c member => ?_
    obtain rfl := Option.some.inj member
    rfl
  obtain ⟨first, later, word⟩ := List.exists_cons_of_ne_nil filled
  rw [word] at begins reads ⊢
  have solid := isIdentStart_cases (c := first) (by simpa using begins)
  have whole := reads.indented solid.1 solid.2.1 ends
  rw [List.flatMap_singleton, OpenClause.lineKinds, spelled]
  exact whole

/-- The text of a parameter scans as its tokens. -/
theorem scans_paramText {param : Parameter} (ident : IsIdentifier param.name)
    (fits : param.size < 2 ^ 63) :
    Scans false (paramText param) [.identifier param.name, .keyword (.typ param.typ),
      .integer (BitVec.ofNat 64 param.size)] EndsNumber := by
  have number : Scans false (toString param.size).toList [.integer (BitVec.ofNat 64 param.size)]
    EndsNumber := by
    have scans : Scans false _ [.integer (BitVec.ofNat 64 param.size)] EndsNumber := scans_integer _
    have value : (BitVec.ofNat 64 param.size).toInt = (param.size : Int) := by
      rw [BitVec.toInt_eq_toNat_of_lt] <;> rw [BitVec.toNat_ofNat] <;> omega
    rw [value] at scans
    exact scans
  have word : param.typ.debug.toList.map Char.toLower = (Keyword.typ param.typ).text.toList := by
    cases param.typ <;> decide
  have typ : Scans false (param.typ.debug.toList.map Char.toLower) [.keyword (.typ param.typ)]
    EndsWord := by
    rw [word]
    exact scans_keyword (by simp)
  exact (scans_identifier ident).behindSpace (typ.behindSpace number)

/-- The text of guarantees scans as their tokens. -/
theorem scans_guarantees (listed : List Guarantee) :
    Scans false (listed.flatMap fun g => ' ' :: (guaranteeText g).toList)
      (listed.map fun g => .keyword (.guarantee g)) EndsWord := by
  induction listed with
  | nil => exact .nil
  | cons g listed ih =>
      have word : (guaranteeText g).toList = (Keyword.guarantee g).text.toList := by
        cases g <;> decide
      have first : Scans false (guaranteeText g).toList [.keyword (.guarantee g)] EndsWord := by
        rw [word]
        exact scans_keyword (by simp)
      refine first.space.append ih fun rest ends => ?_
      rcases listed with _ | ⟨next, listed⟩
      · exact ends
      · intro c member
        obtain rfl := Option.some.inj member
        rfl

/-- The INPUT lines add the inputs. -/
theorem written_inputs {params : List Parameter}
    (registrable : ∀ param ∈ params, IsIdentifier param.name ∧ param.size < 2 ^ 63) :
    ClauseText (params.map fun param => "  INPUT ".toList ++ paramText param)
      fun contract => { contract with inputs := contract.inputs ++ params } := by
  induction params with
  | nil => exact ⟨[], .nil, fun _ => by simp⟩
  | cons param params ih =>
      obtain ⟨⟨ident, fits⟩, later⟩ := List.forall_mem_cons.mp registrable
      have first :
        ClauseText [' ' :: ' ' :: (Keyword.input.text.toList ++ ' ' :: paramText param)] _ :=
        .clause (OpenClause.input param fits) rfl (by decide) (scans_paramText ident fits).space
          fun _ => endsNumber_newline
      rw [show Keyword.input.text = "INPUT" by decide] at first
      obtain ⟨clauses, scans, adds⟩ := first.append (ih later)
      exact ⟨clauses, scans, fun contract => by simp [adds, OpenClause.input]⟩

/-- The OUTPUT lines add the outputs. -/
theorem written_outputs {params : List Parameter}
    (registrable : ∀ param ∈ params, IsIdentifier param.name ∧ param.size < 2 ^ 63) :
    ClauseText (params.map fun param => "  OUTPUT ".toList ++ paramText param)
      fun contract => { contract with outputs := contract.outputs ++ params } := by
  induction params with
  | nil => exact ⟨[], .nil, fun _ => by simp⟩
  | cons param params ih =>
      obtain ⟨⟨ident, fits⟩, later⟩ := List.forall_mem_cons.mp registrable
      have first :
        ClauseText [' ' :: ' ' :: (Keyword.output.text.toList ++ ' ' :: paramText param)] _ :=
        .clause (OpenClause.output param fits) rfl (by decide)
          (scans_paramText ident fits).space fun _ => endsNumber_newline
      rw [show Keyword.output.text = "OUTPUT" by decide] at first
      obtain ⟨clauses, scans, adds⟩ := first.append (ih later)
      exact ⟨clauses, scans, fun contract => by simp [adds, OpenClause.output]⟩

/-- The REQUIRES line adds the references. -/
theorem written_requires {refs : List BehaviorRef} (names : ∀ ref ∈ refs, IsIdentifier ref.name)
    (pins : ∀ ref ∈ refs, IsPin ref.hash) (apart : Apart refs) :
    ClauseText (if refs = [] then [] else ["  REQUIRES".toList ++ refs.flatMap refText])
      fun contract => if refs = [] then contract else { contract with requires :=
        { behaviors := refs } } := by
  split
  · exact .nil
  next filled =>
    have scans := scans_refs names pins
    obtain ⟨ref, later, rfl⟩ := List.exists_cons_of_ne_nil filled
    have first :
      ClauseText
        [' ' :: ' ' :: (Keyword.requires.text.toList ++ (ref :: later).flatMap refText)] _ :=
      .clause (OpenClause.requires _ filled pins apart) rfl (by decide) scans
        fun _ => ⟨endsWord_newline, endsNumber_newline⟩
    rwa [show Keyword.requires.text = "REQUIRES" by decide] at first

/-- The GUARANTEES line adds the guarantees. -/
theorem written_guarantees (listed : List Guarantee) :
    ClauseText (if listed = [] then [] else
      ["  GUARANTEES".toList ++ listed.flatMap fun g => ' ' :: (guaranteeText g).toList])
      fun contract => if listed = [] then contract else { contract with guarantees := listed } := by
  split
  · exact .nil
  next filled =>
    have scans := scans_guarantees listed
    obtain ⟨g, later, rfl⟩ := List.exists_cons_of_ne_nil filled
    have first : ClauseText [' ' :: ' ' :: (Keyword.guarantees.text.toList ++
        (g :: later).flatMap fun g => ' ' :: (guaranteeText g).toList)] _ :=
      .clause (OpenClause.guarantees _) rfl (by decide) scans fun _ => endsWord_newline
    rwa [show Keyword.guarantees.text = "GUARANTEES" by decide] at first

/-- The lines of a contract are read as clauses that make up the contract without its MEMORY. -/
theorem Contract.Registrable.clauses (registrable : contract.Registrable) :
    ∃ clauses : List OpenClause, ScansLines (contractLines contract)
      (clauses.flatMap OpenClause.lineKinds) ∧
      clauses.foldl (fun contract clause => clause.adds contract) { inputs := [], outputs := [], guarantees := [] } =
        contract.withoutMemory := by
  obtain ⟨clauses, scans, adds⟩ :=
    (((written_inputs registrable.inputs).append (written_outputs registrable.outputs)).append
    (written_requires registrable.names registrable.pins registrable.apart)).append
      (written_guarantees contract.guarantees)
  refine ⟨clauses, scans, (adds _).trans ?_⟩
  obtain ⟨inputs, outputs, requires, guarantees⟩ := contract
  dsimp only [Function.comp]
  split <;> split <;> simp_all [Contract.withoutMemory]

end Text

section Entries

variable {behavior : Described} {double : String → BitVec 64} {rest : List Char} {lexer : Lexer}

/-- The text of a block. -/
def blockText (behavior : Described) : List Char :=
    linesText (registryLines behavior) ++ "END".toList

/-- CONTRACT ends a description. -/
theorem reads_contract (here : lexer.chars = "CONTRACT".toList ++ '\n' :: rest)
    (begun : lexer.atLineStart = true) :
    ∃ after, Reads lexer [.keyword .contract, .newline] after ∧ after.chars = rest ∧
      after.atLineStart = true ∧
      after.inDescription = false := by
  have text : lexer.chars = 'C' :: ("ONTRACT".toList ++ '\n' :: rest) := here
  obtain ⟨later, reads, left, -, -⟩ :=
    readWhile_append (by decide : "ONTRACT".toList.all isIdentChar)
    endsWord_newline (by decide) (past_chars { lexer with atLineStart := false } 'C'
      ("ONTRACT".toList ++ '\n' :: rest))
  have word : keywordOrIdent (String.ofList ('C' :: "ONTRACT".toList)) = .keyword .contract := by
    decide
  have left' : (afterWord (.keyword .contract) true later).chars = '\n' :: rest := by
    rw [afterWord_chars, left]
  obtain ⟨after, breaks, done⟩ := reads_newline left'
  refine ⟨after, ?_, done.1, done.2.1, done.2.2⟩
  refine @Reads.cons _ _ _ ⟨.keyword .contract, ⟨lexer.line, lexer.col, 8⟩⟩ _ (fun steps => ?_)
    (by simp) ?_ breaks
  · rw [nextToken_solid text (by unfold Solid; decide), charToken, if_neg (by decide),
      if_neg (by decide),
      show punctuation 'C' = none from rfl]
    simp only [readIdentifier, reads, begun]
    rw [word]
    rfl
  · rw [left', here]
    simp

/-- The tokens of a description, none if there is none. -/
def Skipped (description : Option String) (tokens : List Token) : Prop :=
  (description = none ∧ tokens = []) ∨ ∃ word behind, tokens = word :: behind ∧ word.kind =
    .keyword .description ∧
    ∀ tail endLine endLine', (scanDescription true endLine (behind ++ tail)).2 =
      (scanDescription true endLine' tail).2

/-- The lines of a description are passed as free text. -/
theorem run_description {description : Option String}
    (free : ∀ text ∈ description, ∀ line ∈ sourceLines text.toList, FreeLine line)
    (here : lexer.chars = linesText (descriptionLines description) ++ rest)
      (begun : lexer.atLineStart = true) :
    ∃ after : Lexer, after.chars = rest ∧ after.atLineStart = true ∧ ∀ later, Run after later →
      ∃ front, Run lexer (front ++ later) ∧ Skipped description (front.map Prod.fst) := by
  cases description with
  | none => exact ⟨lexer, here, begun, fun later runs => ⟨[], runs, .inl ⟨rfl, rfl⟩⟩⟩
  | some text =>
      have free' : ∀ line ∈ (sourceLines text.toList).map fun line =>
        ' ' :: ' ' :: line, FreeLine line := by
        intro line' member
        obtain ⟨line, inside, rfl⟩ := List.mem_map.mp member
        exact (free text rfl line inside).indented
      rw [descriptionLines, linesText_cons, List.append_assoc, List.cons_append] at here
      obtain ⟨token, mid, read, kind, alike⟩ := step_description here endsWord_newline
      obtain ⟨mid', breaks, there, begun', mode⟩ := reads_newline alike.chars
      obtain ⟨after, left, begun'', -, runs⟩ :=
        run_freeLines free' there begun' (mode.trans alike.mode)
      refine ⟨after, left, begun'', fun later behind => ?_⟩
      obtain ⟨front, run, scanned⟩ := runs later behind
      obtain ⟨newline, spelled, run'⟩ := breaks.runs run
      refine ⟨(token, mid) :: (newline ++ front),
        .more read (by simp [kind]) (by simpa using run'), .inr ?_⟩
      obtain ⟨⟨first, state⟩, none_, rfl, isBreak, ended⟩ := List.map_eq_cons_iff.mp spelled
      obtain rfl := List.map_eq_nil_iff.mp ended
      refine ⟨token, first :: front.map Prod.fst, rfl, kind, fun tail endLine endLine' => ?_⟩
      have goes : ¬ (true && endsDescription first.kind) = true := by
        rw [show first.kind = .newline from isBreak]
        decide
      rw [List.cons_append, scanDescription, if_neg goes, show first.kind = .newline from isBreak]
      exact scanned tail first.span.line endLine'

/-- The tokens in front of END, of a block whose contract is read as some clauses. -/
def entryKinds (hash : String) (clauses : List OpenClause) : List TokenKind :=
  .keyword .contract :: (.newline :: clauses.flatMap OpenClause.lineKinds) ++
    .keyword .hash :: (pinKinds hash.toList ++ [.newline, .keyword .endBehavior, .eof])

/-- A block is read as the name, the description and the rest. -/
theorem lex_block (registrable : behavior.Registrable) {clauses : List OpenClause}
    (scans : ScansLines (contractLines behavior.contract) (clauses.flatMap OpenClause.lineKinds)) :
    ∃ named described later, lex (String.ofList (blockText behavior)) =
      .ok (named ++ (described ++ later)) ∧
      named.map Token.kind = [.keyword .behavior, .identifier behavior.name, .newline] ∧
      Skipped behavior.description described ∧ later.map Token.kind =
        entryKinds behavior.hash clauses := by
  have word : Scans true "BEHAVIOR".toList [.keyword .behavior] EndsWord := by
    have scans : Scans true Keyword.behavior.text.toList [.keyword .behavior] EndsWord :=
      scans_keyword (by decide)
    rwa [show Keyword.behavior.text = "BEHAVIOR" by decide] at scans
  have mark : Scans true "HASH".toList [.keyword .hash] EndsWord := by
    have scans : Scans true Keyword.hash.text.toList [.keyword .hash] EndsWord :=
      scans_keyword (by decide)
    rwa [show Keyword.hash.text = "HASH" by decide] at scans
  have ends : Scans true "END".toList [.keyword .endBehavior] (· = []) := by
    have scans : Scans true Keyword.endBehavior.text.toList [.keyword .endBehavior] EndsWord :=
      scans_keyword (by decide)
    rw [show Keyword.endBehavior.text = "END" by decide] at scans
    refine scans.mono ?_
    rintro _ rfl c member
    cases member
  obtain ⟨k, ks, pinned⟩ := List.exists_cons_of_ne_nil (pinKinds_ne_nil registrable.hash)
  have pin : Scans false behavior.hash.toList (k :: ks) EndsPin :=
    pinned ▸ scans_pin registrable.hash
  have first : ScansLines ["BEHAVIOR".toList ++ ' ' :: behavior.name.toList] _ :=
    (word.behindSpace (scans_identifier registrable.name)).line fun _ => endsWord_newline
  have last : ScansLines ["HASH".toList ++ ' ' :: behavior.hash.toList] _ :=
    (mark.behindSpace pin).line fun _ => ⟨endsWord_newline, endsNumber_newline⟩
  -- the lexer goes through the parts of the block
  have whole : blockText behavior = linesText ["BEHAVIOR".toList ++ ' ' :: behavior.name.toList] ++
      (linesText (descriptionLines behavior.description) ++ ("CONTRACT".toList ++ '\n' ::
        (linesText (contractLines behavior.contract ++
          ["HASH".toList ++ ' ' :: behavior.hash.toList]) ++
          ("END".toList ++ [])))) := by
    simp [blockText, registryLines]
  have opened : Lexer.new (String.ofList (blockText behavior)) =
    { chars := blockText behavior } := by
    rw [new_eq, String.toList_ofList, whole]
    rfl
  obtain ⟨l₁, reads₁, here₁, begun₁, mode₁⟩ := first { chars := blockText behavior } _ whole rfl rfl
  obtain ⟨l₂, here₂, begun₂, runs₂⟩ := run_description registrable.description here₁ begun₁
  obtain ⟨l₃, reads₃, here₃, begun₃, mode₃⟩ := reads_contract here₂ begun₂
  obtain ⟨l₄, reads₄, here₄, begun₄, mode₄⟩ := (scans.append last) l₃ _ here₃ begun₃ mode₃
  obtain ⟨l₅, reads₅, here₅, -⟩ := ends l₄ [] here₄ begun₄ mode₄ rfl
  obtain ⟨token, eof, isLast, closes⟩ := nextToken_end here₅
  -- and back
  have run₅ : Run l₅ [(token, eof)] := .last (closes 1) isLast
  obtain ⟨f₃, spelled₃, run₃⟩ := ((reads₃.append reads₄).append reads₅).runs run₅
  obtain ⟨f₂, run₂, skipped⟩ := runs₂ _ run₃
  obtain ⟨f₁, spelled₁, run₁⟩ := reads₁.runs run₂
  refine ⟨f₁.map Prod.fst, f₂.map Prod.fst, (f₃ ++ [(token, eof)]).map Prod.fst, ?_, ?_,
    skipped, ?_⟩
  · rw [lex_eq_ok_iff, opened]
    exact ⟨_, run₁, by simp⟩
  · rw [List.map_map]
    exact spelled₁
  · rw [List.map_map, List.map_append, show (Token.kind ∘ Prod.fst : Token × Lexer → TokenKind)
      = (·.1.kind) from rfl,
      spelled₃, entryKinds, pinned]
    simp [isLast]

section Sections

variable {described later tail s t : List Token} {word : Token} {contract : Contract}
  {name : String}

/-- The BEHAVIOR line is read as its name. -/
theorem returns_parseName {named : List Token}
    (spelled : named.map Token.kind = [.keyword .behavior, .identifier name, .newline])
    (solid : isBlank (Parser.peek tail).kind = false) :
      Returns parseName (named ++ tail) name tail := by
  obtain ⟨first, s, rfl, isWord, spelled⟩ := spelled_cons spelled
  obtain ⟨second, s, rfl, isName, spelled⟩ := spelled_cons spelled
  obtain ⟨third, s, rfl, isBreak, spelled⟩ := spelled_cons spelled
  obtain rfl := List.map_eq_nil_iff.mp spelled
  have skipped : (third :: tail).dropWhile (fun token => isBlank token.kind) = tail := by
    rw [List.dropWhile_cons_of_pos (by rw [isBreak]; rfl)]
    rcases tail with _ | ⟨token, tail⟩
    · rfl
    · exact List.dropWhile_cons_of_neg (by simpa [Parser.peek] using solid)
  have expected : Returns (expect (.keyword .behavior)) (first :: second :: third :: tail) ()
    (second :: third :: tail) := by
    refine returns_bind.mpr ⟨_, _, returns_peekKind.mpr ⟨rfl, rfl⟩, ?_⟩
    rw [peek_cons, if_pos isWord]
    exact returns_advance.mpr (next_cons (by simp [isWord])).symm
  have identified : Returns expectIdentifier (second :: third :: tail) name (third :: tail) :=
    Yields.name (F := fun _ => True) [second] (third :: tail) (by simp [isName]) trivial
  refine returns_bind.mpr ⟨(), _, returns_skipNewlines.mpr rfl, ?_⟩
  have solid : ((first :: second :: third :: tail).dropWhile fun token => isBlank token.kind) =
    first :: second :: third :: tail :=
    List.dropWhile_cons_of_neg (by simp [isWord, isBlank])
  rw [show [first, second, third] ++ tail = first :: second :: third :: tail from rfl, solid]
  refine returns_bind.mpr ⟨(), _, expected, returns_bind.mpr ⟨name, _, identified, ?_⟩⟩
  exact returns_bind.mpr ⟨(), _, returns_skipNewlines.mpr skipped.symm, returns_pure.mpr ⟨rfl, rfl⟩⟩

/-- A section by the keyword at hand. -/
theorem returns_section {keyword : Keyword} {read : Section} (isWord : word.kind = .keyword keyword)
    (returned : Returns (parseSectionOf double (.keyword keyword)) (word :: s) read t) :
    Returns (parseSection double) (word :: s) read t := by
  refine returns_bind.mpr ⟨(), word :: s, returns_skipNewlines.mpr ?_, ?_⟩
  · rw [List.dropWhile_cons_of_neg (by simp [isWord, isBlank])]
  · refine returns_bind.mpr ⟨_, _, returns_peekKind.mpr ⟨rfl, rfl⟩, ?_⟩
    rwa [peek_cons, isWord]

variable (double) in
/-- Past a description. -/
theorem returns_description (isWord : word.kind = .keyword .description)
    (goes : ∀ tail endLine endLine', (scanDescription true endLine (s ++ tail)).2 =
      (scanDescription true endLine' tail).2)
    (stops : endsDescription (Parser.peek tail).kind = true) (filled : tail ≠ []) :
    ∃ first last, Returns (parseSection double) (word :: (s ++ tail)) (.description first last)
      tail := by
  obtain ⟨token, tail, rfl⟩ := List.exists_cons_of_ne_nil filled
  have left (endLine : Nat) : (scanDescription true endLine (token :: tail)).2 = token :: tail := by
    rw [scanDescription, if_pos (by rwa [Bool.true_and])]
  have described : ∃ lines, Returns describedLines (s ++ token :: tail) lines (token :: tail) :=
    ⟨_, returns_describedLines.mpr ⟨rfl, by rw [scanDescription_blank _ _ 0, goes _ _ 0, left]⟩⟩
  obtain ⟨⟨first, last⟩, described⟩ := described
  refine ⟨first, last, returns_section isWord
    (returns_bind.mpr ⟨(), _, returns_advance.mpr rfl, ?_⟩)⟩
  rw [next_cons (by simp [isWord])]
  exact returns_bind.mpr ⟨_, _, described, returns_pure.mpr ⟨rfl, rfl⟩⟩

/-- The lines of a CONTRACT are read as the contract. -/
theorem returns_contract {clauses : List OpenClause} {kinds : List Token}
    (isWord : word.kind = .keyword .contract)
      (spelled : kinds.map Token.kind = .newline :: clauses.flatMap OpenClause.lineKinds)
    (ends : (Parser.peek tail).kind = .keyword .hash) :
    Returns (parseSection double) (word :: (kinds ++ tail)) (.contract (clauses.foldl
      (fun contract clause => clause.adds contract) { inputs := [], outputs := [], guarantees :=
        [] })) tail := by
  obtain ⟨u, m, skipped, parsed⟩ := returns_bind.mp (yields_closed clauses kinds tail spelled ends)
  refine returns_section isWord (returns_bind.mpr ⟨(), _, returns_advance.mpr rfl, ?_⟩)
  rw [next_cons (by simp [isWord])]
  exact returns_bind.mpr ⟨u, m, skipped,
    returns_bind.mpr ⟨_, _, parsed, returns_pure.mpr ⟨rfl, rfl⟩⟩⟩

variable (double) in
/-- What is left of a block behind the description says the contract and the hash. -/
theorem returns_entry {hash : String} {clauses : List OpenClause} (pin : IsPin hash)
    (spelled : later.map Token.kind = entryKinds hash clauses) (n : Nat) :
    ∃ left, Returns (parseSections double (n + 3)) later [.contract (clauses.foldl
      (fun contract clause => clause.adds contract) { inputs := [], outputs := [], guarantees :=
        [] }),
      .hash hash, .ended] left := by
  obtain ⟨front, back, rfl, spelled₁, spelled₂⟩ := spelled_append spelled
  obtain ⟨word, behind, rfl, isContract, spelled₁⟩ := spelled_cons spelled₁
  obtain ⟨mark, rest, rfl, isMark, spelled₂⟩ := spelled_cons spelled₂
  obtain ⟨value, rest, rfl, valued, spelled₂⟩ := spelled_append spelled₂
  obtain ⟨ended, rest, rfl, isBreak, spelled₂⟩ := spelled_cons spelled₂
  obtain ⟨last, rest, rfl, isEnd, -⟩ := spelled_cons spelled₂
  refine ⟨rest, returns_parseSections_succ.mpr
    ⟨_, _, returns_contract isContract spelled₁ isMark, ?_⟩⟩
  have apart : ∀ name, (Parser.peek (ended :: last :: rest)).kind ≠ .identifier name := by
    simp [peek_cons, isBreak]
  refine ⟨_, returns_parseSections_succ.mpr
    ⟨_, _, returns_section_pin isMark pin valued apart, ?_⟩, rfl⟩
  refine ⟨_, returns_parseSections_succ.mpr ⟨.ended, rest, ?_, rfl, rfl⟩, rfl⟩
  rw [← returns_parseSection_skip, List.dropWhile_cons_of_pos (by rw [isBreak]; rfl),
    returns_parseSection_skip]
  refine returns_section isEnd (returns_bind.mpr
    ⟨(), rest, returns_advance.mpr ?_, returns_pure.mpr ⟨rfl, rfl⟩⟩)
  exact (next_cons (by simp [isEnd])).symm

variable (double) in
/-- A block is parsed to the name, the contract without its MEMORY and the hash. -/
theorem parse_block (registrable : behavior.Registrable) :
    ∃ read, Parser.parse double (String.ofList (blockText behavior)) = some read ∧ read.name =
      behavior.name ∧
      read.contract = behavior.contract.withoutMemory ∧ read.hash = behavior.hash := by
  obtain ⟨clauses, scans, made⟩ := registrable.contract.clauses
  obtain ⟨named, described, later, lexed, spelled, skipped, spelled'⟩ := lex_block registrable scans
  obtain ⟨word, behind, rfl, isContract, -⟩ := spelled_cons spelled'
  have keywords : 3 ≤ (word :: behind).countP (isKeyword ·.kind) := by
    have counted : (word :: behind).countP (isKeyword ·.kind) =
      (entryKinds behavior.hash clauses).countP isKeyword := by
      rw [← spelled', List.countP_map]
      rfl
    rw [counted]
    simp [entryKinds, isKeyword, List.countP_append, List.countP_cons]
    omega
  -- with a description or without one
  have parsed : ∃ sections left, Returns
    (parseSections double (sectionsLeft (described ++ word :: behind)))
      (described ++ word :: behind) sections left ∧
      ∃ front, sections = front ++ [.contract behavior.contract.withoutMemory,
        .hash behavior.hash, .ended] ∧
        (front = [] ∨ ∃ first last, front = [.description first last]) := by
    rcases skipped with ⟨-, rfl⟩ | ⟨keyword, lines, rfl, isWord, goes⟩
    · obtain ⟨n, steps⟩ := Nat.exists_eq_add_of_le' keywords
      obtain ⟨left, read⟩ := returns_entry double registrable.hash spelled' (n + 1)
      rw [made] at read
      refine ⟨_, left, ?_, [], rfl, .inl rfl⟩
      rw [List.nil_append, sectionsLeft, steps]
      exact read
    · have more : 3 ≤ (lines ++ word :: behind).countP (isKeyword ·.kind) := by
        rw [List.countP_append]
        omega
      obtain ⟨n, steps⟩ := Nat.exists_eq_add_of_le' more
      obtain ⟨left, read⟩ := returns_entry double registrable.hash spelled' (n + 1)
      rw [made] at read
      obtain ⟨first, last, passed⟩ := returns_description double isWord goes
        (show endsDescription (Parser.peek (word :: behind)).kind =
          true by rw [peek_cons, isContract]; rfl) (by simp)
      refine ⟨_, left, ?_, [.description first last], rfl, .inr ⟨first, last, rfl⟩⟩
      rw [List.cons_append, sectionsLeft, List.countP_cons_of_pos (by rw [isWord]; rfl), steps]
      exact returns_parseSections_succ.mpr ⟨_, _, passed, _, read, rfl⟩
  obtain ⟨sections, left, read, front, rfl, cases_⟩ := parsed
  have solid : isBlank (Parser.peek (described ++ word :: behind)).kind = false := by
    rcases skipped with ⟨-, rfl⟩ | ⟨keyword, lines, rfl, isWord, -⟩
    · rw [List.nil_append, peek_cons, isContract]
      rfl
    · rw [List.cons_append, peek_cons, isWord]
      rfl
  have whole : Returns (parseBehavior double (String.ofList (blockText behavior)))
    (named ++ (described ++ word :: behind))
      _ left :=
    returns_bind.mpr ⟨_, _, returns_parseName spelled solid,
      returns_bind.mpr ⟨_, _, returns_get.mpr ⟨rfl, rfl⟩,
      returns_bind.mpr ⟨_, _, read, returns_pure.mpr ⟨rfl, rfl⟩⟩⟩⟩
  refine ⟨List.foldl
    (Section.apply (String.ofList (blockText behavior))) (.new behavior.name)
      (front ++ [.contract behavior.contract.withoutMemory, .hash behavior.hash, .ended]), ?_, ?_⟩
  · rw [Parser.parse, lexed]
    dsimp only
    rw [whole]
  · rcases cases_ with rfl | ⟨first, last, rfl⟩ <;> exact ⟨rfl, rfl, rfl⟩

end Sections

section Lines

variable {line : List Char} {lines : List (List Char)} {n : Nat}
  {behaviors : List (String × Described)}

/-- A line without a break is the first of the text. -/
theorem sourceLines_plain (plain : ∀ c ∈ line, c ≠ '\n' ∧ c ≠ '\r') :
    sourceLines (line ++ '\n' :: rest) = line :: sourceLines rest := by
  induction line with
  | nil => rw [List.nil_append, sourceLines]
  | cons c line ih =>
      obtain ⟨⟨newline, ret⟩, plain⟩ := List.forall_mem_cons.mp plain
      obtain ⟨later, split, read⟩ := sourceLines_cons newline
        fun tail same (_ : line ++ '\n' :: rest = '\n' :: tail) => ret same
      rw [List.cons_append, read, ← split, ih plain]

/-- The lines of a text made of lines are those. -/
theorem sourceLines_linesText (plain : ∀ line ∈ lines, ∀ c ∈ line, c ≠ '\n' ∧ c ≠ '\r') :
    sourceLines (linesText lines) = lines := by
  induction lines with
  | nil => rfl
  | cons line lines ih =>
      obtain ⟨here, plain⟩ := List.forall_mem_cons.mp plain
      rw [linesText_cons, sourceLines_plain here, ih plain]

/-- Every line of a block is a line, and END does not begin one. -/
theorem Described.Registrable.wholeLines (registrable : behavior.Registrable) :
    ∀ line ∈ registryLines behavior, '\n' ∉ line ∧ ∀ c ∈ line.head?, c ≠ 'E' := by
  have ident {name : String} (ident : IsIdentifier name) : '\n' ∉ name.toList :=
    not_newline_of_all ident.isHashText (by decide)
  have pin {hash : String} (pin : IsPin hash) : '\n' ∉ hash.toList :=
    not_newline_of_all pin.2 (by decide)
  have param {param : Parameter} (name : IsIdentifier param.name) : '\n' ∉ paramText param := by
    have typ : '\n' ∉ param.typ.debug.toList.map Char.toLower := by cases param.typ <;> decide
    have size : '\n' ∉ (toString param.size).toList := by
      rw [Nat.toString_eq_repr, Nat.toList_repr]
      exact not_newline_of_all (all_isDigit_toDigits _) (by decide)
    simp only [paramText, List.mem_append, List.mem_cons]
    exact fun member => by
      rcases member with member | member | member | member | member
      · exact ident name member
      · cases member
      · exact typ member
      · cases member
      · exact size member
  have described : ∀ line ∈ descriptionLines behavior.description, '\n' ∉ line ∧
    ∀ c ∈ line.head?, c ≠ 'E' := by
    intro line member
    cases some_ : behavior.description with
    | none =>
        rw [some_] at member
        cases member
    | some text =>
        rw [some_] at member
        obtain rfl | member := List.mem_cons.mp member
        · simp
        · obtain ⟨line, inside, rfl⟩ := List.mem_map.mp member
          have free := registrable.description text some_ line inside
          simp [free.inLine]
  have contract : ∀ line ∈ contractLines behavior.contract, '\n' ∉ line ∧ ∀ c ∈ line.head?,
    c ≠ 'E' := by
    intro line member
    simp only [contractLines, List.mem_append, List.mem_map] at member
    rcases member with ((⟨p, member, rfl⟩ | ⟨p, member, rfl⟩) | member) | member
    · simp [param (registrable.contract.inputs p member).1]
    · simp [param (registrable.contract.outputs p member).1]
    · split at member
      · cases member
      · obtain rfl := List.mem_singleton.mp member
        simp only [List.mem_append, List.mem_flatMap, refText, List.mem_cons, not_or,
          not_exists, not_and]
        refine ⟨⟨by decide, fun ref inside => ?_⟩, by simp⟩
        exact ⟨by
          decide, ident (registrable.contract.names ref inside), by
            decide, pin (registrable.contract.pins ref inside)⟩
    · split at member
      · cases member
      · obtain rfl := List.mem_singleton.mp member
        simp only [List.mem_append, List.mem_flatMap, List.mem_cons, not_or, not_exists, not_and]
        refine ⟨⟨by decide, fun g _ => ⟨by decide, by cases g <;> decide⟩⟩, by simp⟩
  intro line member
  simp only [registryLines, List.mem_append, List.mem_singleton] at member
  rcases member with (((rfl | member) | rfl) | member) | rfl
  · simp [ident registrable.name]
  · exact described line member
  · simp
  · exact contract line member
  · simp [pin registrable.hash]

/-- An empty line begins no block. -/
theorem registryBlocks_newline : registryBlocks n ('\n' :: rest) = registryBlocks n rest := by
  cases n with
  | zero => rfl
  | succ n =>
      rw [registryBlocks, findText, if_neg (by simp), registryBlocks]
      cases findText "BEHAVIOR ".toList rest <;> rfl

/-- The first block of a registry. -/
theorem registryBlocks_entry (registrable : behavior.Registrable) :
    registryBlocks (n + 1) (linesText (registryLines behavior ++ ["END".toList, []]) ++ rest) =
      blockText behavior :: registryBlocks n rest := by
  have lines := registrable.wholeLines
  obtain ⟨body, whole, found⟩ : ∃ body, body ++ ['\n'] = linesText (registryLines behavior) ∧
      findText "\nEND".toList (linesText (registryLines behavior) ++
        ("END".toList ++ '\n' :: '\n' :: rest)) =
        some (body, "\nEND".toList ++ '\n' :: '\n' :: rest) :=
    findText_end (fun line member => (lines line member).1)
      (fun line member => (lines line member).2)
      (by simp [registryLines])
  obtain ⟨tail, begins⟩ : ∃ tail, linesText (registryLines behavior) ++
    ("END".toList ++ '\n' :: '\n' :: rest) =
      "BEHAVIOR ".toList ++ tail := by
    simp [registryLines]
  have text : linesText (registryLines behavior ++ ["END".toList, []]) ++ rest =
      linesText (registryLines behavior) ++ ("END".toList ++ '\n' :: '\n' :: rest) := by
    simp
  rw [text, registryBlocks, begins, findText_here _ (by decide)]
  dsimp only
  rw [← begins, found]
  dsimp only
  rw [blockText, ← whole, show ("\nEND".toList ++ '\n' :: '\n' :: rest).drop 4 =
    '\n' :: '\n' :: rest from rfl,
    registryBlocks_newline, registryBlocks_newline]
  simp

/-- The blocks of a registry are those of its behaviors. -/
theorem registryBlocks_registry (registrable : ∀ entry ∈ behaviors, entry.2.Registrable)
    (enough : behaviors.length < n) :
    registryBlocks n (behaviors.flatMap fun entry =>
      linesText (registryLines entry.2 ++ ["END".toList, []])) =
      behaviors.map fun entry => blockText entry.2 := by
  induction behaviors generalizing n with
  | nil =>
      obtain ⟨n, rfl⟩ := Nat.exists_eq_add_of_lt enough
      rfl
  | cons entry behaviors ih =>
      obtain ⟨n, rfl⟩ := Nat.exists_eq_add_of_lt enough
      obtain ⟨here, later⟩ := List.forall_mem_cons.mp registrable
      rw [List.flatMap_cons, registryBlocks_entry here,
        ih later (by rw [List.length_cons]; omega), List.map_cons]

end Lines

/-- Text without white space is not trimmed. -/
theorem trim_plain {text : List Char} (plain : ∀ c ∈ text, Parser.isWhitespace c = false) :
    Parser.trim text = text := by
  have kept {text : List Char} (plain : ∀ c ∈ text, Parser.isWhitespace c = false) :
      text.dropWhile Parser.isWhitespace = text := by
    cases text with
    | nil => rfl
    | cons c text => exact List.dropWhile_cons_of_neg (by simp [plain c])
  rw [Parser.trim, kept plain, kept (by simpa using plain), List.reverse_reverse]

variable {behaviors : List (String × Described)}

/-- The names of an index are read back. -/
theorem loadLibrarySymbols_index (names : ∀ entry ∈ behaviors, IsIdentifier entry.1 ∧
    IsPin entry.2.hash) :
    loadLibrarySymbols (behaviorsIndex behaviors) = behaviors.map Prod.fst := by
  have inside {name : String} (ident : IsIdentifier name) {c : Char} (member : c ∈ name.toList) :
      (c ≠ '\n' ∧ c ≠ '\r') ∧ c ≠ '@' ∧ Parser.isWhitespace c = false :=
    forall_isIdentChar (P := fun c => (c ≠ '\n' ∧ c ≠ '\r') ∧ c ≠ '@' ∧ Parser.isWhitespace c =
      false) (by decide)
      (List.all_eq_true.mp ident.isHashText c member)
  have plain : ∀ line ∈ behaviors.map fun entry => entry.1.toList ++ '@' :: entry.2.hash.toList,
      ∀ c ∈ line, c ≠ '\n' ∧ c ≠ '\r' := by
    intro line member c within
    obtain ⟨entry, listed, rfl⟩ := List.mem_map.mp member
    obtain ⟨ident, pin⟩ := names entry listed
    rcases List.mem_append.mp within with here | here
    · exact (inside ident here).1
    · obtain rfl | here := List.mem_cons.mp here
      · decide
      · exact forall_isIdentChar (P := fun c => c ≠ '\n' ∧ c ≠ '\r') (by decide)
          (isIdentChar_of_isLowerHex (List.all_eq_true.mp pin.2 c here))
  rw [loadLibrarySymbols, behaviorsIndex, String.toList_ofList, sourceLines_linesText plain,
    List.filterMap_map,
    ← List.filterMap_eq_map]
  refine List.filterMap_congr fun entry listed => ?_
  obtain ⟨ident, -⟩ := names entry listed
  have taken : (entry.1.toList ++ '@' :: entry.2.hash.toList).takeWhile (· != '@') =
    entry.1.toList := by
    rw [List.takeWhile_append_of_pos fun c member => by simpa using (inside ident member).2.1]
    simp
  have filled : entry.1.toList ≠ [] := by
    obtain ⟨⟨first, rest, text, -, -⟩, -⟩ := ident
    simp [text]
  simp only [Function.comp, taken, trim_plain fun c member => (inside ident member).2.2, filled,
    if_false,
    String.ofList_toList]

variable (double) in
/-- The blocks of a registry are parsed to what they were written for. -/
theorem registryBehaviors_registry (registrable : ∀ entry ∈ behaviors, entry.2.Registrable) :
    (registryBehaviors double (contractsRegistry behaviors)).map
      (fun read => (read.name, read.contract, read.hash)) =
      behaviors.map fun entry => (entry.2.name, entry.2.contract.withoutMemory, entry.2.hash) := by
  have enough : behaviors.length < (contractsRegistry behaviors).length + 1 := by
    have each : ∀ entry ∈ behaviors, 1 ≤
      (linesText (registryLines entry.2 ++ ["END".toList, []])).length := by
      intro entry _
      simp
    have sum := List.length_le_sum_of_one_le (behaviors.map fun entry =>
      (linesText (registryLines entry.2 ++ ["END".toList, []])).length) fun n member => by
        obtain ⟨entry, listed, rfl⟩ := List.mem_map.mp member
        exact each entry listed
    rw [contractsRegistry, String.length_ofList, List.length_flatMap]
    simp only [List.length_map] at sum
    omega
  have content : (contractsRegistry behaviors).toList = behaviors.flatMap fun entry =>
      linesText (registryLines entry.2 ++ ["END".toList, []]) := String.toList_ofList
  rw [registryBehaviors, content, registryBlocks_registry registrable enough, List.filterMap_map]
  clear enough content
  induction behaviors with
  | nil => rfl
  | cons entry behaviors ih =>
      obtain ⟨here, later⟩ := List.forall_mem_cons.mp registrable
      obtain ⟨read, parsed, name, contract, hash⟩ := parse_block double here
      rw [List.filterMap_cons, Function.comp_apply, parsed, List.map_cons, ih later, name, contract,
        hash, List.map_cons]

/-- A library is linked with the names and the contracts it was built with, except for what its
contracts say about MEMORY, and the graph builder finds its contracts under their hashes. -/
theorem loadLibrary_generated (double : String → BitVec 64) (behaviors : List (String × Described))
    (registrable : ∀ entry ∈ behaviors, IsIdentifier entry.1 ∧ entry.2.Registrable) :
    loadLibrary double (behaviorsIndex behaviors) (contractsRegistry behaviors) =
        { symbols := behaviors.map Prod.fst
          contracts := behaviors.foldl (fun contracts entry =>
            contracts.insert entry.2.name entry.2.contract.withoutMemory) ∅ } ∧
      loadRegistry double (contractsRegistry behaviors) = behaviors.foldl (fun contracts entry =>
        contracts.insert entry.2.name (entry.2.contract.withoutMemory, entry.2.hash)) ∅ := by
  have read := registryBehaviors_registry double fun entry listed => (registrable entry listed).2
  have symbols := loadLibrarySymbols_index fun entry listed =>
    ⟨(registrable entry listed).1, (registrable entry listed).2.hash⟩
  constructor
  · have contracts : loadLibraryContracts double (contractsRegistry behaviors) = _ :=
      (List.foldl_map (f := fun read : Described => (read.name, read.contract, read.hash))
        (g := fun (contracts : Contracts) read => contracts.insert read.1 read.2.1)).symm
    rw [loadLibrary, symbols, contracts, read, List.foldl_map]
  · have contracts : loadRegistry double (contractsRegistry behaviors) = _ :=
      (List.foldl_map (f := fun read : Described => (read.name, read.contract, read.hash))
        (g := fun (contracts : AList fun _ : String => Contract × String) read =>
          contracts.insert read.1 read.2)).symm
    rw [contracts, read, List.foldl_map]

end Entries

/-- A behavior with every clause the registry writes, and with a MEMORY name. -/
def twiceBehavior : Described where
  name := "twice"
  description := some "Twice\nthe value"
  contract := {
    inputs := [⟨"value", .int, 8⟩]
    outputs := [⟨"result", .int, 8⟩]
    requires := { behaviors := [⟨"add", "12345678"⟩, ⟨"scale-it", "00abc123"⟩], memory :=
      ["scratch"] }
    guarantees := [.pure, .writesOutput] }
  hash := "004ec810"
  implementations := []
  composition := none

/-- The behavior `twice` can be registered. -/
theorem registrable_twice : IsIdentifier "twice" ∧ twiceBehavior.Registrable := by
  have ident : IsIdentifier "twice" :=
    ⟨⟨'t', "wice".toList, by decide, by decide, by decide⟩, by decide⟩
  have free : ∀ line ∈ ["Twice".toList, "the value".toList], FreeLine line := by
    have blank : Plain ' ' := plain_of_isSpace rfl
    refine List.forall_mem_cons.mpr ⟨⟨by decide, by decide, ?_⟩,
      List.forall_mem_singleton.mpr ⟨by decide, by decide, ?_⟩⟩
    · exact (readable_word (by decide) : Lexer.Readable ('T' :: "wice".toList) ↔ _).mpr
        (by rw [Lexer.Readable.eq_def]; trivial)
    · refine (readable_word (by decide) : Lexer.Readable ('t' :: "he value".toList) ↔ _).mpr ?_
      refine (readable_plain blank : Lexer.Readable (' ' :: "value".toList) ↔ _).mpr ?_
      exact (readable_word (by decide) : Lexer.Readable ('v' :: "alue".toList) ↔ _).mpr
        (by rw [Lexer.Readable.eq_def]; trivial)
  refine ⟨ident, ident, ⟨by decide, by decide⟩, ⟨?_, ?_, ?_, ?_, ?_⟩, ?_⟩
  · exact List.forall_mem_singleton.mpr
      ⟨⟨⟨'v', "alue".toList, by decide, by decide, by decide⟩, by decide⟩, by decide⟩
  · exact List.forall_mem_singleton.mpr
      ⟨⟨⟨'r', "esult".toList, by decide, by decide, by decide⟩, by decide⟩, by decide⟩
  · exact List.forall_mem_cons.mpr
      ⟨⟨⟨'a', "dd".toList, by decide, by decide, by decide⟩, by decide⟩,
      List.forall_mem_singleton.mpr
        ⟨⟨'s', "cale-it".toList, by decide, by decide, by decide⟩, by decide⟩⟩
  · exact List.forall_mem_cons.mpr ⟨⟨by decide, by decide⟩,
      List.forall_mem_singleton.mpr ⟨by decide, by decide⟩⟩
  · exact List.isChain_cons_cons.mpr ⟨by decide, List.isChain_singleton _⟩
  · intro text some_
    obtain rfl := Option.some.inj some_
    exact free

/-- A registry of one behavior is read back. -/
theorem loadLibrary_generated_twice :
    loadLibrary (fun _ => 0) (behaviorsIndex [("twice", twiceBehavior)])
      (contractsRegistry [("twice", twiceBehavior)]) =
        { symbols := ["twice"]
          contracts := (∅ : Contracts).insert "twice" twiceBehavior.contract.withoutMemory } ∧
      loadRegistry (fun _ => 0) (contractsRegistry [("twice", twiceBehavior)]) =
        (∅ : AList fun _ : String => Contract × String).insert "twice"
          (twiceBehavior.contract.withoutMemory, "004ec810") :=
  loadLibrary_generated (fun _ => 0) [("twice", twiceBehavior)]
    (List.forall_mem_singleton.mpr registrable_twice)

end Sigil
