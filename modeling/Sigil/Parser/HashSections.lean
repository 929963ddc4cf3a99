import Sigil.Parser.Columns
import Sigil.Parser.Pins

/-!
# HASH sections

The parser reads the same sections when the value of the last hash is another.
-/

namespace Sigil.Parser

open Flow

section Values

variable {double : String → BitVec 64} {front value value' rest rest' s t m : List Token}
  {mark : Token}
  {read : Section} {before after : List Section} {source source' hash text : String}
    {behavior : Described}

/-- A hash is put together from numbers and names. -/
theorem used_hash (returned : Returns expectHexString s text m) :
    ∃ used, s = used ++ m ∧ ∀ token ∈ used, isValue token.kind = true := by
  obtain ⟨chars, _, found, last⟩ := returns_bind.mp returned
  obtain ⟨-, rfl⟩ := returns_pure.mp last
  obtain ⟨_, _, looked, returned⟩ := returns_bind.mp found
  obtain ⟨rfl, here⟩ := returns_peekKind.mp looked
  rw [here] at returned
  cases s with
  | nil => exact absurd returned not_returns_fail
  | cons token s =>
      rw [peek_cons] at returned
      split at returned
      next name same =>
        obtain ⟨_, _, passed, returned⟩ := returns_bind.mp returned
        obtain ⟨-, rfl⟩ := returns_pure.mp returned
        obtain rfl := returns_advance.mp passed
        rw [next_cons (by simp [same])]
        exact ⟨[token], rfl, by simp [same, isValue]⟩
      next n same =>
        obtain ⟨_, _, passed, returned⟩ := returns_bind.mp returned
        obtain rfl := returns_advance.mp passed
        rw [next_cons (by simp [same])] at returned
        obtain ⟨_, _, looked, returned⟩ := returns_bind.mp returned
        obtain ⟨rfl, here⟩ := returns_peekKind.mp looked
        rw [here] at returned
        split at returned
        next name same' =>
          split at returned
          · obtain ⟨_, _, passed, returned⟩ := returns_bind.mp returned
            obtain ⟨-, rfl⟩ := returns_pure.mp returned
            obtain rfl := returns_advance.mp passed
            cases s with
            | nil => cases same'
            | cons token' s =>
                rw [peek_cons] at same'
                rw [next_cons (by simp [same'])]
                exact ⟨[token, token'], rfl, by simp [same, same', isValue]⟩
          · obtain ⟨-, rfl⟩ := returns_pure.mp returned
            exact ⟨[token], rfl, by simp [same, isValue]⟩
        next =>
          obtain ⟨-, rfl⟩ := returns_pure.mp returned
          exact ⟨[token], rfl, by simp [same, isValue]⟩
      next => exact absurd returned not_returns_fail

/-- At a HASH token the parser reads a value. -/
theorem returns_section_hash (isMark : mark.kind = .keyword .hash) :
    Returns (parseSection double) (mark :: s) read t ↔
    ∃ hash, Returns expectHexString s hash t ∧ read = .hash hash := by
  have visible : ((mark :: s).dropWhile fun token => isBlank token.kind) = mark :: s :=
    List.dropWhile_cons_of_neg (by simp [isMark, isBlank])
  have inside : mark.kind ≠ .eof := by simp [isMark]
  unfold parseSection
  simp only [returns_bind, returns_skipNewlines, returns_peekKind, visible]
  constructor
  · rintro ⟨_, _, rfl, _, _, ⟨rfl, rfl⟩, returned⟩
    rw [peek_cons, isMark] at returned
    obtain ⟨_, _, passed, returned⟩ := returns_bind.mp returned
    obtain rfl := returns_advance.mp passed
    rw [next_cons inside] at returned
    obtain ⟨hash, _, found, last⟩ := returns_bind.mp returned
    obtain ⟨rfl, rfl⟩ := returns_pure.mp last
    exact ⟨hash, found, rfl⟩
  · rintro ⟨hash, found, rfl⟩
    refine ⟨(), _, rfl, _, _, ⟨rfl, rfl⟩, ?_⟩
    rw [peek_cons, isMark]
    refine returns_bind.mpr ⟨(), s, returns_advance.mpr (next_cons inside).symm, ?_⟩
    exact returns_bind.mpr ⟨hash, t, found, returns_pure.mpr ⟨rfl, rfl⟩⟩

/-- What is read as the value of a hash are numbers and names. -/
theorem values_of_section (isMark : mark.kind = .keyword .hash)
    (returned : Returns (parseSection double) (mark :: (value ++ rest)) read rest) :
    ∀ token ∈ value, isValue token.kind = true := by
  obtain ⟨hash, found, -⟩ := (returns_section_hash isMark).mp returned
  obtain ⟨used, parts, values⟩ := used_hash found
  rw [List.append_cancel_right parts]
  exact values

/-- The value of a pin is read back where no other name follows. -/
theorem returns_section_pin (isMark : mark.kind = .keyword .hash) (pin : IsPin hash)
    (spelled : value.map Token.kind = pinKinds hash.toList)
    (apart : ∀ name, (peek rest).kind ≠ .identifier name) :
    Returns (parseSection double) (mark :: (value ++ rest)) (.hash hash) rest := by
  refine (returns_section_hash isMark).mpr
    ⟨hash, yields_expectHexString pin value rest spelled ?_, rfl⟩
  rintro - ⟨name, same, -⟩
  exact apart name same

/-- No section begins with a name. -/
theorem not_identifier_of_sections {all : List Section} {n : Nat}
    (returned : Returns (parseSections double n) s all t) (name : String) :
    (peek s).kind ≠ .identifier name := by
  intro same
  cases n with
  | zero => exact absurd returned not_returns_fail
  | succ n =>
      obtain ⟨first, m, first_, -⟩ := returns_parseSections_succ.mp returned
      cases s with
      | nil => cases same
      | cons token s =>
          have visible : ((token :: s).dropWhile fun token => isBlank token.kind) = token :: s :=
            List.dropWhile_cons_of_neg (by simp [show token.kind = _ from same, isBlank])
          unfold parseSection at first_
          simp only [returns_bind, returns_skipNewlines, returns_peekKind, visible] at first_
          obtain ⟨_, _, rfl, _, _, ⟨rfl, rfl⟩, first_⟩ := first_
          rw [same] at first_
          exact absurd first_ not_returns_fail

/-- Only the lines of descriptions depend on the source. -/
theorem foldl_apply_congr {sections : List Section}
    (same : ∀ first last, .description first last ∈ sections →
      descriptionText source first last = descriptionText source' first last) :
    sections.foldl (Section.apply source) behavior =
      sections.foldl (Section.apply source') behavior := by
  refine List.foldl_ext _ _ _ fun behavior section_ member => ?_
  cases section_ with
  | description first last => simp only [Section.apply, same first last member]
  | _ => rfl

/-- The sections behind the last HASH leave the hash as it is. -/
theorem foldl_apply_hash {sections : List Section}
    (others : ∀ section_ ∈ sections, section_.isHash = false) :
    sections.foldl (Section.apply source) { behavior with hash := hash } =
      { sections.foldl (Section.apply source) behavior with hash := hash } := by
  induction sections generalizing behavior with
  | nil => rfl
  | cons first rest ih =>
      obtain ⟨other, others⟩ := List.forall_mem_cons.mp others
      rw [List.foldl_cons, List.foldl_cons, ← ih others]
      cases first with
      | hash text => cases other
      | _ => rfl

/-- The last HASH section decides about the hash, and about nothing else. -/
theorem foldl_apply_last (others : ∀ section_ ∈ after, section_.isHash = false) :
    (before ++ .hash hash :: after).foldl (Section.apply source) behavior =
      { (before ++ .hash text :: after).foldl (Section.apply source) behavior with hash :=
        hash } := by
  have fold (hash : String) : (before ++ .hash hash :: after).foldl (Section.apply source)
    behavior =
      { after.foldl (Section.apply source)
        (before.foldl (Section.apply source) behavior) with hash := hash } := by
    rw [List.foldl_append, List.foldl_cons]
    exact foldl_apply_hash others
  rw [fold hash, fold text]

/-- The HASH section at `stop`, whose value ends where `behind` begins, is the last one; the
sections in front of it and behind it. -/
structure HashSection (double : String → BitVec 64) (tokens stop behind : List Token)
    (before : List Section) (hash : String) (after : List Section) : Prop where
  reads : ∃ name start unread, Returns parseName tokens name start ∧
    Arrives double stop start before ∧
    Returns (parseSections double (sectionsLeft start)) start (before ++ .hash hash :: after) unread
  value : Returns (parseSection double) stop (.hash hash) behind
  last : ∀ section_ ∈ after, section_.isHash = false

/-- No value is a keyword. -/
theorem countP_values (values : ∀ token ∈ value, isValue token.kind = true) :
    value.countP (fun token => isKeyword token.kind) = 0 := by
  rw [List.countP_eq_zero]
  intro token member
  have known := values token member
  cases kind : token.kind <;> simp_all [isValue, isKeyword]

/-- The tokens of a pin are values. -/
theorem values_pin (spelled : value.map Token.kind = pinKinds hash.toList) :
    ∀ token ∈ value, isValue token.kind = true :=
  fun _ member => value_of_pinKinds _ (spelled ▸ List.mem_map_of_mem member)

/-- In other columns there are as many keywords. -/
theorem countP_sameLines (same : SameLines s t) :
    s.countP (fun token => isKeyword token.kind) = t.countP fun token => isKeyword token.kind := by
  induction same with
  | nil => rfl
  | cons level _ ih => rw [List.countP_cons, List.countP_cons, ih, level.kind]

/-- The same sections are read when the value of the hash is another, and what stands behind it
stands in other columns. -/
theorem HashSection.rewritten
    (read : HashSection double (front ++ mark :: (value ++ rest)) (mark :: (value ++ rest)) rest
      before text after)
    (isMark : mark.kind = .keyword .hash) (ends : LineEnd front) (pin : IsPin hash)
    (spelled : value'.map Token.kind = pinKinds hash.toList) (same : SameLines rest rest') :
    ∃ name, (∀ source, ∃ unread, Returns (parseBehavior double source)
      (front ++ mark :: (value ++ rest))
        ((before ++ .hash text :: after).foldl (Section.apply source) (.new name)) unread) ∧
      ∀ source, ∃ unread, Returns (parseBehavior double source) (front ++ mark :: (value' ++ rest'))
        ((before ++ .hash hash :: after).foldl (Section.apply source) (.new name)) unread := by
  obtain ⟨name, start, unread, named, arrives, sections⟩ := read.reads
  have values : ∀ token ∈ value, isValue token.kind = true := values_of_section isMark read.value
  have header : Stops front.length parseName parseName := inferInstance
  obtain ⟨used, left, rfl, -, rfl, named'⟩ := header.agree trivial le_rfl isMark named
  obtain ⟨steps, total, later⟩ := arrives.behind sections
  have whole {tokens start unread : List Token} {all : List Section}
    (named : Returns parseName tokens name start)
      (sections : Returns (parseSections double (sectionsLeft start)) start all unread)
        (source : String) :
      ∃ unread, Returns (parseBehavior double source) tokens
        (all.foldl (Section.apply source) (.new name)) unread :=
    ⟨unread, returns_bind.mpr ⟨name, start, named,
      returns_bind.mpr ⟨_, _, returns_get.mpr ⟨rfl, rfl⟩,
      returns_bind.mpr ⟨all, unread, sections, returns_pure.mpr ⟨rfl, rfl⟩⟩⟩⟩⟩
  cases steps with
  | zero => exact absurd later not_returns_fail
  | succ steps =>
      obtain ⟨first, m, found, later⟩ := returns_parseSections_succ.mp later
      obtain ⟨rfl, rfl⟩ := read.value.unique found
      obtain ⟨after', later, parts⟩ : ∃ rest',
        Returns (parseSections double steps) rest rest' unread ∧
        Section.hash text :: after = .hash text :: rest' := later
      obtain rfl := (List.cons.inj parts).2
      obtain ⟨unread', -, later'⟩ := (columnless_parseSections steps).returns same later
      have here : Returns (parseSections double (steps + 1)) (mark :: (value' ++ rest'))
        (.hash hash :: after) unread' :=
        returns_parseSections_succ.mpr ⟨.hash hash, _, returns_section_pin isMark pin spelled
          (not_identifier_of_sections later'), after, later', rfl⟩
      have count : sectionsLeft (left ++ mark :: (value' ++ rest')) =
        steps + 1 + before.length := by
        rw [← total]
        simp only [sectionsLeft, List.countP_append, List.countP_cons, countP_values values,
          countP_values (values_pin spelled), countP_sameLines same]
      refine ⟨name, whole named sections, whole (named' _) (?_ : Returns _ _ _ unread')⟩
      rw [count]
      exact arrives.run isMark ends.behind here

end Values

end Sigil.Parser
