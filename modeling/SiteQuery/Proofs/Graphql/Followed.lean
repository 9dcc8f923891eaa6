import SiteQuery.Proofs.Graphql.Steady

/-!
Parts of documents before another line.

An optional part, or one more of a row, may be read out of the text that follows. That is not so where the next character
tells that there is none: every part starts with characters (`Begins`) that cannot follow where it is optional. A part
is steady before such a follower (`Settled`), and so are the parts that are made of such parts.
-/

namespace SiteQuery.Graphql

open Grammar

/-- The next character, after blanks, is one of these. -/
def Follows (next : Char → Bool) (input : List Char) : Prop := ∃ c rest, skipBlanks input = c :: rest ∧ next c = true

/-- Where the part matches before such a text, it starts with one of these characters, or they follow. -/
def Begins (first : Char → Bool) (follow : List Char → Prop) (part : Rule.Part) : Prop :=
  ∀ input trees rest, Accepts part input trees rest → follow rest → Follows first input

/-- Wherever it stands. -/
def Anywhere (_ : List Char) : Prop := True

/-- In texts up to this size, a match of the part before such a text is the same one if more lines follow. -/
def Settled (others : List Char) (size : Nat) (follow : List Char → Prop) (part : Rule.Part) : Prop :=
  ∀ input trees rest, input.length ≤ size → Accepts part input trees rest → follow rest → SteadyAt others part input

variable {others input middle rest : List Char} {trees : List (Grammar.SyntaxTree Rule)} {first next : Char → Bool}
  {follow : List Char → Prop} {part item : Rule.Part} {parts : List Rule.Part} {rule : Rule} {size : Nat}

section Followers

theorem skipBlanks_skipBlanks (input : List Char) : skipBlanks (skipBlanks input) = skipBlanks input :=
  isBlank_blank.after_after input

theorem length_skipBlanks_le (input : List Char) : (skipBlanks input).length ≤ input.length :=
  (isBlank_blank.suffix input).length_le

theorem follows_skipBlanks : Follows next (skipBlanks input) ↔ Follows next input := by
  simp only [Follows, skipBlanks_skipBlanks]

theorem Follows.append (follows : Follows next input) (tail : List Char) : Follows next (input ++ tail) := by
  obtain ⟨c, rest, isRest, isNext⟩ := follows
  refine ⟨c, rest ++ tail, ?_, isNext⟩
  rw [skipBlanks_append (by simp [isRest]), isRest, List.cons_append]

theorem Follows.mono {wider : Char → Bool} (follows : Follows next input) (within : ∀ c, next c = true → wider c = true) :
    Follows wider input := by
  obtain ⟨c, rest, isRest, isNext⟩ := follows
  exact ⟨c, rest, isRest, within c isNext⟩

theorem Follows.notEmpty (follows : Follows next input) : skipBlanks input ≠ [] := by
  obtain ⟨c, rest, isRest, _⟩ := follows
  simp [isRest]

theorem Follows.apart (follows : Follows next input) (other : Follows first input) :
    ∃ c, next c = true ∧ first c = true := by
  obtain ⟨c, rest, isRest, isNext⟩ := follows
  obtain ⟨d, others, isOther, isFirst⟩ := other
  obtain ⟨rfl, _⟩ := List.cons.inj (isRest.symm.trans isOther)
  exact ⟨c, isNext, isFirst⟩

end Followers

section Starts

theorem Begins.mono {wider : Char → Bool} (begins : Begins first follow part)
    (within : ∀ c, first c = true → wider c = true) : Begins wider follow part :=
  fun input trees rest isMatch isFollow => (begins input trees rest isMatch isFollow).mono within

/-- What the part starts with does not hang on what follows. -/
theorem Begins.before (begins : Begins first Anywhere part) : Begins first follow part :=
  fun input trees rest isMatch _ => begins input trees rest isMatch trivial

theorem follows_cons {c : Char} (notBlank : Rule.isBlank c = false) (notComment : c ≠ '#') (isNext : next c = true) :
    Follows next (c :: rest) :=
  ⟨c, rest, skipBlanks_solid notBlank notComment, isNext⟩

theorem begins_word {c : Char} {text : List Char} (notBlank : Rule.isBlank c = false) (notComment : c ≠ '#') :
    Begins (· == c) follow (.word (c :: text)) := by
  intro input trees rest isMatch _
  rw [accepts_word isMatch]
  exact follows_cons notBlank notComment (beq_self_eq_true c)

theorem Begins.call (ofBody : Begins first follow (Rule.body rule)) : Begins first follow (.call rule) := by
  intro input trees rest isMatch isFollow
  obtain ⟨parts, isBody, _⟩ := accepts_call.mp isMatch
  exact ofBody input parts rest isBody isFollow

theorem Begins.both {second : Rule.Part} (begins : Begins first Anywhere part) :
    Begins first follow (.both part second) := by
  intro input trees rest isMatch _
  obtain ⟨before, middle, after, isFirst, _⟩ := Match.next_eq_some.mp isMatch
  exact begins input before middle isFirst trivial

theorem Begins.either {second : Rule.Part} {others : Char → Bool} (ofFirst : Begins first follow part)
    (ofSecond : Begins others follow second) : Begins (fun c => first c || others c) follow (.either part second) := by
  intro input trees rest isMatch isFollow
  rcases Option.or_eq_some_iff.mp isMatch with isFirst | ⟨_, isSecond⟩
  · exact (ofFirst input trees rest isFirst isFollow).mono fun c isOne => by simp [isOne]
  · exact (ofSecond input trees rest isSecond isFollow).mono fun c isOne => by simp [isOne]

theorem begins_empty : Begins next (Follows next) .empty := by
  intro input trees rest isMatch follows
  cases isMatch
  exact follows

theorem Begins.option (begins : Begins first (Follows next) part) :
    Begins (fun c => first c || next c) (Follows next) (.option part) :=
  begins.either begins_empty

theorem begins_one {accepts : Char → Bool} (solid : ∀ c, accepts c = true → Rule.isBlank c = false ∧ c ≠ '#') :
    Begins accepts follow (.one accepts) := by
  intro input trees rest isMatch _
  obtain ⟨c, rfl, accepted⟩ := accepts_one isMatch
  obtain ⟨notBlank, notComment⟩ := solid c accepted
  exact follows_cons notBlank notComment accepted

theorem begins_name : Begins Rule.isNameStart follow (.call .name) :=
  .call (.both (.call (begins_one fun c isStart => solid_of_isNameRest (by simp [Rule.isNameRest, isStart]))))

end Starts

section Sequences

theorem accepts_blank : Accepts Rule.blank input trees rest ↔ trees = [] ∧ rest = skipBlanks input := by
  constructor
  · intro isMatch
    exact ⟨Expression.eq_nil_of_isPlain rfl isMatch, (afterBlank_eq isMatch).symm⟩
  · rintro ⟨rfl, rfl⟩
    exact isBlank_blank.matches_after input

theorem accepts_spaced_cons {second : Rule.Part} : Accepts (Rule.spaced (part :: second :: parts)) input trees rest ↔
    ∃ before middle after, Accepts part input before middle ∧
      Accepts (Rule.spaced (second :: parts)) (skipBlanks middle) after rest ∧ trees = before ++ after := by
  constructor
  · intro isMatch
    obtain ⟨before, middle, others, isFirst, isMore, rfl⟩ := Match.next_eq_some.mp isMatch
    obtain ⟨blanks, place, after, isBlank, isRest, rfl⟩ := Match.next_eq_some.mp isMore
    obtain ⟨rfl, rfl⟩ := accepts_blank.mp isBlank
    exact ⟨before, middle, after, isFirst, isRest, rfl⟩
  · rintro ⟨before, middle, after, isFirst, isRest, rfl⟩
    exact Expression.Matches.both isFirst ((isBlank_blank.matches_after middle).both isRest)

theorem steadyAt_blank (more : skipBlanks input ≠ []) : SteadyAt others Rule.blank input := by
  refine .of_matches (isBlank_blank.matches_after input) (accepts_blank.mpr ⟨rfl, ?_⟩)
  exact (skipBlanks_append more).symm

/-- A sequence, one part after another. -/
theorem SteadyAt.spaced_cons {second : Rule.Part} (isFirst : Accepts part input trees middle)
    (ofFirst : SteadyAt others part input) (more : skipBlanks middle ≠ [])
    (ofRest : SteadyAt others (Rule.spaced (second :: parts)) (skipBlanks middle)) :
    SteadyAt others (Rule.spaced (part :: second :: parts)) input :=
  ofFirst.both_of_matches isFirst ((steadyAt_blank more).both_of_matches (isBlank_blank.matches_after middle) ofRest)

theorem Begins.spaced_cons (begins : Begins first Anywhere part) : Begins first follow (Rule.spaced (part :: parts)) := by
  cases parts with
  | nil => exact begins.before
  | cons => exact begins.both

theorem Begins.spaced_option {second : Rule.Part} {after : Char → Bool} (begins : Begins first Anywhere part)
    (ofRest : Begins after follow (Rule.spaced (second :: parts))) :
    Begins (fun c => first c || after c) follow (Rule.spaced (.option part :: second :: parts)) := by
  intro input trees rest isMatch isFollow
  obtain ⟨before, middle, others, isFirst, isRest, _⟩ := accepts_spaced_cons.mp isMatch
  have ofMiddle := follows_skipBlanks.mp (ofRest _ _ _ isRest isFollow)
  rcases Option.or_eq_some_iff.mp isFirst with isPart | ⟨_, isEmpty⟩
  · exact (begins _ _ _ isPart trivial).mono fun c isOne => by simp [isOne]
  · cases isEmpty
    exact ofMiddle.mono fun c isOne => by simp [isOne]

end Sequences

section Settling

theorem Settled.mono {wider : List Char → Prop} (settled : Settled others size wider part)
    (within : ∀ rest, follow rest → wider rest) : Settled others size follow part :=
  fun input trees rest isSmall isMatch isFollow => settled input trees rest isSmall isMatch (within rest isFollow)

theorem Settled.before (settled : Settled others size Anywhere part) : Settled others size follow part :=
  settled.mono fun _ _ => trivial

theorem settled_of_steady (steady : Steady others part) : Settled others size follow part :=
  fun input _ _ _ _ _ => steady input

theorem Settled.call (ofBody : Settled others size follow (Rule.body rule)) : Settled others size follow (.call rule) := by
  intro input trees rest isSmall isMatch isFollow
  obtain ⟨parts, isBody, _⟩ := accepts_call.mp isMatch
  exact SteadyAt.call (ofBody input parts rest isSmall isBody isFollow)

theorem refuses_of_follows (begins : Begins first Anywhere part) (follows : Follows next input)
    (apart : ∀ c, next c = true → first c = false) : Refuses part input := by
  refine .of_not_matches fun trees rest isMatch => ?_
  obtain ⟨c, isNext, isFirst⟩ := follows.apart (begins input trees rest isMatch trivial)
  rw [apart c isNext] at isFirst
  cases isFirst

/-- The part is refused by the next character. -/
theorem steadyAt_of_follows (begins : Begins first Anywhere part) (follows : Follows next input)
    (apart : ∀ c, next c = true → first c = false) : SteadyAt others part input :=
  .of_refuses (refuses_of_follows begins follows apart) (refuses_of_follows begins (follows.append _) apart)

theorem Settled.option (settled : Settled others size (Follows next) part) (begins : Begins first Anywhere part)
    (apart : ∀ c, next c = true → first c = false) : Settled others size (Follows next) (.option part) := by
  intro input trees rest isSmall isMatch follows
  refine .either ?_ fun _ => Expression.Steady.empty input
  rcases Option.or_eq_some_iff.mp isMatch with isPart | ⟨_, isEmpty⟩
  · exact settled input trees rest isSmall isPart follows
  · cases isEmpty
    exact steadyAt_of_follows begins follows apart

theorem Settled.either {second : Rule.Part} {after : Char → Bool} (ofFirst : Settled others size follow part)
    (ofSecond : Settled others size follow second) (begins : Begins first Anywhere part)
    (beginsSecond : Begins after follow second) (apart : ∀ c, after c = true → first c = false) :
    Settled others size follow (.either part second) := by
  intro input trees rest isSmall isMatch isFollow
  rcases Option.or_eq_some_iff.mp isMatch with isFirst | ⟨refused, isSecond⟩
  · refine .either (ofFirst input trees rest isSmall isFirst isFollow) fun refused => ?_
    exact absurd isFirst refused.not_matches
  · refine .either ?_ fun _ => ofSecond input trees rest isSmall isSecond isFollow
    exact steadyAt_of_follows begins (beginsSecond input trees rest isSecond isFollow) apart

theorem Settled.spaced_cons {second : Rule.Part} (ofFirst : Settled others size (Follows next) part)
    (begins : Begins next follow (Rule.spaced (second :: parts)))
    (ofRest : Settled others size follow (Rule.spaced (second :: parts))) :
    Settled others size follow (Rule.spaced (part :: second :: parts)) := by
  intro input trees rest isSmall isMatch isFollow
  obtain ⟨before, middle, after, isFirst, isRest, _⟩ := accepts_spaced_cons.mp isMatch
  have follows := begins _ _ _ isRest isFollow
  have shorter := (accepts_suffix isFirst).length_le
  have still := length_skipBlanks_le middle
  have ofMiddle := follows_skipBlanks.mp follows
  refine SteadyAt.spaced_cons isFirst (ofFirst _ _ _ isSmall isFirst ofMiddle) ofMiddle.notEmpty ?_
  exact ofRest _ _ _ (by omega) isRest isFollow

theorem skipBlanks_notEmpty_of_accepts (strict : part.mayBeEmpty Rule.isOptional = false)
    (isMatch : Accepts part (skipBlanks input) trees rest) : skipBlanks input ≠ [] := by
  have less := (Expression.takes_of_match? grammar_takes isMatch).2 strict
  exact List.ne_nil_of_length_pos (by omega)

theorem steady_bracket {c : Char} (notBlank : Rule.isBlank c = false) : Steady others (.word [c]) := by
  refine .word fun isLineEnd => ?_
  rw [← List.mem_singleton.mp isLineEnd] at notBlank
  cases notBlank

/-- Between brackets nothing hangs on what follows. -/
theorem Settled.within {opening closing : String} {c d : Char} (ofItem : Settled others size (Follows (· == d)) item)
    (isOpening : opening.toList = [c]) (isClosing : closing.toList = [d]) (openingSolid : Rule.isBlank c = false)
    (closingSolid : Rule.isBlank d = false) (notComment : d ≠ '#') :
    Settled others (size + 1) Anywhere (Rule.within opening item closing) := by
  intro input trees rest isSmall isMatch _
  simp only [Rule.within, Rule.word, Expression.keyword, isOpening, isClosing] at isMatch ⊢
  obtain ⟨before, middle, after, isOpen, isRest, _⟩ := accepts_spaced_cons.mp isMatch
  obtain ⟨inner, stop, last, isItem, isClose, _⟩ := accepts_spaced_cons.mp isRest
  have begins : Begins (· == d) Anywhere (.word [d]) := begins_word closingSolid notComment
  have atStop := follows_skipBlanks.mp (begins _ _ _ isClose trivial)
  have shorter := (Expression.takes_of_match? grammar_takes isOpen).2 rfl
  have still := length_skipBlanks_le middle
  have ofInner := ofItem _ _ _ (by omega) isItem atStop
  have ofClosing : SteadyAt others (Rule.spaced [.word [d]]) (skipBlanks stop) := steady_bracket closingSolid _
  have ofRest := SteadyAt.spaced_cons isItem ofInner atStop.notEmpty ofClosing
  have notEmpty := skipBlanks_notEmpty_of_accepts (by simp [Rule.spaced, Expression.spaced, Expression.mayBeEmpty]) isRest
  exact SteadyAt.spaced_cons isOpen (steady_bracket openingSolid input) notEmpty ofRest

/-- Both a further item and what comes behind the row may follow an item. -/
theorem settled_many (ofItem : Settled others size (Follows fun c => first c || next c) item)
    (begins : Begins first Anywhere item) (strict : item.mayBeEmpty Rule.isOptional = false)
    (apart : ∀ c, next c = true → first c = false) (isSmall : input.length ≤ size)
    (isMatch : Accepts (.many (.both Rule.blank item)) input trees rest) (follows : Follows next rest) :
    SteadyAt others (.many (.both Rule.blank item)) input ∧ Follows (fun c => first c || next c) input := by
  have spacedStrict : (Expression.both Rule.blank item).IsStrict grammar.match? :=
    isStrict_of_mayBeEmpty (by simp [Expression.mayBeEmpty, strict])
  have along : input.length ≤ size → Accepts (.many (.both Rule.blank item)) (input ++ '\n' :: others)
      (SyntaxTree.shiftAll ('\n' :: others).length trees) (rest ++ '\n' :: others) ∧
        Follows (fun c => first c || next c) input := by
    refine isMatch.many_rec (motive := fun input trees => input.length ≤ size →
      Accepts (.many (.both Rule.blank item)) (input ++ '\n' :: others)
        (SyntaxTree.shiftAll ('\n' :: others).length trees) (rest ++ '\n' :: others) ∧
          Follows (fun c => first c || next c) input) spacedStrict ?nil ?cons
    case nil =>
      intro _ _
      have still := follows_skipBlanks.mpr (follows.append ('\n' :: others))
      have refused := refuses_of_follows begins still apart
      refine ⟨.many_nil (.both_right (isBlank_blank.matches_after _) refused), ?_⟩
      exact follows.mono fun c isNext => by simp [isNext]
    case cons =>
      intro place before middle more isFirst _ ih isSmall
      have less := spacedStrict _ _ _ isFirst
      obtain ⟨isMore, atMiddle⟩ := ih (by omega)
      obtain ⟨blanks, start, after, isBlank, isItem, _⟩ := Match.next_eq_some.mp isFirst
      obtain ⟨rfl, rfl⟩ := accepts_blank.mp isBlank
      have shorter := length_skipBlanks_le place
      have atPlace := follows_skipBlanks.mp (begins _ _ _ isItem trivial)
      have ofItem := ofItem _ _ _ (by omega) isItem atMiddle
      have steady := (steadyAt_blank atPlace.notEmpty).both_of_matches isBlank ofItem
      have stillLess : (middle ++ '\n' :: others).length < (place ++ '\n' :: others).length := by
        simp only [List.length_append]
        omega
      refine ⟨?_, atPlace.mono fun c isOne => by simp [isOne]⟩
      rw [SyntaxTree.shiftAll_append]
      exact (steady.matches isFirst).many_cons stillLess isMore
  obtain ⟨still, atInput⟩ := along isSmall
  exact ⟨.of_matches isMatch still, atInput⟩

theorem Begins.manySpaced (begins : Begins first Anywhere item) :
    Begins (fun c => first c || next c) (Follows next) (Rule.manySpaced item) :=
  begins.both.option

theorem Settled.manySpaced (ofItem : Settled others size (Follows fun c => first c || next c) item)
    (begins : Begins first Anywhere item) (strict : item.mayBeEmpty Rule.isOptional = false)
    (apart : ∀ c, next c = true → first c = false) : Settled others size (Follows next) (Rule.manySpaced item) := by
  intro input trees rest isSmall isMatch follows
  refine .either ?_ fun _ => Expression.Steady.empty input
  rcases Option.or_eq_some_iff.mp isMatch with isSome | ⟨_, isEmpty⟩
  · obtain ⟨before, middle, after, isFirst, isMany, _⟩ := Match.next_eq_some.mp isSome
    have shorter := (accepts_suffix isFirst).length_le
    obtain ⟨ofMany, atMiddle⟩ := settled_many ofItem begins strict apart (by omega) isMany follows
    exact (ofItem _ _ _ isSmall isFirst atMiddle).both_of_matches isFirst ofMany
  · cases isEmpty
    exact steadyAt_of_follows begins.both follows apart

theorem Settled.someSpaced (ofItem : Settled others size (Follows fun c => first c || next c) item)
    (begins : Begins first Anywhere item) (strict : item.mayBeEmpty Rule.isOptional = false)
    (apart : ∀ c, next c = true → first c = false) : Settled others size (Follows next) (Rule.someSpaced item) :=
  ofItem.spaced_cons begins.manySpaced (.manySpaced ofItem begins strict apart)

end Settling

end SiteQuery.Graphql
