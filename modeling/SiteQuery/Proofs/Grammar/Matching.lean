import SiteQuery.Grammar.Run

/-!
Matches of a grammar as a function of the text alone.

`Grammar.match?` forgets how far a run has looked and in which mode. In a ranked grammar no call is ever cut off,
so a rule matches where its expression does: `Grammar.match?_eq`.
-/

namespace SiteQuery.Grammar

variable {Rule : Type}

/-- The trees of a match and the text after it. -/
abbrev Match (Rule : Type) := Option (List (SyntaxTree Rule) × List Char)

def Outcome.match? (outcome : Outcome Rule) : Match Rule :=
  outcome.value.map fun (trees, cursor) => (trees, cursor.rest)

/-- A second match after the first. -/
def Match.next (first : Match Rule) (second : List Char → Match Rule) : Match Rule :=
  match first with
  | none => none
  | some (trees, rest) => (second rest).map fun (others, last) => (trees ++ others, last)

/-- All that `step` matches in a row; ends where a match takes nothing. -/
def repeatedMatch (step : List Char → Match Rule) (input : List Char) : Match Rule :=
  match step input with
  | none => some ([], input)
  | some (trees, rest) =>
    if rest.length < input.length then
      (repeatedMatch step rest).map fun (others, last) => (trees ++ others, last)
    else some (trees, rest)
termination_by input.length

namespace Expression

def match? (call : Rule → List Char → Match Rule) : Expression Rule → List Char → Match Rule
  | .empty, input => some ([], input)
  | .ending, input => if input = [] then some ([], input) else none
  | .one _, [] => none
  | .one accepts, c :: rest => if accepts c then some ([], rest) else none
  | .word text, input => if text.isPrefixOf input then some ([], input.drop text.length) else none
  | .call rule, input => call rule input
  | .both first second, input => (first.match? call input).next (second.match? call)
  | .either first second, input => (first.match? call input).or (second.match? call input)
  | .many item, input => repeatedMatch (item.match? call) input
  | .absent item, input => if (item.match? call input).isNone then some ([], input) else none

section Parts

variable {call : Rule → List Char → Match Rule} {first second item : Expression Rule} {input : List Char}

theorem match?_ending : (ending : Expression Rule).match? call input = if input = [] then some ([], input) else none :=
  rfl

theorem match?_one_nil {accepts : Char → Bool} : (one accepts : Expression Rule).match? call [] = none := rfl

theorem match?_one_cons {accepts : Char → Bool} {c : Char} :
    (one accepts : Expression Rule).match? call (c :: input) = if accepts c then some ([], input) else none := rfl

theorem match?_word {text : List Char} : (word text : Expression Rule).match? call input =
    if text.isPrefixOf input then some ([], input.drop text.length) else none := rfl

theorem match?_call {rule : Rule} : (Expression.call rule).match? call input = call rule input := rfl

theorem match?_both :
    (both first second).match? call input = (first.match? call input).next (second.match? call) := rfl

theorem match?_either :
    (either first second).match? call input = (first.match? call input).or (second.match? call input) := rfl

theorem match?_many : (many item).match? call input = repeatedMatch (item.match? call) input := rfl

theorem match?_absent :
    (absent item).match? call input = if (item.match? call input).isNone then some ([], input) else none := rfl

end Parts

end Expression

theorem skip?_ofList (text input : List Char) :
    (Cursor.ofList input).skip? text =
      if text.isPrefixOf input then some (.ofList (input.drop text.length)) else none := by
  induction text generalizing input with
  | nil => simp [Cursor.skip?]
  | cons c text ih =>
    cases input with
    | nil => simp [Cursor.skip?]
    | cons d input =>
      by_cases same : c = d
      · subst same
        simp [Cursor.skip?, ih]
      · simp [Cursor.skip?, same]

theorem match?_prepend (reach : Option Nat) (trees : List (SyntaxTree Rule)) (more : Outcome Rule) :
    Outcome.match? ⟨reach, more.value.map fun (others, last) => (trees ++ others, last)⟩ =
      more.match?.map fun (others, last) => (trees ++ others, last) := by
  simp only [Outcome.match?, Option.map_map]
  rfl

theorem match?_eq_none {outcome : Outcome Rule} : outcome.match? = none ↔ ∃ reach, outcome = ⟨reach, none⟩ := by
  obtain ⟨reach, value⟩ := outcome
  simp [Outcome.match?]

theorem match?_eq_some {outcome : Outcome Rule} {trees : List (SyntaxTree Rule)} {rest : List Char} :
    outcome.match? = some (trees, rest) ↔ ∃ reach, outcome = ⟨reach, some (trees, .ofList rest)⟩ := by
  obtain ⟨reach, value⟩ := outcome
  constructor
  · intro matched
    obtain ⟨⟨others, cursor⟩, rfl, same⟩ := Option.map_eq_some_iff.mp matched
    obtain ⟨rfl, rfl⟩ := Prod.mk.inj same
    exact ⟨reach, by rw [← cursor.eq_ofList]⟩
  · rintro ⟨_, same⟩
    simp only [Outcome.mk.injEq] at same
    rw [same.2]
    rfl

theorem match?_repeated {step : Cursor → Outcome Rule} {stepMatch : List Char → Match Rule}
    (agrees : ∀ input, (step (.ofList input)).match? = stepMatch input) (input : List Char) :
    (repeated step (.ofList input)).match? = repeatedMatch stepMatch input := by
  induction input using repeatedMatch.induct stepMatch with
  | case1 input stops =>
    obtain ⟨reach, outcome⟩ := match?_eq_none.mp ((agrees input).trans stops)
    rw [repeated, repeatedMatch, outcome, stops]
    rfl
  | case2 input trees rest matched shorter ih =>
    obtain ⟨reach, outcome⟩ := match?_eq_some.mp ((agrees input).trans matched)
    have less : (Cursor.ofList rest).left < (Cursor.ofList input).left := shorter
    rw [repeated, repeatedMatch, outcome, matched]
    simp only [less, shorter, if_true, ← ih, match?_prepend]
  | case3 input trees rest matched same =>
    obtain ⟨reach, outcome⟩ := match?_eq_some.mp ((agrees input).trans matched)
    have notLess : ¬ (Cursor.ofList rest).left < (Cursor.ofList input).left := same
    rw [repeated, repeatedMatch, outcome, matched]
    simp only [notLess, same, if_false]
    rfl

/-- The match of an expression, from those of rules, in any mode. -/
theorem Expression.match?_run {call : Mode → Rule → Cursor → Outcome Rule} {place : Rule → List Char → Match Rule}
    (agrees : ∀ mode rule input, (call mode rule (.ofList input)).match? = place rule input)
    (expression : Expression Rule) (mode : Mode) (input : List Char) :
    (expression.run call mode (.ofList input)).match? = expression.match? place input := by
  induction expression generalizing mode input with
  | empty => rfl
  | ending => cases input <;> rfl
  | one accepts =>
    cases input with
    | nil => rfl
    | cons c rest =>
      simp only [Expression.run, Expression.match?_one_cons, Cursor.next?_ofList_cons]
      by_cases accepted : accepts c = true
      · simp only [accepted, if_true]
        rfl
      · simp only [accepted]
        rfl
  | word text =>
    simp only [Expression.run, Expression.match?_word, skip?_ofList]
    by_cases starts : text.isPrefixOf input = true
    · simp only [starts, if_true]
      rfl
    · simp only [starts]
      rfl
  | call rule => exact agrees mode rule input
  | both first second ihFirst ihSecond =>
    simp only [Expression.run, Expression.match?_both, ← ihFirst mode]
    cases matched : (first.run call mode (.ofList input)).match? with
    | none =>
      obtain ⟨reach, outcome⟩ := match?_eq_none.mp matched
      rw [outcome]
      rfl
    | some found =>
      obtain ⟨reach, outcome⟩ := match?_eq_some.mp matched
      rw [outcome, Match.next, ← ihSecond mode]
      exact match?_prepend _ _ _
  | either first second ihFirst ihSecond =>
    simp only [Expression.run, Expression.match?_either, ← ihFirst mode, ← ihSecond mode]
    cases matched : (first.run call mode (.ofList input)).match? with
    | none =>
      obtain ⟨reach, outcome⟩ := match?_eq_none.mp matched
      rw [outcome]
      rfl
    | some found =>
      obtain ⟨reach, outcome⟩ := match?_eq_some.mp matched
      rw [outcome]
      rfl
  | many item ih => exact match?_repeated (ih mode) input
  | absent item ih =>
    simp only [Expression.run, Expression.match?_absent, ← ih { mode with unwanted := !mode.unwanted }]
    cases matched : (item.run call { mode with unwanted := !mode.unwanted } (.ofList input)).match? with
    | none =>
      obtain ⟨reach, outcome⟩ := match?_eq_none.mp matched
      rw [outcome]
      rfl
    | some found =>
      obtain ⟨reach, outcome⟩ := match?_eq_some.mp matched
      rw [outcome]
      rfl

namespace Expression

/-- Some match may take nothing, if that is so of the rules that are optional. -/
def mayBeEmpty (optional : Rule → Bool) : Expression Rule → Bool
  | .empty | .ending | .many _ | .absent _ => true
  | .one _ => false
  | .word text => text.isEmpty
  | .call rule => optional rule
  | .both first second => first.mayBeEmpty optional && second.mayBeEmpty optional
  | .either first second => first.mayBeEmpty optional || second.mayBeEmpty optional

/-- The rules that may be called before anything is taken. -/
def starts (optional : Rule → Bool) : Expression Rule → List Rule
  | .empty | .ending | .one _ | .word _ => []
  | .call rule => [rule]
  | .both first second =>
    first.starts optional ++ if first.mayBeEmpty optional then second.starts optional else []
  | .either first second => first.starts optional ++ second.starts optional
  | .many item | .absent item => item.starts optional

end Expression

/-- A match leaves a suffix, and takes something unless it may be empty. -/
def Takes (mayBeEmpty : Bool) (input rest : List Char) : Prop :=
  rest <:+ input ∧ (mayBeEmpty = false → rest.length < input.length)

theorem Takes.refl {input : List Char} : Takes true input input := ⟨List.suffix_refl _, nofun⟩

theorem Takes.cons {mayBeEmpty : Bool} {c : Char} {rest : List Char} : Takes mayBeEmpty (c :: rest) rest :=
  ⟨List.suffix_cons _ _, fun _ => Nat.lt_succ_self _⟩

theorem Takes.trans {a b : Bool} {input middle rest : List Char} (first : Takes a input middle)
    (second : Takes b middle rest) : Takes (a && b) input rest := by
  refine ⟨second.1.trans first.1, fun strict => ?_⟩
  have firstLe := first.1.length_le
  have secondLe := second.1.length_le
  rcases Bool.and_eq_false_iff.mp strict with isStrict | isStrict
  · have := first.2 isStrict
    omega
  · have := second.2 isStrict
    omega

theorem Match.next_eq_some {first : Match Rule} {second : List Char → Match Rule}
    {trees : List (SyntaxTree Rule)} {rest : List Char} :
    first.next second = some (trees, rest) ↔ ∃ before middle after, first = some (before, middle) ∧
      second middle = some (after, rest) ∧ trees = before ++ after := by
  constructor
  · intro matched
    rcases first with _ | ⟨before, middle⟩
    · cases matched
    · obtain ⟨⟨after, last⟩, isSecond, same⟩ := Option.map_eq_some_iff.mp matched
      obtain ⟨rfl, rfl⟩ := Prod.mk.inj same
      exact ⟨before, middle, after, rfl, isSecond, rfl⟩
  · rintro ⟨before, middle, after, rfl, isSecond, rfl⟩
    simp [Match.next, isSecond]

/-- Along repeated matches, from the last one to the first. -/
theorem repeatedMatch_rec {step : List Char → Match Rule} {rest : List Char}
    {motive : List Char → List (SyntaxTree Rule) → Prop} (nil : step rest = none → motive rest [])
    (single : ∀ place trees, step place = some (trees, rest) → ¬ rest.length < place.length → motive place trees)
    (cons : ∀ place before middle after, step place = some (before, middle) →
      repeatedMatch step middle = some (after, rest) → motive middle after → motive place (before ++ after))
    {input : List Char} {trees : List (SyntaxTree Rule)} (matched : repeatedMatch step input = some (trees, rest)) :
    motive input trees := by
  induction input using repeatedMatch.induct step generalizing trees with
  | case1 input stops =>
    rw [repeatedMatch, stops] at matched
    obtain ⟨rfl, rfl⟩ := Prod.mk.inj (Option.some.inj matched)
    exact nil stops
  | case2 input before middle found shorter ih =>
    rw [repeatedMatch, found] at matched
    simp only [shorter, if_true] at matched
    obtain ⟨⟨after, last⟩, more, same⟩ := Option.map_eq_some_iff.mp matched
    obtain ⟨rfl, rfl⟩ := Prod.mk.inj same
    exact cons input before middle after found more (ih more)
  | case3 input before middle found notShorter =>
    rw [repeatedMatch, found] at matched
    simp only [notShorter, if_false] at matched
    obtain ⟨rfl, rfl⟩ := Prod.mk.inj (Option.some.inj matched)
    exact single input before found notShorter

theorem takes_of_repeatedMatch {step : List Char → Match Rule}
    (takes : ∀ input trees rest, step input = some (trees, rest) → Takes true input rest)
    {input : List Char} {trees : List (SyntaxTree Rule)} {rest : List Char}
    (matched : repeatedMatch step input = some (trees, rest)) : Takes true input rest :=
  repeatedMatch_rec (motive := fun place _ => Takes true place rest) (fun _ => .refl)
    (fun place trees found _ => takes place trees rest found)
    (fun place before middle _ found _ ih => (takes place before middle found).trans ih) matched

namespace Expression

variable {call : Rule → List Char → Match Rule} {optional : Rule → Bool}

theorem takes_of_match? (takes : ∀ rule input trees rest, call rule input = some (trees, rest) →
      Takes (optional rule) input rest) {expression : Expression Rule} {input : List Char}
    {trees : List (SyntaxTree Rule)} {rest : List Char}
    (matched : expression.match? call input = some (trees, rest)) :
    Takes (expression.mayBeEmpty optional) input rest := by
  induction expression generalizing input trees rest with
  | empty =>
    cases matched
    exact .refl
  | ending =>
    simp only [match?_ending, Option.ite_none_right_eq_some] at matched
    cases matched.2
    exact .refl
  | one accepts =>
    cases input with
    | nil => cases matched
    | cons c others =>
      simp only [match?_one_cons, Option.ite_none_right_eq_some] at matched
      cases matched.2
      exact .cons
  | word text =>
    simp only [match?_word, Option.ite_none_right_eq_some] at matched
    obtain ⟨starts, same⟩ := matched
    cases same
    have le := (List.isPrefixOf_iff_prefix.mp starts).length_le
    refine ⟨List.drop_suffix _ _, fun notEmpty => ?_⟩
    have positive : 0 < text.length := by
      cases text with
      | nil => cases notEmpty
      | cons => exact Nat.succ_pos _
    simp only [List.length_drop]
    omega
  | call rule => exact takes rule input trees rest matched
  | both first second ihFirst ihSecond =>
    obtain ⟨before, middle, after, isFirst, isSecond, _⟩ := Match.next_eq_some.mp matched
    exact (ihFirst isFirst).trans (ihSecond isSecond)
  | either first second ihFirst ihSecond =>
    simp only [match?_either, Option.or_eq_some_iff] at matched
    rcases matched with isFirst | ⟨_, isSecond⟩
    · refine ⟨(ihFirst isFirst).1, fun strict => (ihFirst isFirst).2 ?_⟩
      exact (Bool.or_eq_false_iff.mp strict).1
    · refine ⟨(ihSecond isSecond).1, fun strict => (ihSecond isSecond).2 ?_⟩
      exact (Bool.or_eq_false_iff.mp strict).2
  | many item ih =>
    refine takes_of_repeatedMatch (fun input trees rest found => ?_) matched
    exact ⟨(ih found).1, nofun⟩
  | absent item ih =>
    simp only [match?_absent, Option.ite_none_right_eq_some] at matched
    cases matched.2
    exact .refl

end Expression

theorem repeatedMatch_congr {one other : List Char → Match Rule} {input : List Char}
    (same : one input = other input) (below : ∀ shorter, shorter.length < input.length → one shorter = other shorter) :
    repeatedMatch one input = repeatedMatch other input := by
  induction input using repeatedMatch.induct other with
  | case1 input stops => rw [repeatedMatch, repeatedMatch, same, stops]
  | case2 input trees rest found shorter ih =>
    rw [repeatedMatch, repeatedMatch, same, found]
    simp only [shorter, if_true]
    rw [ih (below rest shorter) fun next less => below next (Nat.lt_trans less shorter)]
  | case3 input trees rest found notShorter =>
    rw [repeatedMatch, repeatedMatch, same, found]
    simp only [notShorter, if_false]

/-- Only the rules that may be called at once matter at a place; all rules matter further on. -/
theorem Expression.match?_congr {one other : Rule → List Char → Match Rule} {optional : Rule → Bool}
    (takes : ∀ rule input trees rest, other rule input = some (trees, rest) → Takes (optional rule) input rest)
    {expression : Expression Rule} {input : List Char}
    (same : ∀ rule ∈ expression.starts optional, one rule input = other rule input)
    (below : ∀ rule shorter, shorter.length < input.length → one rule shorter = other rule shorter) :
    expression.match? one input = expression.match? other input := by
  induction expression generalizing input with
  | empty | ending | word => rfl
  | one => cases input <;> rfl
  | call rule => exact same rule List.mem_cons_self
  | both first second ihFirst ihSecond =>
    simp only [Expression.match?_both]
    rw [ihFirst (fun rule member => same rule (List.mem_append_left _ member)) below]
    cases matched : first.match? other input with
    | none => rfl
    | some found =>
      obtain ⟨trees, middle⟩ := found
      have taken := Expression.takes_of_match? takes matched
      have le := taken.1.length_le
      have sameSecond : second.match? one middle = second.match? other middle := by
        refine ihSecond (fun rule member => ?_) fun rule shorter less => below rule shorter (by omega)
        by_cases less : middle.length < input.length
        · exact below rule middle less
        · obtain rfl : middle = input := taken.1.eq_of_length (by omega)
          cases empty : first.mayBeEmpty optional with
          | false => exact absurd (taken.2 empty) less
          | true =>
            refine same rule (List.mem_append_right _ ?_)
            rwa [empty]
      simp only [Match.next, sameSecond]
  | either first second ihFirst ihSecond =>
    simp only [Expression.match?_either]
    rw [ihFirst (fun rule member => same rule (List.mem_append_left _ member)) below,
      ihSecond (fun rule member => same rule (List.mem_append_right _ member)) below]
  | many item ih =>
    refine repeatedMatch_congr (ih same below) fun shorter less => ?_
    exact ih (fun rule _ => below rule shorter less) fun rule next isLess => below rule next (Nat.lt_trans isLess less)
  | absent item ih =>
    simp only [Expression.match?_absent]
    rw [ih same below]

namespace Grammar

/-- What a match of its expression means for a rule. -/
def leaves (kind : Kind) (rule : Rule) (input rest : List Char) (parts : List (SyntaxTree Rule)) :
    List (SyntaxTree Rule) :=
  match kind with
  | .token => [.token rule input.length (input.take (input.length - rest.length))]
  | .branch => [.branch rule input.length rest.length parts]
  | .spliced => parts

theorem match?_finish (kind : Kind) (mode : Mode) (rule : Rule) (input : List Char) (inner : Outcome Rule) :
    (finish kind mode rule (.ofList input) inner).match? =
      inner.match?.map fun (parts, rest) => (leaves kind rule input rest parts, rest) := by
  simp only [finish, Outcome.match?, Option.map_map]
  congr 1
  funext ⟨parts, next⟩
  obtain ⟨rest, left, rfl⟩ := next
  cases kind <;> rfl

/-- The match of a rule. -/
def match? (grammar : Grammar Rule) (rule : Rule) (input : List Char) : Match Rule :=
  (grammar.run ⟨true, false⟩ rule (.ofList input)).match?

theorem parse_eq_ok {grammar : Grammar Rule} {rule : Rule} {text : List Char} {trees : List (SyntaxTree Rule)} :
    grammar.parse rule text = .ok trees ↔ ∃ rest, grammar.match? rule text = some (trees, rest) := by
  unfold parse match? Outcome.match?
  cases outcome : (grammar.run ⟨true, false⟩ rule (.ofList text)).value with
  | none => simp [outcome]
  | some found => simp [outcome]

/-- The matches that a rule may call for. -/
def matchWithin? (grammar : Grammar Rule) (rule : Rule) (input : List Char) (other : Rule) (place : List Char) :
    Match Rule :=
  if grammar.measure other (.ofList place) < grammar.measure rule (.ofList input) then grammar.match? other place
  else none

theorem match?_run (grammar : Grammar Rule) (mode : Mode) (rule : Rule) (input : List Char) :
    (grammar.run mode rule (.ofList input)).match? =
      ((grammar.body rule).match? (grammar.matchWithin? rule input) input).map fun (parts, rest) =>
        (leaves (grammar.kind rule) rule input rest parts, rest) := by
  induction size : grammar.measure rule (.ofList input) using Nat.strongRecOn generalizing mode rule input with
  | ind size ih =>
    subst size
    rw [run, match?_finish, Expression.match?_run]
    intro mode other place
    by_cases smaller : grammar.measure other (.ofList place) < grammar.measure rule (.ofList input)
    · simp only [smaller, dif_pos, matchWithin?, if_true]
      exact (ih _ smaller mode other place rfl).trans (ih _ smaller ⟨true, false⟩ other place rfl).symm
    · simp only [smaller, dif_neg, matchWithin?, if_false, not_false_eq_true]
      rfl

/-- Ranks go down along calls that may be made before anything is taken. -/
structure IsRanked (grammar : Grammar Rule) (optional : Rule → Bool) : Prop where
  rank_lt : ∀ rule, grammar.rank rule < grammar.width
  takes : ∀ rule, (grammar.body rule).mayBeEmpty optional = true → optional rule = true
  starts : ∀ rule, ∀ other ∈ (grammar.body rule).starts optional, grammar.rank other < grammar.rank rule

namespace IsRanked

variable {grammar : Grammar Rule} {optional : Rule → Bool}

theorem takes_of_match? (ranked : grammar.IsRanked optional) {rule : Rule} {input : List Char}
    {trees : List (SyntaxTree Rule)} {rest : List Char} (matched : grammar.match? rule input = some (trees, rest)) :
    Takes (optional rule) input rest := by
  induction size : grammar.measure rule (.ofList input) using Nat.strongRecOn generalizing rule input trees rest with
  | ind size ih =>
    subst size
    rw [match?, match?_run] at matched
    obtain ⟨⟨parts, last⟩, isBody, same⟩ := Option.map_eq_some_iff.mp matched
    obtain ⟨_, rfl⟩ := Prod.mk.inj same
    have taken : Takes ((grammar.body rule).mayBeEmpty optional) input last := by
      refine Expression.takes_of_match? (fun other place others after found => ?_) isBody
      simp only [matchWithin?, Option.ite_none_right_eq_some] at found
      exact ih _ found.1 found.2 rfl
    refine ⟨taken.1, fun strict => ?_⟩
    cases empty : (grammar.body rule).mayBeEmpty optional with
    | false => exact taken.2 empty
    | true =>
      rw [ranked.takes rule empty] at strict
      cases strict

/-- In a ranked grammar no call is cut off. -/
theorem match?_eq (ranked : grammar.IsRanked optional) (rule : Rule) (input : List Char) :
    grammar.match? rule input = ((grammar.body rule).match? grammar.match? input).map fun (parts, rest) =>
      (leaves (grammar.kind rule) rule input rest parts, rest) := by
  rw [match?, match?_run]
  congr 1
  refine Expression.match?_congr (fun rule input trees rest found => ranked.takes_of_match? found) ?_ ?_
  · intro other member
    have less := ranked.starts rule other member
    have smaller : grammar.measure other (.ofList input) < grammar.measure rule (.ofList input) :=
      Nat.add_lt_add_left less _
    simp only [matchWithin?, smaller, if_true]
  · intro other shorter less
    have smaller : grammar.measure other (.ofList shorter) < grammar.measure rule (.ofList input) := by
      have bound := ranked.rank_lt other
      have scaled : (shorter.length + 1) * grammar.width ≤ input.length * grammar.width :=
        Nat.mul_le_mul_right _ less
      rw [Nat.add_mul] at scaled
      simp only [measure, Cursor.ofList]
      omega
    simp only [matchWithin?, smaller, if_true]

end IsRanked

end Grammar

end SiteQuery.Grammar
