import SiteQuery.Proofs.Grammar.Spacing

/-!
Matches in a text that goes on.

A rule takes all it can, so what follows a text may change how the text is read. An expression is steady at a place if
that is not so: with more text behind it the match is the same, only that its trees are further from the end.
-/

namespace SiteQuery.Grammar

variable {Rule : Type}

namespace SyntaxTree

mutual

/-- The tree in a text with `more` characters behind it. -/
def shift (more : Nat) : SyntaxTree Rule → SyntaxTree Rule
  | .token rule left text => .token rule (left + more) text
  | .branch rule left leftAfter parts => .branch rule (left + more) (leftAfter + more) (shiftAll more parts)

def shiftAll (more : Nat) : List (SyntaxTree Rule) → List (SyntaxTree Rule)
  | [] => []
  | tree :: rest => shift more tree :: shiftAll more rest

end

theorem shiftAll_eq_map (more : Nat) (trees : List (SyntaxTree Rule)) : shiftAll more trees = trees.map (shift more) := by
  induction trees with
  | nil => rfl
  | cons tree rest ih => rw [shiftAll, ih, List.map_cons]

@[simp] theorem shiftAll_append (more : Nat) (trees others : List (SyntaxTree Rule)) :
    shiftAll more (trees ++ others) = shiftAll more trees ++ shiftAll more others := by
  simp only [shiftAll_eq_map, List.map_append]

end SyntaxTree

/-- The match with `tail` behind the text. -/
def Match.goOn (tail : List Char) (found : Match Rule) : Match Rule :=
  found.map fun (trees, rest) => (SyntaxTree.shiftAll tail.length trees, rest ++ tail)

namespace Expression

/-- The match at the place is the same with `tail` behind the text. -/
def SteadyAt (call : Rule → List Char → Match Rule) (tail : List Char) (expression : Expression Rule)
    (input : List Char) : Prop :=
  expression.match? call (input ++ tail) = (expression.match? call input).goOn tail

def Steady (call : Rule → List Char → Match Rule) (tail : List Char) (expression : Expression Rule) : Prop :=
  ∀ input, expression.SteadyAt call tail input

section Parts

variable {call : Rule → List Char → Match Rule} {tail : List Char} {first second item : Expression Rule}
  {input rest : List Char} {trees : List (SyntaxTree Rule)}

theorem SteadyAt.matches (steady : item.SteadyAt call tail input) (isMatch : item.Matches call input trees rest) :
    item.Matches call (input ++ tail) (SyntaxTree.shiftAll tail.length trees) (rest ++ tail) := by
  simp only [Matches] at isMatch ⊢
  rw [steady, isMatch]
  rfl

theorem SteadyAt.refuses (steady : item.SteadyAt call tail input) (refused : item.Refuses call input) :
    item.Refuses call (input ++ tail) := by
  simp only [Refuses] at refused ⊢
  rw [steady, refused]
  rfl

theorem SteadyAt.of_refuses (refused : item.Refuses call input) (still : item.Refuses call (input ++ tail)) :
    item.SteadyAt call tail input := by
  simp only [Refuses] at refused still
  rw [SteadyAt, still, refused]
  rfl

theorem SteadyAt.of_matches (isMatch : item.Matches call input trees rest)
    (still : item.Matches call (input ++ tail) (SyntaxTree.shiftAll tail.length trees) (rest ++ tail)) :
    item.SteadyAt call tail input := by
  simp only [Matches] at isMatch still
  rw [SteadyAt, still, isMatch]
  rfl

theorem Steady.empty : (Expression.empty : Expression Rule).Steady call tail := fun _ => rfl

theorem SteadyAt.both (ofFirst : first.SteadyAt call tail input)
    (ofSecond : ∀ trees rest, first.Matches call input trees rest → second.SteadyAt call tail rest) :
    (Expression.both first second).SteadyAt call tail input := by
  simp only [SteadyAt, match?_both] at ofFirst ⊢
  rw [ofFirst]
  cases found : first.match? call input with
  | none => rfl
  | some result =>
    obtain ⟨before, middle⟩ := result
    have isSecond := ofSecond before middle found
    simp only [Match.goOn, Option.map_some, Match.next]
    rw [isSecond]
    cases second.match? call middle <;> simp [Match.goOn]

theorem SteadyAt.both_of_matches (ofFirst : first.SteadyAt call tail input) (isFirst : first.Matches call input trees rest)
    (ofSecond : second.SteadyAt call tail rest) : (Expression.both first second).SteadyAt call tail input := by
  refine ofFirst.both fun others last found => ?_
  obtain ⟨_, rfl⟩ := isFirst.unique found
  exact ofSecond

theorem SteadyAt.either (ofFirst : first.SteadyAt call tail input)
    (ofSecond : first.Refuses call input → second.SteadyAt call tail input) :
    (Expression.either first second).SteadyAt call tail input := by
  simp only [SteadyAt, Refuses, match?_either] at ofFirst ofSecond ⊢
  rw [ofFirst]
  cases refused : first.match? call input with
  | some result => rfl
  | none =>
    rw [ofSecond refused]
    rfl

theorem SteadyAt.absent (ofItem : item.SteadyAt call tail input) : (Expression.absent item).SteadyAt call tail input := by
  simp only [SteadyAt, match?_absent] at ofItem ⊢
  rw [ofItem]
  cases item.match? call input <;> rfl

theorem Steady.both (ofFirst : first.Steady call tail) (ofSecond : second.Steady call tail) :
    (Expression.both first second).Steady call tail :=
  fun input => (ofFirst input).both fun _ rest _ => ofSecond rest

theorem Steady.either (ofFirst : first.Steady call tail) (ofSecond : second.Steady call tail) :
    (Expression.either first second).Steady call tail :=
  fun input => (ofFirst input).either fun _ => ofSecond input

theorem Steady.option (ofItem : item.Steady call tail) : item.option.Steady call tail := ofItem.either .empty

theorem Steady.absent (ofItem : item.Steady call tail) : (Expression.absent item).Steady call tail :=
  fun input => (ofItem input).absent

theorem Steady.many (ofItem : item.Steady call tail) : (Expression.many item).Steady call tail := by
  intro input
  simp only [SteadyAt, match?_many]
  induction input using repeatedMatch.induct (item.match? call) with
  | case1 input stops =>
    rw [repeatedMatch, repeatedMatch, ofItem input, stops]
    rfl
  | case2 input before middle found shorter ih =>
    have still : (middle ++ tail).length < (input ++ tail).length := by
      simp only [List.length_append]
      omega
    rw [repeatedMatch, repeatedMatch, ofItem input, found]
    simp only [Match.goOn, Option.map_some, still, shorter, if_true]
    rw [ih]
    cases repeatedMatch (item.match? call) middle <;> simp [Match.goOn]
  | case3 input before middle found notShorter =>
    have still : ¬ (middle ++ tail).length < (input ++ tail).length := by
      simp only [List.length_append]
      omega
    rw [repeatedMatch, repeatedMatch, ofItem input, found]
    simp only [Match.goOn, Option.map_some, still, notShorter, if_false]

theorem Steady.oneOrMore (ofItem : item.Steady call tail) : item.oneOrMore.Steady call tail := ofItem.both ofItem.many

/-- Along the items of a repetition, from the last one to the first. -/
theorem Matches.many_rec {motive : List Char → List (SyntaxTree Rule) → Prop} (strict : item.IsStrict call)
    (isMatch : (Expression.many item).Matches call input trees rest) (nil : item.Refuses call rest → motive rest [])
    (cons : ∀ place before middle more, item.Matches call place before middle →
      (Expression.many item).Matches call middle more rest → motive middle more → motive place (before ++ more)) :
    motive input trees :=
  repeatedMatch_rec nil (fun place trees found notShorter => absurd (strict place trees rest found) notShorter) cons
    isMatch

end Parts

section Characters

variable {call : Rule → List Char → Match Rule} {c : Char} {others : List Char}

theorem steadyAt_one_cons {accepts : Char → Bool} {d : Char} {input tail : List Char} :
    (Expression.one accepts : Expression Rule).SteadyAt call tail (d :: input) := by
  by_cases accepted : accepts d = true <;> simp [SteadyAt, match?_one_cons, Match.goOn, accepted, SyntaxTree.shiftAll]

theorem Steady.one {accepts : Char → Bool} (stops : accepts c = false) :
    (Expression.one accepts : Expression Rule).Steady call (c :: others) := by
  intro input
  cases input with
  | nil => simp [SteadyAt, match?_one_nil, match?_one_cons, Match.goOn, stops]
  | cons d input => exact steadyAt_one_cons

theorem prefix_append_iff {text input : List Char} (notIn : c ∉ text) : text <+: input ++ c :: others ↔ text <+: input := by
  refine ⟨fun isPrefix => ?_, fun isPrefix => isPrefix.trans (List.prefix_append _ _)⟩
  rcases List.prefix_or_prefix_of_prefix isPrefix (List.prefix_append _ _) with within | ⟨beyond, rfl⟩
  · exact within
  · cases beyond with
    | nil => simp
    | cons d beyond =>
      obtain ⟨rfl, _⟩ := List.cons_prefix_cons.mp ((List.prefix_append_right_inj input).mp isPrefix)
      simp at notIn

theorem Steady.word {text : List Char} (notIn : c ∉ text) :
    (Expression.word text : Expression Rule).Steady call (c :: others) := by
  intro input
  simp only [SteadyAt, match?_word, List.isPrefixOf_iff_prefix, prefix_append_iff notIn]
  by_cases isPrefix : text <+: input
  · simp [isPrefix, Match.goOn, SyntaxTree.shiftAll, List.drop_append_of_le_length isPrefix.length_le]
  · simp [isPrefix, Match.goOn]

end Characters

end Expression

namespace Grammar

variable {grammar : Grammar Rule} {optional : Rule → Bool} {tail input rest : List Char}

theorem shiftAll_leaves (kind : Kind) (rule : Rule) (parts : List (SyntaxTree Rule)) :
    leaves kind rule (input ++ tail) (rest ++ tail) (SyntaxTree.shiftAll tail.length parts) =
      SyntaxTree.shiftAll tail.length (leaves kind rule input rest parts) := by
  cases kind with
  | token =>
    have taken : input.length + tail.length - (rest.length + tail.length) = input.length - rest.length := by omega
    simp only [leaves, SyntaxTree.shiftAll, SyntaxTree.shift, List.length_append, taken,
      List.take_append_of_le_length (Nat.sub_le _ _)]
  | branch => simp [leaves, SyntaxTree.shiftAll, SyntaxTree.shift]
  | spliced => rfl

theorem IsRanked.steadyAt_call (ranked : grammar.IsRanked optional) {rule : Rule}
    (ofBody : (grammar.body rule).SteadyAt grammar.match? tail input) :
    (Expression.call rule).SteadyAt grammar.match? tail input := by
  simp only [Expression.SteadyAt, Expression.match?_call] at ofBody ⊢
  rw [ranked.match?_eq, ranked.match?_eq, ofBody]
  cases (grammar.body rule).match? grammar.match? input <;> simp [Match.goOn, shiftAll_leaves]

end Grammar

end SiteQuery.Grammar
