import SiteQuery.Proofs.Graphql.Values

/-!
The trees of names, types and enum values, whatever the text was.
-/

namespace SiteQuery.Graphql

open Grammar

/-- Some match in the grammar of documents leaves these trees. -/
abbrev Yields (part : Rule.Part) (trees : List SyntaxTree) : Prop := part.Yields grammar.match? trees

section Calls

variable {rule : Rule} {trees : List SyntaxTree}

theorem Yields.of_branch (isBranch : Rule.kind rule = .branch) (yields : Yields (.call rule) trees) :
    ∃ left leftAfter parts, trees = [.branch rule left leftAfter parts] ∧ Yields (Rule.body rule) parts := by
  obtain ⟨input, rest, isMatch⟩ := yields
  obtain ⟨parts, isBody, rfl⟩ := accepts_call.mp isMatch
  refine ⟨input.length, rest.length, parts, ?_, input, rest, isBody⟩
  simp [Grammar.leaves, isBranch]

theorem Yields.of_spliced (isSpliced : Rule.kind rule = .spliced) (yields : Yields (.call rule) trees) :
    Yields (Rule.body rule) trees := by
  obtain ⟨input, rest, isMatch⟩ := yields
  obtain ⟨parts, isBody, rfl⟩ := accepts_call.mp isMatch
  rw [isSpliced]
  exact ⟨input, rest, isBody⟩

theorem accepts_suffix {part : Rule.Part} {input rest : List Char} (isMatch : Accepts part input trees rest) : rest <:+ input :=
  (Expression.takes_of_match? grammar_takes isMatch).1

/-- The text of a token is what its rule took. -/
theorem token_of_accepts {input rest : List Char} (isToken : Rule.kind rule = .token)
    (isMatch : Accepts (.call rule) input trees rest) :
    ∃ left text parts, input = text ++ rest ∧ trees = [.token rule left text] ∧
      Accepts (Rule.body rule) (text ++ rest) parts rest := by
  obtain ⟨parts, isBody, rfl⟩ := accepts_call.mp isMatch
  obtain ⟨text, rfl⟩ := accepts_suffix isBody
  refine ⟨(text ++ rest).length, text, parts, rfl, ?_, isBody⟩
  simp [Grammar.leaves, isToken]

theorem isSingle_branch (isBranch : Rule.kind rule = .branch) : (Expression.call rule).IsSingle grammar.match? := by
  intro trees yields
  obtain ⟨left, leftAfter, parts, rfl, _⟩ := Yields.of_branch isBranch yields
  exact ⟨_, rfl⟩

theorem isSingle_token (isToken : Rule.kind rule = .token) : (Expression.call rule).IsSingle grammar.match? := by
  intro trees yields
  obtain ⟨input, rest, isMatch⟩ := yields
  obtain ⟨left, text, parts, _, rfl, _⟩ := token_of_accepts isToken isMatch
  exact ⟨_, rfl⟩

end Calls

section Names

variable {trees : List SyntaxTree} {input rest : List Char}

theorem accepts_many_one {accepts : Char → Bool} (isMatch : Accepts (.many (.one accepts)) input trees rest) :
    ∃ text, input = text ++ rest ∧ ∀ c ∈ text, accepts c = true := by
  have taken : Accepts (.many (.one accepts)) (input.takeWhile accepts ++ input.dropWhile accepts) [] (input.dropWhile accepts) := by
    refine .many_one (fun c member => List.mem_takeWhile_imp member) fun c isHead => ?_
    have stops := List.head?_dropWhile_not accepts input
    rw [isHead] at stops
    simpa using stops
  rw [List.takeWhile_append_dropWhile] at taken
  obtain ⟨_, rfl⟩ := Prod.mk.inj (Option.some.inj (isMatch.symm.trans taken))
  exact ⟨_, List.takeWhile_append_dropWhile.symm, fun c member => List.mem_takeWhile_imp member⟩

theorem accepts_one {accepts : Char → Bool} (isMatch : Accepts (.one accepts) input trees rest) :
    ∃ c, input = c :: rest ∧ accepts c = true := by
  cases input with
  | nil => cases isMatch
  | cons c others =>
    simp only [Accepts, Expression.Matches, Expression.match?, Option.ite_none_right_eq_some] at isMatch
    obtain ⟨_, rfl⟩ := Prod.mk.inj (Option.some.inj isMatch.2)
    exact ⟨c, rfl, isMatch.1⟩

theorem accepts_word {text : List Char} (isMatch : Accepts (.word text) input trees rest) : input = text ++ rest := by
  simp only [Accepts, Expression.Matches, Expression.match?, Option.ite_none_right_eq_some] at isMatch
  obtain ⟨_, rfl⟩ := Prod.mk.inj (Option.some.inj isMatch.2)
  obtain ⟨others, rfl⟩ := List.isPrefixOf_iff_prefix.mp isMatch.1
  simp

theorem accepts_absent {item : Rule.Part} (isMatch : Accepts (.absent item) input trees rest) :
    Refuses item input ∧ rest = input := by
  simp only [Accepts, Expression.Matches, Expression.match?, Option.ite_none_right_eq_some] at isMatch
  obtain ⟨_, rfl⟩ := Prod.mk.inj (Option.some.inj isMatch.2)
  exact ⟨Option.isNone_iff_eq_none.mp isMatch.1, rfl⟩

theorem name_of_accepts (isMatch : Accepts (.call .name) input trees rest) :
    ∃ left text, input = text ++ rest ∧ trees = [.token .name left text] ∧ IsName text := by
  obtain ⟨left, text, parts, rfl, rfl, isBody⟩ := token_of_accepts rfl isMatch
  obtain ⟨before, middle, others, isFirst, isRest, rfl⟩ := Match.next_eq_some.mp isBody
  obtain ⟨start, isStart, _⟩ := accepts_call.mp isFirst
  obtain ⟨c, isText, accepted⟩ := accepts_one isStart
  obtain ⟨more, rfl, areRest⟩ := accepts_many_one isRest
  rw [← List.cons_append] at isText
  obtain rfl := List.append_cancel_right isText
  exact ⟨left, c :: more, rfl, rfl, accepted, areRest⟩

theorem Yields.name (yields : Yields (.call .name) trees) :
    ∃ left text, trees = [.token .name left text] ∧ IsName text := by
  obtain ⟨input, rest, isMatch⟩ := yields
  obtain ⟨left, text, _, rfl, isName⟩ := name_of_accepts isMatch
  exact ⟨left, text, rfl, isName⟩

theorem isBlank_isPlain : Rule.blank.isPlain = true := rfl

/-- A rule that only leads in a name. -/
theorem Yields.afterWord {word : String} (yields : Yields (Rule.spaced [Rule.word word, .call .name]) trees) :
    ∃ left text, trees = [.token .name left text] ∧ IsName text := by
  obtain ⟨before, after, rfl, isWord, isName⟩ := yields.of_spaced_cons isBlank_isPlain
  rw [isWord.of_isPlain rfl]
  exact Yields.name isName

theorem not_isKeyworded_of_refuses (refused : Refuses (.either (.call .boolean) (.call .null)) input) :
    ¬ IsKeyworded input := by
  obtain ⟨noBoolean, noNull⟩ := Option.or_eq_none_iff.mp refused
  rintro (⟨others, rfl⟩ | ⟨others, rfl⟩ | ⟨others, rfl⟩)
  · have isTrue : Accepts (Rule.body .boolean) ("true".toList ++ others) [] others := .left (.word _ others)
    exact Expression.Refuses.not_matches noBoolean (accepts_token rfl isTrue)
  · have noTrue : Refuses (Rule.word "true") ("false".toList ++ others) := .word (not_prefix_cons rfl (by decide))
    have isFalse : Accepts (Rule.body .boolean) ("false".toList ++ others) [] others := .right noTrue (.word _ others)
    exact Expression.Refuses.not_matches noBoolean (accepts_token rfl isFalse)
  · have isNull : Accepts (Rule.body .null) ("null".toList ++ others) [] others := .word _ others
    exact Expression.Refuses.not_matches noNull (accepts_token rfl isNull)

theorem IsKeyworded.append {text : List Char} (keyworded : IsKeyworded text) (rest : List Char) : IsKeyworded (text ++ rest) :=
  keyworded.imp (·.trans (List.prefix_append _ _)) (·.imp (·.trans (List.prefix_append _ _)) (·.trans (List.prefix_append _ _)))

/-- No text of an enum value begins as a keyword does. -/
theorem Yields.enumValue (yields : Yields (.call .enumValue) trees) :
    ∃ left leftAfter leftName text, trees = [.branch .enumValue left leftAfter [.token .name leftName text]] ∧
      IsName text ∧ ¬ IsKeyworded text := by
  obtain ⟨input, rest, isMatch⟩ := yields
  obtain ⟨parts, isBody, rfl⟩ := accepts_call.mp isMatch
  obtain ⟨before, middle, others, isAbsent, isRest, rfl⟩ := Match.next_eq_some.mp isBody
  obtain ⟨refused, rfl⟩ := accepts_absent isAbsent
  obtain rfl := Expression.eq_nil_of_isPlain rfl isAbsent
  obtain ⟨leftName, text, rfl, rfl, isName⟩ := name_of_accepts isRest
  refine ⟨_, _, leftName, text, rfl, isName, fun keyworded => ?_⟩
  exact not_isKeyworded_of_refuses refused (keyworded.append rest)

end Names

section Types

variable {trees : List SyntaxTree} {input rest : List Char}

/-- What a rule for types took, before a mark for non-null. -/
theorem type_of_accepts (isMatch : Accepts (.call .typeText) input trees rest) :
    ∃ left text reference, input = text ++ rest ∧ trees = [.token .typeText left text] ∧
      TypeReference.IsTypeText text reference ∧ reference.Printable := by
  induction size : input.length using Nat.strongRecOn generalizing input trees rest with
  | ind size ih =>
    subst size
    obtain ⟨left, text, parts, rfl, rfl, isBody⟩ := token_of_accepts rfl isMatch
    obtain ⟨before, middle, others, isFirst, isMark, rfl⟩ := Match.next_eq_some.mp isBody
    obtain ⟨inner, reference, isText, isType, printable, nullable⟩ : ∃ inner reference, text ++ rest = inner ++ middle ∧
        TypeReference.IsTypeText inner reference ∧ reference.Printable ∧ reference.isNonNull = false := by
      rcases Option.or_eq_some_iff.mp isFirst with isName | ⟨_, isList⟩
      · obtain ⟨_, name, isText, _, isName⟩ := name_of_accepts isName
        exact ⟨name, .named (String.ofList name), isText, .named isName, by simpa [TypeReference.Printable], rfl⟩
      · obtain ⟨_, opened, _, isOpening, isRest, _⟩ := Match.next_eq_some.mp isList
        obtain ⟨_, closed, _, isItem, isClosing, _⟩ := Match.next_eq_some.mp isRest
        have opens := accepts_word isOpening
        have closes := accepts_word isClosing
        have shorter : opened.length < (text ++ rest).length := by
          rw [opens]
          simp
        obtain ⟨_, item, reference, rfl, _, isType, printable⟩ := ih opened.length shorter isItem rfl
        refine ⟨'[' :: (item ++ [']']), .list reference, ?_, isType.list, printable, rfl⟩
        rw [opens, closes]
        simp
    rcases Option.or_eq_some_iff.mp isMark with isMark | ⟨_, isEmpty⟩
    · have marked := accepts_word isMark
      rw [marked, ← List.append_assoc] at isText
      have same := List.append_cancel_right isText
      exact ⟨left, text, .nonNull reference, rfl, rfl, same ▸ isType.nonNull, printable, nullable⟩
    · obtain ⟨_, rfl⟩ := Prod.mk.inj (Option.some.inj isEmpty)
      obtain rfl := List.append_cancel_right isText
      exact ⟨left, text, reference, rfl, rfl, isType, printable⟩

theorem Yields.typeText (yields : Yields (.call .typeText) trees) :
    ∃ left text, trees = [.token .typeText left text] ∧ (TypeReference.ofText text).Printable := by
  obtain ⟨input, rest, isMatch⟩ := yields
  obtain ⟨left, text, reference, _, rfl, isType, printable⟩ := type_of_accepts isMatch
  refine ⟨left, text, rfl, ?_⟩
  rwa [isType.ofText_eq]

end Types

namespace SyntaxTree

def parts : SyntaxTree → List SyntaxTree
  | .token _ _ _ => []
  | .branch _ _ _ parts => parts

/-- Trees by their parts, and by the parts of these. -/
theorem inside {motive : SyntaxTree → Prop}
    (step : ∀ tree, (∀ part ∈ parts tree, motive part ∧ ∀ inner ∈ parts part, motive inner) → motive tree)
    (tree : SyntaxTree) : motive tree := by
  have both : motive tree ∧ ∀ part ∈ parts tree, motive part :=
    @Grammar.SyntaxTree.rec Rule (fun tree => motive tree ∧ ∀ part ∈ parts tree, motive part)
      (fun items => ∀ item ∈ items, motive item ∧ ∀ part ∈ parts item, motive part)
      (fun rule left text => ⟨step (.token rule left text) (by simp [parts]), by simp [parts]⟩)
      (fun rule left leftAfter items inner =>
        ⟨step (.branch rule left leftAfter items) inner, fun item member => (inner item member).1⟩)
      (by simp) (fun _ _ first rest => List.forall_mem_cons.mpr ⟨first, rest⟩) tree
  exact both.1

end SyntaxTree

section Values

variable {isConstant : Bool} {trees : List SyntaxTree} {places : Places}

theorem Yields.of_choice {rules : List Rule} (yields : Yields (.choice (rules.map .call)) trees) :
    ∃ rule ∈ rules, Yields (.call rule) trees := by
  induction rules with
  | nil =>
    obtain ⟨input, rest, isMatch⟩ := yields
    cases (accepts_absent isMatch).1
  | cons rule more ih =>
    cases more with
    | nil => exact ⟨rule, List.mem_cons_self, yields⟩
    | cons next others =>
      rcases yields.of_either with isFirst | isOther
      · exact ⟨rule, List.mem_cons_self, isFirst⟩
      · obtain ⟨other, member, isRule⟩ := ih isOther
        exact ⟨other, List.mem_cons_of_mem _ member, isRule⟩

/-- The rules of values; there are no variables in constants. -/
theorem Yields.value (yields : Yields (.call (valueRule isConstant)) trees) :
    ∃ rule, Yields (.call rule) trees ∧ ((isConstant = false ∧ rule = .variableName) ∨ rule = .number ∨ rule = .string ∨
      rule = .boolean ∨ rule = .null ∨ rule = .enumValue ∨ rule = listRule isConstant ∨ rule = objectRule isConstant) := by
  cases isConstant with
  | true =>
    have isChoice : Yields (Rule.body .constValue) trees := yields.of_spliced rfl
    obtain ⟨rule, member, isRule⟩ := isChoice.of_choice
    simp only [List.mem_cons, List.not_mem_nil, or_false] at member
    exact ⟨rule, isRule, .inr member⟩
  | false =>
    have isChoice : Yields (Rule.body .value) trees := yields.of_spliced rfl
    obtain ⟨rule, member, isRule⟩ := isChoice.of_choice
    simp only [List.mem_cons, List.not_mem_nil, or_false] at member
    exact ⟨rule, isRule, member.imp_left fun same => ⟨rfl, same⟩⟩

theorem isSingle_value (isConstant : Bool) : (Expression.call (valueRule isConstant)).IsSingle grammar.match? := by
  intro trees yields
  obtain ⟨rule, isRule, isKind⟩ := Yields.value yields
  have single : (Expression.call rule).IsSingle grammar.match? := by
    rcases isKind with ⟨_, rfl⟩ | rfl | rfl | rfl | rfl | rfl | rfl | rfl
    · exact isSingle_branch rfl
    · exact isSingle_token rfl
    · exact isSingle_branch rfl
    · exact isSingle_token rfl
    · exact isSingle_token rfl
    · exact isSingle_branch rfl
    · exact isSingle_branch (by cases isConstant <;> rfl)
    · exact isSingle_branch (by cases isConstant <;> rfl)
  exact single trees isRule

/-- What stands between brackets. -/
theorem Yields.of_within {opening closing : String} {inner : Rule.Part}
    (yields : Yields (Rule.within opening inner closing) trees) : Yields inner trees := by
  obtain ⟨before, more, rfl, isOpening, isMore⟩ := yields.of_spaced_cons isBlank_isPlain
  obtain ⟨middle, after, rfl, isInner, isClosing⟩ := isMore.of_spaced_cons isBlank_isPlain
  rw [isOpening.of_isPlain rfl, isClosing.of_isPlain rfl, List.append_nil]
  exact isInner

theorem Yields.list (yields : Yields (.call (listRule isConstant)) trees) :
    ∃ left leftAfter items, trees = [.branch (listRule isConstant) left leftAfter items] ∧
      ∀ item ∈ items, Yields (.call (valueRule isConstant)) [item] := by
  obtain ⟨left, leftAfter, items, rfl, isBody⟩ := yields.of_branch (by cases isConstant <;> rfl)
  have isList : Yields (Rule.within "[" (Rule.manySpaced (.call (valueRule isConstant))) "]") items := by
    cases isConstant <;> exact isBody
  exact ⟨left, leftAfter, items, rfl, isList.of_within.of_manySpaced isBlank_isPlain (isSingle_value isConstant)⟩

/-- A name with a value, in any rule of that form. -/
theorem Yields.pair (isConstant : Bool) {rule : Rule} (isBranch : Rule.kind rule = .branch)
    (isPair : Rule.body rule = Rule.spaced [.call .name, Rule.word ":", .call (valueRule isConstant)])
    (yields : Yields (.call rule) trees) :
    ∃ left leftAfter leftName name item, trees = [.branch rule left leftAfter [.token .name leftName name, item]] ∧
      IsName name ∧ Yields (.call (valueRule isConstant)) [item] := by
  obtain ⟨left, leftAfter, parts, rfl, isBody⟩ := yields.of_branch isBranch
  rw [isPair] at isBody
  obtain ⟨before, more, rfl, isKey, isMore⟩ := isBody.of_spaced_cons isBlank_isPlain
  obtain ⟨colon, after, rfl, isColon, isValue⟩ := isMore.of_spaced_cons isBlank_isPlain
  obtain ⟨leftName, name, rfl, isName⟩ := Yields.name isKey
  obtain ⟨item, rfl⟩ := isSingle_value isConstant after isValue
  rw [isColon.of_isPlain rfl]
  exact ⟨left, leftAfter, leftName, name, item, rfl, isName, isValue⟩

theorem Yields.object (yields : Yields (.call (objectRule isConstant)) trees) :
    ∃ left leftAfter fields, trees = [.branch (objectRule isConstant) left leftAfter fields] ∧
      ∀ field ∈ fields, ∃ left leftAfter leftName name item,
        field = .branch (fieldRule isConstant) left leftAfter [.token .name leftName name, item] ∧ IsName name ∧
          Yields (.call (valueRule isConstant)) [item] := by
  obtain ⟨left, leftAfter, fields, rfl, isBody⟩ := yields.of_branch (by cases isConstant <;> rfl)
  have isObject : Yields (Rule.within "\x7b" (Rule.manySpaced (.call (fieldRule isConstant))) "\x7d") fields := by
    cases isConstant <;> exact isBody
  have isBranch : Rule.kind (fieldRule isConstant) = .branch := by cases isConstant <;> rfl
  have isPair : Rule.body (fieldRule isConstant) =
      Rule.spaced [.call .name, Rule.word ":", .call (valueRule isConstant)] := by cases isConstant <;> rfl
  refine ⟨left, leftAfter, fields, rfl, fun field member => ?_⟩
  have isField := isObject.of_within.of_manySpaced isBlank_isPlain (isSingle_branch isBranch) field member
  obtain ⟨left, leftAfter, leftName, name, item, same, isName, isValue⟩ := Yields.pair isConstant isBranch isPair isField
  exact ⟨left, leftAfter, leftName, name, item, List.singleton_inj.mp same, isName, isValue⟩

end Values

end SiteQuery.Graphql
