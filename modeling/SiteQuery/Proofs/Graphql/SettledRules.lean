import SiteQuery.Proofs.Graphql.Followed

/-!
The definition of a fragment before another line.

Values, arguments and definitions end with a token or a bracket, so they are settled wherever they stand. A field or a
directive may go on: it is settled where one character tells that it does not.
-/

namespace SiteQuery.Graphql

open Grammar

variable {others input middle rest : List Char} {trees : List (Grammar.SyntaxTree Rule)} {first next : Char → Bool}
  {follow : List Char → Prop} {part second : Rule.Part} {parts : List Rule.Part} {rule : Rule} {size : Nat}

section Combinations

theorem apart_char {d : Char} (isNone : first d = false) : ∀ c, (c == d) = true → first c = false := by
  intro c isChar
  rw [beq_iff_eq.mp isChar, isNone]

theorem char_apart {d : Char} (isNone : next d = false) : ∀ c, next c = true → (c == d) = false := by
  intro c isNext
  rw [beq_eq_false_iff_ne]
  rintro rfl
  rw [isNone] at isNext
  cases isNext

theorem begins_keyword {text : String} {c : Char} {letters : List Char} (isText : text.toList = c :: letters)
    (solid : Rule.isBlank c = false ∧ c ≠ '#') : Begins (· == c) follow (Rule.word text) := by
  simp only [Rule.word, Expression.keyword, isText]
  exact begins_word solid.1 solid.2

theorem steady_keyword {text : String} (oneLine : '\n' ∉ text.toList) : Steady others (Rule.word text) := .word oneLine

theorem Settled.either_steady (steady : Steady others part) (settled : Settled others size follow second) :
    Settled others size follow (.either part second) := by
  intro input trees rest isSmall isMatch isFollow
  refine .either (steady input) fun refused => ?_
  rcases Option.or_eq_some_iff.mp isMatch with isPart | ⟨_, isSecond⟩
  · exact absurd isPart refused.not_matches
  · exact settled input trees rest isSmall isSecond isFollow

theorem settled_zero (strict : part.mayBeEmpty Rule.isOptional = false) : Settled others 0 follow part := by
  intro input trees rest isSmall isMatch _
  have less := (Expression.takes_of_match? grammar_takes isMatch).2 strict
  omega

theorem Settled.smaller {larger : Nat} (settled : Settled others larger follow part) (le : size ≤ larger) :
    Settled others size follow part :=
  fun input trees rest isSmall isMatch isFollow => settled input trees rest (Nat.le_trans isSmall le) isMatch isFollow

/-- A keyword before a sequence. -/
theorem Settled.after_keyword {text : String} (oneLine : '\n' ∉ text.toList)
    (begins : Begins next follow (Rule.spaced (second :: parts)))
    (settled : Settled others size follow (Rule.spaced (second :: parts))) :
    Settled others size follow (Rule.spaced (Rule.word text :: second :: parts)) :=
  .spaced_cons (settled_of_steady (steady_keyword oneLine)) begins settled

theorem Settled.after_name (begins : Begins next follow (Rule.spaced (second :: parts)))
    (settled : Settled others size follow (Rule.spaced (second :: parts))) :
    Settled others size follow (Rule.spaced (.call .name :: second :: parts)) :=
  .spaced_cons (settled_of_steady steady_name) begins settled

end Combinations

section Values

def isNumberStart (c : Char) : Bool := c == '-' || Rule.isDigit c

def isLiteralStart (c : Char) : Bool := isNumberStart c || c == '"' || Rule.isNameStart c || c == '[' || c == '\x7b'

def isValueStart (c : Char) : Bool := c == '$' || isLiteralStart c

theorem Begins.both_option {after : Char → Bool} (begins : Begins first Anywhere part)
    (ofSecond : Begins after follow second) :
    Begins (fun c => first c || after c) follow (.both (.option part) second) := by
  intro input trees rest isMatch isFollow
  obtain ⟨before, middle, others, isFirst, isSecond, _⟩ := Match.next_eq_some.mp isMatch
  rcases Option.or_eq_some_iff.mp isFirst with isPart | ⟨_, isEmpty⟩
  · exact (begins _ _ _ isPart trivial).mono fun c isOne => by simp [isOne]
  · cases isEmpty
    exact (ofSecond _ _ _ isSecond isFollow).mono fun c isOne => by simp [isOne]

theorem begins_integer : Begins isNumberStart Anywhere (.call .integer) := by
  have solid (c : Char) (isDigit : Rule.isDigit c = true) : Rule.isBlank c = false ∧ c ≠ '#' :=
    solid_of_isNameRest (by simp [Rule.isNameRest, isDigit])
  have isDigit (c : Char) (positive : ('1' ≤ c && c ≤ '9') = true) : Rule.isDigit c = true := by
    simp only [Rule.isDigit, Bool.and_eq_true, decide_eq_true_eq] at positive ⊢
    exact ⟨Char.le_trans (by decide) positive.1, positive.2⟩
  have zero : Begins Rule.isDigit Anywhere (Rule.word "0") := by
    have begins : Begins (· == '0') Anywhere (Rule.word "0") := begins_keyword rfl (by decide)
    refine begins.mono fun c isZero => ?_
    rw [beq_iff_eq.mp isZero]
    rfl
  have positive : Begins Rule.isDigit Anywhere (.both (.one fun c => '1' ≤ c && c ≤ '9') (.many (.one Rule.isDigit))) :=
    .both ((begins_one fun c isOne => solid c (isDigit c isOne)).mono isDigit)
  have digits : Begins Rule.isDigit Anywhere _ := (zero.either positive).mono fun c => by simp
  exact .call (Begins.both_option (begins_keyword rfl (by decide)) digits)

theorem begins_number : Begins isNumberStart Anywhere (.call .number) :=
  .call (.both ((Begins.call (.both begins_integer)).either begins_integer |>.mono fun c => by simp))

theorem begins_string : Begins (· == '"') Anywhere (.call .string) := by
  have quotes : Begins (· == '"') Anywhere Rule.quotes := begins_keyword rfl (by decide)
  have quote : Begins (· == '"') Anywhere (Rule.word "\"") := begins_keyword rfl (by decide)
  exact .call ((Begins.both quotes).either quote.both |>.mono fun c => by simp)

theorem Begins.absent_both (begins : Begins first follow second) : Begins first follow (.both (.absent part) second) := by
  intro input trees rest isMatch isFollow
  obtain ⟨before, middle, after, isAbsent, isSecond, _⟩ := Match.next_eq_some.mp isMatch
  obtain ⟨_, rfl⟩ := accepts_absent isAbsent
  exact begins _ _ _ isSecond isFollow

theorem begins_literals : Begins isLiteralStart Anywhere (.choice ([Rule.number, .string, .boolean, .null, .enumValue,
    .list, .object].map .call)) := by
  have keyword {text : String} {c : Char} {letters : List Char} (isText : text.toList = c :: letters)
      (isStart : Rule.isNameStart c = true) : Begins Rule.isNameStart Anywhere (Rule.word text) := by
    refine (begins_keyword isText (solid_of_isNameRest (by simp [Rule.isNameRest, isStart]))).mono fun d isFirst => ?_
    rwa [beq_iff_eq.mp isFirst]
  have boolean : Begins Rule.isNameStart Anywhere (.call .boolean) :=
    .call ((keyword rfl rfl).either (keyword rfl rfl) |>.mono fun c => by simp)
  have null : Begins Rule.isNameStart Anywhere (.call .null) := .call (keyword rfl rfl)
  have enumValue : Begins Rule.isNameStart Anywhere (.call .enumValue) := .call begins_name.absent_both
  have list : Begins (· == '[') Anywhere (.call .list) := .call (.spaced_cons (begins_keyword rfl (by decide)))
  have object : Begins (· == '\x7b') Anywhere (.call .object) := .call (.spaced_cons (begins_keyword rfl (by decide)))
  have all := begins_number.either (begins_string.either (boolean.either (null.either (enumValue.either (list.either object)))))
  refine all.mono fun c isOne => ?_
  simp only [Bool.or_eq_true, isLiteralStart] at isOne ⊢
  tauto

theorem begins_value : Begins isValueStart Anywhere (.call .value) :=
  .call ((Begins.call (.spaced_cons (begins_keyword rfl (by decide)))).either begins_literals)

theorem settled_variableName : Settled others size Anywhere (.call .variableName) :=
  .call (.after_keyword (by decide) begins_name (settled_of_steady steady_name))

/-- An argument or the field of an object. -/
theorem settled_pair (isPair : Rule.body rule = Rule.spaced [.call .name, Rule.word ":", .call .value])
    (ofValue : Settled others size Anywhere (.call .value)) : Settled others size Anywhere (.call rule) := by
  refine .call ?_
  rw [isPair]
  exact .after_name (.spaced_cons (begins_keyword rfl (by decide))) (.after_keyword (by decide) begins_value ofValue)

theorem begins_pair (isPair : Rule.body rule = Rule.spaced [.call .name, Rule.word ":", .call .value]) :
    Begins Rule.isNameStart follow (.call rule) := by
  refine .call ?_
  rw [isPair]
  exact .spaced_cons begins_name

theorem settled_list (ofValue : Settled others size Anywhere (.call .value)) :
    Settled others (size + 1) Anywhere (.call .list) :=
  .call (.within (.manySpaced ofValue.before begins_value rfl (apart_char rfl)) rfl rfl rfl rfl (by decide))

theorem settled_object (ofValue : Settled others size Anywhere (.call .value)) :
    Settled others (size + 1) Anywhere (.call .object) :=
  .call (.within (.manySpaced (settled_pair rfl ofValue).before (begins_pair rfl) rfl (apart_char rfl)) rfl rfl rfl rfl
    (by decide))

/-- By the size of the text, since lists and objects hold values in turn. -/
theorem settled_value (noQuote : '"' ∉ others) (size : Nat) : Settled others size Anywhere (.call .value) := by
  have step {size : Nat} (ofList : Settled others size Anywhere (.call .list))
      (ofObject : Settled others size Anywhere (.call .object)) : Settled others size Anywhere (.call .value) := by
    have brackets : Settled others size Anywhere (.either (.call .list) (.call .object)) :=
      ofList.either ofObject (.call (.spaced_cons (begins_keyword rfl (by decide))))
        (.call (.spaced_cons (begins_keyword rfl (by decide)))) (apart_char rfl)
    have literals := Settled.either_steady steady_number (.either_steady (steady_string noQuote)
      (.either_steady steady_boolean (.either_steady steady_null (.either_steady steady_enumValue brackets))))
    exact .call (settled_variableName.either literals (.call (.spaced_cons (begins_keyword rfl (by decide))))
      begins_literals (char_apart rfl))
  induction size with
  | zero => exact step (settled_zero rfl) (settled_zero rfl)
  | succ size ih => exact step (settled_list ih) (settled_object ih)

end Values

section Clauses

theorem begins_arguments : Begins (· == '(') Anywhere (.call .arguments) :=
  .call (.spaced_cons (begins_keyword rfl (by decide)))

theorem begins_directive : Begins (· == '@') Anywhere (.call .directive) :=
  .call (.spaced_cons (begins_keyword rfl (by decide)))

theorem begins_directives : Begins (· == '@') Anywhere (.call .directives) := .call (.spaced_cons begins_directive)

theorem settled_arguments (noQuote : '"' ∉ others) : Settled others size Anywhere (.call .arguments) := by
  have ofArgument : Settled others size Anywhere (.call .argument) := settled_pair rfl (settled_value noQuote size)
  have larger : Settled others (size + 1) Anywhere (Rule.body .arguments) :=
    .within (.someSpaced ofArgument.before (begins_pair rfl) rfl (apart_char rfl)) rfl rfl rfl rfl (by decide)
  exact .call (larger.smaller (Nat.le_succ size))

theorem settled_directive (noQuote : '"' ∉ others) (noArguments : next '(' = false) :
    Settled others size (Follows next) (.call .directive) := by
  have ofArguments : Settled others size (Follows next) (.option (.call .arguments)) :=
    (settled_arguments noQuote).before.option begins_arguments (char_apart noArguments)
  exact .call (.after_keyword (by decide) (.spaced_cons begins_name) (.after_name begins_arguments.before.option ofArguments))

theorem settled_directives (noQuote : '"' ∉ others) (noArguments : next '(' = false) (noDirective : next '@' = false) :
    Settled others size (Follows next) (.call .directives) :=
  .call (.someSpaced (settled_directive noQuote (by simp [noArguments])) begins_directive rfl (char_apart noDirective))

theorem settled_optionDirectives (noQuote : '"' ∉ others) (noArguments : next '(' = false) (noDirective : next '@' = false) :
    Settled others size (Follows next) (.option (.call .directives)) :=
  (settled_directives noQuote noArguments noDirective).option begins_directives (char_apart noDirective)

end Clauses

section Conditions

/-- White space goes on for as long as before if something else comes behind it in the text. -/
theorem steadyAt_whiteSpace (more : skipBlanks input ≠ []) : SteadyAt others (.many (.one Rule.isBlank)) input := by
  have split := List.takeWhile_append_dropWhile (p := Rule.isBlank) (l := input)
  have areBlank : ∀ c ∈ input.takeWhile Rule.isBlank, Rule.isBlank c = true := fun c member => List.mem_takeWhile_imp member
  cases behind : input.dropWhile Rule.isBlank with
  | nil =>
    have allBlank : skipBlanks (input.takeWhile Rule.isBlank ++ []) = skipBlanks [] := afterBlank_append areBlank
    rw [behind] at split
    rw [split, skipBlanks_nil] at allBlank
    exact absurd allBlank more
  | cons c rest =>
    have stops : Rule.isBlank c = false := by
      have isHead := List.head?_dropWhile_not Rule.isBlank input
      rw [behind] at isHead
      exact isHead
    have isHead (tail : List Char) : ∀ d ∈ (c :: rest ++ tail).head?, Rule.isBlank d = false := by
      intro d same
      cases same
      exact stops
    rw [behind] at split
    have here : Accepts (.many (.one Rule.isBlank)) (input.takeWhile Rule.isBlank ++ (c :: rest)) [] (c :: rest) :=
      .many_one areBlank (by simpa using isHead [])
    have there : Accepts (.many (.one Rule.isBlank)) (input.takeWhile Rule.isBlank ++ (c :: rest ++ '\n' :: others)) []
        (c :: rest ++ '\n' :: others) := .many_one areBlank (isHead _)
    rw [← List.append_assoc, split] at there
    rw [split] at here
    exact .of_matches here there

/-- The rest of a type condition, behind the keyword. -/
abbrev conditionName : Rule.Part := .both (.oneOrMore (.one Rule.isBlank)) (.call .name)

theorem begins_conditionName : Begins Rule.isNameStart Anywhere conditionName := by
  intro input trees rest isMatch _
  obtain ⟨before, middle, after, isSpace, isName, _⟩ := Match.next_eq_some.mp isMatch
  obtain ⟨_, place, _, isFirst, isMany, _⟩ := Match.next_eq_some.mp isSpace
  obtain ⟨c, rfl, isBlank⟩ := accepts_one isFirst
  obtain ⟨space, rfl, areBlank⟩ := accepts_many_one isMany
  have begins : Begins Rule.isNameStart Anywhere (.call .name) := begins_name
  have skipped : skipBlanks (space ++ middle) = skipBlanks middle := afterBlank_append areBlank
  rw [← follows_skipBlanks, skipBlanks_blank isBlank, skipped, follows_skipBlanks]
  exact begins _ _ _ isName trivial

theorem steadyAt_conditionName (more : skipBlanks input ≠ []) : SteadyAt others conditionName input := by
  refine Expression.SteadyAt.both ?_ fun _ place _ => steady_name place
  cases input with
  | nil => exact absurd skipBlanks_nil more
  | cons c input =>
    refine Expression.steadyAt_one_cons.both fun trees rest isFirst => steadyAt_whiteSpace ?_
    obtain ⟨d, same, isBlank⟩ := accepts_one isFirst
    rwa [same, skipBlanks_blank isBlank] at more

theorem begins_typeCondition : Begins (· == 'o') Anywhere (.call .typeCondition) :=
  .call (.both (begins_keyword rfl (by decide)))

theorem settled_typeCondition : Settled others size Anywhere (.call .typeCondition) := by
  refine .call fun input trees rest _ isMatch _ => ?_
  obtain ⟨before, middle, after, isWord, isName, _⟩ := Match.next_eq_some.mp isMatch
  have atName := begins_conditionName _ _ _ isName trivial
  exact Expression.SteadyAt.both_of_matches (steady_keyword (by decide) input) isWord (steadyAt_conditionName atName.notEmpty)

/-- What is read as a name is no type condition then either. -/
theorem steadyAt_typeCondition (isName : Accepts (.call .name) input trees rest) (more : skipBlanks rest ≠ []) :
    SteadyAt others (.call .typeCondition) input := by
  refine SteadyAt.call (.both (steady_keyword (by decide) input) fun _ place isWord => steadyAt_conditionName ?_)
  obtain rfl : input = ['o', 'n'] ++ place := accepts_word isWord
  have whole (ends : NameEnds place) : skipBlanks place ≠ [] := by
    have keyword : IsName ['o', 'n'] := ⟨rfl, List.forall_mem_singleton.mpr rfl⟩
    have isOn := accepts_name keyword ends
    obtain ⟨_, rfl⟩ := isName.unique isOn
    exact more
  cases place with
  | nil => exact whole nofun
  | cons c place =>
    cases goesOn : Rule.isNameRest c with
    | false => exact whole (by rintro d ⟨⟩; exact goesOn)
    | true =>
      obtain ⟨notBlank, notComment⟩ := solid_of_isNameRest goesOn
      simp [skipBlanks_solid notBlank notComment]

end Conditions

section Selections

/-- What a selection starts with. -/
def isSelectionStart (c : Char) : Bool := Rule.isNameStart c || c == '.'

/-- What follows a selection: another one, or the end of the set. -/
def isAfterSelection (c : Char) : Bool := isSelectionStart c || c == '\x7d'

theorem begins_selectionSet : Begins (· == '\x7b') Anywhere (.call .selectionSet) :=
  .call (.spaced_cons (begins_keyword rfl (by decide)))

/-- What may end a field, from the arguments to the selections. -/
abbrev fieldEnd : Rule.Part :=
  Rule.spaced [.option (.call .arguments), .option (.call .directives), .option (.call .selectionSet)]

theorem begins_fieldEnd : Begins (fun c => c == '(' || (c == '@' || (c == '\x7b' || isAfterSelection c)))
    (Follows isAfterSelection) fieldEnd :=
  begins_arguments.spaced_option (begins_directives.spaced_option begins_selectionSet.before.option)

theorem settled_fieldEnd (noQuote : '"' ∉ others) (ofSet : Settled others size Anywhere (.call .selectionSet)) :
    Settled others size (Follows isAfterSelection) fieldEnd := by
  have ofSets : Settled others size (Follows isAfterSelection) (Rule.spaced [.option (.call .selectionSet)]) :=
    ofSet.before.option begins_selectionSet (char_apart rfl)
  have ofDirectives := (settled_optionDirectives noQuote rfl rfl).spaced_cons begins_selectionSet.before.option ofSets
  refine .spaced_cons ?_ (begins_directives.spaced_option begins_selectionSet.before.option) ofDirectives
  exact (settled_arguments noQuote).before.option begins_arguments (char_apart rfl)

theorem settled_fieldAlias : Settled others size Anywhere (.call .fieldAlias) :=
  .call (.after_name (begins_keyword rfl (by decide)) (settled_of_steady (steady_keyword (by decide))))

/-- Without a colon a name is no alias, whatever comes later. -/
theorem steadyAt_fieldAlias (more : ∀ trees rest, Accepts (.call .name) input trees rest → skipBlanks rest ≠ []) :
    SteadyAt others (.call .fieldAlias) input := by
  have colon : Steady others (Rule.word ":") := steady_keyword (by decide)
  refine SteadyAt.call ((steady_name input).both fun trees rest isName => ?_)
  exact (steadyAt_blank (more trees rest isName)).both fun _ place _ => colon place

theorem skipBlanks_of_name (isName : Accepts (.call .name) input trees rest) : skipBlanks input = input := by
  obtain ⟨left, text, rfl, _, isName⟩ := name_of_accepts isName
  exact afterBlank_of_solid (isName.startsSolid.solid rest)

theorem settled_field (noQuote : '"' ∉ others) (ofSet : Settled others size Anywhere (.call .selectionSet)) :
    Settled others size (Follows isAfterSelection) (.call .field) := by
  refine .call fun input trees rest isSmall isMatch follows => ?_
  obtain ⟨before, middle, after, isAlias, isNamed, _⟩ := accepts_spaced_cons.mp isMatch
  obtain ⟨_, stop, _, isName, isEnd, _⟩ := accepts_spaced_cons.mp isNamed
  have atStop := follows_skipBlanks.mp (begins_fieldEnd _ _ _ isEnd follows)
  have notEmpty := skipBlanks_notEmpty_of_accepts rfl isName
  have ofNamed : Settled others size (Follows isAfterSelection) (Rule.spaced _) :=
    .after_name begins_fieldEnd (settled_fieldEnd noQuote ofSet)
  have shorter := (Expression.takes_of_match? grammar_takes isAlias).1.length_le
  have still := length_skipBlanks_le middle
  refine SteadyAt.spaced_cons isAlias (.either ?_ fun _ => Expression.Steady.empty input) notEmpty
    (ofNamed _ _ _ (by omega) isNamed follows)
  rcases Option.or_eq_some_iff.mp isAlias with isSome | ⟨_, isEmpty⟩
  · exact settled_fieldAlias _ _ _ isSmall isSome trivial
  · cases isEmpty
    -- the name that an alias would start with is the one of the field
    refine steadyAt_fieldAlias fun names place isOther => ?_
    rw [skipBlanks_of_name isOther] at isName
    obtain ⟨_, rfl⟩ := isName.unique isOther
    exact atStop.notEmpty

theorem begins_field : Begins Rule.isNameStart Anywhere (.call .field) := by
  have beginsAlias : Begins Rule.isNameStart Anywhere (.call .fieldAlias) := .call (.spaced_cons begins_name)
  exact .call ((beginsAlias.spaced_option (.spaced_cons begins_name)).mono fun c => by simp)

theorem begins_directivesSet : Begins (fun c => c == '@' || c == '\x7b') Anywhere
    (Rule.spaced [.option (.call .directives), .call .selectionSet]) :=
  begins_directives.spaced_option begins_selectionSet

theorem settled_directivesSet (noQuote : '"' ∉ others) (ofSet : Settled others size Anywhere (.call .selectionSet)) :
    Settled others size Anywhere (Rule.spaced [.option (.call .directives), .call .selectionSet]) :=
  (settled_optionDirectives noQuote rfl rfl).spaced_cons begins_selectionSet ofSet

theorem settled_inlineFragment (noQuote : '"' ∉ others) (ofSet : Settled others size Anywhere (.call .selectionSet)) :
    Settled others size Anywhere (.call .inlineFragment) := by
  have ofCondition : Settled others size (Follows fun c => c == '@' || c == '\x7b') (.option (.call .typeCondition)) :=
    settled_typeCondition.before.option begins_typeCondition (char_apart rfl)
  exact .call (.after_keyword (by decide) (begins_typeCondition.spaced_option begins_directivesSet)
    (ofCondition.spaced_cons begins_directivesSet (settled_directivesSet noQuote ofSet)))

theorem begins_dots : Begins (· == '.') Anywhere (.either (.call .inlineFragment) (.call .fragmentSpread)) := by
  have inline : Begins (· == '.') Anywhere (.call .inlineFragment) := .call (.spaced_cons (begins_keyword rfl (by decide)))
  have spread : Begins (· == '.') Anywhere (.call .fragmentSpread) := .call (.spaced_cons (begins_keyword rfl (by decide)))
  exact (inline.either spread).mono fun c => by simp

theorem accepts_fragmentSpread (isSpread : Accepts (.call .fragmentSpread) input trees rest) :
    ∃ dots middle names stop directives, Accepts (Rule.word "...") input dots middle ∧
      Refuses (.call .typeCondition) (skipBlanks middle) ∧ Accepts (.call .name) (skipBlanks middle) names stop ∧
      Accepts (.option (.call .directives)) (skipBlanks stop) directives rest := by
  obtain ⟨_, isBody, _⟩ := accepts_call.mp isSpread
  obtain ⟨dots, middle, _, isDots, isMore, _⟩ := accepts_spaced_cons.mp isBody
  obtain ⟨_, place, _, isAbsent, isNamed, _⟩ := accepts_spaced_cons.mp isMore
  obtain ⟨refused, rfl⟩ := accepts_absent isAbsent
  obtain ⟨names, stop, directives, isName, areDirectives, _⟩ := accepts_spaced_cons.mp isNamed
  rw [skipBlanks_skipBlanks] at isName
  exact ⟨dots, middle, names, stop, directives, isDots, refused, isName, areDirectives⟩

theorem settled_fragmentSpread (noQuote : '"' ∉ others) :
    Settled others size (Follows isAfterSelection) (.call .fragmentSpread) := by
  intro input trees rest isSmall isMatch follows
  obtain ⟨dots, middle, names, stop, directives, isDots, refused, isName, areDirectives⟩ := accepts_fragmentSpread isMatch
  have atStop := follows_skipBlanks.mp (begins_directives.before.option _ _ _ areDirectives follows)
  have notEmpty := skipBlanks_notEmpty_of_accepts rfl isName
  have ofDirectives : SteadyAt others (Rule.spaced [.option (.call .directives)]) (skipBlanks stop) :=
    settled_optionDirectives noQuote rfl rfl _ _ _ (Nat.le_refl _) areDirectives follows
  have ofNamed := SteadyAt.spaced_cons isName (steady_name _) atStop.notEmpty ofDirectives
  have ofCondition : SteadyAt others (.absent (.call .typeCondition)) _ := (steadyAt_typeCondition isName atStop.notEmpty).absent
  rw [← skipBlanks_skipBlanks middle] at ofNamed
  have ofAbsent := SteadyAt.spaced_cons (.absent refused) ofCondition (by rwa [skipBlanks_skipBlanks]) ofNamed
  exact SteadyAt.call (.spaced_cons isDots (steady_keyword (by decide) _) notEmpty ofAbsent)

/-- Where a spread is read, no inline fragment is read before other lines. -/
theorem refuses_inlineFragment_append (isSpread : Accepts (.call .fragmentSpread) input trees rest)
    (follows : Follows isAfterSelection rest) : Refuses (.call .inlineFragment) (input ++ '\n' :: others) := by
  obtain ⟨dots, middle, names, stop, directives, isDots, refused, isName, areDirectives⟩ := accepts_fragmentSpread isSpread
  have atStop := follows_skipBlanks.mp (begins_directives.before.option _ _ _ areDirectives follows)
  have begins : Begins Rule.isNameStart Anywhere (.call .name) := begins_name
  have atName := (begins _ _ _ isName trivial).append ('\n' :: others)
  have ofDots : Steady others (Rule.word "...") := steady_keyword (by decide)
  have ofCondition : SteadyAt others (.call .typeCondition) _ := steadyAt_typeCondition isName atStop.notEmpty
  have dotsStill := (ofDots input).matches isDots
  have noCondition := ofCondition.refuses refused
  have apart (c : Char) (isStart : Rule.isNameStart c = true) : (c == '@' || c == '\x7b') = false :=
    Bool.or_eq_false_iff.mpr ⟨char_apart rfl c isStart, char_apart rfl c isStart⟩
  have noSet := refuses_of_follows begins_directivesSet (follows_skipBlanks.mpr atName) apart
  have inner := Expression.Refuses.spaced_cons isBlank_blank (.option_none noCondition) noSet
  rw [← skipBlanks_append (skipBlanks_notEmpty_of_accepts rfl isName)] at inner
  exact refuses_call (.spaced_cons isBlank_blank dotsStill.reaches inner)

theorem settled_selection (noQuote : '"' ∉ others) (ofSet : Settled others size Anywhere (.call .selectionSet)) :
    Settled others size (Follows isAfterSelection) (.call .selection) := by
  have inner : Settled others size (Follows isAfterSelection) (.either (.call .inlineFragment) (.call .fragmentSpread)) := by
    intro input trees rest isSmall isMatch follows
    rcases Option.or_eq_some_iff.mp isMatch with isInline | ⟨refused, isSpread⟩
    · refine .either (settled_inlineFragment noQuote ofSet _ _ _ isSmall isInline trivial) fun refused => ?_
      exact absurd isInline refused.not_matches
    · refine .either (.of_refuses refused (refuses_inlineFragment_append isSpread follows)) fun _ => ?_
      exact settled_fragmentSpread noQuote _ _ _ isSmall isSpread follows
  exact .call ((settled_field noQuote ofSet).either inner begins_field begins_dots.before (apart_char rfl))

theorem begins_selection : Begins isSelectionStart Anywhere (.call .selection) :=
  .call (begins_field.either begins_dots)

theorem settled_selectionSet (noQuote : '"' ∉ others) (size : Nat) : Settled others size Anywhere (.call .selectionSet) := by
  induction size with
  | zero => exact settled_zero rfl
  | succ size ih =>
    exact .call (.within (.someSpaced (settled_selection noQuote ih) begins_selection rfl (apart_char rfl)) rfl rfl rfl rfl
      (by decide))

theorem settled_fragmentDefinition (noQuote : '"' ∉ others) : Settled others size Anywhere (.call .fragmentDefinition) := by
  have ofSet := settled_directivesSet noQuote (settled_selectionSet noQuote size)
  have ofCondition := settled_typeCondition.before.spaced_cons begins_directivesSet ofSet
  exact .call (.after_keyword (by decide) (.spaced_cons begins_name)
    (.after_name (.spaced_cons begins_typeCondition) ofCondition))

end Selections

end SiteQuery.Graphql
