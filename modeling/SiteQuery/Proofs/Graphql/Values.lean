import SiteQuery.Proofs.Graphql.Literals

/-!
The text of a value is read back as that value.
-/

namespace SiteQuery.Graphql

open Grammar

/-- The rule of values, or of constants. -/
def valueRule (isConstant : Bool) : Rule := if isConstant then .constValue else .value

def listRule (isConstant : Bool) : Rule := if isConstant then .constList else .list

def objectRule (isConstant : Bool) : Rule := if isConstant then .constObject else .object

def fieldRule (isConstant : Bool) : Rule := if isConstant then .constObjectField else .objectField

/-- All values that are no variables. -/
def literals (isConstant : Bool) : Rule.Part :=
  .choice ([.number, .string, .boolean, .null, .enumValue, listRule isConstant, objectRule isConstant].map .call)

/-- The rules of the trees that literals leave. -/
def Rule.isLiteral : Rule → Bool
  | number | string | boolean | null | enumValue | list | constList | object | constObject => true
  | _ => false

namespace Value

mutual

/-- The numbers in a value that are no integers of 64 bits. -/
def rounded : Value → List Decimal.Binary64
  | number (.binary n) => [n]
  | list items => roundedItems items
  | object fields => roundedFields fields
  | _ => []

def roundedItems : List Value → List Decimal.Binary64
  | [] => []
  | item :: rest => rounded item ++ roundedItems rest

def roundedFields : List (String × Value) → List Decimal.Binary64
  | [] => []
  | (_, value) :: rest => rounded value ++ roundedFields rest

end

theorem roundedItems_eq (items : List Value) : roundedItems items = items.flatMap rounded := by
  induction items with
  | nil => rfl
  | cons item rest ih => rw [roundedItems, ih, List.flatMap_cons]

theorem roundedFields_eq (fields : List (String × Value)) : roundedFields fields = fields.flatMap (rounded ·.2) := by
  induction fields with
  | nil => rfl
  | cons field rest ih => rw [roundedFields, ih, List.flatMap_cons]

theorem textItems_eq (items : List Value) : textItems items = items.map text := by
  induction items with
  | nil => rfl
  | cons item rest ih => rw [textItems, ih, List.map_cons]

def fieldText (field : String × Value) : String := field.1 ++ ": " ++ field.2.text

theorem textFields_eq (fields : List (String × Value)) : textFields fields = fields.map fieldText := by
  induction fields with
  | nil => rfl
  | cons field rest ih =>
    rw [textFields, ih, List.map_cons]
    rfl

end Value

section Refusals

variable {isConstant : Bool} {input rest : List Char} {trees : List (Grammar.SyntaxTree Rule)}

theorem refuses_integer (noDigit : ∀ c ∈ input.head?, Rule.isDigit c = false ∧ c ≠ '-') :
    Refuses (.call .integer) input := by
  have noSign : Accepts (.option (Rule.word "-")) input [] input :=
    .right (.word_head fun c isHead => (noDigit c isHead).2) rfl
  refine refuses_call (.both_right noSign (.either (.word_head fun c isHead => ?_) (.both_left (.one fun c isHead => ?_))))
  · rintro rfl
    exact absurd (noDigit _ isHead).1 (by decide)
  · have notDigit := (noDigit c isHead).1
    simp only [Rule.isDigit, Bool.and_eq_false_iff, decide_eq_false_iff_not] at notDigit ⊢
    rcases notDigit with low | high
    · exact .inl fun isLow => low (Char.le_trans (by decide) isLow)
    · exact .inr high

theorem refuses_number (noDigit : ∀ c ∈ input.head?, Rule.isDigit c = false ∧ c ≠ '-') :
    Refuses (.call .number) input :=
  refuses_call (.both_left (.either (refuses_call (.both_left (refuses_integer noDigit))) (refuses_integer noDigit)))

theorem refuses_string (noQuote : ∀ c ∈ input.head?, c ≠ '"') : Refuses (.call .string) input :=
  refuses_call (.either (.both_left (.word_head noQuote)) (.both_left (.word_head noQuote)))

theorem refuses_boolean (noTrue : ¬ "true".toList <+: input) (noFalse : ¬ "false".toList <+: input) :
    Refuses (.call .boolean) input :=
  refuses_call (.either (.word noTrue) (.word noFalse))

theorem refuses_null (noNull : ¬ "null".toList <+: input) : Refuses (.call .null) input := refuses_call (.word noNull)

theorem refuses_variableName (noDollar : ∀ c ∈ input.head?, c ≠ '$') : Refuses (.call .variableName) input :=
  refuses_call (.spaced_head (.word_head noDollar))

theorem reaches_value (reaches : Reaches (literals isConstant) input trees rest) (noDollar : ∀ c ∈ input.head?, c ≠ '$') :
    Reaches (.call (valueRule isConstant)) input trees rest := by
  cases isConstant with
  | true => exact reaches_spliced rfl reaches
  | false => exact reaches_spliced rfl (.right (refuses_variableName noDollar) reaches)

theorem forall_head {c : Char} {others : List Char} {property : Char → Prop} (holds : property c) :
    ∀ d ∈ (c :: others).head?, property d := by
  intro d isHead
  cases isHead
  exact holds

theorem not_prefix_cons {word : List Char} {c d : Char} {others : List Char} (isHead : word.head? = some c)
    (differs : c ≠ d) : ¬ word <+: d :: others := by
  rintro ⟨more, same⟩
  cases word with
  | nil => cases isHead
  | cons first word =>
    cases isHead
    exact differs (List.cons.inj same).1

theorem not_isKeyworded_cons {c : Char} {others : List Char} (noT : 't' ≠ c) (noF : 'f' ≠ c) (noN : 'n' ≠ c) :
    ¬ IsKeyworded (c :: others) := by
  rintro (isTrue | isFalse | isNull)
  · exact not_prefix_cons rfl noT isTrue
  · exact not_prefix_cons rfl noF isFalse
  · exact not_prefix_cons rfl noN isNull

theorem refuses_enumValue (noName : ∀ c ∈ input.head?, Rule.isNameStart c = false) : Refuses (.call .enumValue) input :=
  refuses_call (.absent_both (refuses_name noName))

theorem refuses_list (noBracket : ∀ c ∈ input.head?, c ≠ '[') : Refuses (.call (listRule isConstant)) input := by
  cases isConstant <;> exact refuses_call (.spaced_head (.word_head noBracket))

theorem refuses_object (noBrace : ∀ c ∈ input.head?, c ≠ '\x7b') : Refuses (.call (objectRule isConstant)) input := by
  cases isConstant <;> exact refuses_call (.spaced_head (.word_head noBrace))

/-- No value begins with a closing bracket. -/
theorem refuses_value_closing : Refuses (.call (valueRule isConstant)) (']' :: rest) := by
  have noKeyword : ¬ IsKeyworded (']' :: rest) := not_isKeyworded_cons (by decide) (by decide) (by decide)
  simp only [IsKeyworded, not_or] at noKeyword
  have refused : Refuses (literals isConstant) (']' :: rest) := by
    refine .either (refuses_number (forall_head (by decide))) (.either (refuses_string (forall_head (by decide))) ?_)
    refine .either (refuses_boolean noKeyword.1 noKeyword.2.1) (.either (refuses_null noKeyword.2.2) ?_)
    refine .either (refuses_enumValue (forall_head (by decide))) (.either ?_ ?_)
    · exact refuses_list (forall_head (by decide))
    · exact refuses_object (forall_head (by decide))
  cases isConstant with
  | true => exact refuses_call refused
  | false => exact refuses_call (.either (refuses_variableName (forall_head (by decide))) refused)

theorem prefix_of_prefix_append {word name : List Char} (areName : ∀ c ∈ word, Rule.isNameRest c = true)
    (ends : NameEnds rest) (isPrefix : word <+: name ++ rest) : word <+: name := by
  induction word generalizing name with
  | nil => exact List.nil_prefix
  | cons c word ih =>
    obtain ⟨more, same⟩ := isPrefix
    cases name with
    | nil =>
      have noName := ends c (by rw [← same.trans (List.nil_append rest)]; rfl)
      rw [areName c List.mem_cons_self] at noName
      cases noName
    | cons d name =>
      obtain ⟨rfl, sameRest⟩ : c = d ∧ word ++ more = name ++ rest := by simpa using same
      have inner := ih (fun e member => areName e (List.mem_cons_of_mem _ member)) ⟨more, sameRest⟩
      exact List.cons_prefix_cons.mpr ⟨rfl, inner⟩

theorem isKeyworded_of_append {name : List Char} (ends : NameEnds rest) (keyworded : IsKeyworded (name ++ rest)) :
    IsKeyworded name := by
  rcases keyworded with isTrue | isFalse | isNull
  · exact .inl (prefix_of_prefix_append (List.all_eq_true.mp (by decide)) ends isTrue)
  · exact .inr (.inl (prefix_of_prefix_append (List.all_eq_true.mp (by decide)) ends isFalse))
  · exact .inr (.inr (prefix_of_prefix_append (List.all_eq_true.mp (by decide)) ends isNull))

end Refusals

section Tokens

variable {name : String} {rest : List Char}

theorem nameOf_token (left : Nat) (name : String) : Document.nameOf (.token .name left name.toList) = name := by
  simp [Document.nameOf]

theorem reaches_variableName (isName : IsName name.toList) (ends : NameEnds rest) :
    ∃ left leftAfter leftName, Reaches (.call .variableName) (['$'] ++ (name.toList ++ rest))
      [.branch .variableName left leftAfter [.token .name leftName name.toList]] rest := by
  obtain ⟨leftName, named⟩ := reaches_name isName ends
  have body : Reaches (Rule.body .variableName) (['$'] ++ (name.toList ++ rest))
      ([] ++ [.token .name leftName name.toList]) rest := by
    refine (reaches_word ['$'] _).spaced_cons isBlank_blank ?_
    rwa [afterBlank_of_solid (isName.startsSolid.solid rest)]
  obtain ⟨leftAfter, reaches⟩ := reaches_branch .variableName rfl body
  exact ⟨_, leftAfter, leftName, reaches⟩

end Tokens

section Trees

variable {places : Places} {left leftAfter : Nat}

theorem readValue_reference (name : SyntaxTree) (rest : List SyntaxTree) :
    Document.readValue places (.branch .variableName left leftAfter (name :: rest)) =
      .ok (.reference (Document.nameOf name)) := rfl

theorem readValue_enum (name : SyntaxTree) (rest : List SyntaxTree) :
    Document.readValue places (.branch .enumValue left leftAfter (name :: rest)) = .ok (.enum (Document.nameOf name)) := rfl

theorem readValue_string (leftText : Nat) (text : List Char) :
    Document.readValue places (.branch .string left leftAfter [.token .stringContent leftText text]) =
      .ok (.string (String.ofList (Escaped.decode text))) := rfl

theorem readValue_number {number : Number} {text : List Char} (isNumber : Number.ofLiteral? text = some number) :
    Document.readValue places (.token .number left text) = .ok (.number number) := by
  simp only [Document.readValue, isNumber]

end Trees

/-- A tree is read as the value; a constant leaves a literal. -/
structure ReadsValue (isConstant : Bool) (value : Value) (tree : SyntaxTree) : Prop where
  read : ∀ places, Document.readValue places tree = .ok value
  literal : isConstant = true → tree.rule.isLiteral = true

/-- The text is read back wherever a value may stand. -/
structure Value.Restored (isConstant : Bool) (value : Value) : Prop where
  starts : StartsSolid value.text.toList
  reaches : ∀ rest, Delimited rest → ∃ tree,
    Reaches (.call (valueRule isConstant)) (value.text.toList ++ rest) [tree] rest ∧ ReadsValue isConstant value tree

section Fields

variable {isConstant : Bool}

/-- A name with a value, in any rule of that form. -/
theorem reaches_pair (rule : Rule) (isBranch : Rule.kind rule = .branch)
    (isPair : Rule.body rule = Rule.spaced [.call .name, Rule.word ":", .call (valueRule isConstant)])
    {name : String} (isName : IsName name.toList) {value : Value} (restored : value.Restored isConstant)
    {rest : List Char} (delimited : Delimited rest) :
    ∃ left leftAfter leftName tree, Reaches (.call rule) ((name ++ ": " ++ value.text).toList ++ rest)
      [.branch rule left leftAfter [.token .name leftName name.toList, tree]] rest ∧
      ReadsValue isConstant value tree := by
  obtain ⟨tree, reaches, reads⟩ := restored.reaches rest delimited
  have isText : (name ++ ": " ++ value.text).toList ++ rest =
      name.toList ++ ([':'] ++ (' ' :: (value.text.toList ++ rest))) := by simp
  have colonEnds : NameEnds ([':'] ++ (' ' :: (value.text.toList ++ rest))) := forall_head rfl
  have colonSolid : Solid ([':'] ++ (' ' :: (value.text.toList ++ rest))) := forall_head ⟨rfl, by decide⟩
  obtain ⟨leftName, named⟩ := reaches_name isName colonEnds
  have body : Reaches (Rule.body rule) (name.toList ++ ([':'] ++ (' ' :: (value.text.toList ++ rest))))
      ([.token .name leftName name.toList] ++ ([] ++ [tree])) rest := by
    rw [isPair]
    refine named.spaced_cons isBlank_blank ?_
    rw [afterBlank_of_solid colonSolid]
    refine (reaches_word [':'] _).spaced_cons isBlank_blank ?_
    rwa [afterBlank_cons rfl, afterBlank_of_solid (restored.starts.solid rest)]
  obtain ⟨leftAfter, reachesRule⟩ := reaches_branch rule isBranch body
  rw [isText]
  exact ⟨_, leftAfter, leftName, tree, reachesRule, reads⟩

end Fields

namespace Value.Restored

variable {isConstant : Bool}

theorem of_literal {value : Value} {c : Char} {others : List Char} (isText : value.text.toList = c :: others)
    (notBlank : Rule.isBlank c = false) (noComment : c ≠ '#') (noDollar : c ≠ '$')
    (reaches : ∀ rest, Delimited rest → ∃ tree, Reaches (literals isConstant) (value.text.toList ++ rest) [tree] rest ∧
      (∀ places, Document.readValue places tree = .ok value) ∧ tree.rule.isLiteral = true) :
    value.Restored isConstant where
  starts := ⟨c, others, isText, notBlank, noComment⟩
  reaches rest delimited := by
    obtain ⟨tree, accepted, read, literal⟩ := reaches rest delimited
    refine ⟨tree, reaches_value accepted ?_, read, fun _ => literal⟩
    rw [isText]
    exact forall_head noDollar

theorem reference {name : String} (isName : IsName name.toList) : (Value.reference name).Restored false where
  starts := ⟨'$', name.toList, by simp [text], rfl, by decide⟩
  reaches rest delimited := by
    obtain ⟨left, leftAfter, leftName, reaches⟩ := reaches_variableName isName delimited.nameEnds
    refine ⟨.branch .variableName left leftAfter [.token .name leftName name.toList], ?_, ?_, nofun⟩
    · have isText : (Value.reference name).text.toList ++ rest = ['$'] ++ (name.toList ++ rest) := by simp [text]
      rw [isText]
      exact reaches_spliced rfl (.left reaches)
    · intro places
      rw [readValue_reference, nameOf_token]

theorem null : Value.null.Restored isConstant := by
  have isText : Value.null.text.toList = 'n' :: "ull".toList := rfl
  refine of_literal isText rfl (by decide) (by decide) fun rest _ => ?_
  refine ⟨.token .null (4 + rest.length) "null".toList, ?_, fun _ => rfl, rfl⟩
  have token : Accepts (.call .null) ("null".toList ++ rest) [.token .null (4 + rest.length) "null".toList] rest :=
    accepts_token rfl (.word _ rest)
  refine .right (refuses_number (forall_head (by decide))) (.right (refuses_string (forall_head (by decide))) ?_)
  have notTrue : ¬ "true".toList <+: "null".toList ++ rest := not_prefix_cons rfl (show 't' ≠ 'n' by decide)
  have notFalse : ¬ "false".toList <+: "null".toList ++ rest := not_prefix_cons rfl (show 'f' ≠ 'n' by decide)
  exact .right (refuses_boolean notTrue notFalse) (.left token.reaches)

theorem boolean (flag : Bool) : (Value.boolean flag).Restored isConstant := by
  cases flag with
  | true =>
    have isText : (Value.boolean true).text.toList = 't' :: "rue".toList := rfl
    refine of_literal isText rfl (by decide) (by decide) fun rest _ => ?_
    refine ⟨.token .boolean (4 + rest.length) "true".toList, ?_, fun _ => rfl, rfl⟩
    have token : Accepts (.call .boolean) ("true".toList ++ rest) [.token .boolean (4 + rest.length) "true".toList] rest :=
      accepts_token rfl (.left (.word _ rest))
    refine .right (refuses_number (forall_head (by decide))) (.right (refuses_string (forall_head (by decide))) ?_)
    exact .left token.reaches
  | false =>
    have isText : (Value.boolean false).text.toList = 'f' :: "alse".toList := rfl
    refine of_literal isText rfl (by decide) (by decide) fun rest _ => ?_
    refine ⟨.token .boolean (5 + rest.length) "false".toList, ?_, fun _ => rfl, rfl⟩
    have notTrue : Refuses (Rule.word "true") ("false".toList ++ rest) := .word (not_prefix_cons rfl (by decide))
    have token : Accepts (.call .boolean) ("false".toList ++ rest) [.token .boolean (5 + rest.length) "false".toList] rest :=
      accepts_token rfl (.right notTrue (.word _ rest))
    refine .right (refuses_number (forall_head (by decide))) (.right (refuses_string (forall_head (by decide))) ?_)
    exact .left token.reaches

theorem number {number : Number} (readsBack : number.ReadsBack) : (Value.number number).Restored isConstant := by
  obtain ⟨sign, whole, fraction, exponent, numeral, isText⟩ := isNumeral_text number
  obtain ⟨c, others, isCons, first⟩ := numeral.exists_head
  have startsWith : (Value.number number).text.toList = c :: others := by rw [Value.text, isText, isCons]
  have solid : Rule.isBlank c = false ∧ c ≠ '#' ∧ c ≠ '$' := by
    rcases first with isDigit | rfl
    · refine ⟨?_, ?_, ?_⟩
      · cases isBlank : Rule.isBlank c with
        | false => rfl
        | true =>
          simp only [Rule.isBlank, Rule.isLineEnd, Bool.or_eq_true, beq_iff_eq] at isBlank
          rcases isBlank with (((rfl | rfl) | rfl) | rfl) | rfl | rfl <;> exact absurd isDigit (by decide)
      · rintro rfl
        exact absurd isDigit (by decide)
      · rintro rfl
        exact absurd isDigit (by decide)
    · decide
  refine of_literal startsWith solid.1 solid.2.1 solid.2.2 fun rest delimited => ?_
  have token := accepts_number numeral delimited.numberEnds
  rw [Value.text, isText]
  refine ⟨_, .left token.reaches, fun places => ?_, rfl⟩
  rw [← isText]
  exact readValue_number readsBack.exact

theorem string (content : String) : (Value.string content).Restored isConstant := by
  have isText : (Value.string content).text.toList = Quoted.encode content.toList := by simp [Value.text, quoted]
  refine of_literal isText rfl (by decide) (by decide) fun rest delimited => ?_
  obtain ⟨left, token⟩ := accepts_string content.toList delimited.noQuote
  rw [isText]
  refine ⟨_, .right (refuses_number (forall_head (by decide))) (.left token.reaches), fun places => ?_, rfl⟩
  rw [readValue_string, Quoted.decode_flatMap_escape, String.ofList_toList]

theorem enum {name : String} (isName : IsName name.toList) (notKeyworded : ¬ IsKeyworded name.toList) :
    (Value.enum name).Restored isConstant := by
  have isText : (Value.enum name).text.toList = name.toList := rfl
  obtain ⟨c, others, isCons, notBlank, noComment⟩ := isName.startsSolid
  have start : Rule.isNameStart c = true := by
    rw [isCons] at isName
    exact isName.1
  have differs {d : Char} (noStart : Rule.isNameStart d = false) : c ≠ d := by
    rintro rfl
    rw [start] at noStart
    cases noStart
  refine of_literal (isText.trans isCons) notBlank noComment (differs rfl) fun rest delimited => ?_
  obtain ⟨leftName, named⟩ := reaches_name isName delimited.nameEnds
  have keywords : ¬ IsKeyworded (name.toList ++ rest) := fun found =>
    notKeyworded (isKeyworded_of_append delimited.nameEnds found)
  simp only [IsKeyworded, not_or] at keywords
  have noBoolean : Refuses (.call .boolean) (name.toList ++ rest) := refuses_boolean keywords.1 keywords.2.1
  have noNull : Refuses (.call .null) (name.toList ++ rest) := refuses_null keywords.2.2
  have noNumber : Refuses (.call .number) (name.toList ++ rest) := by
    rw [isCons]
    exact refuses_number (forall_head ⟨isDigit_of_isNameStart start, differs rfl⟩)
  have noString : Refuses (.call .string) (name.toList ++ rest) := by
    rw [isCons]
    exact refuses_string (forall_head (differs rfl))
  have body : Accepts (Rule.body .enumValue) (name.toList ++ rest)
      ([] ++ [.token .name (name.toList.length + rest.length) name.toList]) rest :=
    (Expression.Matches.absent (.either noBoolean noNull)).both (accepts_name isName delimited.nameEnds)
  have branch := accepts_call.mpr ⟨_, body, rfl⟩
  refine ⟨_, .right noNumber (.right noString (.right noBoolean (.right noNull (.left branch.reaches)))), ?_, rfl⟩
  intro places
  rw [List.nil_append, readValue_enum, nameOf_token]

/-- No literal but a list or an object begins with a bracket or a brace. -/
theorem reaches_collection {text rest : List Char} {c : Char} {others : List Char} {trees : List SyntaxTree}
    (isText : text = c :: others) (noDigit : Rule.isDigit c = false ∧ c ≠ '-' ∧ c ≠ '"')
    (noName : Rule.isNameStart c = false) (noLetter : 't' ≠ c ∧ 'f' ≠ c ∧ 'n' ≠ c)
    (reaches : Reaches (.either (.call (listRule isConstant)) (.call (objectRule isConstant))) (text ++ rest) trees rest) :
    Reaches (literals isConstant) (text ++ rest) trees rest := by
  subst isText
  have noKeyword : ¬ IsKeyworded (c :: others ++ rest) := not_isKeyworded_cons noLetter.1 noLetter.2.1 noLetter.2.2
  simp only [IsKeyworded, not_or] at noKeyword
  refine .right (refuses_number (forall_head ⟨noDigit.1, noDigit.2.1⟩)) ?_
  refine .right (refuses_string (forall_head noDigit.2.2)) (.right (refuses_boolean noKeyword.1 noKeyword.2.1) ?_)
  exact .right (refuses_null noKeyword.2.2) (.right (refuses_enumValue (forall_head noName)) reaches)

theorem readItems_eq {items : List Value} {trees : List SyntaxTree}
    (areRead : List.Forall₂ (ReadsValue isConstant) items trees) (places : Places) :
    Document.readItems places trees = .ok items := by
  induction areRead with
  | nil => rfl
  | cons isRead _ ih =>
    rw [Document.readItems, isRead.read places, ih]
    rfl

theorem list {items : List Value} (inner : ∀ item ∈ items, item.Restored isConstant) :
    (Value.list items).Restored isConstant := by
  have isText : (Value.list items).text = "[" ++ ", ".intercalate (items.map text) ++ "]" := by
    rw [Value.text, textItems_eq]
  have startsWith : (Value.list items).text.toList = '[' :: ((", ".intercalate (items.map text)).toList ++ [']']) := by
    simp [isText]
  refine of_literal startsWith rfl (by decide) (by decide) fun rest delimited => ?_
  have strict : (Expression.call (valueRule isConstant)).IsStrict grammar.match? := by
    cases isConstant <;> exact isStrict_of_mayBeEmpty rfl
  obtain ⟨trees, within, areRead⟩ := reaches_within false "[" "]" rfl ⟨rfl, by decide⟩ strict
    (fun item member => (inner item member).starts) (fun item member => (inner item member).reaches)
    (fun _ _ _ => Delimited.cons rfl) (fun _ => Delimited.cons rfl) (fun rest => refuses_value_closing) nofun rest
  rw [← isText] at within
  obtain ⟨left, leftAfter, branch, read⟩ : ∃ left leftAfter,
      Reaches (.call (listRule isConstant)) ((Value.list items).text.toList ++ rest)
        [.branch (listRule isConstant) left leftAfter trees] rest ∧
      ∀ places, Document.readValue places (.branch (listRule isConstant) left leftAfter trees) =
        Value.list <$> Document.readItems places trees := by
    cases isConstant with
    | true =>
      obtain ⟨leftAfter, branch⟩ := reaches_branch .constList rfl within
      exact ⟨_, leftAfter, branch, fun _ => rfl⟩
    | false =>
      obtain ⟨leftAfter, branch⟩ := reaches_branch .list rfl within
      exact ⟨_, leftAfter, branch, fun _ => rfl⟩
  refine ⟨_, reaches_collection startsWith (by decide) (by decide) (by decide) (.left branch), fun places => ?_, ?_⟩
  · rw [read, readItems_eq areRead]
    rfl
  · cases isConstant <;> rfl

/-- The tree of a field of an object. -/
def ReadsField (isConstant : Bool) (field : String × Value) (tree : SyntaxTree) : Prop :=
  ∃ rule left leftAfter leftName item, tree = .branch rule left leftAfter [.token .name leftName field.1.toList, item] ∧
    ReadsValue isConstant field.2 item

theorem insertField_of_notMem {key : String} {value : Value} {fields : List (String × Value)}
    (fresh : key ∉ fields.map (·.1)) : Value.insertField key value fields = fields ++ [(key, value)] := by
  induction fields with
  | nil => rfl
  | cons field rest ih =>
    simp only [List.map_cons, List.mem_cons, not_or] at fresh
    simp [Value.insertField, Ne.symm fresh.1, ih fresh.2]

theorem readFields_eq {fields : List (String × Value)} {trees : List SyntaxTree}
    (areRead : List.Forall₂ (ReadsField isConstant) fields trees) {seen : List (String × Value)}
    (distinct : ((seen ++ fields).map (·.1)).Nodup) (places : Places) :
    Document.readFields places seen trees = .ok (seen ++ fields) := by
  induction areRead generalizing seen with
  | nil => simp [Document.readFields]
  | @cons field tree fields trees isRead _ ih =>
    obtain ⟨rule, left, leftAfter, leftName, item, rfl, isValue⟩ := isRead
    obtain ⟨key, value⟩ := field
    have fresh : key ∉ seen.map (·.1) := by
      intro member
      simp only [List.map_append, List.map_cons] at distinct
      exact (List.nodup_append.mp distinct).2.2 key member key List.mem_cons_self rfl
    have again : ((seen ++ [(key, value)] ++ fields).map (·.1)).Nodup := by simpa using distinct
    have read := isValue.read places
    simp only at read
    simp only [Document.readFields, read, nameOf_token, insertField_of_notMem fresh]
    exact (ih again).trans (by simp)

theorem object {fields : List (String × Value)} (names : ∀ field ∈ fields, IsName field.1.toList)
    (distinct : (fields.map (·.1)).Nodup) (inner : ∀ field ∈ fields, field.2.Restored isConstant) :
    (Value.object fields).Restored isConstant := by
  have isText : (Value.object fields).text = "\x7b" ++ ", ".intercalate (fields.map fieldText) ++ "\x7d" := by
    rw [Value.text, textFields_eq]
  have startsWith : (Value.object fields).text.toList =
      '\x7b' :: ((", ".intercalate (fields.map fieldText)).toList ++ ['\x7d']) := by
    simp [isText]
  refine of_literal startsWith rfl (by decide) (by decide) fun rest delimited => ?_
  have strict : (Expression.call (fieldRule isConstant)).IsStrict grammar.match? := by
    cases isConstant <;> exact isStrict_of_mayBeEmpty rfl
  have refused (rest : List Char) : Refuses (.call (fieldRule isConstant)) ('\x7d' :: rest) := by
    have noName : Refuses (.call .name) ('\x7d' :: rest) := refuses_name (forall_head (by decide))
    cases isConstant <;> exact refuses_call (.spaced_head noName)
  have starts (field : String × Value) (member : field ∈ fields) : StartsSolid (fieldText field).toList := by
    obtain ⟨c, others, isCons, solid⟩ := (names field member).startsSolid
    exact ⟨c, others ++ (": " ++ field.2.text).toList, by simp [fieldText, isCons], solid⟩
  have accepts (field : String × Value) (member : field ∈ fields) (rest : List Char) (delimited : Delimited rest) :
      ∃ tree, Reaches (.call (fieldRule isConstant)) ((fieldText field).toList ++ rest) [tree] rest ∧
        ReadsField isConstant field tree := by
    have isName := names field member
    obtain ⟨left, leftAfter, leftName, tree, reaches, reads⟩ : ∃ left leftAfter leftName tree,
        Reaches (.call (fieldRule isConstant)) ((fieldText field).toList ++ rest)
          [.branch (fieldRule isConstant) left leftAfter [.token .name leftName field.1.toList, tree]] rest ∧
        ReadsValue isConstant field.2 tree := by
      cases isConstant with
      | true => exact reaches_pair .constObjectField rfl rfl isName (inner field member) delimited
      | false => exact reaches_pair .objectField rfl rfl isName (inner field member) delimited
    exact ⟨_, reaches, fieldRule isConstant, left, leftAfter, leftName, tree, rfl, reads⟩
  obtain ⟨trees, within, areRead⟩ := reaches_within false "\x7b" "\x7d" rfl ⟨rfl, by decide⟩ strict starts accepts
    (fun _ _ _ => Delimited.cons rfl) (fun _ => Delimited.cons rfl) refused nofun rest
  rw [← isText] at within
  obtain ⟨left, leftAfter, branch, read⟩ : ∃ left leftAfter,
      Reaches (.call (objectRule isConstant)) ((Value.object fields).text.toList ++ rest)
        [.branch (objectRule isConstant) left leftAfter trees] rest ∧
      ∀ places, Document.readValue places (.branch (objectRule isConstant) left leftAfter trees) =
        Value.object <$> Document.readFields places [] trees := by
    cases isConstant with
    | true =>
      obtain ⟨leftAfter, branch⟩ := reaches_branch .constObject rfl within
      exact ⟨_, leftAfter, branch, fun _ => rfl⟩
    | false =>
      obtain ⟨leftAfter, branch⟩ := reaches_branch .object rfl within
      exact ⟨_, leftAfter, branch, fun _ => rfl⟩
  have noList : Refuses (.call (listRule isConstant)) ((Value.object fields).text.toList ++ rest) := by
    rw [startsWith]
    exact refuses_list (forall_head (by decide))
  refine ⟨_, reaches_collection startsWith (by decide) (by decide) (by decide) (.right noList branch), fun places => ?_, ?_⟩
  · rw [read, readFields_eq areRead (by simpa using distinct)]
    rfl
  · cases isConstant <;> rfl

end Value.Restored

/-- Printed values are read back, if their rounded numbers are. -/
theorem Value.Printable.restored {isConstant : Bool} {value : Value} (printable : value.Printable isConstant)
    (readBack : ∀ number ∈ value.rounded, (Number.binary number).ReadsBack) : value.Restored isConstant := by
  induction printable with
  | reference isName notConstant =>
    subst notConstant
    exact .reference isName
  | null => exact .null
  | @number number fitting =>
    refine .number ?_
    cases number with
    | integer value => exact ⟨.integer value, Number.ofLiteral?_text (fitting value rfl), beq_self_eq_true value⟩
    | binary value => exact readBack value (List.mem_singleton.mpr rfl)
  | string => exact .string _
  | boolean => exact .boolean _
  | enum isName notKeyworded => exact .enum isName notKeyworded
  | list _ ih =>
    refine .list fun item member => ih item member fun number inItem => readBack number ?_
    rw [rounded, roundedItems_eq]
    exact List.mem_flatMap.mpr ⟨item, member, inItem⟩
  | object names distinct _ ih =>
    refine .object names distinct fun field member => ih field member fun number inField => readBack number ?_
    rw [rounded, roundedFields_eq]
    exact List.mem_flatMap.mpr ⟨field, member, inField⟩

end SiteQuery.Graphql
