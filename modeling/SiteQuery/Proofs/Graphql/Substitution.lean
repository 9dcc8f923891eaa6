import SiteQuery.Graphql.Validation.Walk
import SiteQuery.Proofs.Graphql.Sameness

/-!
Literals in place of variables.

What a subtype accepts its supertypes accept. So a value that is accepted with its variables is accepted with literals
instead, where each literal is accepted at the type that is expected of its variable: `Schema.checkLiteral_substitute`.
-/

namespace SiteQuery.Graphql

namespace TypeReference

/-- No non-null wrapper stands right within another. -/
def IsProper : TypeReference → Prop
  | named _ => True
  | list item => item.IsProper
  | nonNull inner => inner.isNonNull = false ∧ inner.IsProper

/-- What the first type accepts, the second accepts. -/
inductive Sub : TypeReference → TypeReference → Prop
  | named (name : String) : Sub (named name) (named name)
  | list {sub super} (items : Sub sub super) : Sub (list sub) (list super)
  | nonNull {sub super} (inner : Sub sub super) : Sub (nonNull sub) (nonNull super)
  | weaker {sub super} (nullable : super.isNonNull = false) (inner : Sub sub super) : Sub (nonNull sub) super

variable {type inner sub super : TypeReference}

theorem IsProper.of_list (proper : type.IsProper) (isList : type.withoutNonNull = list inner) :
    type.item = inner ∧ inner.IsProper := by
  cases type with
  | named name => cases isList
  | list item =>
    cases isList
    exact ⟨rfl, proper⟩
  | nonNull below =>
    cases below with
    | named name => cases isList
    | list item =>
      cases isList
      exact ⟨rfl, proper.2⟩
    | nonNull deeper => cases proper.1

theorem sub_of_isSubtype (holds : isSubtype sub super = true) : Sub sub super := by
  induction sub, super using isSubtype.induct with
  | case1 sub super ih => exact .nonNull (ih (by simpa [isSubtype] using holds))
  | case2 sub super notNonNull =>
    rw [isSubtype.eq_2 _ _ notNonNull] at holds
    cases holds
  | case3 sub super notNonNull ih =>
    have nullable : super.isNonNull = false := by
      cases super with
      | named | list => rfl
      | nonNull inner => exact (notNonNull inner rfl).elim
    rw [isSubtype.eq_3 _ _ notNonNull] at holds
    exact .weaker nullable (ih holds)
  | case4 sub super ih => exact .list (ih (by simpa [isSubtype] using holds))
  | case5 sub super notNonNull notList =>
    rw [isSubtype.eq_5 _ _ notNonNull notList] at holds
    cases holds
  | case6 sub super notNonNull notList =>
    rw [isSubtype.eq_6 _ _ notNonNull notList] at holds
    cases holds
  | case7 sub super =>
    rw [isSubtype, beq_iff_eq] at holds
    exact holds ▸ .named sub

theorem Sub.name_eq (isSub : Sub sub super) : sub.name = super.name := by
  induction isSub with
  | named => rfl
  | list _ ih | nonNull _ ih | weaker _ _ ih => exact ih

end TypeReference

namespace Value

mutual

/-- A value with literals in place of variables, where they are given. -/
def substitute (given : String → Option Value) : Value → Value
  | reference name => (given name).getD (reference name)
  | list items => list (substituteItems given items)
  | object fields => object (substituteFields given fields)
  | other => other

def substituteItems (given : String → Option Value) : List Value → List Value
  | [] => []
  | item :: rest => substitute given item :: substituteItems given rest

def substituteFields (given : String → Option Value) : List (String × Value) → List (String × Value)
  | [] => []
  | (key, value) :: rest => (key, substitute given value) :: substituteFields given rest

end

variable {given : String → Option Value}

theorem substituteItems_eq (items : List Value) : substituteItems given items = items.map (substitute given) := by
  induction items with
  | nil => rfl
  | cons item rest ih => rw [substituteItems, ih, List.map_cons]

theorem substituteFields_eq (fields : List (String × Value)) :
    substituteFields given fields = fields.map fun field => (field.1, field.2.substitute given) := by
  induction fields with
  | nil => rfl
  | cons field rest ih => rw [substituteFields, ih, List.map_cons]

theorem isScalar_list (name : String) (items others : List Value) :
    (list items).isScalar name = (list others).isScalar name := by
  unfold isScalar
  split <;> simp_all

theorem isScalar_object (name : String) (fields others : List (String × Value)) :
    (object fields).isScalar name = (object others).isScalar name := by
  unfold isScalar
  split <;> simp_all

end Value

namespace Usage

variable {schema : Schema} {position : Position} {usage : Usage}

theorem mem_ofItems {items : List Value} {type : TypeReference} : usage ∈ ofItems schema position items type ↔
    ∃ item ∈ items, usage ∈ ofValue schema position item type false := by
  induction items with
  | nil => simp [ofItems]
  | cons item rest ih => simp [ofItems, ih]

theorem mem_ofFields {definition : TypeDefinition} {fields : List (String × Value)} :
    usage ∈ ofFields schema position definition fields ↔ ∃ field ∈ fields, ∃ input,
      definition.inputField? field.1 = some input ∧
        usage ∈ ofValue schema position field.2 input.type input.default?.isSome := by
  induction fields with
  | nil => simp [ofFields]
  | cons field rest ih =>
    obtain ⟨key, value⟩ := field
    cases declared : definition.inputField? key <;> simp [ofFields, declared, ih]

end Usage

namespace Schema

variable {schema : Schema} {type inner sub super : TypeReference} {value : Value}

theorem checkItems_eq_none {items : List Value} :
    schema.checkItems items type = none ↔ ∀ item ∈ items, schema.checkLiteral item type = none := by
  induction items with
  | nil => simp [checkItems]
  | cons item rest ih => simp [checkItems, ih]

theorem checkFields_eq_none {definition : TypeDefinition} {name : String} {fields : List (String × Value)} :
    schema.checkFields definition name fields = none ↔ ∀ field ∈ fields, ∃ input,
      definition.inputField? field.1 = some input ∧ schema.checkLiteral field.2 input.type = none := by
  induction fields with
  | nil => simp [checkFields]
  | cons field rest ih =>
    obtain ⟨key, value⟩ := field
    cases declared : definition.inputField? key with
    | none => simp [checkFields, declared]
    | some input => simp [checkFields, declared, ih]

theorem missingField?_congr (definition : TypeDefinition) (name : String) {fields others : List (String × Value)}
    (sameKeys : fields.map (·.1) = others.map (·.1)) :
    missingField? definition name fields = missingField? definition name others := by
  have sameAny (key : String) : fields.any (·.1 == key) = others.any (·.1 == key) := by
    have ofKeys (entries : List (String × Value)) : entries.any (·.1 == key) = (entries.map (·.1)).any (· == key) := by
      simp [Function.comp_def]
    rw [ofKeys, ofKeys, sameKeys]
  simp only [missingField?, sameAny]

/-- Values of one kind are accepted by the same named types. -/
theorem checkNamed_congr {name : String} {other : Value} (sameScalar : value.isScalar name = other.isScalar name)
    (sameEnum : ∀ names, value.isEnumValue names = other.isEnumValue names)
    (accepted : schema.checkNamed value name = none) : schema.checkNamed other name = none := by
  cases known : schema.type? name with
  | none => simp [checkNamed, known]
  | some definition =>
    simp only [checkNamed, known, sameScalar, sameEnum] at accepted ⊢
    simpa using accepted

/-- But for null a value is accepted or not whether or not the type is non-null. -/
theorem checkLiteral_nonNull (notNull : value ≠ .null) :
    schema.checkLiteral value (.nonNull inner) = schema.checkLiteral value inner := by
  cases value with
  | null => exact (notNull rfl).elim
  | _ => rfl

theorem checkLiteral_of_sub (isSub : sub.Sub super) (accepted : schema.checkLiteral value sub = none) :
    schema.checkLiteral value super = none := by
  induction isSub generalizing value with
  | named => exact accepted
  | @list sub super items ih =>
    have sameName := items.name_eq
    cases value with
    | reference | null => rfl
    | list values =>
      have each := checkItems_eq_none.mp accepted
      exact checkItems_eq_none.mpr fun value member => ih (each value member)
    | object fields =>
      rw [checkLiteral] at accepted ⊢
      simp only [TypeReference.name, sameName] at accepted ⊢
      exact accepted
    | number | string | boolean | binary | enum =>
      have named : schema.checkNamed _ sub.name = none := accepted
      rw [sameName] at named
      exact named
  | nonNull _ ih =>
    have notNull : value ≠ .null := by
      rintro rfl
      cases accepted
    rw [checkLiteral_nonNull notNull] at accepted ⊢
    exact ih accepted
  | weaker _ _ ih =>
    have notNull : value ≠ .null := by
      rintro rfl
      cases accepted
    rw [checkLiteral_nonNull notNull] at accepted
    exact ih accepted

/-- What a variable may be used at accepts its literals, but for null at a non-null place. -/
theorem checkLiteral_of_allows {expected declared : TypeReference} {hasLocationDefault hasNonNullDefault : Bool}
    (allowed : expected.allows hasLocationDefault declared hasNonNullDefault = true)
    (accepted : schema.checkLiteral value declared = none) (notNull : expected.isNonNull = true → value ≠ .null) :
    schema.checkLiteral value expected = none := by
  cases expected with
  | named name => exact checkLiteral_of_sub (TypeReference.sub_of_isSubtype allowed) accepted
  | list item => exact checkLiteral_of_sub (TypeReference.sub_of_isSubtype allowed) accepted
  | nonNull inner =>
    rw [TypeReference.allows] at allowed
    split at allowed
    · exact checkLiteral_of_sub (TypeReference.sub_of_isSubtype allowed) accepted
    · rw [checkLiteral_nonNull (notNull rfl)]
      exact checkLiteral_of_sub (TypeReference.sub_of_isSubtype (Bool.and_eq_true_iff.mp allowed).2) accepted

theorem checkLiteral_list {items : List Value} (isList : type.withoutNonNull = .list inner) :
    schema.checkLiteral (.list items) type = schema.checkItems items inner := by
  rw [checkLiteral, isList]

theorem checkLiteral_unlisted {items : List Value} (notList : ¬ ∃ inner, type.withoutNonNull = .list inner) :
    schema.checkLiteral (.list items) type = schema.checkNamed (.list items) type.name := by
  rw [checkLiteral]
  split
  · rename_i inner isList
    exact (notList ⟨inner, isList⟩).elim
  · rfl

/-- All input fields of a type may have literals in them. -/
def HasProperInputs (schema : Schema) : Prop :=
  ∀ name definition, schema.type? name = some definition →
    ∀ key input, definition.inputField? key = some input → input.type.IsProper

/-- What is accepted with variables is accepted with literals that are accepted where the variables stand. -/
theorem checkLiteral_substitute (properInputs : schema.HasProperInputs) {given : String → Option Value}
    {position : Position} (proper : type.IsProper) (hasDefault : Bool)
    (accepted : schema.checkLiteral value type = none)
    (filled : ∀ usage ∈ Usage.ofValue schema position value type hasDefault, ∀ literal,
      given usage.name = some literal → schema.checkLiteral literal usage.expected = none) :
    schema.checkLiteral (value.substitute given) type = none := by
  induction value using Value.inside generalizing type hasDefault with
  | reference name =>
    rw [Value.substitute]
    cases isGiven : given name with
    | none => rfl
    | some literal => exact filled ⟨name, type, hasDefault, position⟩ (List.mem_singleton_self _) literal isGiven
  | null | number | string | boolean | binary | enum => exact accepted
  | list items ih =>
    rw [Value.substitute]
    by_cases isList : ∃ inner, type.withoutNonNull = .list inner
    · obtain ⟨inner, isList⟩ := isList
      obtain ⟨isItem, properInner⟩ := proper.of_list isList
      rw [checkLiteral_list isList, checkItems_eq_none] at accepted ⊢
      rw [Value.substituteItems_eq, List.forall_mem_map]
      intro item member
      apply ih item member properInner false (accepted item member)
      intro usage used
      rw [← isItem] at used
      exact filled usage (Usage.mem_ofItems.mpr ⟨item, member, used⟩)
    · rw [checkLiteral_unlisted isList] at accepted ⊢
      exact checkNamed_congr (Value.isScalar_list _ items _) (fun _ => rfl) accepted
  | object fields ih =>
    rw [Value.substitute, checkLiteral]
    rw [checkLiteral] at accepted
    cases known : schema.type? type.name with
    | none => rfl
    | some definition =>
      rw [known] at accepted
      by_cases isInput : definition.kind = .inputObject
      · simp only [isInput, if_true, Option.orElse_eq_orElse, Option.orElse_eq_or, Option.or_eq_none_iff,
          checkFields_eq_none] at accepted ⊢
        obtain ⟨each, complete⟩ := accepted
        constructor
        · rw [Value.substituteFields_eq, List.forall_mem_map]
          intro field member
          obtain ⟨input, declared, ofField⟩ := each field member
          have properField := properInputs type.name definition known field.1 input declared
          refine ⟨input, declared, ih field member properField input.default?.isSome ofField fun usage used => ?_⟩
          apply filled usage
          rw [Usage.ofValue, known]
          exact Usage.mem_ofFields.mpr ⟨field, member, input, declared, used⟩
        · rw [← complete]
          apply missingField?_congr
          simp [Value.substituteFields_eq, Function.comp_def]
      · simp only [isInput, if_false] at accepted ⊢
        exact checkNamed_congr (Value.isScalar_object _ fields _) (fun _ => rfl) accepted

end Schema

end SiteQuery.Graphql
