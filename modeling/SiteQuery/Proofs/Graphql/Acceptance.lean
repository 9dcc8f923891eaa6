import SiteQuery.Proofs.Graphql.BuiltSchema
import SiteQuery.Proofs.Graphql.VariableUses

/-!
Validation and conversion together accept exactly the well-typed documents.

`accepted_iff_wellTyped` has one gap, the directives of variable definitions: nothing looks at them, so that
`misfit_accepted` has a literal there which its argument does not accept.
-/

namespace SiteQuery.Graphql

/-- All definitions are well typed, and each operation uses the variables that it declares where they are allowed. -/
structure Document.WellTyped (schema : Schema) (fragmentTypes : FragmentTypes) (document : Document) : Prop where
  definitions : ∀ definition ∈ document.definitions,
    definition.WellTyped schema (fragmentTypes ++ FragmentTypes.ofDocument document)
  positions : ∀ operation, .operation operation ∈ document.definitions →
    ∀ usage, operation.Uses schema document.fragments usage →
      ∀ declared, operation.variableDefinitions.find? (·.name == usage.name) = some declared →
        usage.expected.allows usage.hasLocationDefault declared.type (declared.default?.any (!·.value.isNull)) = true

theorem exists_ofDocument_iff {schema : Schema} {document : Document} :
    (∃ nodes, Node.ofDocument schema document = .ok nodes) ↔
      ∀ definition ∈ document.definitions, (Conversion.ofDefinition schema definition).violations = [] := by
  simp only [Node.ofDocument]
  split
  · rename_i accepted
    simpa using accepted
  · rename_i refused
    simpa using refused

namespace Validation

variable {schema : Schema} {types : FragmentTypes} {document : Document}

theorem anonymousViolations_eq_nil (named : ∀ operation, .operation operation ∈ document.definitions →
    operation.name?.isSome = true) : anonymousViolations document = [] := by
  unfold anonymousViolations
  split
  · rfl
  · rw [List.filterMap_eq_nil_iff]
    intro definition member
    cases definition with
    | fragment => rfl
    | operation operation =>
      have isNamed := named operation member
      rw [Option.isSome_iff_ne_none] at isNamed
      simpa [anonymousViolation?] using isNamed

theorem usageViolation?_eq_none {declared : List Document.Variable} {usage : Usage} :
    usageViolation? declared usage = none ↔
      ∀ definition, declared.find? (·.name == usage.name) = some definition →
        usage.expected.allows usage.hasLocationDefault definition.type (definition.default?.any (!·.value.isNull)) =
          true := by
  unfold usageViolation?
  cases declared.find? (·.name == usage.name) with
  | none => simp
  | some definition => simp

theorem rule_of_usageViolation {declared : List Document.Variable} {usage : Usage} {violation : Violation}
    (found : usageViolation? declared usage = some violation) :
    ViolatedRule.standard.contains violation.rule = true := by
  unfold usageViolation? at found
  split at found
  · cases found
  · dsimp only at found
    split at found
    · cases found
    · cases found
      rfl

/-- Variables violate no rule if every usage that is collected is allowed. -/
theorem filter_variableViolations :
    (variableViolations schema types document).filter (ViolatedRule.standard.contains ·.rule) = [] ↔
      ∀ operation, .operation operation ∈ document.definitions →
        ∀ usage ∈ (Walk.ofOperation schema types operation).allUsages (walkedFragments schema types document),
          usageViolation? operation.variableDefinitions usage = none := by
  have allStandard : ∀ violation ∈ variableViolations schema types document,
      ViolatedRule.standard.contains violation.rule = true := by
    intro violation member
    obtain ⟨definition, _, inDefinition⟩ := List.mem_flatMap.mp member
    cases definition with
    | fragment => cases inDefinition
    | operation operation =>
      obtain ⟨usage, _, found⟩ := List.mem_filterMap.mp inDefinition
      exact rule_of_usageViolation found
  rw [List.filter_eq_self.mpr allStandard, variableViolations, List.flatMap_eq_nil_iff]
  constructor
  · intro none operation member
    exact List.filterMap_eq_nil_iff.mp (none _ member)
  · intro allowed definition member
    cases definition with
    | fragment => rfl
    | operation operation => exact List.filterMap_eq_nil_iff.mpr (allowed operation member)

theorem filter_walks :
    (document.definitions.flatMap fun definition => (Walk.ofDefinition schema types definition).violations).filter
        (ViolatedRule.standard.contains ·.rule) = [] ↔
      ∀ definition ∈ document.definitions, (Walk.ofDefinition schema types definition).IsSound := by
  simp only [List.filter_eq_nil_iff, List.mem_flatMap, Walk.IsSound, forall_exists_index, and_imp, Bool.not_eq_true]
  exact ⟨fun all definition member violation inWalk => all violation definition member inWalk,
    fun all violation definition member inWalk => all definition member violation inWalk⟩

end Validation

/-- A document that is read is accepted exactly if it is well typed. -/
theorem accepted_iff_wellTyped {schema : Schema} {definitions : List SystemDefinition}
    (built : Schema.ofDefinitions definitions = .ok schema)
    (noInput : ∀ parent name definition type, schema.field? parent name = some definition →
      schema.type? definition.type.name = some type → type.kind ≠ .inputObject)
    {text : String} {document : Document} (parsed : Document.parse text = .ok document)
    (fragmentTypes : FragmentTypes) :
    (validate schema document fragmentTypes ViolatedRule.standard = [] ∧
        ∃ nodes, Node.ofDocument schema document = .ok nodes) ↔
      document.WellTyped schema fragmentTypes := by
  have output : schema.FieldsAreOutput := by
    intro parent name definition defined
    obtain ⟨type, typed⟩ := Schema.exists_type_of_field? built defined
    exact Schema.isOutput_iff.mpr ⟨type, typed, noInput parent name definition type defined typed⟩
  have distinct := Document.nodup_fragments_of_parse parsed
  have checked (definition : Document.Definition) :
      (Walk.ofDefinition schema (fragmentTypes ++ FragmentTypes.ofDocument document) definition).IsSound ∧
        (Conversion.ofDefinition schema definition).violations = [] ↔
      definition.WellTyped schema (fragmentTypes ++ FragmentTypes.ofDocument document) :=
    Walk.isSound_ofDefinition_iff output definition
  have usesOf (wellTyped : ∀ definition ∈ document.definitions,
      definition.WellTyped schema (fragmentTypes ++ FragmentTypes.ofDocument document)) {operation : Document.Operation}
      (member : .operation operation ∈ document.definitions) (usage : Usage) :
      usage ∈ (Walk.ofOperation schema (fragmentTypes ++ FragmentTypes.ofDocument document) operation).allUsages
          (Validation.walkedFragments schema (fragmentTypes ++ FragmentTypes.ofDocument document) document) ↔
        operation.Uses schema document.fragments usage :=
    mem_allUsages_iff distinct
      (fun fragment inDocument => wellTyped (.fragment fragment) (Document.mem_fragments.mp inDocument))
      (wellTyped (.operation operation) member)
  simp only [validate_eq_filter, Validation.report, List.filter_append, List.append_eq_nil_iff, Validation.filter_walks,
    Validation.filter_variableViolations, exists_ofDocument_iff]
  constructor
  · rintro ⟨⟨⟨_, sound⟩, allowed⟩, converted⟩
    have wellTyped : ∀ definition ∈ document.definitions,
        definition.WellTyped schema (fragmentTypes ++ FragmentTypes.ofDocument document) :=
      fun definition member => (checked definition).mp ⟨sound definition member, converted definition member⟩
    refine ⟨wellTyped, fun operation member usage uses => ?_⟩
    exact Validation.usageViolation?_eq_none.mp (allowed operation member usage ((usesOf wellTyped member usage).mpr uses))
  · intro isWellTyped
    have wellTyped := isWellTyped.definitions
    have named : ∀ operation, .operation operation ∈ document.definitions → operation.name?.isSome = true := by
      intro operation member
      have ofOperation : operation.WellTyped schema (fragmentTypes ++ FragmentTypes.ofDocument document) :=
        wellTyped (.operation operation) member
      exact ofOperation.named
    refine ⟨⟨⟨?_, fun definition member => ?_⟩, fun operation member usage used => ?_⟩, fun definition member => ?_⟩
    · rw [Validation.anonymousViolations_eq_nil named]
      rfl
    · exact ((checked definition).mpr (wellTyped definition member)).1
    · apply Validation.usageViolation?_eq_none.mpr
      exact isWellTyped.positions operation member usage ((usesOf wellTyped member usage).mp used)
    · exact ((checked definition).mpr (wellTyped definition member)).2

instance (schema : Schema) (directive : Document.Directive) : Decidable (directive.WellTyped schema) :=
  decidable_of_iff
    ((schema.directive? directive.name).all fun definition => directive.arguments.all fun argument =>
      (InputDefinition.find? definition.arguments argument.name).all fun input =>
        (schema.checkLiteral argument.value input.type).isNone)
    (by simp [Document.Directive.WellTyped, Document.Argument.Fits, Option.all_eq_true])

/-- No field of a type, and no `__typename`, has an input type. -/
def Schema.lacksInputFields (schema : Schema) : Bool :=
  schema.types.all fun type => (typenameField :: type.fields).all fun field =>
    (schema.type? field.type.name).all (·.kind != .inputObject)

theorem Schema.kind_ne_inputObject {schema : Schema} (lacks : schema.lacksInputFields = true) (parent name : String)
    (definition : FieldDefinition) (type : TypeDefinition) (defined : schema.field? parent name = some definition)
    (typed : schema.type? definition.type.name = some type) : type.kind ≠ .inputObject := by
  have inSome : ∃ owner ∈ schema.types, definition ∈ typenameField :: owner.fields := by
    unfold field? at defined
    split at defined
    · cases defined
    · rename_i owner isOwner
      refine ⟨owner, List.mem_of_find?_eq_some isOwner, ?_⟩
      split at defined
      · cases defined
        exact List.mem_cons_self
      · exact List.mem_cons_of_mem _ (List.mem_of_find?_eq_some defined)
  obtain ⟨owner, inTypes, inFields⟩ := inSome
  have ofDefinition := List.all_eq_true.mp (List.all_eq_true.mp lacks owner inTypes) definition inFields
  rw [typed] at ofDefinition
  simpa using ofDefinition

def gateDefinitions : List SystemDefinition :=
  [.type { name := "Query", kind := .object, fields := [⟨"gate", [⟨"where", .named "Place", none⟩], .named "Gate"⟩] },
    .type { name := "Gate", kind := .object, fields := [⟨"open", [], .named "Boolean"⟩] },
    .type { name := "Place", kind := .inputObject, inputFields := [⟨"floor", .nonNull (.named "Int"), none⟩] }]

/-- The document of a text, if it is accepted in the schema of some definitions that have no input fields. -/
def acceptedDocument? (definitions : List SystemDefinition) (text : String) : Option (Schema × Document) := do
  let schema ← (Schema.ofDefinitions definitions).toOption
  let document ← (Document.parse text).toOption
  if schema.lacksInputFields && (validate schema document [] ViolatedRule.standard).isEmpty
      && (Node.ofDocument schema document).toOption.isSome then some (schema, document)
  else none

theorem acceptedDocument?_eq_some {definitions : List SystemDefinition} {text : String} {schema : Schema}
    {document : Document} (accepted : acceptedDocument? definitions text = some (schema, document)) :
    Schema.ofDefinitions definitions = .ok schema ∧ schema.lacksInputFields = true ∧
      Document.parse text = .ok document ∧ validate schema document [] ViolatedRule.standard = [] ∧
      ∃ nodes, Node.ofDocument schema document = .ok nodes := by
  obtain ⟨built, isBuilt, more⟩ := Option.bind_eq_some_iff.mp accepted
  obtain ⟨read, isRead, checked⟩ := Option.bind_eq_some_iff.mp more
  rw [Option.ite_none_right_eq_some, Bool.and_eq_true, Bool.and_eq_true, List.isEmpty_iff,
    Option.isSome_iff_exists] at checked
  obtain ⟨⟨⟨lacks, valid⟩, nodes, converted⟩, same⟩ := checked
  cases same
  exact ⟨toOption_eq_some isBuilt, lacks, toOption_eq_some isRead, valid, nodes, toOption_eq_some converted⟩

def gateText : String :=
  "query A($floor: Int!, $all: Boolean!) \x7b gate(where: \x7bfloor: $floor\x7d) \x7b ...F \x7d \x7d "
    ++ "fragment F on Gate \x7b open @skip(if: $all) \x7d"

set_option maxRecDepth 20000 in
theorem gateText_wellTyped : ∃ schema document, Schema.ofDefinitions gateDefinitions = .ok schema ∧
    (∀ parent name definition type, schema.field? parent name = some definition →
      schema.type? definition.type.name = some type → type.kind ≠ .inputObject) ∧
    Document.parse gateText = .ok document ∧ validate schema document [] ViolatedRule.standard = [] ∧
    (∃ nodes, Node.ofDocument schema document = .ok nodes) ∧ document.WellTyped schema [] := by
  have accepted : (acceptedDocument? gateDefinitions gateText).isSome = true := by decide +kernel
  obtain ⟨⟨schema, document⟩, found⟩ := Option.isSome_iff_exists.mp accepted
  obtain ⟨built, lacks, parsed, valid, converted⟩ := acceptedDocument?_eq_some found
  have noInput := Schema.kind_ne_inputObject lacks
  have wellTyped := (accepted_iff_wellTyped built noInput parsed []).mp ⟨valid, converted⟩
  exact ⟨schema, document, built, noInput, parsed, valid, converted, wellTyped⟩

def misfitText : String := "query A($floor: Int @include(if: 1)) \x7b gate \x7b open \x7d \x7d"

/-- Some variable of an operation has a directive that is not well typed. -/
def hasMisfit (schema : Schema) (document : Document) : Bool :=
  document.definitions.any fun
    | .operation operation => operation.variableDefinitions.any fun definition =>
      definition.directives.any fun directive => !decide (directive.WellTyped schema)
    | .fragment _ => false

set_option maxRecDepth 20000 in
/-- The literal of a directive at a variable is not looked at. -/
theorem misfit_accepted : ∃ schema document, Schema.ofDefinitions gateDefinitions = .ok schema ∧
    (∀ parent name definition type, schema.field? parent name = some definition →
      schema.type? definition.type.name = some type → type.kind ≠ .inputObject) ∧
    Document.parse misfitText = .ok document ∧ validate schema document [] ViolatedRule.standard = [] ∧
    (∃ nodes, Node.ofDocument schema document = .ok nodes) ∧
    ∃ operation, .operation operation ∈ document.definitions ∧ ∃ declared ∈ operation.variableDefinitions,
      ∃ directive ∈ declared.directives, ¬ directive.WellTyped schema := by
  have accepted : (acceptedDocument? gateDefinitions misfitText).any (fun found => hasMisfit found.1 found.2) = true := by
    decide +kernel
  obtain ⟨⟨schema, document⟩, found, misfit⟩ := (Option.any_eq_true _ _).mp accepted
  obtain ⟨built, lacks, parsed, valid, converted⟩ := acceptedDocument?_eq_some found
  obtain ⟨definition, member, isMisfit⟩ := List.any_eq_true.mp misfit
  refine ⟨schema, document, built, Schema.kind_ne_inputObject lacks, parsed, valid, converted, ?_⟩
  cases definition with
  | fragment => cases isMisfit
  | operation operation =>
    obtain ⟨declared, isDeclared, more⟩ := List.any_eq_true.mp isMisfit
    obtain ⟨directive, given, refused⟩ := List.any_eq_true.mp more
    exact ⟨operation, member, declared, isDeclared, directive, given, by simpa using refused⟩

end SiteQuery.Graphql
