import SiteQuery.Proofs.Graphql.Acceptance
import SiteQuery.Proofs.Graphql.InputTypes

/-!
Literals for the variables of an operation.

`Operation.Gives` says which arguments an operation gives, in itself and in every fragment that it reaches. In a
document that is accepted all of them stay accepted when literals that suit the operation take the place of its
variables: `accepted_of_suits`. Nothing looks at the directives of variable definitions, so these are left out:
`unsuited_accepted` has a variable there of another type than the argument.
-/

namespace SiteQuery.Graphql

namespace Document

/-- A directive that the schema defines gives an argument for an input. -/
def Directive.Gives (schema : Schema) (directive : Directive) (argument : Argument) (input : InputDefinition) : Prop :=
  ∃ definition, schema.directive? directive.name = some definition ∧ argument ∈ directive.arguments ∧
    definition.argument? argument.name = some input

/-- A selection on a type gives an argument for an input, at any depth, without following spreads. -/
inductive Selection.Gives (schema : Schema) : String → Selection → Argument → InputDefinition → Prop
  | argument {parent position alias? name arguments directives bodyPosition inner definition argument input}
      (defined : schema.field? parent name = some definition) (given : argument ∈ arguments)
      (declared : definition.argument? argument.name = some input) :
      Gives schema parent (.field position alias? name arguments directives bodyPosition inner) argument input
  | ofField {parent position alias? name arguments directives bodyPosition inner} {directive : Directive}
      {argument input} (given : directive ∈ directives) (gives : directive.Gives schema argument input) :
      Gives schema parent (.field position alias? name arguments directives bodyPosition inner) argument input
  | nested {parent position alias? name arguments directives bodyPosition inner definition selection argument input}
      (defined : schema.field? parent name = some definition) (member : selection ∈ inner)
      (gives : Gives schema definition.type.name selection argument input) :
      Gives schema parent (.field position alias? name arguments directives bodyPosition inner) argument input
  | ofSpread {parent position name directives} {directive : Directive} {argument input}
      (given : directive ∈ directives) (gives : directive.Gives schema argument input) :
      Gives schema parent (.spread position name directives) argument input
  | ofInline {parent position condition? directives inner} {directive : Directive} {argument input}
      (given : directive ∈ directives) (gives : directive.Gives schema argument input) :
      Gives schema parent (.inline position condition? directives inner) argument input
  | inside {parent position condition? directives inner selection argument input} (member : selection ∈ inner)
      (gives : Gives schema ((condition?.map (·.name)).getD parent) selection argument input) :
      Gives schema parent (.inline position condition? directives inner) argument input

def Fragment.Gives (schema : Schema) (fragment : Fragment) (argument : Argument) (input : InputDefinition) : Prop :=
  (∃ selection ∈ fragment.selections, selection.Gives schema fragment.condition.name argument input) ∨
    ∃ directive ∈ fragment.directives, directive.Gives schema argument input

/-- An argument is given in an operation or in a fragment that it reaches. -/
inductive Operation.Gives (schema : Schema) (fragments : List Fragment) (operation : Operation) :
    Argument → InputDefinition → Prop
  | own {root selection argument input} (typed : schema.rootType? operation.kind = some root)
      (member : selection ∈ operation.selections) (gives : selection.Gives schema root.name argument input) :
      Gives schema fragments operation argument input
  | directive {directive : Directive} {argument input} (given : directive ∈ operation.directives)
      (gives : directive.Gives schema argument input) : Gives schema fragments operation argument input
  | fragment {fragment argument input} (reached : Reaches fragments operation.selections fragment)
      (gives : fragment.Gives schema argument input) : Gives schema fragments operation argument input

/-- Literals are given to declared variables alone, and accepted wherever these are declared; none is null where the
operation uses its variable at a non-null type. -/
structure Operation.Suits (schema : Schema) (fragments : List Fragment) (operation : Operation)
    (given : String → Option Value) : Prop where
  declared : ∀ name literal, given name = some literal →
    ∃ definition ∈ operation.variableDefinitions, definition.name = name
  accepted : ∀ definition ∈ operation.variableDefinitions, ∀ literal, given definition.name = some literal →
    schema.checkLiteral literal definition.type = none
  notNull : ∀ usage, operation.Uses schema fragments usage → usage.expected.isNonNull = true →
    given usage.name ≠ some .null

/-- An argument is accepted for an input, and what is used in it is among known uses. -/
structure Argument.IsChecked (schema : Schema) (known : Usage → Prop) (argument : Argument) (input : InputDefinition) :
    Prop where
  proper : input.type.IsProper
  accepted : schema.checkLiteral argument.value input.type = none
  uses : ∀ usage ∈ Usage.ofValue schema argument.valuePosition argument.value input.type input.default?.isSome,
    known usage

section Checked

variable {schema : Schema} {types : FragmentTypes} {parent : String} {argument : Argument} {input : InputDefinition}

theorem Argument.IsChecked.mono {known others : Usage → Prop} (checked : argument.IsChecked schema known input)
    (among : ∀ usage, known usage → others usage) : argument.IsChecked schema others input :=
  ⟨checked.proper, checked.accepted, fun usage used => among usage (checked.uses usage used)⟩

theorem Argument.Fits.isChecked {declared : List InputDefinition} (fits : argument.Fits schema declared)
    (isProper : InputDefinition.AllProper declared)
    (isDeclared : InputDefinition.find? declared argument.name = some input) :
    argument.IsChecked schema (argument.Uses schema declared) input :=
  ⟨isProper.find? isDeclared, fits input isDeclared, fun _ used => ⟨input, isDeclared, used⟩⟩

theorem Directive.Gives.isChecked {directive : Directive} (gives : directive.Gives schema argument input)
    (isProper : schema.IsProper) (wellTyped : directive.WellTyped schema) :
    argument.IsChecked schema (directive.Uses schema) input := by
  obtain ⟨definition, known, given, declared⟩ := gives
  have checked := (wellTyped definition known argument given).isChecked (isProper.ofDirective known) declared
  exact checked.mono fun usage used => ⟨definition, known, argument, given, used⟩

theorem Selection.WellTyped.ofField {position bodyPosition : Position} {alias? : Option String} {name : String}
    {arguments : List Argument} {directives : List Directive} {inner : List Selection}
    (wellTyped : Selection.WellTyped schema types parent
      (.field position alias? name arguments directives bodyPosition inner)) :
    ∃ definition, IsField schema parent name arguments directives definition ∧
      ∀ selection ∈ inner, selection.WellTyped schema types definition.type.name := by
  cases wellTyped with
  | leaf isField => exact ⟨_, isField, List.forall_mem_nil _⟩
  | composite isField _ _ _ below => exact ⟨_, isField, below⟩

theorem Selection.WellTyped.ofInline {position : Position} {condition? : Option Condition}
    {directives : List Directive} {inner : List Selection}
    (wellTyped : Selection.WellTyped schema types parent (.inline position condition? directives inner)) :
    (∀ directive ∈ directives, directive.WellTyped schema) ∧
      ∀ selection ∈ inner, selection.WellTyped schema types ((condition?.map (·.name)).getD parent) := by
  cases wellTyped with
  | inline ofDirectives below => exact ⟨ofDirectives, below⟩
  | narrowed ofDirectives _ _ below => exact ⟨ofDirectives, below⟩

theorem Selection.Gives.isChecked {selection : Selection} (gives : selection.Gives schema parent argument input)
    (isProper : schema.IsProper) (wellTyped : selection.WellTyped schema types parent) :
    argument.IsChecked schema (selection.Uses schema parent) input := by
  induction gives with
  | argument defined given declared =>
    obtain ⟨definition, isField, _⟩ := wellTyped.ofField
    cases defined.symm.trans isField.defined
    have checked := (isField.fits _ given).isChecked (isProper.ofField defined) declared
    exact checked.mono fun usage used => .argument defined given used
  | ofField given gives =>
    obtain ⟨definition, isField, _⟩ := wellTyped.ofField
    exact (gives.isChecked isProper (isField.directives _ given)).mono fun usage used => .ofField given used
  | nested defined member _ ih =>
    obtain ⟨definition, isField, below⟩ := wellTyped.ofField
    cases defined.symm.trans isField.defined
    exact (ih (below _ member)).mono fun usage used => .nested defined member used
  | ofSpread given gives =>
    obtain ⟨_, ofDirectives⟩ := Selection.WellTyped.spread_iff.mp wellTyped
    exact (gives.isChecked isProper (ofDirectives _ given)).mono fun usage used => .ofSpread given used
  | ofInline given gives =>
    exact (gives.isChecked isProper (wellTyped.ofInline.1 _ given)).mono fun usage used => .ofInline given used
  | inside member _ ih =>
    exact (ih (wellTyped.ofInline.2 _ member)).mono fun usage used => .inside member used

theorem Fragment.Gives.isChecked {fragment : Fragment} (gives : fragment.Gives schema argument input)
    (isProper : schema.IsProper) (wellTyped : fragment.WellTyped schema types) :
    argument.IsChecked schema (fragment.Uses schema) input := by
  rcases gives with ⟨selection, member, gives⟩ | ⟨directive, given, gives⟩
  · exact (gives.isChecked isProper (wellTyped.body selection member)).mono fun usage used =>
      .inl ⟨selection, member, used⟩
  · exact (gives.isChecked isProper (wellTyped.directives directive given)).mono fun usage used =>
      .inr ⟨directive, given, used⟩

theorem Operation.Gives.isChecked {fragments : List Fragment} {operation : Operation}
    (gives : operation.Gives schema fragments argument input) (isProper : schema.IsProper)
    (wellTyped : operation.WellTyped schema types)
    (ofFragments : ∀ fragment ∈ fragments, fragment.WellTyped schema types) :
    argument.IsChecked schema (operation.Uses schema fragments) input := by
  cases gives with
  | own typed member gives =>
    obtain ⟨root, isTyped, body⟩ := wellTyped.body
    cases typed.symm.trans isTyped
    exact (gives.isChecked isProper (body _ member)).mono fun usage used => .own typed member used
  | directive given gives =>
    exact (gives.isChecked isProper (wellTyped.directives _ given)).mono fun usage used => .directive given used
  | fragment reached gives =>
    exact (gives.isChecked isProper (ofFragments _ reached.mem)).mono fun usage used => .fragment reached used

end Checked

variable {schema : Schema} {document : Document}

theorem wellTyped_of_accepted {definitions : List SystemDefinition}
    (built : Schema.ofDefinitions definitions = .ok schema)
    (noInput : ∀ parent name definition type, schema.field? parent name = some definition →
      schema.type? definition.type.name = some type → type.kind ≠ .inputObject)
    {text : String} (parsed : Document.parse text = .ok document) {fragmentTypes : FragmentTypes}
    (valid : validate schema document fragmentTypes ViolatedRule.standard = [])
    (converted : ∃ nodes, Node.ofDocument schema document = .ok nodes) : document.WellTyped schema fragmentTypes := by
  have output : schema.FieldsAreOutput := by
    intro parent name definition defined
    obtain ⟨type, typed⟩ := Schema.exists_type_of_field? built defined
    exact Schema.isOutput_iff.mpr ⟨type, typed, noInput parent name definition type defined typed⟩
  simp only [validate_eq_filter, Validation.report, List.filter_append, List.append_eq_nil_iff, Validation.filter_walks,
    Validation.filter_variableViolations] at valid
  obtain ⟨⟨_, sound⟩, allowed⟩ := valid
  have wellTyped : ∀ definition ∈ document.definitions,
      definition.WellTyped schema (fragmentTypes ++ FragmentTypes.ofDocument document) := by
    intro definition member
    apply (Walk.isSound_ofDefinition_iff output definition).mp
    exact ⟨sound definition member, exists_ofDocument_iff.mp converted definition member⟩
  have ofFragments : ∀ fragment ∈ document.fragments,
      fragment.WellTyped schema (fragmentTypes ++ FragmentTypes.ofDocument document) :=
    fun fragment inDocument => wellTyped (.fragment fragment) (Document.mem_fragments.mp inDocument)
  refine ⟨wellTyped, fun operation member usage uses => ?_⟩
  apply Validation.usageViolation?_eq_none.mp
  apply allowed operation member usage
  exact (mem_allUsages_iff (Document.nodup_fragments_of_parse parsed) ofFragments (wellTyped _ member)).mpr uses

/-- What suits an operation is accepted wherever it uses its variables. -/
theorem Operation.Suits.accepted_at {fragmentTypes : FragmentTypes}
    (wellTyped : document.WellTyped schema fragmentTypes) {operation : Operation}
    (member : .operation operation ∈ document.definitions) {given : String → Option Value}
    (suits : operation.Suits schema document.fragments given) {usage : Usage}
    (uses : operation.Uses schema document.fragments usage) {literal : Value}
    (isGiven : given usage.name = some literal) :
    schema.checkLiteral literal usage.expected = none := by
  obtain ⟨declared, isDeclared⟩ : ∃ declared,
      operation.variableDefinitions.find? (·.name == usage.name) = some declared := by
    obtain ⟨definition, inOperation, isName⟩ := suits.declared usage.name literal isGiven
    rw [← Option.isSome_iff_exists, List.find?_isSome]
    exact ⟨definition, inOperation, by simp [isName]⟩
  have isName : declared.name = usage.name := by simpa using List.find?_some isDeclared
  have atDeclared : schema.checkLiteral literal declared.type = none :=
    suits.accepted declared (List.mem_of_find?_eq_some isDeclared) literal (isName ▸ isGiven)
  have allowed := wellTyped.positions operation member usage uses declared isDeclared
  refine Schema.checkLiteral_of_allows allowed atDeclared ?_
  rintro isNonNull rfl
  exact suits.notNull usage uses isNonNull isGiven

end Document

/-- Every argument that an operation gives stays accepted with literals that suit the operation. -/
theorem accepted_of_suits {sdl : String} {schema : Schema} (isSchema : Schema.parse sdl = .ok schema)
    (noInput : ∀ parent name definition type, schema.field? parent name = some definition →
      schema.type? definition.type.name = some type → type.kind ≠ .inputObject)
    {text : String} {document : Document} (parsed : Document.parse text = .ok document)
    {fragmentTypes : FragmentTypes} (valid : validate schema document fragmentTypes ViolatedRule.standard = [])
    (converted : ∃ nodes, Node.ofDocument schema document = .ok nodes)
    {operation : Document.Operation} (member : .operation operation ∈ document.definitions)
    {given : String → Option Value} (suits : operation.Suits schema document.fragments given)
    {argument : Document.Argument} {input : InputDefinition}
    (gives : operation.Gives schema document.fragments argument input) :
    schema.checkLiteral (argument.value.substitute given) input.type = none := by
  obtain ⟨definitions, _, built⟩ := Schema.parse_eq_ok isSchema
  have isProper := Schema.isProper_of_parse isSchema
  have wellTyped := Document.wellTyped_of_accepted built noInput parsed valid converted
  have ofFragments := fun fragment inDocument =>
    wellTyped.definitions (.fragment fragment) (Document.mem_fragments.mp inDocument)
  have checked := gives.isChecked isProper (wellTyped.definitions _ member) ofFragments
  apply Schema.checkLiteral_substitute isProper.hasProperInputs checked.proper input.default?.isSome checked.accepted
  intro usage used literal isGiven
  exact suits.accepted_at wellTyped member (checked.uses usage used) isGiven

namespace Document

/-- The literals are for declared variables, which accept them, and none is null. -/
def Operation.isSuitedBy (schema : Schema) (operation : Operation) (literals : List (String × Value)) : Bool :=
  literals.all fun entry => operation.variableDefinitions.any (·.name == entry.1) && !entry.2.isNull
    && operation.variableDefinitions.all fun definition =>
      definition.name != entry.1 || (schema.checkLiteral entry.2 definition.type).isNone

theorem Operation.suits_of_isSuitedBy {operation : Operation} {literals : List (String × Value)}
    (suited : operation.isSuitedBy schema literals = true) (fragments : List Fragment) :
    operation.Suits schema fragments (List.lookup · literals) := by
  have ofEntry {name : String} {literal : Value} (isGiven : literals.lookup name = some literal) :
      (∃ definition ∈ operation.variableDefinitions, definition.name = name) ∧ literal.isNull = false ∧
        ∀ definition ∈ operation.variableDefinitions, definition.name = name →
          schema.checkLiteral literal definition.type = none := by
    obtain ⟨before, after, rfl, _⟩ := List.lookup_eq_some_iff.mp isGiven
    have ofGiven := List.all_eq_true.mp suited (name, literal) (List.mem_append_right _ List.mem_cons_self)
    simpa [and_assoc, ← imp_iff_not_or] using ofGiven
  refine ⟨fun name literal isGiven => (ofEntry isGiven).1, fun definition member literal isGiven => ?_, ?_⟩
  · exact (ofEntry isGiven).2.2 definition member rfl
  · intro usage _ _ isGiven
    cases (ofEntry isGiven).2.1

end Document

/-- The document of a text, if it is accepted in the schema of another text that has no input fields. -/
def acceptedTexts? (sdl text : String) : Option (Schema × Document) :=
  (SystemDefinition.parse sdl).toOption.bind fun definitions => acceptedDocument? definitions text

theorem acceptedTexts?_eq_some {sdl text : String} {schema : Schema} {document : Document}
    (accepted : acceptedTexts? sdl text = some (schema, document)) :
    Schema.parse sdl = .ok schema ∧
      (∀ parent name definition type, schema.field? parent name = some definition →
        schema.type? definition.type.name = some type → type.kind ≠ .inputObject) ∧
      Document.parse text = .ok document ∧ validate schema document [] ViolatedRule.standard = [] ∧
      ∃ nodes, Node.ofDocument schema document = .ok nodes := by
  obtain ⟨definitions, isRead, more⟩ := Option.bind_eq_some_iff.mp accepted
  obtain ⟨built, lacks, parsed, valid, converted⟩ := acceptedDocument?_eq_some more
  have isSchema := Schema.parse_of_read (toOption_eq_some isRead) built
  exact ⟨isSchema, Schema.kind_ne_inputObject lacks, parsed, valid, converted⟩

def slotSdl : String :=
  "type Query \x7b gate(where: Place): Gate \x7d type Gate \x7b open: Boolean \x7d "
    ++ "input Place \x7b floor: Int!, near: [Int!] = [] \x7d"

def slotText : String :=
  "query A($floor: Int!, $all: Boolean = true) \x7b "
    ++ "gate(where: \x7bfloor: $floor, near: [$floor]\x7d) \x7b ...F \x7d \x7d "
    ++ "fragment F on Gate \x7b open @skip(if: $all) \x7d"

def slotLiterals : List (String × Value) := [("floor", .number (.integer 1)), ("all", .boolean false)]

/-- The first operation of a document with the first argument that it gives. -/
def Document.firstGiven? (schema : Schema) (document : Document) :
    Option (Document.Operation × Document.Argument × InputDefinition) :=
  match document.definitions with
  | .operation operation :: _ =>
    match operation.selections with
    | .field _ _ name (argument :: _) _ _ _ :: _ => do
      let root ← schema.rootType? operation.kind
      let definition ← schema.field? root.name name
      let input ← definition.argument? argument.name
      some (operation, argument, input)
    | _ => none
  | _ => none

theorem Document.firstGiven?_eq_some {schema : Schema} {document : Document} {operation : Document.Operation}
    {argument : Document.Argument} {input : InputDefinition}
    (found : document.firstGiven? schema = some (operation, argument, input)) :
    .operation operation ∈ document.definitions ∧ operation.Gives schema document.fragments argument input := by
  unfold firstGiven? at found
  split at found
  · rename_i first _ areDefinitions
    split at found
    · rename_i areSelections
      obtain ⟨root, typed, more⟩ := Option.bind_eq_some_iff.mp found
      obtain ⟨definition, defined, more⟩ := Option.bind_eq_some_iff.mp more
      obtain ⟨declared, isDeclared, same⟩ := Option.bind_eq_some_iff.mp more
      cases same
      refine ⟨areDefinitions ▸ List.mem_cons_self, .own typed (areSelections ▸ List.mem_cons_self) ?_⟩
      exact .argument defined List.mem_cons_self isDeclared
    · cases found
  · cases found

set_option maxRecDepth 20000 in
theorem accepted_of_suits_slot : ∃ schema document, Schema.parse slotSdl = .ok schema ∧
    (∀ parent name definition type, schema.field? parent name = some definition →
      schema.type? definition.type.name = some type → type.kind ≠ .inputObject) ∧
    Document.parse slotText = .ok document ∧ validate schema document [] ViolatedRule.standard = [] ∧
    (∃ nodes, Node.ofDocument schema document = .ok nodes) ∧
    ∃ operation, .operation operation ∈ document.definitions ∧
      operation.Suits schema document.fragments (List.lookup · slotLiterals) ∧
      ∃ argument input, operation.Gives schema document.fragments argument input ∧
        schema.checkLiteral (argument.value.substitute (List.lookup · slotLiterals)) input.type = none := by
  have holds : (acceptedTexts? slotSdl slotText).any (fun accepted =>
      (accepted.2.firstGiven? accepted.1).any fun found => found.1.isSuitedBy accepted.1 slotLiterals) = true := by
    decide +kernel
  obtain ⟨⟨schema, document⟩, accepted, more⟩ := (Option.any_eq_true _ _).mp holds
  obtain ⟨⟨operation, argument, input⟩, found, suited⟩ := (Option.any_eq_true _ _).mp more
  obtain ⟨isSchema, noInput, parsed, valid, converted⟩ := acceptedTexts?_eq_some accepted
  obtain ⟨member, gives⟩ := Document.firstGiven?_eq_some found
  have suits := Document.Operation.suits_of_isSuitedBy suited document.fragments
  have stays := accepted_of_suits isSchema noInput parsed valid converted member suits gives
  exact ⟨schema, document, isSchema, noInput, parsed, valid, converted, operation, member, suits, argument, input,
    gives, stays⟩

def unsuitedSdl : String := "type Query \x7b a: Int \x7d"

def unsuitedText : String := "query A($x: Int, $y: Int @include(if: $x)) \x7b a \x7d"

def unsuitedLiterals : List (String × Value) := [("x", .number (.integer 1)), ("y", .number (.integer 2))]

/-- Some directive of a variable definition gives an argument that refuses its literal. -/
def Document.Operation.isRefused (schema : Schema) (operation : Document.Operation)
    (literals : List (String × Value)) : Bool :=
  operation.variableDefinitions.any fun definition => definition.directives.any fun directive =>
    (schema.directive? directive.name).any fun known => directive.arguments.any fun argument =>
      (known.argument? argument.name).any fun input =>
        (schema.checkLiteral (argument.value.substitute (List.lookup · literals)) input.type).isSome

/-- Some operation has literals for all its variables, which suit it but for a directive of a variable definition. -/
def Document.isUnsuited (schema : Schema) (document : Document) (literals : List (String × Value)) : Bool :=
  document.definitions.any fun
    | .operation operation => operation.variableDefinitions.map (·.name) == literals.map (·.1)
      && operation.isSuitedBy schema literals && operation.isRefused schema literals
    | .fragment _ => false

set_option maxRecDepth 20000 in
/-- A variable in a directive of another variable is not compared with its declaration. -/
theorem unsuited_accepted : ∃ schema document, Schema.parse unsuitedSdl = .ok schema ∧
    (∀ parent name definition type, schema.field? parent name = some definition →
      schema.type? definition.type.name = some type → type.kind ≠ .inputObject) ∧
    Document.parse unsuitedText = .ok document ∧ validate schema document [] ViolatedRule.standard = [] ∧
    (∃ nodes, Node.ofDocument schema document = .ok nodes) ∧
    ∃ operation, .operation operation ∈ document.definitions ∧
      operation.variableDefinitions.map (·.name) = unsuitedLiterals.map (·.1) ∧
      operation.Suits schema document.fragments (List.lookup · unsuitedLiterals) ∧
      ∃ definition ∈ operation.variableDefinitions, ∃ directive ∈ definition.directives,
        ∃ argument input, directive.Gives schema argument input ∧
          schema.checkLiteral (argument.value.substitute (List.lookup · unsuitedLiterals)) input.type ≠ none := by
  have found : (acceptedTexts? unsuitedSdl unsuitedText).any (fun accepted =>
      accepted.2.isUnsuited accepted.1 unsuitedLiterals) = true := by
    decide +kernel
  obtain ⟨⟨schema, document⟩, accepted, more⟩ := (Option.any_eq_true _ _).mp found
  obtain ⟨definition, member, unsuited⟩ := List.any_eq_true.mp more
  obtain ⟨isSchema, noInput, parsed, valid, converted⟩ := acceptedTexts?_eq_some accepted
  refine ⟨schema, document, isSchema, noInput, parsed, valid, converted, ?_⟩
  cases definition with
  | fragment => cases unsuited
  | operation operation =>
    simp only [Bool.and_eq_true, beq_iff_eq] at unsuited
    obtain ⟨⟨total, suited⟩, refused⟩ := unsuited
    have suits := Document.Operation.suits_of_isSuitedBy suited document.fragments
    obtain ⟨definition, isDeclared, more⟩ := List.any_eq_true.mp refused
    obtain ⟨directive, given, more⟩ := List.any_eq_true.mp more
    obtain ⟨known, isKnown, more⟩ := (Option.any_eq_true _ _).mp more
    obtain ⟨argument, inDirective, more⟩ := List.any_eq_true.mp more
    obtain ⟨input, declared, isRefused⟩ := (Option.any_eq_true _ _).mp more
    refine ⟨operation, member, total, suits, definition, isDeclared, directive, given, argument, input, ?_⟩
    exact ⟨⟨known, isKnown, inDirective, declared⟩, Option.isSome_iff_ne_none.mp isRefused⟩

end SiteQuery.Graphql
