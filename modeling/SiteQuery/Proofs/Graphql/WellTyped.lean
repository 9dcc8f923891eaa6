import Mathlib.Tactic.MkIffOfInductiveProp
import SiteQuery.Graphql.Node.OfDocument
import SiteQuery.Proofs.Graphql.Usages

/-!
Well-typed definitions, said without the walk that checks them.

The walk skips what stands below a fault, and conversion reports fields and arguments only. `isSound_ofSelection_iff`
and `isSound_ofDefinition_iff` say that both together accept exactly what is well typed.
-/

namespace SiteQuery.Graphql

/-- Only leaves and composite types are no input objects. -/
theorem TypeKind.leaf_or_composite {kind : TypeKind} (output : kind ≠ .inputObject) :
    kind.isLeaf = true ∨ kind.isComposite = true := by
  cases kind <;> simp_all [isLeaf, isComposite]

theorem Schema.isOutput_iff {schema : Schema} {name : String} :
    schema.isOutput name = true ↔ ∃ type, schema.type? name = some type ∧ type.kind ≠ .inputObject := by
  simp [isOutput, Option.any_eq_true]

/-- All fields have known types, and none an input type. -/
def Schema.FieldsAreOutput (schema : Schema) : Prop :=
  ∀ parent name definition, schema.field? parent name = some definition → schema.isOutput definition.type.name = true

namespace Document

/-- Where the argument is declared, its literal is accepted. -/
def Argument.Fits (schema : Schema) (declared : List InputDefinition) (argument : Argument) : Prop :=
  ∀ input, InputDefinition.find? declared argument.name = some input →
    schema.checkLiteral argument.value input.type = none

/-- An unknown directive may have any arguments. -/
def Directive.WellTyped (schema : Schema) (directive : Directive) : Prop :=
  ∀ definition, schema.directive? directive.name = some definition →
    ∀ argument ∈ directive.arguments, argument.Fits schema definition.arguments

/-- A field of a type is given arguments that it declares, and literals that they accept. -/
structure IsField (schema : Schema) (parent name : String) (arguments : List Argument) (directives : List Directive)
    (definition : FieldDefinition) : Prop where
  defined : schema.field? parent name = some definition
  declared : ∀ argument ∈ arguments, (definition.argument? argument.name).isSome = true
  fits : ∀ argument ∈ arguments, argument.Fits schema definition.arguments
  directives : ∀ directive ∈ directives, directive.WellTyped schema

inductive Selection.WellTyped (schema : Schema) (types : FragmentTypes) : String → Selection → Prop
  | leaf {parent position alias? name arguments directives bodyPosition definition type}
      (isField : IsField schema parent name arguments directives definition)
      (typed : schema.type? definition.type.name = some type) (isLeaf : type.kind.isLeaf = true) :
      WellTyped schema types parent (.field position alias? name arguments directives bodyPosition [])
  | composite {parent position alias? name arguments directives bodyPosition inner definition type}
      (isField : IsField schema parent name arguments directives definition)
      (typed : schema.type? definition.type.name = some type) (isComposite : type.kind.isComposite = true)
      (notEmpty : inner ≠ []) (below : ∀ selection ∈ inner, WellTyped schema types definition.type.name selection) :
      WellTyped schema types parent (.field position alias? name arguments directives bodyPosition inner)
  | spread {parent position name directives}
      (overlaps : ∀ type, types.get? name = some type → schema.isComposite type = true →
        schema.overlap parent type = true)
      (ofDirectives : ∀ directive ∈ directives, directive.WellTyped schema) :
      WellTyped schema types parent (.spread position name directives)
  | inline {parent position directives inner} (ofDirectives : ∀ directive ∈ directives, directive.WellTyped schema)
      (below : ∀ selection ∈ inner, WellTyped schema types parent selection) :
      WellTyped schema types parent (.inline position none directives inner)
  | narrowed {parent position condition directives inner}
      (ofDirectives : ∀ directive ∈ directives, directive.WellTyped schema)
      (isComposite : schema.isComposite condition.name = true)
      (overlaps : schema.overlap parent condition.name = true)
      (below : ∀ selection ∈ inner, WellTyped schema types condition.name selection) :
      WellTyped schema types parent (.inline position (some condition) directives inner)

namespace Selection.WellTyped

variable {schema : Schema} {types : FragmentTypes} {parent : String} {position bodyPosition : Position}
  {alias? : Option String} {name : String} {arguments : List Argument} {directives : List Directive}
  {inner : List Selection} {definition : FieldDefinition} {type : TypeDefinition}

theorem leaf_iff (defined : schema.field? parent name = some definition)
    (typed : schema.type? definition.type.name = some type) (isLeaf : type.kind.isLeaf = true) :
    WellTyped schema types parent (.field position alias? name arguments directives bodyPosition inner) ↔
      IsField schema parent name arguments directives definition ∧ inner = [] := by
  constructor
  · intro wellTyped
    cases wellTyped with
    | leaf isField =>
      cases defined.symm.trans isField.defined
      exact ⟨isField, rfl⟩
    | composite isField isTyped isComposite =>
      cases defined.symm.trans isField.defined
      cases typed.symm.trans isTyped
      rw [TypeKind.not_leaf_of_composite isComposite] at isLeaf
      cases isLeaf
  · rintro ⟨isField, rfl⟩
    exact .leaf isField typed isLeaf

theorem composite_iff (defined : schema.field? parent name = some definition)
    (typed : schema.type? definition.type.name = some type) (isComposite : type.kind.isComposite = true) :
    WellTyped schema types parent (.field position alias? name arguments directives bodyPosition inner) ↔
      IsField schema parent name arguments directives definition ∧ inner ≠ [] ∧
        ∀ selection ∈ inner, WellTyped schema types definition.type.name selection := by
  constructor
  · intro wellTyped
    cases wellTyped with
    | leaf isField isTyped isLeaf =>
      cases defined.symm.trans isField.defined
      cases typed.symm.trans isTyped
      rw [TypeKind.not_leaf_of_composite isComposite] at isLeaf
      cases isLeaf
    | composite isField _ _ notEmpty below =>
      cases defined.symm.trans isField.defined
      exact ⟨isField, notEmpty, below⟩
  · rintro ⟨isField, notEmpty, below⟩
    exact .composite isField typed isComposite notEmpty below

theorem not_of_unknown (unknown : schema.field? parent name = none) :
    ¬ WellTyped schema types parent (.field position alias? name arguments directives bodyPosition inner) := by
  intro wellTyped
  cases wellTyped with
  | leaf isField => cases unknown.symm.trans isField.defined
  | composite isField => cases unknown.symm.trans isField.defined

theorem spread_iff : WellTyped schema types parent (.spread position name directives) ↔
    (∀ type, types.get? name = some type → schema.isComposite type = true → schema.overlap parent type = true) ∧
      ∀ directive ∈ directives, directive.WellTyped schema := by
  constructor
  · intro wellTyped
    cases wellTyped with
    | spread overlaps ofDirectives => exact ⟨overlaps, ofDirectives⟩
  · rintro ⟨overlaps, ofDirectives⟩
    exact .spread overlaps ofDirectives

theorem inline_iff : WellTyped schema types parent (.inline position none directives inner) ↔
    (∀ directive ∈ directives, directive.WellTyped schema) ∧
      ∀ selection ∈ inner, WellTyped schema types parent selection := by
  constructor
  · intro wellTyped
    cases wellTyped with
    | inline ofDirectives below => exact ⟨ofDirectives, below⟩
  · rintro ⟨ofDirectives, below⟩
    exact .inline ofDirectives below

theorem narrowed_iff {condition : Condition} :
    WellTyped schema types parent (.inline position (some condition) directives inner) ↔
      (∀ directive ∈ directives, directive.WellTyped schema) ∧ schema.isComposite condition.name = true ∧
        schema.overlap parent condition.name = true ∧
          ∀ selection ∈ inner, WellTyped schema types condition.name selection := by
  constructor
  · intro wellTyped
    cases wellTyped with
    | narrowed ofDirectives isComposite overlaps below => exact ⟨ofDirectives, isComposite, overlaps, below⟩
  · rintro ⟨ofDirectives, isComposite, overlaps, below⟩
    exact .narrowed ofDirectives isComposite overlaps below

end Selection.WellTyped

/-- The directives of the definition are not looked at. -/
@[mk_iff]
structure Variable.WellTyped (schema : Schema) (definition : Variable) : Prop where
  isInput : ∃ type, schema.type? definition.type.name = some type ∧ type.kind.isInput = true
  fits : ∀ given, definition.default? = some given → schema.checkLiteral given.value definition.type = none

@[mk_iff]
structure Operation.WellTyped (schema : Schema) (types : FragmentTypes) (operation : Operation) : Prop where
  named : operation.name?.isSome = true
  declarations : ∀ definition ∈ operation.variableDefinitions, definition.WellTyped schema
  directives : ∀ directive ∈ operation.directives, directive.WellTyped schema
  body : ∃ root, schema.rootType? operation.kind = some root ∧
    ∀ selection ∈ operation.selections, selection.WellTyped schema types root.name

@[mk_iff]
structure Fragment.WellTyped (schema : Schema) (types : FragmentTypes) (fragment : Fragment) : Prop where
  isComposite : schema.isComposite fragment.condition.name = true
  directives : ∀ directive ∈ fragment.directives, directive.WellTyped schema
  body : ∀ selection ∈ fragment.selections, selection.WellTyped schema types fragment.condition.name

def Definition.WellTyped (schema : Schema) (types : FragmentTypes) : Definition → Prop
  | operation o => o.WellTyped schema types
  | fragment f => f.WellTyped schema types

end Document

namespace Walk

section Sound

variable {walk other : Walk} {fault : Fault} {position : Position}

theorem isSound_append : (walk ++ other).IsSound ↔ walk.IsSound ∧ other.IsSound :=
  List.forall_mem_append

theorem isSound_flat {Item : Type} {visit : Item → Walk} {items : List Item} :
    (flat visit items).IsSound ↔ ∀ item ∈ items, (visit item).IsSound := by
  induction items with
  | nil => simp [flat, IsSound]
  | cons first rest ih => rw [flat, isSound_append, ih, List.forall_mem_cons]

theorem isSound_of_nil (none : walk.violations = []) : walk.IsSound := by
  intro violation member
  rw [none] at member
  cases member

/-- A walk that reports at most a fault of a standard rule is sound if it reports none. -/
theorem isSound_reportAt {fault? : Option Fault}
    (standard : ∀ fault, fault? = some fault → ViolatedRule.standard.contains fault.rule = true) :
    (reportAt fault? position).IsSound ↔ fault? = none := by
  cases found : fault? with
  | none => exact ⟨fun _ => rfl, fun _ => isSound_of_nil rfl⟩
  | some fault =>
    have refused : ¬ (reportAt (some fault) position).IsSound := not_isSound_report (standard fault found)
    simp [refused]

end Sound

variable {schema : Schema} {types : FragmentTypes} {parent : String}

theorem isSound_ofArgument {definitions : List InputDefinition} {argument : Document.Argument} :
    (ofArgument schema definitions argument).IsSound ↔ argument.Fits schema definitions := by
  unfold ofArgument Document.Argument.Fits
  cases declared : InputDefinition.find? definitions argument.name with
  | none => simp [isSound_of_nil]
  | some definition =>
    have usagesOnly (usages : List Usage) : IsSound { usages } := isSound_of_nil rfl
    cases checked : schema.checkLiteral argument.value definition.type with
    | none => simp [isSound_append, isSound_of_nil, checked]
    | some detail =>
      have refused : ¬ (report (.invalidArgument argument.name argument.value detail) argument.valuePosition).IsSound :=
        not_isSound_report rfl
      simp [isSound_append, refused, checked]

theorem isSound_ofDirective {directive : Document.Directive} :
    (ofDirective schema directive).IsSound ↔ directive.WellTyped schema := by
  unfold ofDirective Document.Directive.WellTyped
  cases known : schema.directive? directive.name with
  | none => simp [isSound_of_nil]
  | some definition => simp [isSound_flat, isSound_ofArgument]

theorem isSound_ofDirectives {directives : List Document.Directive} :
    (ofDirectives schema directives).IsSound ↔ ∀ directive ∈ directives, directive.WellTyped schema := by
  simp [ofDirectives, isSound_flat, isSound_ofDirective]

theorem conditionFault?_eq_none {fragment? : Option String} {type : String} :
    conditionFault? schema fragment? type = none ↔ schema.isComposite type = true := by
  unfold conditionFault? Schema.isComposite
  cases schema.type? type <;> simp

theorem spreadFault?_eq_none {name : String} :
    spreadFault? schema types parent name = none ↔
      ∀ type, types.get? name = some type → schema.isComposite type = true → schema.overlap parent type = true := by
  unfold spreadFault?
  cases types.get? name <;> simp

theorem rule_of_spreadFault {name : String} {fault : Fault}
    (found : spreadFault? schema types parent name = some fault) :
    ViolatedRule.standard.contains fault.rule = true := by
  unfold spreadFault? at found
  split at found
  · split at found
    · cases found
      rfl
    · cases found
  · cases found

section Fields

variable {position bodyPosition : Position} {alias? : Option String} {name : String}
  {arguments : List Document.Argument} {directives : List Document.Directive} {inner : List Document.Selection}
  {definition : FieldDefinition} {type : TypeDefinition}

theorem isSound_ofLeaf (defined : schema.field? parent name = some definition)
    (typed : schema.type? definition.type.name = some type) (isLeaf : type.kind.isLeaf = true) :
    (ofSelection schema types parent (.field position alias? name arguments directives bodyPosition inner)).IsSound ↔
      (∀ argument ∈ arguments, argument.Fits schema definition.arguments) ∧
        (∀ directive ∈ directives, directive.WellTyped schema) ∧ inner = [] := by
  have refused : ¬ (report (.leafWithSelections name definition.type) bodyPosition).IsSound := not_isSound_report rfl
  simp only [ofSelection, defined, typed, isLeaf, if_true, isSound_append, isSound_flat, isSound_ofArgument,
    isSound_ofDirectives, and_assoc]
  cases inner with
  | nil => simp [isSound_of_nil]
  | cons => simp [refused]

theorem isSound_ofComposite (defined : schema.field? parent name = some definition)
    (typed : schema.type? definition.type.name = some type) (isComposite : type.kind.isComposite = true) :
    (ofSelection schema types parent (.field position alias? name arguments directives bodyPosition inner)).IsSound ↔
      (∀ argument ∈ arguments, argument.Fits schema definition.arguments) ∧
        (∀ directive ∈ directives, directive.WellTyped schema) ∧ inner ≠ [] ∧
          (ofSelections schema types definition.type.name inner).IsSound := by
  have refused : ¬ (report (.compositeWithoutSelections name definition.type) position).IsSound := not_isSound_report rfl
  have notLeaf := TypeKind.not_leaf_of_composite isComposite
  simp only [ofSelection, defined, typed, isComposite, notLeaf, Bool.false_eq_true, if_false, if_true, isSound_append,
    isSound_flat, isSound_ofArgument, isSound_ofDirectives, and_assoc]
  cases inner with
  | nil => simp [refused]
  | cons => simp

theorem argumentViolations_eq_nil :
    Conversion.argumentViolations definition parent name arguments = [] ↔
      ∀ argument ∈ arguments, (definition.argument? argument.name).isSome = true := by
  simp [Conversion.argumentViolations, Option.isSome_iff_ne_none]

end Fields

mutual

/-- The walk and conversion accept selections exactly if all are well typed. -/
theorem isSound_ofSelections_iff (output : schema.FieldsAreOutput) (parent : String)
    (selections : List Document.Selection) :
    (ofSelections schema types parent selections).IsSound ∧
        (Conversion.selections schema parent selections).violations = [] ↔
      ∀ selection ∈ selections, selection.WellTyped schema types parent := by
  match selections with
  | [] => simp [ofSelections, Conversion.selections, isSound_of_nil]
  | first :: rest =>
    have ofFirst := isSound_ofSelection_iff output parent first
    have ofRest := isSound_ofSelections_iff output parent rest
    rw [List.forall_mem_cons, ← ofFirst, ← ofRest, ofSelections, isSound_append, Conversion.selections,
      List.append_eq_nil_iff]
    exact and_and_and_comm

theorem isSound_ofSelection_iff (output : schema.FieldsAreOutput) (parent : String) (selection : Document.Selection) :
    (ofSelection schema types parent selection).IsSound ∧
        (Conversion.selection schema parent selection).violations = [] ↔
      selection.WellTyped schema types parent := by
  match selection with
  | .field position alias? name arguments directives bodyPosition inner =>
    cases defined : schema.field? parent name with
    | none => simp [Conversion.selection, defined, Document.Selection.WellTyped.not_of_unknown defined]
    | some definition =>
      obtain ⟨type, typed, isOutput⟩ := Schema.isOutput_iff.mp (output parent name definition defined)
      have below := isSound_ofSelections_iff output definition.type.name inner
      simp only [Conversion.selection, defined, List.append_eq_nil_iff, argumentViolations_eq_nil]
      rcases TypeKind.leaf_or_composite isOutput with isLeaf | isComposite
      · rw [isSound_ofLeaf defined typed isLeaf, Document.Selection.WellTyped.leaf_iff defined typed isLeaf]
        constructor
        · rintro ⟨⟨fits, ofDirectives, isEmpty⟩, declared, _⟩
          exact ⟨⟨defined, declared, fits, ofDirectives⟩, isEmpty⟩
        · rintro ⟨isField, rfl⟩
          exact ⟨⟨isField.fits, isField.directives, rfl⟩, isField.declared, rfl⟩
      · rw [isSound_ofComposite defined typed isComposite,
          Document.Selection.WellTyped.composite_iff defined typed isComposite, ← below]
        constructor
        · rintro ⟨⟨fits, ofDirectives, notEmpty, sound⟩, declared, converted⟩
          exact ⟨⟨defined, declared, fits, ofDirectives⟩, notEmpty, sound, converted⟩
        · rintro ⟨isField, notEmpty, sound, converted⟩
          exact ⟨⟨isField.fits, isField.directives, notEmpty, sound⟩, isField.declared, converted⟩
  | .spread position name directives =>
    rw [Document.Selection.WellTyped.spread_iff, ofSelection, isSound_append, isSound_append,
      isSound_reportAt fun fault => rule_of_spreadFault, spreadFault?_eq_none, isSound_ofDirectives]
    simp [Conversion.selection, isSound_of_nil]
  | .inline position none directives inner =>
    rw [Document.Selection.WellTyped.inline_iff, ← isSound_ofSelections_iff output parent inner, ofSelection,
      isSound_append, isSound_ofDirectives, and_assoc]
    rfl
  | .inline position (some condition) directives inner =>
    rw [Document.Selection.WellTyped.narrowed_iff, ← isSound_ofSelections_iff output condition.name inner]
    simp only [ofSelection, isSound_append, isSound_ofDirectives]
    cases fault : conditionFault? schema none condition.name with
    | some reason =>
      have refused : ¬ (report reason condition.position).IsSound := not_isSound_report (rule_of_conditionFault fault)
      have notComposite : ¬ schema.isComposite condition.name = true := by
        intro isComposite
        rw [conditionFault?_eq_none.mpr isComposite] at fault
        exact Option.some_ne_none reason fault.symm
      simp [refused, notComposite]
    | none =>
      have isComposite := conditionFault?_eq_none.mp fault
      have refused : ¬ (report (.impossibleSpread none parent condition.name) position).IsSound := not_isSound_report rfl
      by_cases overlaps : schema.overlap parent condition.name = true
      · simp [overlaps, isComposite, isSound_append, isSound_of_nil, and_assoc, Conversion.selection]
      · simp [overlaps, refused, isSound_append]

end

theorem isSound_ofVariable {definition : Document.Variable} :
    (ofVariable schema definition).IsSound ↔ definition.WellTyped schema := by
  rw [Document.Variable.wellTyped_iff]
  cases typed : schema.type? definition.type.name with
  | none =>
    have refused : ¬ (report (.unknownType definition.type.name) definition.typePosition).IsSound := not_isSound_report rfl
    simp [ofVariable, typed, refused]
  | some type =>
    cases isInput : type.kind.isInput with
    | false =>
      have refused : ¬ (report (.nonInputVariable definition.name definition.type) definition.typePosition).IsSound :=
        not_isSound_report rfl
      simp [ofVariable, typed, refused, isInput]
    | true =>
      cases given : definition.default? with
      | none => simp [ofVariable, typed, given, isInput, isSound_of_nil]
      | some default =>
        cases checked : schema.checkLiteral default.value definition.type with
        | none => simp [ofVariable, typed, given, isInput, isSound_of_nil, checked]
        | some detail =>
          have refused : ¬ (report (.invalidDefault definition.name definition.type default.value detail)
              default.position).IsSound := not_isSound_report rfl
          simp [ofVariable, typed, given, isInput, refused, checked]

theorem isSound_ofOperation_iff (output : schema.FieldsAreOutput) (operation : Document.Operation) :
    (ofOperation schema types operation).IsSound ∧ (Conversion.ofOperation schema operation).violations = [] ↔
      operation.WellTyped schema types := by
  rw [Document.Operation.wellTyped_iff]
  cases named : operation.name? with
  | none => simp [Conversion.ofOperation, named]
  | some name =>
    cases typed : schema.rootType? operation.kind with
    | none => simp [Conversion.ofOperation, named, typed]
    | some root =>
      simp only [ofOperation, Conversion.ofOperation, named, typed, isSound_append, isSound_flat, isSound_ofVariable,
        isSound_ofDirectives, Option.some.injEq, exists_eq_left', Option.isSome_some, true_and,
        ← isSound_ofSelections_iff output root.name operation.selections]
      constructor
      · rintro ⟨⟨⟨declarations, sound⟩, directives⟩, converted⟩
        exact ⟨declarations, directives, sound, converted⟩
      · rintro ⟨declarations, directives, sound, converted⟩
        exact ⟨⟨⟨declarations, sound⟩, directives⟩, converted⟩

theorem isSound_ofFragment_iff (output : schema.FieldsAreOutput) (fragment : Document.Fragment) :
    (ofFragment schema types fragment).IsSound ∧ (Conversion.ofFragment schema fragment).violations = [] ↔
      fragment.WellTyped schema types := by
  rw [Document.Fragment.wellTyped_iff, ← isSound_ofSelections_iff output fragment.condition.name fragment.selections]
  simp only [ofFragment, Conversion.ofFragment, isSound_append, isSound_ofDirectives]
  cases fault : conditionFault? schema (some fragment.name) fragment.condition.name with
  | some reason =>
    have refused : ¬ (report reason fragment.condition.position).IsSound :=
      not_isSound_report (rule_of_conditionFault fault)
    have notComposite : ¬ schema.isComposite fragment.condition.name = true := by
      intro isComposite
      rw [conditionFault?_eq_none.mpr isComposite] at fault
      exact Option.some_ne_none reason fault.symm
    simp [refused, notComposite]
  | none =>
    have isComposite := conditionFault?_eq_none.mp fault
    constructor
    · rintro ⟨⟨sound, directives⟩, converted⟩
      exact ⟨isComposite, directives, sound, converted⟩
    · rintro ⟨_, directives, sound, converted⟩
      exact ⟨⟨sound, directives⟩, converted⟩

/-- The walk and conversion accept a definition exactly if it is well typed. -/
theorem isSound_ofDefinition_iff (output : schema.FieldsAreOutput) (definition : Document.Definition) :
    (ofDefinition schema types definition).IsSound ∧ (Conversion.ofDefinition schema definition).violations = [] ↔
      definition.WellTyped schema types := by
  cases definition with
  | operation operation => exact isSound_ofOperation_iff output operation
  | fragment fragment => exact isSound_ofFragment_iff output fragment

end Walk

end SiteQuery.Graphql
