import SiteQuery.Proofs.Graphql.Built
import SiteQuery.Proofs.Graphql.Printable

/-!
Conversion keeps all that a definition says, and does not depend on places.
-/

namespace SiteQuery.Graphql

namespace Argument

@[simp] theorem written_ofWritten (argument : Document.Argument) : (ofWritten argument).written = argument.unplaced := rfl

@[simp] theorem ofWritten_unplaced (argument : Document.Argument) : ofWritten argument.unplaced = ofWritten argument := rfl

end Argument

namespace Directive

@[simp] theorem written_ofWritten (directive : Document.Directive) : (ofWritten directive).written = directive.unplaced := by
  simp [ofWritten, written, Document.Directive.unplaced]

@[simp] theorem ofWritten_unplaced (directive : Document.Directive) : ofWritten directive.unplaced = ofWritten directive := by
  simp [ofWritten, Document.Directive.unplaced]

end Directive

/-- The same result, with the places of what is wrong with it forgotten. -/
def Reported.unplaced {Result : Type} (reported : Reported Result) : Reported Result :=
  ⟨reported.result, reported.violations.map Violation.unplaced⟩

theorem Reported.accepted_unplaced_iff {Result : Type} {reported : Reported Result} :
    reported.unplaced.violations = [] ↔ reported.violations = [] :=
  List.map_eq_nil_iff

namespace Conversion

theorem argumentViolations_unplaced (definition : FieldDefinition) (parent name : String) (arguments : List Document.Argument) :
    argumentViolations definition parent name (arguments.map Document.Argument.unplaced) =
      (argumentViolations definition parent name arguments).map Violation.unplaced := by
  simp only [argumentViolations, List.filterMap_map, List.map_filterMap]
  refine List.filterMap_congr fun argument _ => ?_
  by_cases unknown : (definition.argument? argument.name).isNone = true
  · rw [Function.comp_apply, if_pos unknown, Document.Argument.unplaced, if_pos unknown]
    rfl
  · rw [Function.comp_apply, if_neg unknown, Document.Argument.unplaced, if_neg unknown]
    rfl

mutual

theorem selections_unplaced (schema : Schema) (parent : String) (written : List Document.Selection) :
    selections schema parent (Document.Selection.unplacedAll written) = (selections schema parent written).unplaced := by
  match written with
  | [] => rfl
  | first :: rest =>
    have ofFirst := selection_unplaced schema parent first
    have ofRest := selections_unplaced schema parent rest
    simp only [Document.Selection.unplacedAll, selections, ofFirst, ofRest, Reported.unplaced, List.map_append]

theorem selection_unplaced (schema : Schema) (parent : String) (written : Document.Selection) :
    selection schema parent written.unplaced = (selection schema parent written).unplaced := by
  match written with
  | .field position alias? name arguments directives bodyPosition inner =>
    cases known : schema.field? parent name with
    | none => simp [Document.Selection.unplaced, selection, known, Reported.unplaced, Violation.unplaced]
    | some definition =>
      have below := selections_unplaced schema definition.type.name inner
      simp [Document.Selection.unplaced, selection, known, below, Reported.unplaced, argumentViolations_unplaced]
  | .spread position name directives => simp [Document.Selection.unplaced, selection, Reported.unplaced]
  | .inline position condition? directives inner =>
    have sameType : (condition?.map Document.Condition.unplaced).map (·.name) = condition?.map (·.name) := by
      cases condition? <;> rfl
    have below := selections_unplaced schema ((condition?.map (·.name)).getD parent) inner
    simp only [Document.Selection.unplaced, selection, sameType, below]
    simp [Reported.unplaced]

end

mutual

/-- Selections without violations are converted one by one. -/
theorem writtenAll_selections (schema : Schema) (parent : String) (written : List Document.Selection)
    (accepted : (selections schema parent written).violations = []) :
    Selection.writtenAll (selections schema parent written).result = Document.Selection.unplacedAll written := by
  match written with
  | [] => rfl
  | first :: rest =>
    simp only [selections, List.append_eq_nil_iff] at accepted
    obtain ⟨converted, isFirst, sameFirst⟩ := written_selection schema parent first accepted.1
    have sameRest := writtenAll_selections schema parent rest accepted.2
    simp [selections, isFirst, Selection.writtenAll, Document.Selection.unplacedAll, sameFirst, sameRest]

theorem written_selection (schema : Schema) (parent : String) (written : Document.Selection)
    (accepted : (selection schema parent written).violations = []) :
    ∃ converted, (selection schema parent written).result = some converted ∧ converted.written = written.unplaced := by
  match written with
  | .field position alias? name arguments directives bodyPosition inner =>
    cases known : schema.field? parent name with
    | none => simp [selection, known] at accepted
    | some definition =>
      simp only [selection, known, List.append_eq_nil_iff] at accepted
      have below := writtenAll_selections schema definition.type.name inner accepted.2
      simp only [selection, known]
      refine ⟨_, rfl, ?_⟩
      simp [Selection.written, Document.Selection.unplaced, below]
  | .spread position name directives =>
    simp only [selection]
    refine ⟨_, rfl, ?_⟩
    simp [Selection.written, Document.Selection.unplaced]
  | .inline position condition? directives inner =>
    simp only [selection] at accepted ⊢
    have below := writtenAll_selections schema ((condition?.map (·.name)).getD parent) inner accepted
    refine ⟨_, rfl, ?_⟩
    cases condition? <;>
      simp [Selection.written, Document.Selection.unplaced, Document.Condition.unplaced] <;>
      simpa using below

end

@[simp] theorem ofVariable_unplaced (definition : Document.Variable) : ofVariable definition.unplaced = ofVariable definition := by
  cases given : definition.default? <;> simp [ofVariable, Document.Variable.unplaced, given]

@[simp] theorem written_ofVariable (definition : Document.Variable) : (ofVariable definition).written = definition.unplaced := by
  cases given : definition.default? <;> simp [ofVariable, Variable.written, Document.Variable.unplaced, given]

/-- A definition without places is converted to the same node, or violates the schema in the same way. -/
theorem ofDefinition_unplaced (schema : Schema) (definition : Document.Definition) :
    ofDefinition schema definition.unplaced = (ofDefinition schema definition).unplaced := by
  cases definition with
  | operation operation =>
    cases named : operation.name? with
    | none =>
      simp [Document.Definition.unplaced, ofDefinition, ofOperation, named, Reported.unplaced, Violation.unplaced]
    | some name =>
      cases typed : schema.rootType? operation.kind with
      | none =>
        simp [Document.Definition.unplaced, ofDefinition, ofOperation, named, typed, Reported.unplaced,
          Violation.unplaced]
      | some type =>
        have below := selections_unplaced schema type.name operation.selections
        simp [Document.Definition.unplaced, ofDefinition, ofOperation, named, typed, below, Reported.unplaced]
  | fragment fragment =>
    have below := selections_unplaced schema fragment.condition.name fragment.selections
    simp [Document.Definition.unplaced, Document.Condition.unplaced, ofDefinition, ofFragment, below, Reported.unplaced]

/-- Definitions without violations are converted, and nothing but their places is lost. -/
theorem written_ofDefinition {schema : Schema} {definition : Document.Definition} {node : Node}
    (accepted : (ofDefinition schema definition).violations = [])
    (converted : (ofDefinition schema definition).result = some node) : node.written = definition.unplaced := by
  cases definition with
  | operation operation =>
    cases named : operation.name? with
    | none => simp [ofDefinition, ofOperation, named] at accepted
    | some name =>
      cases typed : schema.rootType? operation.kind with
      | none => simp [ofDefinition, ofOperation, named, typed] at accepted
      | some type =>
        simp only [ofDefinition, ofOperation, named, typed, Option.some.injEq] at accepted converted
        obtain rfl := converted
        have below := writtenAll_selections schema type.name operation.selections accepted
        simp [Node.written, Document.Definition.unplaced, named, below]
  | fragment fragment =>
    simp only [ofDefinition, ofFragment, Option.some.injEq] at accepted converted
    obtain rfl := converted
    have below := writtenAll_selections schema fragment.condition.name fragment.selections accepted
    simp [Node.written, Document.Definition.unplaced, Document.Condition.unplaced, below]

theorem exists_result {schema : Schema} {definition : Document.Definition}
    (accepted : (ofDefinition schema definition).violations = []) :
    ∃ node, (ofDefinition schema definition).result = some node := by
  cases definition with
  | operation operation =>
    cases named : operation.name? with
    | none => simp [ofDefinition, ofOperation, named] at accepted
    | some name =>
      cases typed : schema.rootType? operation.kind with
      | none => simp [ofDefinition, ofOperation, named, typed] at accepted
      | some type => simp [ofDefinition, ofOperation, named, typed]
  | fragment fragment => simp [ofDefinition, ofFragment]

end Conversion

/-- The definition says what the node says. -/
structure Conversion.Gives (schema : Schema) (definition : Document.Definition) (node : Node) : Prop where
  result : (ofDefinition schema definition).result = some node
  accepted : (ofDefinition schema definition).violations = []

theorem Node.ofDocument_eq_ok {schema : Schema} {document : Document} {nodes : List Node}
    (gives : List.Forall₂ (Conversion.Gives schema) document.definitions nodes) :
    Node.ofDocument schema document = .ok nodes := by
  obtain ⟨definitions⟩ := document
  simp only at gives
  have both : (definitions.map (Conversion.ofDefinition schema)).flatMap (·.violations) = [] ∧
      (definitions.map (Conversion.ofDefinition schema)).filterMap (·.result) = nodes := by
    induction gives with
    | nil => exact ⟨rfl, rfl⟩
    | cons first _ ih => simp [first.result, first.accepted, ih.1, ih.2]
  simp only [Node.ofDocument, both.1, both.2, List.isEmpty_nil, if_true]

/-- The definitions of a document give its nodes, one by one. -/
theorem Node.gives_of_ofDocument {schema : Schema} {document : Document} {nodes : List Node}
    (converted : Node.ofDocument schema document = .ok nodes) :
    List.Forall₂ (Conversion.Gives schema) document.definitions nodes := by
  obtain ⟨definitions⟩ := document
  simp only [Node.ofDocument] at converted
  split at converted
  · rename_i accepted
    cases converted
    rw [List.isEmpty_iff] at accepted
    induction definitions with
    | nil => exact .nil
    | cons definition rest ih =>
      rw [List.map_cons, List.flatMap_cons, List.append_eq_nil_iff] at accepted
      obtain ⟨node, result⟩ := Conversion.exists_result accepted.1
      rw [List.map_cons]
      rw [List.filterMap_cons_some result]
      exact .cons ⟨result, accepted.1⟩ (ih accepted.2)
  · cases converted

theorem Node.gives_of_mem_ofDocument {schema : Schema} {document : Document} {nodes : List Node} {node : Node}
    (converted : Node.ofDocument schema document = .ok nodes) (member : node ∈ nodes) :
    ∃ definition ∈ document.definitions, Conversion.Gives schema definition node := by
  obtain ⟨definition, inDocument, result⟩ := Node.mem_ofDocument converted member
  refine ⟨definition, inDocument, result, ?_⟩
  simp only [Node.ofDocument] at converted
  split at converted
  · rename_i accepted
    rw [List.isEmpty_iff, List.flatMap_eq_nil_iff] at accepted
    exact accepted _ (List.mem_map_of_mem inDocument)
  · cases converted

end SiteQuery.Graphql
