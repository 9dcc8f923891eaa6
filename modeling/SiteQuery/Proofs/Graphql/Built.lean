import SiteQuery.Graphql.Context
import SiteQuery.Graphql.Node.OfDocument
import SiteQuery.Proofs.Graphql.Sameness

/-!
Contexts that come from documents: nodes of converted documents, added one by one.

Their names are distinct, and their values are keyed as far as those of the documents are.
-/

namespace SiteQuery.Graphql

namespace Document

def Directive.Keyed (directive : Directive) : Prop := ∀ argument ∈ directive.arguments, argument.value.Keyed

inductive Selection.Keyed : Selection → Prop
  | field {position alias? name arguments directives bodyPosition selections}
      (keyedArguments : ∀ argument ∈ arguments, argument.value.Keyed)
      (keyedDirectives : ∀ directive ∈ directives, directive.Keyed)
      (inner : ∀ selection ∈ selections, Keyed selection) :
      Keyed (.field position alias? name arguments directives bodyPosition selections)
  | spread {position name directives} (keyedDirectives : ∀ directive ∈ directives, directive.Keyed) :
      Keyed (.spread position name directives)
  | inline {position condition? directives selections}
      (keyedDirectives : ∀ directive ∈ directives, directive.Keyed)
      (inner : ∀ selection ∈ selections, Keyed selection) :
      Keyed (.inline position condition? directives selections)

def Definition.selections : Definition → List Selection
  | operation o => o.selections
  | fragment f => f.selections

end Document

/-- Every object that is written in a selection has distinct keys. -/
def Document.Keyed (document : Document) : Prop :=
  ∀ definition ∈ document.definitions, ∀ selection ∈ definition.selections, selection.Keyed

inductive Selection.Keyed : Selection → Prop
  | field {alias? name arguments directives type selections}
      (keyedArguments : ∀ argument ∈ arguments, argument.Keyed)
      (keyedDirectives : ∀ directive ∈ directives, directive.Keyed)
      (inner : ∀ selection ∈ selections, Keyed selection) :
      Keyed (.field alias? name arguments directives type selections)
  | spread {name directives} (keyedDirectives : ∀ directive ∈ directives, directive.Keyed) :
      Keyed (.spread name directives)
  | inline {condition? directives selections}
      (keyedDirectives : ∀ directive ∈ directives, directive.Keyed)
      (inner : ∀ selection ∈ selections, Keyed selection) :
      Keyed (.inline condition? directives selections)

def Selection.directives : Selection → List Directive
  | field _ _ _ directives _ _ => directives
  | spread _ directives => directives
  | inline _ directives _ => directives

theorem Selection.Keyed.directives {selection : Selection} (keyed : selection.Keyed) :
    ∀ directive ∈ selection.directives, directive.Keyed := by
  cases keyed <;> assumption

def Node.Keyed (node : Node) : Prop := ∀ selection ∈ node.selections, selection.Keyed

theorem Argument.keyed_map_ofWritten {arguments : List Document.Argument}
    (keyed : ∀ argument ∈ arguments, argument.value.Keyed) :
    ∀ argument ∈ arguments.map Argument.ofWritten, argument.Keyed := by
  intro argument member
  obtain ⟨written, inArguments, rfl⟩ := List.mem_map.mp member
  exact keyed written inArguments

theorem Directive.keyed_map_ofWritten {directives : List Document.Directive}
    (keyed : ∀ directive ∈ directives, directive.Keyed) :
    ∀ directive ∈ directives.map Directive.ofWritten, directive.Keyed := by
  intro directive member
  obtain ⟨written, inDirectives, rfl⟩ := List.mem_map.mp member
  exact Argument.keyed_map_ofWritten (keyed written inDirectives)

namespace Conversion

mutual

theorem keyed_selections (schema : Schema) (parent : String) (written : List Document.Selection)
    (keyed : ∀ selection ∈ written, selection.Keyed) :
    ∀ selection ∈ (selections schema parent written).result, selection.Keyed := by
  match written with
  | [] => simp [selections]
  | first :: rest =>
    intro found member
    simp only [selections, List.mem_append, Option.mem_toList] at member
    rcases member with isFirst | inRest
    · exact keyed_selection schema parent first (keyed _ (by simp)) found isFirst
    · exact keyed_selections schema parent rest
        (fun other inner => keyed other (List.mem_cons_of_mem _ inner)) found inRest

theorem keyed_selection (schema : Schema) (parent : String) (written : Document.Selection)
    (keyed : written.Keyed) (found : Selection)
    (converted : (selection schema parent written).result = some found) : found.Keyed := by
  match written, keyed with
  | .field position alias? name arguments directives bodyPosition inner, .field ofArguments ofDirectives ofInner =>
    cases known : schema.field? parent name with
    | none => simp [selection, known] at converted
    | some definition =>
      simp only [selection, known, Option.some.injEq] at converted
      subst converted
      exact .field (Argument.keyed_map_ofWritten ofArguments) (Directive.keyed_map_ofWritten ofDirectives)
        (keyed_selections schema definition.type.name inner ofInner)
  | .spread position name directives, .spread ofDirectives =>
    simp only [selection, Option.some.injEq] at converted
    subst converted
    exact .spread (Directive.keyed_map_ofWritten ofDirectives)
  | .inline position condition? directives inner, .inline ofDirectives ofInner =>
    simp only [selection, Option.some.injEq] at converted
    subst converted
    exact .inline (Directive.keyed_map_ofWritten ofDirectives)
      (keyed_selections schema ((condition?.map (·.name)).getD parent) inner ofInner)

end

theorem keyed_ofDefinition {schema : Schema} {definition : Document.Definition} {node : Node}
    (keyed : ∀ selection ∈ definition.selections, selection.Keyed)
    (converted : (ofDefinition schema definition).result = some node) : node.Keyed := by
  cases definition with
  | operation operation =>
    cases named : operation.name? with
    | none => simp [ofDefinition, ofOperation, named] at converted
    | some name =>
      cases typed : schema.rootType? operation.kind with
      | none => simp [ofDefinition, ofOperation, named, typed] at converted
      | some type =>
        simp only [ofDefinition, ofOperation, named, typed, Option.some.injEq] at converted
        subst converted
        exact keyed_selections schema type.name operation.selections keyed
  | fragment fragment =>
    simp only [ofDefinition, ofFragment, Option.some.injEq] at converted
    subst converted
    exact keyed_selections schema fragment.condition.name fragment.selections keyed

end Conversion

/-- Every node of a document is converted from one of its definitions. -/
theorem Node.mem_ofDocument {schema : Schema} {document : Document} {nodes : List Node} {node : Node}
    (converted : Node.ofDocument schema document = .ok nodes) (member : node ∈ nodes) :
    ∃ definition ∈ document.definitions, (Conversion.ofDefinition schema definition).result = some node := by
  simp only [Node.ofDocument] at converted
  split at converted
  · cases converted
    simpa [List.mem_filterMap] using member
  · cases converted

namespace Context

def Keyed (context : Context) : Prop := ∀ node ∈ context.nodes, node.Keyed

def names (context : Context) : List String := context.nodes.map Node.name

/-- What can be built by adding nodes of documents of one kind. -/
inductive Built (schema : Schema) (accepts : Document → Prop) : Context → Prop
  | empty : Built schema accepts {}
  | add {context larger : Context} {document : Document} {nodes : List Node} {node : Node}
      (before : Built schema accepts context) (accepted : accepts document)
      (converted : Node.ofDocument schema document = .ok nodes) (member : node ∈ nodes)
      (added : context.add node = .ok larger) : Built schema accepts larger

theorem get?_eq_none {context : Context} {name : String} : context.get? name = none ↔ name ∉ context.names := by
  simp only [get?, List.find?_eq_none, names, List.mem_map, beq_iff_eq, not_exists, not_and]

theorem get?_of_mem {context : Context} {node : Node} (distinct : context.names.Nodup)
    (member : node ∈ context.nodes) : context.get? node.name = some node := by
  obtain ⟨nodes⟩ := context
  simp only [get?, names] at *
  induction nodes with
  | nil => cases member
  | cons first rest ih =>
    simp only [List.map_cons, List.nodup_cons] at distinct
    rcases List.mem_cons.mp member with rfl | inRest
    · simp
    · have different : first.name ≠ node.name := fun same =>
        distinct.1 (same ▸ List.mem_map_of_mem (f := Node.name) inRest)
      simpa [List.find?_cons, different] using ih distinct.2 inRest

theorem mem_of_get? {context : Context} {name : String} {node : Node} (found : context.get? name = some node) :
    node ∈ context.nodes ∧ node.name = name :=
  ⟨List.mem_of_find?_eq_some found, by simpa using List.find?_some found⟩

theorem get?_of_fragment? {context : Context} {name : String} {fragment : Fragment}
    (found : context.fragment? name = some fragment) : context.get? name = some (.fragment fragment) := by
  obtain ⟨node, isNode, isFragment⟩ := Option.bind_eq_some_iff.mp found
  cases node with
  | root => cases isFragment
  | fragment =>
    cases isFragment
    exact isNode

theorem Keyed.fragment {context : Context} (keyed : context.Keyed) {name : String} {fragment : Fragment}
    (found : context.fragment? name = some fragment) : ∀ selection ∈ fragment.selections, selection.Keyed :=
  keyed _ (mem_of_get? (get?_of_fragment? found)).1

/-- A node is added at the end, under a new name. -/
theorem add_eq_ok {context larger : Context} {node : Node} (added : context.add node = .ok larger) :
    context.get? node.name = none ∧ larger = ⟨context.nodes ++ [node]⟩ := by
  unfold add at added
  split at added
  · cases added
  · exact ⟨‹_›, (Except.ok.inj added).symm⟩

namespace Built

variable {schema : Schema} {accepts : Document → Prop} {context : Context}

theorem names_nodup (built : context.Built schema accepts) : context.names.Nodup := by
  induction built with
  | empty => exact List.nodup_nil
  | add _ _ _ _ added ih =>
    obtain ⟨fresh, rfl⟩ := add_eq_ok added
    rw [get?_eq_none] at fresh
    simpa [names, List.nodup_append] using ⟨ih, by simpa [names] using fresh⟩

/-- What holds of every node of every such document holds of all nodes. -/
theorem forall_nodes {property : Node → Prop} (built : context.Built schema accepts)
    (holds : ∀ document nodes, accepts document → Node.ofDocument schema document = .ok nodes →
      ∀ node ∈ nodes, property node) :
    ∀ node ∈ context.nodes, property node := by
  induction built with
  | empty => simp
  | add _ accepted converted member added ih =>
    obtain ⟨-, rfl⟩ := add_eq_ok added
    intro node inLarger
    rcases List.mem_append.mp inLarger with before | last
    · exact ih node before
    · cases List.mem_singleton.mp last
      exact holds _ _ accepted converted _ member

theorem keyed (built : context.Built schema Document.Keyed) : context.Keyed := by
  refine built.forall_nodes (fun document nodes accepted converted node member => ?_)
  obtain ⟨definition, inDocument, ofDefinition⟩ := Node.mem_ofDocument converted member
  exact Conversion.keyed_ofDefinition (accepted definition inDocument) ofDefinition

end Built

end Context

end SiteQuery.Graphql
