import Mathlib.Data.List.Forall2
import SiteQuery.Proofs.Graphql.Conversion

/-!
The nodes of a document beside its definitions: under the same names, of the same kinds, with the same spreads.
-/

namespace SiteQuery.Graphql

namespace Document

def Definition.operationName? : Definition → Option String
  | operation o => o.name?
  | fragment _ => none

def Definition.fragmentName? : Definition → Option String
  | operation _ => none
  | fragment f => some f.name

def names (document : Document) : List String := document.definitions.filterMap Definition.name?

def operationNames (document : Document) : List String := document.definitions.filterMap Definition.operationName?

def fragmentNames (document : Document) : List String := document.definitions.filterMap Definition.fragmentName?

/-- A fragment is spread in selections, at any depth. -/
inductive Spreads : List Selection → String → Prop
  | here {selections position name directives} (member : .spread position name directives ∈ selections) :
      Spreads selections name
  | field {selections position alias? name arguments directives bodyPosition inner spread}
      (member : .field position alias? name arguments directives bodyPosition inner ∈ selections)
      (below : Spreads inner spread) : Spreads selections spread
  | inline {selections position condition? directives inner spread}
      (member : .inline position condition? directives inner ∈ selections) (below : Spreads inner spread) :
      Spreads selections spread

namespace Spreads

variable {selections others : List Selection} {name spread : String}

theorem mono (spreads : Spreads selections name) (included : selections ⊆ others) : Spreads others name := by
  cases spreads with
  | here member => exact .here (included member)
  | field member below => exact .field (included member) below
  | inline member below => exact .inline (included member) below

theorem not_nil : ¬ Spreads [] name := by
  intro spreads
  cases spreads with
  | here member => cases member
  | field member => cases member
  | inline member => cases member

theorem exists_mem (spreads : Spreads selections name) : ∃ selection ∈ selections, Spreads [selection] name := by
  cases spreads with
  | here member => exact ⟨_, member, .here (List.mem_singleton.mpr rfl)⟩
  | field member below => exact ⟨_, member, .field (List.mem_singleton.mpr rfl) below⟩
  | inline member below => exact ⟨_, member, .inline (List.mem_singleton.mpr rfl) below⟩

theorem iff_exists : Spreads selections name ↔ ∃ selection ∈ selections, Spreads [selection] name := by
  constructor
  · exact exists_mem
  · rintro ⟨selection, member, spreads⟩
    exact spreads.mono (by simpa using member)

theorem cons_iff {first : Selection} {rest : List Selection} :
    Spreads (first :: rest) name ↔ Spreads [first] name ∨ Spreads rest name := by
  have below : Spreads rest name ↔ ∃ selection ∈ rest, Spreads [selection] name := iff_exists
  rw [iff_exists, below]
  simp only [List.mem_cons, or_and_right, exists_or, exists_eq_left]

theorem spread_iff {position : Position} {directives : List Directive} :
    Spreads [.spread position spread directives] name ↔ name = spread := by
  constructor
  · intro spreads
    cases spreads with
    | here member =>
      cases List.mem_singleton.mp member
      rfl
    | field member => cases List.mem_singleton.mp member
    | inline member => cases List.mem_singleton.mp member
  · rintro rfl
    exact .here (List.mem_singleton.mpr rfl)

theorem field_iff {position bodyPosition : Position} {alias? : Option String} {field : String}
    {arguments : List Argument} {directives : List Directive} :
    Spreads [.field position alias? field arguments directives bodyPosition selections] name ↔
      Spreads selections name := by
  constructor
  · intro spreads
    cases spreads with
    | here member => cases List.mem_singleton.mp member
    | field member below =>
      cases List.mem_singleton.mp member
      exact below
    | inline member => cases List.mem_singleton.mp member
  · exact .field (List.mem_singleton.mpr rfl)

theorem inline_iff {position : Position} {condition? : Option Condition} {directives : List Directive} :
    Spreads [.inline position condition? directives selections] name ↔ Spreads selections name := by
  constructor
  · intro spreads
    cases spreads with
    | here member => cases List.mem_singleton.mp member
    | field member => cases List.mem_singleton.mp member
    | inline member below =>
      cases List.mem_singleton.mp member
      exact below
  · exact .inline (List.mem_singleton.mpr rfl)

end Spreads

end Document

namespace Conversion

mutual

theorem mem_spreadsIn {schema : Schema} {parent : String} {written : List Document.Selection}
    (accepted : (selections schema parent written).violations = []) {name : String} :
    name ∈ Selection.spreadsIn (selections schema parent written).result ↔ Document.Spreads written name := by
  match written with
  | [] =>
    have nowhere : ¬ Document.Spreads [] name := Document.Spreads.not_nil
    simp [selections, Selection.spreadsIn, nowhere]
  | first :: rest =>
    rw [selections, List.append_eq_nil_iff] at accepted
    obtain ⟨converted, isFirst, _⟩ := written_selection schema parent first accepted.1
    have ofFirst : name ∈ converted.spreads ↔ Document.Spreads [first] name := mem_spreads accepted.1 isFirst
    have ofRest : name ∈ Selection.spreadsIn (selections schema parent rest).result ↔ Document.Spreads rest name :=
      mem_spreadsIn accepted.2
    rw [Document.Spreads.cons_iff, ← ofFirst, ← ofRest]
    simp [selections, isFirst, Selection.spreadsIn]

theorem mem_spreads {schema : Schema} {parent : String} {written : Document.Selection} {converted : Selection}
    (accepted : (selection schema parent written).violations = [])
    (isConverted : (selection schema parent written).result = some converted) {name : String} :
    name ∈ converted.spreads ↔ Document.Spreads [written] name := by
  match written with
  | .field position alias? field arguments directives bodyPosition inner =>
    cases known : schema.field? parent field with
    | none => simp [selection, known] at accepted
    | some definition =>
      simp only [selection, known, Option.some.injEq, List.append_eq_nil_iff] at isConverted accepted
      subst isConverted
      rw [Selection.spreads, Document.Spreads.field_iff]
      exact mem_spreadsIn accepted.2
  | .spread position spread directives =>
    simp only [selection, Option.some.injEq] at isConverted
    subst isConverted
    rw [Selection.spreads, Document.Spreads.spread_iff, List.mem_singleton]
  | .inline position condition? directives inner =>
    simp only [selection, Option.some.injEq] at isConverted accepted
    subst isConverted
    rw [Selection.spreads, Document.Spreads.inline_iff]
    exact mem_spreadsIn accepted

end

namespace Gives

variable {schema : Schema} {definition : Document.Definition} {node : Node}

theorem written (gives : Gives schema definition node) : node.written = definition.unplaced :=
  written_ofDefinition gives.accepted gives.result

theorem name (gives : Gives schema definition node) : definition.name? = some node.name := by
  have same := gives.written
  cases definition <;> cases node <;>
    simp_all [Node.written, Document.Definition.unplaced, Document.Definition.name?, Node.name]

theorem operationName? (gives : Gives schema definition node) :
    definition.operationName? = if node.isRoot then some node.name else none := by
  have same := gives.written
  cases definition <;> cases node <;>
    simp_all [Node.written, Document.Definition.unplaced, Document.Definition.operationName?, Node.isRoot, Node.name]

theorem fragmentName? (gives : Gives schema definition node) :
    definition.fragmentName? = if node.isRoot then none else some node.name := by
  have same := gives.written
  cases definition <;> cases node <;>
    simp_all [Node.written, Document.Definition.unplaced, Document.Definition.fragmentName?, Node.isRoot, Node.name]

theorem spreads (gives : Gives schema definition node) {name : String} :
    name ∈ node.spreads ↔ Document.Spreads definition.selections name := by
  obtain ⟨result, accepted⟩ := gives
  rw [Node.spreads, List.mem_eraseDups]
  cases definition with
  | operation operation =>
    cases named : operation.name? with
    | none => simp [ofDefinition, ofOperation, named] at accepted
    | some name =>
      cases typed : schema.rootType? operation.kind with
      | none => simp [ofDefinition, ofOperation, named, typed] at accepted
      | some type =>
        simp only [ofDefinition, ofOperation, named, typed, Option.some.injEq] at result accepted
        subst result
        exact mem_spreadsIn accepted
  | fragment fragment =>
    simp only [ofDefinition, ofFragment, Option.some.injEq] at result accepted
    subst result
    exact mem_spreadsIn accepted

end Gives

section Lists

variable {schema : Schema} {definitions : List Document.Definition} {nodes : List Node}

theorem exists_mem_iff_of_gives (gives : List.Forall₂ (Gives schema) definitions nodes) {ofNode : Node → Prop}
    {ofDefinition : Document.Definition → Prop}
    (same : ∀ definition node, Gives schema definition node → (ofNode node ↔ ofDefinition definition)) :
    (∃ node ∈ nodes, ofNode node) ↔ ∃ definition ∈ definitions, ofDefinition definition := by
  induction gives with
  | nil => simp
  | cons first _ ih => simp [same _ _ first, ih]

theorem map_name_of_gives (gives : List.Forall₂ (Gives schema) definitions nodes) :
    nodes.map Node.name = definitions.filterMap Document.Definition.name? := by
  induction gives with
  | nil => rfl
  | cons first _ ih => rw [List.map_cons, ih, List.filterMap_cons_some first.name]

theorem exists_name_of_gives (gives : List.Forall₂ (Gives schema) definitions nodes) {definition : Document.Definition}
    (member : definition ∈ definitions) : ∃ name, definition.name? = some name := by
  induction gives with
  | nil => cases member
  | cons first _ ih =>
    rcases List.mem_cons.mp member with rfl | inRest
    · exact ⟨_, first.name⟩
    · exact ih inRest

theorem exists_node_of_gives (gives : List.Forall₂ (Gives schema) definitions nodes)
    {definition : Document.Definition} (member : definition ∈ definitions) :
    ∃ node ∈ nodes, Gives schema definition node := by
  induction gives with
  | nil => cases member
  | cons first _ ih =>
    rcases List.mem_cons.mp member with rfl | inRest
    · exact ⟨_, List.mem_cons_self, first⟩
    · obtain ⟨node, isNode, given⟩ := ih inRest
      exact ⟨node, List.mem_cons_of_mem _ isNode, given⟩

theorem exists_definition_of_gives (gives : List.Forall₂ (Gives schema) definitions nodes) {node : Node}
    (member : node ∈ nodes) : ∃ definition ∈ definitions, Gives schema definition node := by
  induction gives with
  | nil => cases member
  | cons first _ ih =>
    rcases List.mem_cons.mp member with rfl | inRest
    · exact ⟨_, List.mem_cons_self, first⟩
    · obtain ⟨definition, isDefinition, given⟩ := ih inRest
      exact ⟨definition, List.mem_cons_of_mem _ isDefinition, given⟩

end Lists

end Conversion

/-- The fragments of a context are those that the definitions of its nodes name. -/
theorem Context.isSome_fragment?_iff {schema : Schema} {definitions : List Document.Definition} {context : Context}
    (gives : List.Forall₂ (Conversion.Gives schema) definitions context.nodes) (distinct : context.names.Nodup)
    {name : String} :
    (context.fragment? name).isSome = true ↔ name ∈ definitions.filterMap Document.Definition.fragmentName? := by
  have inNodes : (context.fragment? name).isSome = true ↔
      ∃ node ∈ context.nodes, node.isRoot = false ∧ node.name = name := by
    constructor
    · intro isSome
      obtain ⟨fragment, found⟩ := Option.isSome_iff_exists.mp isSome
      obtain ⟨member, named⟩ := mem_of_get? (get?_of_fragment? found)
      exact ⟨_, member, rfl, named⟩
    · rintro ⟨node, member, isFragment, rfl⟩
      rw [fragment?, get?_of_mem distinct member]
      cases node with
      | root => cases isFragment
      | fragment => rfl
  rw [inNodes, List.mem_filterMap]
  apply Conversion.exists_mem_iff_of_gives gives
  intro definition node isGiven
  rw [isGiven.fragmentName?]
  cases node.isRoot <;> simp

end SiteQuery.Graphql
