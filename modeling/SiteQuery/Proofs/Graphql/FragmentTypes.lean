import SiteQuery.Proofs.Graphql.Nodes
import SiteQuery.Proofs.Graphql.Usages

/-!
Which types of fragments validation depends on.

A walk looks up the names that it spreads and no others; for a whole document, tables that give the same for every
name lead to the same report.
-/

namespace SiteQuery.Graphql

namespace FragmentTypes

theorem get?_append (types own : FragmentTypes) (name : String) :
    (types ++ own).get? name = (own.get? name).or (types.get? name) := by
  simp only [get?, List.reverse_append, List.find?_append, Option.map_or]

/-- Under distinct names it does not matter which entry is the last one. -/
theorem get?_eq_some_iff {types : FragmentTypes} (distinct : (types.map (·.1)).Nodup) {name type : String} :
    types.get? name = some type ↔ (name, type) ∈ types := by
  have reverseDistinct : (types.reverse.map (·.1)).Nodup := by
    rw [List.map_reverse]
    exact List.nodup_reverse.mpr distinct
  simp only [get?, Option.map_eq_some_iff]
  constructor
  · rintro ⟨entry, found, rfl⟩
    have named : entry.1 = name := by simpa using List.find?_some found
    exact named ▸ List.mem_reverse.mp (List.mem_of_find?_eq_some found)
  · intro member
    have inReverse := List.mem_reverse.mpr member
    cases found : types.reverse.find? (·.1 == name) with
    | none => exact absurd (List.find?_eq_none.mp found _ inReverse) (by simp)
    | some entry =>
      have named : entry.1 = name := by simpa using List.find?_some found
      have same := List.inj_on_of_nodup_map reverseDistinct (List.mem_of_find?_eq_some found) inReverse named
      exact ⟨entry, rfl, by rw [same]⟩

theorem get?_perm {types others : FragmentTypes} (distinct : (types.map (·.1)).Nodup) (perm : types.Perm others)
    (name : String) : types.get? name = others.get? name := by
  have otherDistinct := (perm.map (·.1)).nodup_iff.mp distinct
  apply Option.ext
  intro type
  rw [get?_eq_some_iff distinct, get?_eq_some_iff otherDistinct, perm.mem_iff]

end FragmentTypes

namespace Walk

section Congruence

variable {schema : Schema} {types others : FragmentTypes}

mutual

theorem ofSelections_congr {selections : List Document.Selection}
    (agree : ∀ name, Document.Spreads selections name → types.get? name = others.get? name) (parent : String) :
    ofSelections schema types parent selections = ofSelections schema others parent selections := by
  match selections with
  | [] => rfl
  | first :: rest =>
    have here := ofSelection_congr (fun name spreads => agree name (Document.Spreads.cons_iff.mpr (.inl spreads))) parent
    have below := ofSelections_congr (fun name spreads => agree name (Document.Spreads.cons_iff.mpr (.inr spreads))) parent
    rw [ofSelections, ofSelections, here, below]

theorem ofSelection_congr {selection : Document.Selection}
    (agree : ∀ name, Document.Spreads [selection] name → types.get? name = others.get? name) (parent : String) :
    ofSelection schema types parent selection = ofSelection schema others parent selection := by
  match selection with
  | .field position alias? name arguments directives bodyPosition inner =>
    have below (parent : String) := ofSelections_congr
      (fun name spreads => agree name (Document.Spreads.field_iff.mpr spreads)) parent
    simp only [ofSelection, below]
  | .spread position name directives =>
    have same := agree name (Document.Spreads.spread_iff.mpr rfl)
    simp only [ofSelection, spreadFault?, same]
  | .inline position condition? directives inner =>
    have below (parent : String) := ofSelections_congr
      (fun name spreads => agree name (Document.Spreads.inline_iff.mpr spreads)) parent
    simp only [ofSelection, below]

end

theorem ofOperation_congr {operation : Document.Operation}
    (agree : ∀ name, Document.Spreads operation.selections name → types.get? name = others.get? name) :
    ofOperation schema types operation = ofOperation schema others operation := by
  simp only [ofOperation, ofSelections_congr agree]

theorem ofFragment_congr {fragment : Document.Fragment}
    (agree : ∀ name, Document.Spreads fragment.selections name → types.get? name = others.get? name) :
    ofFragment schema types fragment = ofFragment schema others fragment := by
  simp only [ofFragment, ofSelections_congr agree]

theorem ofDefinition_congr {definition : Document.Definition}
    (agree : ∀ name, Document.Spreads definition.selections name → types.get? name = others.get? name) :
    ofDefinition schema types definition = ofDefinition schema others definition := by
  cases definition with
  | operation operation => exact ofOperation_congr agree
  | fragment fragment => exact ofFragment_congr agree

end Congruence

end Walk

theorem validate_congr {schema : Schema} {types others : FragmentTypes} (agree : ∀ name, types.get? name = others.get? name)
    (document : Document) (rules : List ViolatedRule) :
    validate schema document types rules = validate schema document others rules := by
  have withOwn (name : String) : (types ++ FragmentTypes.ofDocument document).get? name =
      (others ++ FragmentTypes.ofDocument document).get? name := by
    rw [FragmentTypes.get?_append, FragmentTypes.get?_append, agree]
  have ofDefinition (definition : Document.Definition) :
      Walk.ofDefinition schema (types ++ .ofDocument document) definition =
        Walk.ofDefinition schema (others ++ .ofDocument document) definition :=
    Walk.ofDefinition_congr fun name _ => withOwn name
  have ofOperation (operation : Document.Operation) := ofDefinition (.operation operation)
  have ofFragment (fragment : Document.Fragment) := ofDefinition (.fragment fragment)
  simp only [Walk.ofDefinition] at ofOperation ofFragment
  simp only [validate_eq_filter, Validation.report, Validation.variableViolations, Validation.walkedFragments, ofDefinition,
    ofOperation, ofFragment]

end SiteQuery.Graphql
