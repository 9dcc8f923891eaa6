import SiteQuery.Proofs.Graphql.Formed
import SiteQuery.Proofs.Graphql.FragmentTypes
import SiteQuery.Proofs.Graphql.WellTyped

/-!
Validation finds nothing in a normal form that it did not find before.

A walk over formed selections without violations covers the walk over their normal form: with its usages of variables
and its spreads.
-/

namespace SiteQuery.Graphql.Walk

namespace Covers

variable {whole : Walk}

theorem append {a b : Walk} (first : Covers whole a) (second : Covers whole b) : Covers whole (a ++ b) where
  violations violation member :=
    (List.mem_append.mp member).elim (first.violations violation) (second.violations violation)
  usages usage member := (List.mem_append.mp member).elim (first.usages usage) (second.usages usage)
  spreads name member := (List.mem_append.mp member).elim (first.spreads name) (second.spreads name)

theorem mono {a b c d : Walk} (first : Covers a b) (second : Covers c d) : Covers (a ++ c) (b ++ d) :=
  ((left a c).trans first).append ((right a c).trans second)

theorem empty : Covers whole {} := ⟨nofun, nofun, nofun⟩

theorem refl (whole : Walk) : Covers whole whole := ⟨fun _ member => member, fun _ member => member, fun _ member => member⟩

end Covers

section Selections

variable {schema : Schema} {types : FragmentTypes} {parent : String} {whole : Walk}

/-- The walk has what is found at a field, and below it where there is a walk below. -/
structure HasField (schema : Schema) (types : FragmentTypes) (whole : Walk) (definition : FieldDefinition)
    (arguments : List Document.Argument) (directives : List Document.Directive) (inner : List Document.Selection) :
    Prop where
  own : Covers whole (flat (ofArgument schema definition.arguments) arguments ++ ofDirectives schema directives)
  leaf : ∀ type, schema.type? definition.type.name = some type → type.kind.isLeaf = true → inner = []
  composite : ∀ type, schema.type? definition.type.name = some type → type.kind.isComposite = true →
    inner ≠ [] ∧ Covers whole (ofSelections schema types definition.type.name inner)

section Field

variable {position bodyPosition : Position} {alias? : Option String} {name : String}
  {arguments : List Document.Argument} {directives : List Document.Directive} {inner : List Document.Selection}
  {definition : FieldDefinition}

theorem HasField.covers (defined : schema.field? parent name = some definition)
    (has : HasField schema types whole definition arguments directives inner) :
    Covers whole (ofSelection schema types parent
      (.field position alias? name arguments directives bodyPosition inner)) := by
  obtain ⟨own, ifLeaf, ifComposite⟩ := has
  simp only [ofSelection, defined]
  cases known : schema.type? definition.type.name with
  | none => exact own
  | some type =>
    refine own.append ?_
    by_cases leaf : type.kind.isLeaf = true
    · obtain rfl := ifLeaf type known leaf
      simp only [leaf]
      exact .empty
    · by_cases composite : type.kind.isComposite = true
      · obtain ⟨notEmpty, below⟩ := ifComposite type known composite
        simpa [leaf, composite, notEmpty] using below
      · simp only [leaf, composite]
        exact .empty

theorem hasField (defined : schema.field? parent name = some definition) (sound : whole.IsSound)
    (covers : Covers whole (ofSelection schema types parent
      (.field position alias? name arguments directives bodyPosition inner))) :
    HasField schema types whole definition arguments directives inner := by
  simp only [ofSelection, defined] at covers
  have own : Covers whole (flat (ofArgument schema definition.arguments) arguments ++ ofDirectives schema directives) := by
    cases known : schema.type? definition.type.name with
    | none => simpa only [known] using covers
    | some type =>
      simp only [known] at covers
      exact covers.trans (.left _ _)
  refine ⟨own, ?_, ?_⟩
  · intro type known leaf
    simp only [known, leaf, if_true] at covers
    have below := covers.trans (.right _ _)
    by_contra notEmpty
    have isReport : inner.isEmpty = false := by simpa using notEmpty
    simp only [isReport] at below
    exact not_isSound_report rfl (below.sound sound)
  · intro type known composite
    have notLeaf := TypeKind.not_leaf_of_composite composite
    simp only [known, notLeaf, composite] at covers
    have below := covers.trans (.right _ _)
    cases isReport : inner.isEmpty with
    | true =>
      simp only [isReport] at below
      exact absurd (below.sound sound) (not_isSound_report rfl)
    | false =>
      simp only [isReport] at below
      exact ⟨by simpa using isReport, below⟩

end Field

section Inline

variable {position : Position} {condition? : Option Document.Condition} {directives : List Document.Directive}
  {inner others : List Document.Selection}

/-- What is below an inline fragment may be replaced by what is found anyway. -/
theorem covers_inline_with (sound : whole.IsSound)
    (covers : Covers whole (ofSelection schema types parent (.inline position condition? directives inner)))
    (below : Covers whole (ofSelections schema types ((condition?.map (·.name)).getD parent) others)) :
    Covers whole (ofSelection schema types parent (.inline position condition? directives others)) := by
  simp only [ofSelection] at covers ⊢
  refine (covers.trans (.left _ _)).append ?_
  have guarded := covers.trans (.right _ _)
  cases condition? with
  | none => exact below
  | some condition =>
    cases fault : conditionFault? schema none condition.name with
    | some reason =>
      simp only [fault] at guarded
      exact absurd (guarded.sound sound) (not_isSound_report (rule_of_conditionFault fault))
    | none =>
      simp only [fault] at guarded ⊢
      exact (guarded.trans (.left _ _)).append below

end Inline

open Selection

theorem covers_writtenAll_iff {selections : List Selection} :
    Covers whole (ofSelections schema types parent (writtenAll selections)) ↔
      ∀ selection ∈ selections, Covers whole (ofSelection schema types parent selection.written) := by
  constructor
  · intro covers selection member
    refine covers.trans (.ofSelections schema types parent ?_)
    rw [writtenAll_eq]
    exact List.mem_map_of_mem member
  · intro each
    induction selections with
    | nil => exact .empty
    | cons first rest ih =>
      obtain ⟨ofFirst, ofRest⟩ := List.forall_mem_cons.mp each
      exact ofFirst.append (ih ofRest)

theorem writtenAll_eq_nil_iff {selections : List Selection} : writtenAll selections = [] ↔ selections = [] := by
  rw [writtenAll_eq, List.map_eq_nil_iff]

theorem typeBelow_written (parent : String) (condition? : Option String) :
    ((condition?.map fun type => (⟨type, .start⟩ : Document.Condition)).map (·.name)).getD parent =
      condition?.getD parent := by
  cases condition? <;> rfl

/-- Below a selection there may be others, if the walk over these finds no more. -/
theorem covers_withSelections {selection : Selection} (fits : Fits schema parent selection) (sound : whole.IsSound)
    {inner : List Selection} (sameEmpty : inner = [] ↔ selection.selections = [])
    (covers : Covers whole (ofSelection schema types parent selection.written))
    (below : Covers whole (ofSelections schema types (selection.typeBelow parent) (writtenAll selection.selections)) →
      Covers whole (ofSelections schema types (selection.typeBelow parent) (writtenAll inner))) :
    Covers whole (ofSelection schema types parent (selection.withSelections inner).written) := by
  cases fits with
  | field defined =>
    simp only [typeBelow, Selection.selections] at below sameEmpty
    obtain ⟨own, leaf, composite⟩ := hasField defined sound covers
    refine HasField.covers defined ⟨own, fun type known isLeaf => ?_, fun type known isComposite => ?_⟩
    · rw [writtenAll_eq_nil_iff, sameEmpty, ← writtenAll_eq_nil_iff]
      exact leaf type known isLeaf
    · obtain ⟨notEmpty, ofBelow⟩ := composite type known isComposite
      rw [Ne, writtenAll_eq_nil_iff, sameEmpty, ← writtenAll_eq_nil_iff]
      exact ⟨notEmpty, below ofBelow⟩
  | spread => exact covers
  | @inline condition? =>
    have ofBelow := covers.trans (covers_inline (covers.sound sound))
    rw [typeBelow_written] at ofBelow
    refine covers_inline_with sound covers ?_
    rw [typeBelow_written]
    exact below ofBelow

/-- What two selections of one place are joined to. -/
theorem covers_joined {first other : Selection} (fits : Fits schema parent first) (otherFits : Fits schema parent other)
    (same : samePlace first other = true) (sound : whole.IsSound)
    (covers : Covers whole (ofSelection schema types parent first.written))
    (otherCovers : Covers whole (ofSelection schema types parent other.written)) :
    Covers whole (ofSelection schema types parent
      (first.withSelections (first.selections ++ other.selections)).written) := by
  have both {type : String} {selections others : List Selection}
      (ofSelections : Covers whole (ofSelections schema types type (writtenAll selections)))
      (ofOthers : Covers whole (Walk.ofSelections schema types type (writtenAll others))) :
      Covers whole (Walk.ofSelections schema types type (writtenAll (selections ++ others))) := by
    rw [covers_writtenAll_iff, List.forall_mem_append]
    exact ⟨covers_writtenAll_iff.mp ofSelections, covers_writtenAll_iff.mp ofOthers⟩
  cases fits with
  | field defined =>
    obtain ⟨_, _, _, _, _, rfl, _⟩ := samePlace_field same
    cases otherFits with
    | field otherDefined =>
      cases defined.symm.trans otherDefined
      obtain ⟨own, leaf, composite⟩ := hasField defined sound covers
      obtain ⟨_, otherLeaf, otherComposite⟩ := hasField defined sound otherCovers
      refine HasField.covers defined ⟨own, fun type known isLeaf => ?_, fun type known isComposite => ?_⟩
      · have empty := writtenAll_eq_nil_iff.mp (leaf type known isLeaf)
        have otherEmpty := writtenAll_eq_nil_iff.mp (otherLeaf type known isLeaf)
        simp [Selection.selections, empty, otherEmpty, writtenAll]
      · obtain ⟨notEmpty, below⟩ := composite type known isComposite
        refine ⟨?_, both below (otherComposite type known isComposite).2⟩
        rw [Ne, writtenAll_eq_nil_iff, List.append_eq_nil_iff]
        exact fun empty => notEmpty (writtenAll_eq_nil_iff.mpr empty.1)
  | spread => exact covers
  | @inline condition? =>
    obtain ⟨_, _, rfl, _⟩ := samePlace_inline same
    have below := covers.trans (covers_inline (covers.sound sound))
    have otherBelow := otherCovers.trans (covers_inline (otherCovers.sound sound))
    exact covers_inline_with sound covers (both below otherBelow)

variable {depth : Nat}

theorem covers_flatten {selection : Selection} (formed : selection.Throughout (Fits schema) depth parent)
    (sound : whole.IsSound) (covers : Covers whole (ofSelection schema types parent selection.written)) :
    ∀ flattened ∈ flatten parent selection, Covers whole (ofSelection schema types parent flattened.written) := by
  induction formed with
  | @intro depth parent selection here _ _ below ih =>
    have ofBelow (ofSelections : Covers whole
        (ofSelections schema types (selection.typeBelow parent) (writtenAll selection.selections))) :
        Covers whole (Walk.ofSelections schema types (selection.typeBelow parent)
          (writtenAll (flattenAll (selection.typeBelow parent) selection.selections))) := by
      rw [covers_writtenAll_iff] at ofSelections ⊢
      intro flattened member
      obtain ⟨inner, isInner, inFlatten⟩ := mem_flattenAll.mp member
      exact ih inner isInner (ofSelections inner isInner) flattened inFlatten
    cases superfluous : selection.isSuperfluousAt parent with
    | true =>
      obtain ⟨sameType, flattened⟩ := flatten_of_superfluous superfluous
      rw [sameType] at ofBelow
      rw [flattened, ← covers_writtenAll_iff]
      refine ofBelow ?_
      cases selection with
      | field => cases superfluous
      | spread => cases superfluous
      | inline condition? =>
        have inside := covers.trans (covers_inline (covers.sound sound))
        rw [typeBelow_written] at inside
        exact sameType ▸ inside
    | false =>
      have sameEmpty := flattenAll_eq_nil_iff fun inner member => ((below inner member).flatten (isLocal_fits schema)).1
      rw [flatten_of_needed superfluous, List.forall_mem_singleton]
      exact covers_withSelections here sound sameEmpty covers ofBelow

theorem covers_merge {all : List Selection} (formed : ∀ selection ∈ all, selection.Throughout (Fits schema) depth parent)
    (sound : whole.IsSound) (covers : ∀ selection ∈ all, Covers whole (ofSelection schema types parent selection.written)) :
    ∀ merged ∈ merge all, Covers whole (ofSelection schema types parent merged.written) := by
  induction all using merge.induct generalizing depth parent with
  | case1 all ih =>
    have ofKept : ∀ first ∈ all.foldl join [], first.Throughout (Fits schema) depth parent ∧
        Covers whole (ofSelection schema types parent first.written) := by
      refine forall_foldl_join ?_ (by simp) fun selection member => ⟨formed selection member, covers selection member⟩
      rintro first other same ⟨ofFirst, coversFirst⟩ ⟨ofOther, coversOther⟩
      exact ⟨ofFirst.joined (isLocal_fits schema) same ofOther,
        covers_joined ofFirst.here ofOther.here same sound coversFirst coversOther⟩
    intro merged member
    obtain ⟨first, inKept, rfl⟩ := mem_merge.mp member
    obtain ⟨ofFirst, coversFirst⟩ := ofKept first inKept
    refine covers_withSelections ofFirst.here sound merge_eq_nil_iff coversFirst fun ofBelow => ?_
    rw [covers_writtenAll_iff] at ofBelow ⊢
    cases ofFirst with
    | intro _ _ _ below => exact ih first inKept below ofBelow

/-- A walk over selections covers that over their normal form. -/
theorem covers_normal {all : List Selection} (formed : ∀ selection ∈ all, selection.Throughout (Fits schema) depth parent)
    (sound : (ofSelections schema types parent (writtenAll all)).IsSound) :
    Covers (ofSelections schema types parent (writtenAll all))
      (ofSelections schema types parent (writtenAll (merge (flattenAll parent all)))) := by
  have each := covers_writtenAll_iff.mp (Covers.refl (ofSelections schema types parent (writtenAll all)))
  rw [covers_writtenAll_iff]
  have formedFlat : ∀ flattened ∈ flattenAll parent all, flattened.Throughout (Fits schema) depth parent := by
    intro flattened member
    obtain ⟨selection, inAll, inFlatten⟩ := mem_flattenAll.mp member
    exact (((formed selection inAll).flatten (isLocal_fits schema)).2 flattened inFlatten).of_settled
  refine covers_merge formedFlat sound fun flattened member => ?_
  obtain ⟨selection, inAll, inFlatten⟩ := mem_flattenAll.mp member
  exact covers_flatten (formed selection inAll) sound (each selection inAll) flattened inFlatten

end Selections

/-- A walk over a definition covers that over its normal form. -/
theorem covers_node {schema : Schema} {types : FragmentTypes} {node : Node} (formed : node.Formed schema)
    (sound : (ofDefinition schema types node.written).IsSound) :
    Covers (ofDefinition schema types node.written) (ofDefinition schema types node.normal.written) := by
  have body := formed.body
  cases node with
  | root root =>
    obtain ⟨type, typed, sameType⟩ := Node.rootType_of_gives formed.gives
    simp only [Node.written, ofDefinition, ofOperation, typed, sameType] at sound
    have covers := covers_normal body (isSound_append.mp (isSound_append.mp sound).1).2
    simp only [Node.normal, Node.withSelections, Node.written, ofDefinition, ofOperation, typed, sameType]
    exact ((Covers.refl _).mono covers).mono (.refl _)
  | fragment fragment =>
    simp only [Node.normal, Node.withSelections, Node.written, ofDefinition, ofFragment] at sound ⊢
    refine Covers.mono ?_ (.refl _)
    have soundBody := (isSound_append.mp sound).1
    cases fault : conditionFault? schema (some fragment.name) fragment.condition with
    | some reason => exact .refl _
    | none =>
      simp only [fault] at soundBody
      exact covers_normal body soundBody

end SiteQuery.Graphql.Walk
