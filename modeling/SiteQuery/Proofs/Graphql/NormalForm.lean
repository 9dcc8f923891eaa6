import SiteQuery.Proofs.Graphql.Normalization
import SiteQuery.Proofs.Graphql.Spreading
import SiteQuery.Proofs.Graphql.Throughout

/-!
The normal form of converted documents is normal at every depth, and stays as it is.

`Selection.Level` gives the sets of selections of a node with the type that they apply to. What one place of such a set
is joined with has the same type, since the schema gives one type to a field: so joining sets of selections brings no
superfluous inline fragment about.
-/

namespace SiteQuery.Graphql

namespace Selection

/-- A property of a selection and of all below it, each with the type that it applies to. -/
inductive Everywhere (holds : String → Selection → Prop) : String → Selection → Prop
  | intro {parent selection} (here : holds parent selection)
      (below : ∀ inner ∈ selection.selections, Everywhere holds (selection.typeBelow parent) inner) :
      Everywhere holds parent selection

/-- Selections that stand together in some set of a node, and the type that they apply to. -/
inductive Level (parent : String) (all : List Selection) : String → List Selection → Prop
  | top : Level parent all parent all
  | inside {type siblings selection} (above : Level parent all type siblings) (member : selection ∈ siblings) :
      Level parent all (selection.typeBelow type) selection.selections

/-- A field has the type that the schema gives to it. -/
def HasType (schema : Schema) (parent : String) : Selection → Prop
  | field _ name _ _ type _ => ∃ definition, schema.field? parent name = some definition ∧ definition.type.name = type
  | spread _ _ | inline _ _ _ => True

theorem isLocal_hasType (schema : Schema) : IsLocal (HasType schema) where
  withSelections {parent selection} inner hasType := by
    cases selection <;> exact hasType
  typeBelow {parent first other} ofFirst ofOther same := by
    cases first with
    | field alias? name arguments directives type inner =>
      obtain ⟨otherAlias?, otherArguments, otherDirectives, otherType, otherInner, rfl, _⟩ := samePlace_field same
      obtain ⟨definition, defined, isType⟩ := ofFirst
      obtain ⟨again, definedAgain, isOtherType⟩ := ofOther
      have sameDefinition : definition = again := Option.some.inj (defined.symm.trans definedAgain)
      rw [sameDefinition] at isType
      exact isType.symm.trans isOtherType
    | spread name directives =>
      obtain ⟨otherDirectives, rfl, _⟩ := samePlace_spread same
      rfl
    | inline condition? directives inner =>
      obtain ⟨otherDirectives, otherInner, rfl, _⟩ := samePlace_inline same
      rfl

variable {holds : String → Selection → Prop} {parent type : String} {selection : Selection}
  {all siblings : List Selection}

namespace Everywhere

theorem here (everywhere : Everywhere holds parent selection) : holds parent selection := by
  cases everywhere
  assumption

theorem inner (everywhere : Everywhere holds parent selection) :
    ∀ inner ∈ selection.selections, Everywhere holds (selection.typeBelow parent) inner := by
  cases everywhere
  assumption

theorem withSelections (isLocal : IsLocal holds) (here : holds parent selection) {inner : List Selection}
    (below : ∀ found ∈ inner, Everywhere holds (selection.typeBelow parent) found) :
    Everywhere holds parent (selection.withSelections inner) := by
  apply Everywhere.intro (isLocal.withSelections inner here)
  rw [typeBelow_withSelections]
  rcases selections_withSelections_cases selection inner with same | ⟨_, empty⟩
  · rw [same]
    exact below
  · rw [empty]
    exact fun found member => absurd member List.not_mem_nil

/-- Flattening leaves nothing superfluous. -/
theorem flatten (isLocal : IsLocal holds) (everywhere : Everywhere holds parent selection) :
    ∀ flattened ∈ Selection.flatten parent selection, Everywhere (Settled holds) parent flattened := by
  induction everywhere with
  | @intro parent selection here below ih =>
    have allBelow : ∀ flattened ∈ flattenAll (selection.typeBelow parent) selection.selections,
        Everywhere (Settled holds) (selection.typeBelow parent) flattened := by
      intro flattened member
      obtain ⟨inner, isInner, inFlatten⟩ := mem_flattenAll.mp member
      exact ih inner isInner flattened inFlatten
    cases superfluous : selection.isSuperfluousAt parent with
    | true =>
      obtain ⟨sameType, flattened⟩ := flatten_of_superfluous superfluous
      rw [sameType] at allBelow
      rw [flattened]
      exact allBelow
    | false =>
      rw [flatten_of_needed superfluous]
      intro flattened member
      rw [List.mem_singleton.mp member]
      exact withSelections isLocal.settled ⟨here, superfluous⟩ allBelow

theorem flatten_eq (everywhere : Everywhere (Settled holds) parent selection) :
    Selection.flatten parent selection = [selection] := by
  induction everywhere with
  | @intro parent selection here below ih =>
    have same : flattenAll (selection.typeBelow parent) selection.selections = selection.selections := by
      rw [flattenAll_eq, List.flatMap_congr ih]
      exact List.flatMap_singleton' _
    rw [flatten_of_needed here.2, same, withSelections_selections]

theorem joined (isLocal : IsLocal holds) {first other : Selection} (same : samePlace first other = true)
    (ofFirst : Everywhere holds parent first) (ofOther : Everywhere holds parent other) :
    Everywhere holds parent (first.withSelections (first.selections ++ other.selections)) := by
  have sameType := isLocal.typeBelow ofFirst.here ofOther.here same
  apply withSelections isLocal ofFirst.here
  rw [List.forall_mem_append, sameType]
  exact ⟨sameType ▸ ofFirst.inner, ofOther.inner⟩

theorem merge (isLocal : IsLocal holds) (everywhere : ∀ selection ∈ all, Everywhere holds parent selection) :
    ∀ merged ∈ Selection.merge all, Everywhere holds parent merged := by
  induction all using Selection.merge.induct generalizing parent with
  | case1 all ih =>
    have ofKept : ∀ first ∈ all.foldl join [], Everywhere holds parent first :=
      forall_foldl_join (fun _ _ same ofFirst ofOther => ofFirst.joined isLocal same ofOther) (by simp) everywhere
    intro merged member
    obtain ⟨first, inKept, rfl⟩ := mem_merge.mp member
    have ofFirst := ofKept first inKept
    exact withSelections isLocal ofFirst.here (ih first inKept ofFirst.inner)

end Everywhere

theorem everywhere_normal (isLocal : IsLocal holds)
    (everywhere : ∀ selection ∈ all, Everywhere holds parent selection) :
    ∀ selection ∈ merge (flattenAll parent all), Everywhere (Settled holds) parent selection := by
  apply Everywhere.merge isLocal.settled
  intro flattened member
  obtain ⟨selection, inAll, inFlatten⟩ := mem_flattenAll.mp member
  exact (everywhere selection inAll).flatten isLocal flattened inFlatten

theorem normal_of_everywhere (everywhere : ∀ selection ∈ merge all, Everywhere (Settled holds) parent selection) :
    merge (flattenAll parent (merge all)) = merge all := by
  have same : flattenAll parent (merge all) = merge all := by
    rw [flattenAll_eq, List.flatMap_congr fun selection member => (everywhere selection member).flatten_eq]
    exact List.flatMap_singleton' _
  rw [same, merge_merge]

theorem condition_of_needed {condition? : Option String} {inner : List Selection}
    (needed : (inline condition? [] inner).isSuperfluousAt parent = false) :
    condition? ≠ none ∧ condition? ≠ some parent := by
  simpa [isSuperfluousAt, isSuperfluous, Option.isSome_iff_ne_none] using needed

theorem keyed_merge (keyed : ∀ selection ∈ all, selection.Keyed) : ∀ merged ∈ merge all, merged.Keyed := by
  induction all using Selection.merge.induct with
  | case1 all ih =>
    intro merged member
    obtain ⟨first, inKept, rfl⟩ := mem_merge.mp member
    have ofFirst := (gathers_foldl_join keyed).keyed first inKept
    exact ofFirst.withSelections (ih first inKept ofFirst.inner)

namespace Level

/-- What a selection passes on to those below it holds in all sets. -/
theorem forall_mem (holds : String → Selection → Prop) (level : Level parent all type siblings)
    (passed : ∀ type selection, holds type selection →
      ∀ inner ∈ selection.selections, holds (selection.typeBelow type) inner)
    (initially : ∀ selection ∈ all, holds parent selection) : ∀ selection ∈ siblings, holds type selection := by
  induction level with
  | top => exact initially
  | inside _ member ih => exact passed _ _ (ih _ member)

/-- Every set of a merged one has been merged. -/
theorem exists_merge (level : Level parent (merge all) type siblings) : ∃ others, siblings = merge others := by
  induction level with
  | top => exact ⟨all, rfl⟩
  | inside _ member ih =>
    obtain ⟨others, rfl⟩ := ih
    obtain ⟨first, inKept, rfl⟩ := mem_merge.mp member
    rcases selections_withSelections_cases first (merge first.selections) with same | ⟨_, empty⟩
    · exact ⟨first.selections, same⟩
    · exact ⟨[], by rw [empty]; exact (merge_eq_nil_iff.mpr rfl).symm⟩

theorem apart (level : Level parent (merge all) type siblings) (keyed : ∀ selection ∈ merge all, selection.Keyed) :
    siblings.Pairwise fun a b => samePlace a b = false ∧ samePlace b a = false := by
  have keyedHere : ∀ selection ∈ siblings, selection.Keyed :=
    level.forall_mem (fun _ selection => selection.Keyed) (fun _ _ keyed => keyed.inner) keyed
  obtain ⟨others, rfl⟩ := level.exists_merge
  apply (apart_merge others).imp_of_mem
  intro a b _ inLevel differs
  refine ⟨differs, Bool.eq_false_iff.mpr fun same => ?_⟩
  have sameBack := samePlace_symm (keyedHere b inLevel) same
  rw [differs] at sameBack
  cases sameBack

end Level

end Selection

def Node.HasTypes (schema : Schema) (node : Node) : Prop :=
  ∀ selection ∈ node.selections, selection.Everywhere (Selection.HasType schema) node.type

namespace Conversion

open Selection (Everywhere HasType)

mutual

theorem everywhere_selections (schema : Schema) (parent : String) (written : List Document.Selection) :
    ∀ found ∈ (selections schema parent written).result, Everywhere (HasType schema) parent found := by
  match written with
  | [] => simp [selections]
  | first :: rest =>
    intro found member
    simp only [selections, List.mem_append, Option.mem_toList] at member
    rcases member with isFirst | inRest
    · exact everywhere_selection schema parent first found isFirst
    · exact everywhere_selections schema parent rest found inRest

theorem everywhere_selection (schema : Schema) (parent : String) (written : Document.Selection) (found : Selection)
    (converted : (selection schema parent written).result = some found) :
    Everywhere (HasType schema) parent found := by
  match written with
  | .field position alias? name arguments directives bodyPosition inner =>
    cases known : schema.field? parent name with
    | none => simp [selection, known] at converted
    | some definition =>
      simp only [selection, known, Option.some.injEq] at converted
      subst converted
      exact .intro ⟨definition, known, rfl⟩ (everywhere_selections schema definition.type.name inner)
  | .spread position name directives =>
    simp only [selection, Option.some.injEq] at converted
    subst converted
    exact .intro trivial (fun inner member => absurd member List.not_mem_nil)
  | .inline position condition? directives inner =>
    simp only [selection, Option.some.injEq] at converted
    subst converted
    exact .intro trivial (everywhere_selections schema _ inner)

end

theorem hasTypes_ofDefinition {schema : Schema} {definition : Document.Definition} {node : Node}
    (converted : (ofDefinition schema definition).result = some node) : node.HasTypes schema := by
  cases definition with
  | operation operation =>
    cases named : operation.name? with
    | none => simp [ofDefinition, ofOperation, named] at converted
    | some name =>
      cases typed : schema.rootType? operation.kind with
      | none => simp [ofDefinition, ofOperation, named, typed] at converted
      | some type =>
        simp only [ofDefinition, ofOperation, named, typed, Option.some.injEq] at converted
        subst converted
        exact everywhere_selections schema type.name operation.selections
  | fragment fragment =>
    simp only [ofDefinition, ofFragment, Option.some.injEq] at converted
    subst converted
    exact everywhere_selections schema fragment.condition.name fragment.selections

end Conversion

namespace Node

@[simp] theorem type_withSelections (node : Node) (selections : List Selection) :
    (node.withSelections selections).type = node.type := by
  cases node <;> rfl

theorem type_normal (node : Node) : node.normal.type = node.type := node.type_withSelections _

theorem normal_normal_of_everywhere {node : Node} {holds : String → Selection → Prop}
    (everywhere : ∀ selection ∈ node.normal.selections, selection.Everywhere (Selection.Settled holds) node.type) :
    node.normal.normal = node.normal := by
  have areSelections : node.normal.selections = Selection.merge (Selection.flattenAll node.type node.selections) :=
    node.selections_withSelections _
  rw [areSelections] at everywhere
  have same := Selection.normal_of_everywhere everywhere
  rw [Node.normal, type_normal, areSelections, same]
  cases node <;> rfl

end Node

namespace Context

variable {schema : Schema} {context : Context} {accepts : Document → Prop}

theorem Built.hasTypes (built : context.Built schema accepts) : ∀ node ∈ context.nodes, node.HasTypes schema := by
  refine built.forall_nodes fun document nodes _ converted node member => ?_
  obtain ⟨definition, _, ofDefinition⟩ := Node.mem_ofDocument converted member
  exact Conversion.hasTypes_ofDefinition ofDefinition

/-- However often it is transformed, a context whose nodes come from documents gets into one normal form, in which no
set of selections, at any depth, has a superfluous inline fragment or two selections of one place. -/
theorem normalize_normal (built : context.Built schema Document.Keyed) :
    (∀ node ∈ context.normalize.nodes, ∀ type siblings, Selection.Level node.type node.selections type siblings →
      (∀ condition? inner, .inline condition? [] inner ∈ siblings → condition? ≠ none ∧ condition? ≠ some type) ∧
      siblings.Pairwise fun a b => Selection.samePlace a b = false ∧ Selection.samePlace b a = false) ∧
    context.normalize.normalize = context.normalize := by
  have settled : ∀ node ∈ context.nodes, ∀ selection ∈ node.normal.selections,
      selection.Everywhere (Selection.Settled (Selection.HasType schema)) node.type := by
    intro node isNode
    rw [Node.normal, Node.selections_withSelections]
    exact Selection.everywhere_normal (Selection.isLocal_hasType schema) (built.hasTypes node isNode)
  rw [normalize_eq_map]
  constructor
  · intro normal member type siblings level
    obtain ⟨node, isNode, rfl⟩ := List.mem_map.mp member
    rw [Node.type_normal] at level
    constructor
    · intro condition? inner isSibling
      have everywhere := level.forall_mem (Selection.Everywhere (Selection.Settled (Selection.HasType schema)))
        (fun _ _ everywhere => everywhere.inner) (settled node isNode) _ isSibling
      exact Selection.condition_of_needed everywhere.here.2
    · rw [Node.normal, Node.selections_withSelections] at level
      apply level.apart
      apply Selection.keyed_merge
      intro flattened inFlat
      obtain ⟨selection, isSelection, inFlatten⟩ := Selection.mem_flattenAll.mp inFlat
      exact Selection.keyed_flatten (built.keyed node isNode selection isSelection) flattened inFlatten
  · rw [normalize_eq_map, map, map, List.map_map]
    refine congrArg Context.mk (List.map_congr_left fun node isNode => ?_)
    have ofNode := settled node isNode
    exact node.normal_normal_of_everywhere ofNode

theorem normalize_normal_site : siteContext.Built siteSchema Document.Keyed ∧
    (Node.root siteRoot).normal ∈ siteContext.normalize.nodes ∧ (Node.root siteRoot).normal.selections ≠ [] ∧
    (∀ selection ∈ (Node.root siteRoot).normal.selections,
      selection.selections.Pairwise fun a b => Selection.samePlace a b = false ∧ Selection.samePlace b a = false) ∧
    siteContext.normalize.normalize = siteContext.normalize := by
  have isNode : (Node.root siteRoot).normal ∈ siteContext.normalize.nodes := by
    rw [normalize_eq_map]
    exact List.mem_map_of_mem List.mem_cons_self
  have filled : (Node.root siteRoot).normal.selections ≠ [] := by
    rw [Node.normal, Node.selections_withSelections, Ne, Selection.merge_eq_nil_iff]
    exact List.cons_ne_nil _ _
  obtain ⟨normal, again⟩ := normalize_normal siteContext_built
  refine ⟨siteContext_built, isNode, filled, fun selection member => ?_, again⟩
  exact (normal _ isNode _ _ (.inside .top member)).2

end Context

end SiteQuery.Graphql
