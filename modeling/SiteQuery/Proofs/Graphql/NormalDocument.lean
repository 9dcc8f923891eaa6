import SiteQuery.Proofs.Graphql.NormalWalk
import SiteQuery.Proofs.Graphql.Unplaced

/-!
A part of a valid document is valid in its normal form, if it has all fragments that it spreads.
-/

namespace SiteQuery.Graphql

/-- A document that says what the nodes say. -/
def Document.ofNodes (nodes : List Node) : Document := ⟨nodes.map Node.written⟩

/-- The nodes of a document say what its definitions say. -/
theorem Document.unplaced_of_gives {schema : Schema} {document : Document} {nodes : List Node}
    (gives : List.Forall₂ (Conversion.Gives schema) document.definitions nodes) : document.unplaced = .ofNodes nodes := by
  obtain ⟨definitions⟩ := document
  simp only [unplaced, ofNodes, Document.mk.injEq] at gives ⊢
  induction gives with
  | nil => rfl
  | cons first _ ih => rw [List.map_cons, List.map_cons, first.written, ih]

theorem FragmentTypes.mem_ofNodes {nodes : List Node} {name type : String} :
    (name, type) ∈ ofDocument (.ofNodes nodes) ↔
      ∃ fragment : Fragment, .fragment fragment ∈ nodes ∧ fragment.name = name ∧ fragment.condition = type := by
  simp only [ofDocument, List.mem_map, Document.mem_fragments, Document.ofNodes, Prod.mk.injEq]
  constructor
  · rintro ⟨written, ⟨node, member, isWritten⟩, rfl, rfl⟩
    cases node with
    | root => cases isWritten
    | fragment fragment =>
      cases isWritten
      exact ⟨fragment, member, rfl, rfl⟩
  · rintro ⟨fragment, member, rfl, rfl⟩
    exact ⟨_, ⟨_, member, rfl⟩, rfl, rfl⟩

theorem Document.fragmentNames_ofNodes (nodes : List Node) :
    ((ofNodes nodes).fragments.map (·.name)).Sublist (nodes.map Node.name) := by
  induction nodes with
  | nil => exact List.Sublist.slnil
  | cons node rest ih =>
    cases node with
    | root root => exact ih.cons root.name
    | fragment fragment => exact ih.cons_cons fragment.name

theorem Document.isSome_name_ofNodes {nodes : List Node} {operation : Operation}
    (member : .operation operation ∈ (ofNodes nodes).definitions) : operation.name?.isSome = true := by
  obtain ⟨node, _, isWritten⟩ := List.mem_map.mp member
  cases node with
  | fragment => cases isWritten
  | root root =>
    cases isWritten
    rfl

theorem FragmentTypes.get?_ofNodes {nodes : List Node} (distinct : (nodes.map Node.name).Nodup) {fragment : Fragment}
    (member : .fragment fragment ∈ nodes) :
    (ofDocument (.ofNodes nodes)).get? fragment.name = some fragment.condition := by
  have distinctTypes : ((ofDocument (.ofNodes nodes)).map (·.1)).Nodup := by
    rw [ofDocument, List.map_map]
    exact distinct.sublist (Document.fragmentNames_ofNodes nodes)
  exact (get?_eq_some_iff distinctTypes).mpr (mem_ofNodes.mpr ⟨fragment, member, rfl, rfl⟩)

section Parts

variable {schema : Schema} {nodes part : List Node}

/-- Some of the nodes, with all fragments that they spread. -/
structure IsClosedPart (part nodes : List Node) : Prop where
  subset : part ⊆ nodes
  closed : ∀ node ∈ part, ∀ name ∈ node.spreads, ∃ fragment : Fragment, .fragment fragment ∈ part ∧ fragment.name = name
  distinct : (part.map Node.name).Nodup

theorem IsClosedPart.normal (isPart : IsClosedPart part nodes) :
    IsClosedPart (part.map Node.normal) (part.map Node.normal) := by
  refine ⟨List.Subset.refl _, List.forall_mem_map.mpr ?_, by simpa [Function.comp_def] using isPart.distinct⟩
  intro node member name spreads
  obtain ⟨fragment, isFragment, rfl⟩ := isPart.closed node member name (node.mem_spreads_normal.mp spreads)
  exact ⟨_, List.mem_map_of_mem isFragment, rfl⟩

variable {types others : FragmentTypes} (formed : ∀ node ∈ nodes, node.Formed schema) (isPart : IsClosedPart part nodes)
  (agree : ∀ fragment : Fragment, .fragment fragment ∈ part → types.get? fragment.name = others.get? fragment.name)
  (sound : ∀ node ∈ nodes, (Walk.ofDefinition schema types node.written).IsSound)

include formed isPart agree sound

theorem covers_part : ∀ node ∈ part, Walk.Covers (Walk.ofDefinition schema types node.written)
    (Walk.ofDefinition schema others node.normal.written) := by
  intro node member
  have ofNode := formed node (isPart.subset member)
  have covers := Walk.covers_node ofNode (sound node (isPart.subset member))
  have sameWalk : Walk.ofDefinition schema types node.normal.written =
      Walk.ofDefinition schema others node.normal.written := by
    refine Walk.ofDefinition_congr fun name spreads => ?_
    have inNormal := ofNode.normal.gives.spreads.mpr spreads
    obtain ⟨fragment, isFragment, rfl⟩ := isPart.closed node member name (node.mem_spreads_normal.mp inNormal)
    exact agree fragment isFragment
  exact sameWalk ▸ covers

/-- What is reached through the part is reached through the whole. -/
theorem reaches_whole (distinct : (nodes.map Node.name).Nodup) {names : List String} {usage : Usage}
    (reaches : (Validation.walkedFragments schema others (.ofNodes (part.map Node.normal))).Reaches names usage)
    {larger : List String} (included : ∀ name ∈ names, name ∈ larger) :
    (Validation.walkedFragments schema types (.ofNodes nodes)).Reaches larger usage := by
  have distinctFragments := distinct.sublist (Document.fragmentNames_ofNodes nodes)
  have origin {name key : String} {walk : Walk}
      (found : (Validation.walkedFragments schema others (.ofNodes (part.map Node.normal))).find? (·.1 == name) =
        some (key, walk)) : ∃ whole, (Validation.walkedFragments schema types (.ofNodes nodes)).find? (·.1 == name) =
          some (name, whole) ∧ Walk.Covers whole walk := by
    obtain ⟨written, inPart, rfl, rfl⟩ := exists_fragment_of_find? found
    rw [Document.mem_fragments, Document.ofNodes, List.map_map] at inPart
    obtain ⟨node, member, isWritten⟩ := List.mem_map.mp inPart
    have covers := covers_part formed isPart agree sound node member
    cases node with
    | root => cases isWritten
    | fragment fragment =>
      cases isWritten
      have inNodes : (Node.fragment fragment).written ∈ (Document.ofNodes nodes).definitions :=
        List.mem_map_of_mem (isPart.subset member)
      have isFound : (Validation.walkedFragments schema types (.ofNodes nodes)).find? (·.1 == fragment.name) = some _ :=
        Validation.find?_walkedFragments distinctFragments (Document.mem_fragments.mpr inNodes)
      exact ⟨_, isFound, covers⟩
  induction reaches generalizing larger with
  | here member found used =>
    obtain ⟨whole, isFound, covers⟩ := origin found
    exact .here (included _ member) isFound (covers.usages _ used)
  | onward member found _ ih =>
    obtain ⟨whole, isFound, covers⟩ := origin found
    exact .onward (included _ member) isFound (ih covers.spreads)

theorem usages_whole (distinct : (nodes.map Node.name).Nodup) {root : Root} (member : .root root ∈ part) {usage : Usage}
    (isUsage : usage ∈ (Walk.ofDefinition schema others (Node.root root).normal.written).allUsages
      (Validation.walkedFragments schema others (.ofNodes (part.map Node.normal)))) :
    usage ∈ (Walk.ofDefinition schema types (Node.root root).written).allUsages
      (Validation.walkedFragments schema types (.ofNodes nodes)) := by
  have covers := covers_part formed isPart agree sound _ member
  rw [Walk.allUsages, List.mem_append, WalkedFragments.mem_usages_iff] at isUsage ⊢
  rcases isUsage with own | reached
  · exact .inl (covers.usages _ own)
  · refine .inr (reaches_whole formed isPart agree sound distinct reached fun name spreads => ?_)
    rw [List.mem_reverse, List.mem_eraseDups] at spreads ⊢
    exact covers.spreads name spreads

omit agree sound in
/-- The normal form of the part is as valid as the whole. -/
theorem validate_part (distinct : (nodes.map Node.name).Nodup)
    (valid : validate schema (.ofNodes nodes) (.ofDocument (.ofNodes nodes)) ViolatedRule.standard = []) :
    validate schema (.ofNodes (part.map Node.normal)) (.ofDocument (.ofNodes (part.map Node.normal)))
      ViolatedRule.standard = [] := by
  have agree : ∀ fragment : Fragment, .fragment fragment ∈ part →
      (FragmentTypes.ofDocument (.ofNodes nodes) ++ FragmentTypes.ofDocument (.ofNodes nodes)).get? fragment.name =
        (FragmentTypes.ofDocument (.ofNodes (part.map Node.normal)) ++
          FragmentTypes.ofDocument (.ofNodes (part.map Node.normal))).get? fragment.name := by
    intro fragment member
    have distinctNormal : ((part.map Node.normal).map Node.name).Nodup := by
      simpa [Function.comp_def] using isPart.distinct
    have inWhole := FragmentTypes.get?_ofNodes distinct (isPart.subset member)
    have inPart := FragmentTypes.get?_ofNodes distinctNormal (List.mem_map_of_mem member)
    rw [FragmentTypes.get?_append, FragmentTypes.get?_append, Option.or_self, Option.or_self, inWhole]
    exact inPart.symm
  simp only [validate_eq_filter, Validation.report, List.filter_append, List.append_eq_nil_iff, Validation.filter_walks,
    Validation.filter_variableViolations] at valid ⊢
  obtain ⟨⟨_, soundWhole⟩, allowed⟩ := valid
  have sound := List.forall_mem_map.mp soundWhole
  refine ⟨⟨?_, ?_⟩, ?_⟩
  · rw [Validation.anonymousViolations_eq_nil fun operation => Document.isSome_name_ofNodes]
    rfl
  · exact List.forall_mem_map.mpr (List.forall_mem_map.mpr fun node member =>
      (covers_part formed isPart agree sound node member).sound (sound node (isPart.subset member)))
  · intro operation member usage isUsage
    obtain ⟨normal, inNormal, isWritten⟩ := List.mem_map.mp member
    obtain ⟨node, inPart, rfl⟩ := List.mem_map.mp inNormal
    cases node with
    | fragment => cases isWritten
    | root root =>
      cases isWritten
      have inWhole : (Node.root root).written ∈ (Document.ofNodes nodes).definitions :=
        List.mem_map_of_mem (isPart.subset inPart)
      exact allowed _ inWhole usage (usages_whole formed isPart agree sound distinct inPart isUsage)

end Parts

end SiteQuery.Graphql
