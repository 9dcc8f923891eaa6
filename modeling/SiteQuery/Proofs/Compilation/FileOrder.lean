import SiteQuery.Proofs.Compilation.SelfContained
import SiteQuery.Proofs.Graphql.FragmentTypes

/-!
The order of the documents does not matter.

Names are distinct in documents that compile, so every table by name gives the same in any order, and each file keeps
the order of its own queries: `compileDocuments_perm`.
-/

namespace SiteQuery

namespace Graphql

theorem Document.fragmentNames_sublist (document : Document) : document.fragmentNames.Sublist document.names := by
  obtain ⟨definitions⟩ := document
  simp only [fragmentNames, names]
  induction definitions with
  | nil => exact List.Sublist.slnil
  | cons first rest ih =>
    cases first with
    | operation operation =>
      rw [List.filterMap_cons_none rfl]
      exact ih.trans ((List.sublist_cons_self _ rest).filterMap _)
    | fragment fragment => exact ih.cons_cons fragment.name

theorem FragmentTypes.names_ofDocument (document : Document) :
    (ofDocument document).map (·.1) = document.fragmentNames := by
  obtain ⟨definitions⟩ := document
  simp only [ofDocument, Document.fragments, Document.fragmentNames, List.map_filterMap]
  refine List.filterMap_congr fun definition _ => ?_
  cases definition <;> rfl

theorem Context.get?_eq_some_iff {context : Context} (distinct : context.names.Nodup) {name : String} {node : Node} :
    context.get? name = some node ↔ node ∈ context.nodes ∧ node.name = name := by
  constructor
  · exact mem_of_get?
  · rintro ⟨member, rfl⟩
    exact get?_of_mem distinct member

theorem Context.get?_perm {first second : Context} (distinct : first.names.Nodup) (perm : first.nodes.Perm second.nodes)
    (name : String) : first.get? name = second.get? name := by
  have otherDistinct : second.names.Nodup := (perm.map Node.name).nodup_iff.mp distinct
  apply Option.ext
  intro node
  rw [get?_eq_some_iff distinct, get?_eq_some_iff otherDistinct, perm.mem_iff]

end Graphql

namespace Compilation

open Graphql

section Order

variable {schema : Schema} {sources others : List SourceDocument} {context otherContext : Context}

theorem fragmentNames_sublist (sources : List SourceDocument) :
    (fragmentNames sources).Sublist (definitionNames sources) := by
  induction sources with
  | nil => exact List.Sublist.slnil
  | cons source rest ih => exact source.document.fragmentNames_sublist.append ih

theorem names_fragmentTypes (sources : List SourceDocument) :
    (fragmentTypes sources).map (·.1) = fragmentNames sources := by
  simp only [fragmentTypes, fragmentNames, List.map_flatMap, FragmentTypes.names_ofDocument]

theorem Compilable.perm (compilable : Compilable schema sources) (perm : sources.Perm others) :
    Compilable schema others := by
  have sameTypes (name : String) : (fragmentTypes sources).get? name = (fragmentTypes others).get? name := by
    have distinct : ((fragmentTypes sources).map (·.1)).Nodup := by
      rw [names_fragmentTypes]
      exact compilable.distinct.sublist (fragmentNames_sublist sources)
    exact FragmentTypes.get?_perm distinct (perm.flatMap_right _) name
  constructor
  · intro source member
    rw [← validate_congr sameTypes]
    exact compilable.valid source (perm.mem_iff.mpr member)
  · intro source member
    exact compilable.converted source (perm.mem_iff.mpr member)
  · exact (perm.flatMap_right _).nodup_iff.mp compilable.distinct
  · intro source member definition defined name spreads
    have known := compilable.known source (perm.mem_iff.mpr member) definition defined name spreads
    exact (perm.flatMap_right _).mem_iff.mp known

theorem ContextOf.nodes_perm (holds : ContextOf schema sources context) (otherHolds : ContextOf schema others otherContext)
    (perm : sources.Perm others) : context.nodes.Perm otherContext.nodes := by
  rw [holds.nodes_eq, otherHolds.nodes_eq]
  exact perm.flatMap_right _

/-- A definition gives the same query. -/
theorem printedQuery?_perm (holds : ContextOf schema sources context) (otherHolds : ContextOf schema others otherContext)
    (perm : sources.Perm others) {node : Node} (member : node ∈ context.nodes) :
    printedQuery? sources context.normalize node = printedQuery? others otherContext.normalize node := by
  have permNodes := holds.nodes_perm otherHolds perm
  cases node with
  | fragment => rfl
  | root root =>
    have sameText := Context.rootText?_normalize_congr holds.distinct otherHolds.distinct member
      (permNodes.mem_iff.mp member) fun _ _ spread _ => Context.get?_perm holds.distinct permNodes spread
    rw [holds.nodes_eq] at member
    obtain ⟨source, inSources, isNode⟩ := List.mem_flatMap.mp member
    have located : definitionPath? sources root.name = some source.path := holds.located inSources isNode
    have otherLocated : definitionPath? others root.name = some source.path :=
      otherHolds.located (perm.mem_iff.mp inSources) isNode
    simp only [printedQuery?, sameText, located, otherLocated]

/-- The queries that one document gives. -/
def queriesOf (schema : Schema) (sources : List SourceDocument) (context : Context) (source : SourceDocument) :
    List CompiledQuery :=
  (nodesOf schema source).filterMap (printedQuery? sources context.normalize)

theorem path_of_mem_queriesOf (holds : ContextOf schema sources context) {source : SourceDocument}
    (member : source ∈ sources) {query : CompiledQuery} (isQuery : query ∈ queriesOf schema sources context source) :
    query.path = source.path := by
  obtain ⟨node, isNode, printed⟩ := List.mem_filterMap.mp isQuery
  obtain ⟨root, rfl, _, located, _⟩ := printedQuery?_eq_some.mp printed
  exact Option.some.inj (located.symm.trans (holds.located member isNode))

/-- Adding all queries is adding those of one document after the other. -/
theorem ContextOf.insertAll_eq (holds : ContextOf schema sources context) :
    CompiledQueries.insertAll [] (context.nodes.filterMap (printedQuery? sources context.normalize)) =
      sources.foldl (fun (compiled : CompiledQueries) source =>
        compiled.insertAll (queriesOf schema sources context source)) [] := by
  rw [holds.nodes_eq, List.filterMap_flatMap, CompiledQueries.insertAll, List.foldl_flatMap]
  rfl

end Order

theorem insertAll_perm {schema : Schema} {sources others : List SourceDocument} {context otherContext : Context}
    (apart : sources.Pairwise fun a b => a.path.same b.path = false) (holds : ContextOf schema sources context)
    (otherHolds : ContextOf schema others otherContext) (perm : sources.Perm others) :
    CompiledQueries.insertAll [] (context.nodes.filterMap (printedQuery? sources context.normalize)) =
      .insertAll [] (otherContext.nodes.filterMap (printedQuery? others otherContext.normalize)) := by
  have sameQueries : ∀ source ∈ sources, queriesOf schema sources context source =
      queriesOf schema others otherContext source := by
    intro source member
    refine List.filterMap_congr fun node isNode => printedQuery?_perm holds otherHolds perm ?_
    rw [holds.nodes_eq]
    exact List.mem_flatMap.mpr ⟨source, member, isNode⟩
  -- the queries of two documents may change places, since they are of different files
  have commute : ∀ first ∈ sources, ∀ second ∈ sources, ∀ compiled : CompiledQueries,
      (compiled.insertAll (queriesOf schema others otherContext first)).insertAll
          (queriesOf schema others otherContext second) =
        (compiled.insertAll (queriesOf schema others otherContext second)).insertAll
          (queriesOf schema others otherContext first) := by
    intro first isFirst second isSecond compiled
    by_cases same : first.path.same second.path = true
    · rw [eq_of_same_path apart isSecond isFirst same]
    · refine CompiledQueries.insertAll_comm (fun query isQuery other isOther => ?_) compiled
      rw [path_of_mem_queriesOf otherHolds (perm.mem_iff.mp isFirst) isQuery,
        path_of_mem_queriesOf otherHolds (perm.mem_iff.mp isSecond) isOther]
      simpa using same
  rw [holds.insertAll_eq, otherHolds.insertAll_eq, ← perm.foldl_eq' commute]
  refine List.foldl_ext _ _ _ fun compiled source member => ?_
  rw [sameQueries source member]

/-- Documents of different files compile in any order to the same queries, or in no order. -/
theorem compileDocuments_perm {schema : Schema} {sources others : List SourceDocument}
    (apart : sources.Pairwise fun a b => a.path.same b.path = false) (perm : sources.Perm others)
    (compiled : CompiledQueries) :
    compileDocuments schema sources = .ok compiled ↔ compileDocuments schema others = .ok compiled := by
  have otherApart : others.Pairwise fun a b => a.path.same b.path = false :=
    apart.perm perm fun isApart => by rw [Path.same_comm, isApart]
  have onward {sources others : List SourceDocument} (perm : sources.Perm others)
      (apart : sources.Pairwise fun a b => a.path.same b.path = false)
      (otherApart : others.Pairwise fun a b => a.path.same b.path = false)
      (ok : compileDocuments schema sources = .ok compiled) : compileDocuments schema others = .ok compiled := by
    have compilable : Compilable schema others := (compilable_of_ok ok).perm perm
    obtain ⟨otherCompiled, otherOk⟩ := compilable.exists_compiled otherApart
    obtain ⟨context, holds, -, rfl⟩ := compileDocuments_eq_ok ok
    obtain ⟨otherContext, otherHolds, -, rfl⟩ := compileDocuments_eq_ok otherOk
    rw [otherOk]
    exact congrArg Except.ok (insertAll_perm apart holds otherHolds perm).symm
  exact ⟨onward perm apart otherApart, onward perm.symm otherApart apart⟩

theorem compileDocuments_perm_site : (siteSources.Pairwise fun a b => a.path.same b.path = false) ∧
    siteSources.Perm siteSources.reverse ∧ ∃ compiled, compileDocuments Context.siteSchema siteSources = .ok compiled ∧
      compileDocuments Context.siteSchema siteSources.reverse = .ok compiled := by
  have apart : siteSources.Pairwise fun a b => a.path.same b.path = false := by decide
  have perm : siteSources.Perm siteSources.reverse := (List.reverse_perm siteSources).symm
  obtain ⟨compiled, ok, -⟩ := exists_compiled_site
  exact ⟨apart, perm, compiled, ok, (compileDocuments_perm apart perm compiled).mp ok⟩

end Compilation

end SiteQuery
