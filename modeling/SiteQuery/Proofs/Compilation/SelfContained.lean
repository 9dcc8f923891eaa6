import SiteQuery.Proofs.Compilation.Completeness
import SiteQuery.Proofs.Graphql.Normalization
import SiteQuery.Proofs.Graphql.Spreading

/-!
The text of a query holds all that the query needs, and nothing else.

`IsSelfContained` names the definitions of a text: the query, then the fragments that it reaches through spreads, as
the definitions were before they took their normal form.
-/

namespace SiteQuery.Compilation

open Graphql

section Queries

variable {schema : Schema} {sources : List SourceDocument} {context : Context} {query : CompiledQuery}

/-- The file of a node is that of the document that gives it. -/
theorem ContextOf.located (holds : ContextOf schema sources context) {source : SourceDocument} (member : source ∈ sources)
    {node : Node} (isNode : node ∈ nodesOf schema source) : definitionPath? sources node.name = some source.path := by
  cases converted : Node.ofDocument schema source.document with
  | error violations => simp [nodesOf, converted, Except.toOption] at isNode
  | ok nodes =>
    simp only [nodesOf, converted, Except.toOption, Option.getD_some] at isNode
    obtain ⟨definition, defined, gives⟩ := Node.gives_of_mem_ofDocument converted isNode
    exact definitionPath?_of_mem (holds.names_eq ▸ holds.distinct) member defined gives.name

theorem printedQuery?_eq_some {printed : Context} {node : Node} :
    printedQuery? sources printed node = some query ↔ ∃ root, node = .root root ∧ query.name = root.name ∧
      definitionPath? sources root.name = some query.path ∧ printed.rootText? root.name = some query.text := by
  obtain ⟨name, path, text⟩ := query
  cases node with
  | fragment => simp [printedQuery?]
  | root root =>
    cases located : definitionPath? sources root.name with
    | none => simp [printedQuery?, located]
    | some found =>
      cases isText : printed.rootText? root.name with
      | none => simp [printedQuery?, located, isText]
      | some written => simp [printedQuery?, located, isText, eq_comm]

/-- The queries are the roots, each under its file and with the text of its normal form. -/
theorem mem_all_iff {compiled : CompiledQueries}
    (printed : compiled = .insertAll [] (context.nodes.filterMap (printedQuery? sources context.normalize))) :
    query ∈ compiled.all ↔ ∃ root, .root root ∈ context.nodes ∧ query.name = root.name ∧
      definitionPath? sources root.name = some query.path ∧ context.normalize.rootText? root.name = some query.text := by
  rw [printed, CompiledQueries.insertAll, (CompiledQueries.all_foldl_insert_perm _ []).mem_iff]
  simp only [CompiledQueries.all, List.flatMap_nil, List.append_nil, List.mem_filterMap, printedQuery?_eq_some]
  constructor
  · rintro ⟨_, member, root, rfl, isQuery⟩
    exact ⟨root, member, isQuery⟩
  · rintro ⟨root, member, isQuery⟩
    exact ⟨_, member, root, rfl, isQuery⟩

end Queries

/-- The text of a query is that of a root and of fragments: those that the root reaches, each once. -/
structure IsSelfContained (context : Context) (query : CompiledQuery) (root : Root) (fragments : List Fragment) : Prop where
  isRoot : .root root ∈ context.nodes
  named : root.name = query.name
  printed : query.text =
    "\n".intercalate ((Node.root root :: fragments.map Node.fragment).map fun node => node.normal.text)
  once : (root.name :: fragments.map Fragment.name).Nodup
  minimal : ∀ fragment, fragment ∈ fragments ↔ context.Reaches (.root root) (.fragment fragment)
  closed : ∀ node ∈ Node.root root :: fragments.map Node.fragment, ∀ name ∈ node.normal.spreads,
    name ∈ fragments.map Fragment.name

/-- What spreads in reached definitions is reached as well, and is a fragment. -/
theorem mem_names_of_spreads {context : Context} (known : context.unknownFragments = []) {root : Root}
    (isRoot : .root root ∈ context.nodes) {fragments : List Fragment}
    (reached : ∀ fragment, fragment ∈ fragments ↔ context.Reaches (.root root) (.fragment fragment)) :
    ∀ node ∈ Node.root root :: fragments.map Node.fragment, ∀ name ∈ node.normal.spreads,
      name ∈ fragments.map Fragment.name := by
  intro node member name spreads
  have reaches : context.Reaches (.root root) node := by
    rcases List.mem_cons.mp member with rfl | inFragments
    · exact .start
    · obtain ⟨fragment, isFragment, rfl⟩ := List.mem_map.mp inFragments
      exact (reached fragment).mp isFragment
  have spreadsBefore := node.mem_spreads_normal.mp spreads
  obtain ⟨fragment, found, onward⟩ := reaches.exists_fragment known isRoot spreadsBefore
  exact List.mem_map.mpr ⟨fragment, (reached fragment).mpr onward, (Context.mem_of_get? found).2⟩

/-- Every text holds its query and exactly the fragments that the query reaches in the context of all documents. -/
theorem isSelfContained_of_compiled {schema : Schema} {sources : List SourceDocument} {compiled : CompiledQueries}
    (ok : compileDocuments schema sources = .ok compiled) :
    ∃ context, ContextOf schema sources context ∧
      ∀ query ∈ compiled.all, ∃ root fragments, IsSelfContained context query root fragments := by
  obtain ⟨context, holds, known, printed⟩ := compileDocuments_eq_ok ok
  refine ⟨context, holds, fun query member => ?_⟩
  obtain ⟨root, isRoot, named, -, isText⟩ := (mem_all_iff printed).mp member
  obtain ⟨fragments, reached, once, minimal⟩ := Context.exists_reachable_normalize holds.distinct known isRoot
  refine ⟨root, fragments, isRoot, named.symm, ?_, once, minimal, mem_names_of_spreads known isRoot minimal⟩
  rw [Context.rootText?, reached, Option.map_some, Option.some.injEq] at isText
  rw [← isText, List.map_map]
  rfl

theorem exists_compiled_with {schema : Schema} {sources : List SourceDocument} (holds : CompiledQueries → Bool)
    (checked : (compileDocuments schema sources).toOption.any holds = true) :
    ∃ compiled, compileDocuments schema sources = .ok compiled ∧ holds compiled = true := by
  obtain ⟨compiled, isCompiled, ofCompiled⟩ := (Option.any_eq_true _ _).mp checked
  cases outcome : compileDocuments schema sources with
  | ok result =>
    rw [outcome] at isCompiled
    cases isCompiled
    exact ⟨compiled, rfl, ofCompiled⟩
  | error rejection =>
    rw [outcome] at isCompiled
    cases isCompiled

def titleOfSite (name : String) : Document.Definition :=
  .operation ⟨.start, some name, .query, [], [], [
    .field .start none "site" [] [] .start [.field .start none "title" [] [] .start []]]⟩

/-- A root with a fragment that spreads itself, and a file with a fragment that only this file needs. -/
def siteSources : List SourceDocument :=
  [⟨⟨"/p/b.js"⟩, ⟨[titleOfSite "B", .fragment ⟨.start, "G", ⟨"Site", .start⟩, [], [.spread .start "F" []]⟩]⟩⟩,
    ⟨⟨"/p/a.js"⟩, Context.siteDocument⟩]

set_option maxRecDepth 20000 in
theorem exists_compiled_site : ∃ compiled, compileDocuments Context.siteSchema siteSources = .ok compiled ∧
    compiled.all.map (·.name) = ["A", "B"] := by
  obtain ⟨compiled, ok, names⟩ := exists_compiled_with (·.all.map (·.name) == ["A", "B"])
    (show (compileDocuments Context.siteSchema siteSources).toOption.any _ = true by decide +kernel)
  exact ⟨compiled, ok, eq_of_beq names⟩

theorem isSelfContained_site : ∃ compiled, compileDocuments Context.siteSchema siteSources = .ok compiled ∧
    compiled.all.map (·.name) = ["A", "B"] ∧ ∃ context, ContextOf Context.siteSchema siteSources context ∧
      ∀ query ∈ compiled.all, ∃ root fragments, IsSelfContained context query root fragments := by
  obtain ⟨compiled, ok, names⟩ := exists_compiled_site
  exact ⟨compiled, ok, names, isSelfContained_of_compiled ok⟩

end SiteQuery.Compilation
