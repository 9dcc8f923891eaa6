import SiteQuery.Proofs.Compilation.SelfContained
import SiteQuery.Proofs.Graphql.ReadBack
import SiteQuery.Proofs.Graphql.VariableUses

/-!
The text of a query depends on what the query reaches, and on nothing else.

Two lists of documents are compared, which may have nothing in common but one operation and the fragments that it
reaches. Definitions count as the same if they differ in their places only.
-/

namespace SiteQuery

namespace Graphql

section Gives

variable {schema : Schema}

/-- Places do not matter to what is given. -/
theorem Conversion.Gives.node_eq {definition other : Document.Definition} {node otherNode : Node}
    (gives : Gives schema definition node) (otherGives : Gives schema other otherNode)
    (same : definition.unplaced = other.unplaced) : node = otherNode := by
  have both := gives.of_written (same.symm.trans gives.written.symm)
  exact Option.some.inj (both.result.symm.trans otherGives.result)

end Gives

/-- What a reached fragment spreads is reached. -/
theorem Document.Reaches.step {fragments : List Document.Fragment} {selections : List Document.Selection}
    {next fragment : Document.Fragment} (reaches : Document.Reaches fragments selections next)
    (member : fragment ∈ fragments) (spreads : Document.Spreads next.selections fragment.name) :
    Document.Reaches fragments selections fragment := by
  induction reaches with
  | here isNext spreadsNext => exact .onward isNext spreadsNext (.here member spreads)
  | onward isNext spreadsNext _ ih => exact .onward isNext spreadsNext (ih spreads)

end Graphql

namespace Compilation

open Graphql

def definitions (sources : List SourceDocument) : List Document.Definition :=
  sources.flatMap (·.document.definitions)

def fragments (sources : List SourceDocument) : List Document.Fragment := sources.flatMap (·.document.fragments)

theorem mem_fragments {sources : List SourceDocument} {fragment : Document.Fragment} :
    fragment ∈ fragments sources ↔ .fragment fragment ∈ definitions sources := by
  simp only [fragments, definitions, List.mem_flatMap, Document.mem_fragments]

/-- There is a query of the name, and its text is the given one. -/
def CompiledQueries.Prints (compiled : CompiledQueries) (name text : String) : Prop :=
  (∃ query ∈ compiled.all, query.name = name) ∧ ∀ query ∈ compiled.all, query.name = name → query.text = text

section Contexts

variable {schema : Schema} {sources : List SourceDocument} {context : Context}

/-- Nodes that a root reaches are given by fragments that the operation of the root reaches. -/
theorem ContextOf.reaches_of_node (holds : ContextOf schema sources context) (known : context.unknownFragments = [])
    {operation : Document.Operation} {root : Root} (gives : Conversion.Gives schema (.operation operation) (.root root))
    (isRoot : .root root ∈ context.nodes) {node : Node} (reaches : context.Reaches (.root root) node) :
    node = .root root ∨ ∃ fragment, Document.Reaches (fragments sources) operation.selections fragment ∧
      Conversion.Gives schema (.fragment fragment) node := by
  induction reaches with
  | start => exact .inl rfl
  | @onward node next spread reached spreads found ih =>
    right
    obtain ⟨fragment, isFragment, -⟩ := reached.exists_fragment known isRoot spreads
    cases found.symm.trans isFragment
    obtain ⟨member, rfl⟩ := Context.mem_of_get? found
    obtain ⟨definition, defined, given⟩ := Conversion.exists_definition_of_gives holds.gives member
    cases definition with
    | operation other =>
      cases given.written
    | fragment written =>
      have named : written.name = fragment.name := Option.some.inj given.name
      have inSources : written ∈ fragments sources := mem_fragments.mpr defined
      rcases ih with rfl | ⟨before, reachesBefore, givenBefore⟩
      · exact ⟨written, .here inSources (named ▸ gives.spreads.mp spreads), given⟩
      · exact ⟨written, reachesBefore.step inSources (named ▸ givenBefore.spreads.mp spreads), given⟩

/-- A query has the text of its root, whatever it is that the context holds besides. -/
theorem prints_of_root (holds : ContextOf schema sources context) {compiled : CompiledQueries}
    (printed : compiled = .insertAll [] (context.nodes.filterMap (printedQuery? sources context.normalize)))
    {root : Root} (isRoot : .root root ∈ context.nodes) {text : String}
    (isText : context.normalize.rootText? root.name = some text) : compiled.Prints root.name text := by
  obtain ⟨source, member, isNode⟩ := List.mem_flatMap.mp (holds.nodes_eq ▸ isRoot)
  have located : definitionPath? sources root.name = some source.path := holds.located member isNode
  constructor
  · exact ⟨⟨root.name, source.path, text⟩, (mem_all_iff printed).mpr ⟨root, isRoot, rfl, located, isText⟩, rfl⟩
  · intro query isQuery named
    obtain ⟨other, -, sameName, -, otherText⟩ := (mem_all_iff printed).mp isQuery
    rw [← sameName, named, isText] at otherText
    exact (Option.some.inj otherText).symm

end Contexts

/-- Where an operation and all fragments that it reaches are defined twice, in two lists of documents that compile, it
has one text in both. -/
theorem prints_same {schema : Schema} {sources others : List SourceDocument} {compiled otherCompiled : CompiledQueries}
    (ok : compileDocuments schema sources = .ok compiled) (otherOk : compileDocuments schema others = .ok otherCompiled)
    {operation otherOperation : Document.Operation} (defined : .operation operation ∈ definitions sources)
    (otherDefined : .operation otherOperation ∈ definitions others)
    (same : (Document.Definition.operation operation).unplaced = (Document.Definition.operation otherOperation).unplaced)
    (sameReached : ∀ fragment, Document.Reaches (fragments sources) operation.selections fragment →
      ∃ other ∈ fragments others,
        (Document.Definition.fragment fragment).unplaced = (Document.Definition.fragment other).unplaced) :
    ∃ name text, operation.name? = some name ∧ compiled.Prints name text ∧ otherCompiled.Prints name text := by
  obtain ⟨context, holds, known, printed⟩ := compileDocuments_eq_ok ok
  obtain ⟨otherContext, otherHolds, -, otherPrinted⟩ := compileDocuments_eq_ok otherOk
  obtain ⟨node, isNode, gives⟩ := Conversion.exists_node_of_gives holds.gives defined
  obtain ⟨otherNode, isOtherNode, otherGives⟩ := Conversion.exists_node_of_gives otherHolds.gives otherDefined
  obtain rfl := gives.node_eq otherGives same
  cases node with
  | fragment => cases gives.written
  | root root =>
    have agree : ∀ node, context.Reaches (.root root) node → ∀ spread ∈ node.spreads,
        context.get? spread = otherContext.get? spread := by
      intro node reaches spread spreads
      obtain ⟨fragment, found, onward⟩ := reaches.exists_fragment known isNode spreads
      rcases holds.reaches_of_node known gives isNode onward with sameRoot | ⟨written, reached, given⟩
      · cases sameRoot
      · obtain ⟨other, isOther, sameFragment⟩ := sameReached written reached
        obtain ⟨otherNode, inOther, otherGiven⟩ :=
          Conversion.exists_node_of_gives otherHolds.gives (mem_fragments.mp isOther)
        obtain rfl := given.node_eq otherGiven sameFragment
        have otherFound := Context.get?_of_mem otherHolds.distinct inOther
        rw [found, ← (Context.mem_of_get? found).2, otherFound]
    have sameText := Context.rootText?_normalize_congr holds.distinct otherHolds.distinct isNode isOtherNode agree
    obtain ⟨text, isText⟩ := Option.isSome_iff_exists.mp (isSome_rootText?_normalize holds.distinct isNode)
    exact ⟨root.name, text, gives.name, prints_of_root holds printed isNode isText,
      prints_of_root otherHolds otherPrinted isOtherNode (sameText ▸ isText)⟩

def sitePart (position : Position) (size : Value) (selection : Document.Selection) : Document.Selection :=
  .field position none "site" [⟨"size", position, size, position⟩] [] position [selection]

def siteTitle (position : Position) : Document.Selection :=
  .inline position (some ⟨"Site", position⟩) [] [.field position none "title" [] [] position []]

def siteQuery (position : Position) : Document.Operation :=
  ⟨position, some "A", .query, [], [],
    [sitePart position Context.wide (siteTitle position), sitePart position Context.high (.spread position "F" [])]⟩

def siteFragment (position : Position) : Document.Fragment :=
  ⟨position, "F", ⟨"Site", position⟩, [], [.field position none "author" [] [] position [], .spread position "F" []]⟩

/-- The query of `siteSources` without the others, and its fragment in a file of its own. -/
def movedSources : List SourceDocument :=
  [⟨⟨"/q/f.js"⟩, ⟨[.fragment (siteFragment ⟨7, 1⟩)]⟩⟩, ⟨⟨"/q/a.js"⟩, ⟨[titleOfSite "C", .operation (siteQuery ⟨9, 4⟩)]⟩⟩]

set_option maxRecDepth 20000 in
theorem prints_same_site : ∃ compiled otherCompiled, compileDocuments Context.siteSchema movedSources = .ok compiled ∧
    compileDocuments Context.siteSchema siteSources = .ok otherCompiled ∧
      ∃ text, compiled.Prints "A" text ∧ otherCompiled.Prints "A" text := by
  obtain ⟨compiled, ok⟩ := exists_compiled
    (show (compileDocuments Context.siteSchema movedSources).toOption.isSome = true by decide +kernel)
  obtain ⟨otherCompiled, otherOk, -⟩ := exists_compiled_site
  have defined : .operation (siteQuery ⟨9, 4⟩) ∈ definitions movedSources := by simp [definitions, movedSources]
  have otherDefined : .operation (siteQuery .start) ∈ definitions siteSources := by
    simp [definitions, siteSources, Context.siteDocument, siteQuery, sitePart, siteTitle]
  have onlyFragment : ∀ fragment ∈ fragments movedSources, fragment = siteFragment ⟨7, 1⟩ :=
    fun fragment member => List.mem_singleton.mp member
  have otherFragment : siteFragment .start ∈ fragments siteSources := by
    rw [mem_fragments]
    simp [definitions, siteSources, Context.siteDocument, siteFragment]
  obtain ⟨name, text, named, prints, otherPrints⟩ := prints_same ok otherOk defined otherDefined rfl
    fun fragment reaches => ⟨_, otherFragment, onlyFragment fragment reaches.mem ▸ rfl⟩
  cases named
  exact ⟨compiled, otherCompiled, ok, otherOk, text, prints, otherPrints⟩

end Compilation

end SiteQuery
