import SiteQuery.Proofs.Compilation.FileOrder
import SiteQuery.Proofs.Graphql.NormalDocument

/-!
A compiled text compiles to itself.

The text of a query is read as the normal forms of the query and of its fragments. These are valid again, since they
are a part of valid definitions, and they are already in normal form and in the order in which they are found.
-/

namespace SiteQuery

namespace Graphql

/-- What the grammar and the printed text agree on: no fragment is named `on`, no variable has a default and
directives. -/
def Document.Definition.isPlain : Document.Definition → Bool
  | operation o => o.variableDefinitions.all fun written => written.default?.isNone || written.directives.isEmpty
  | fragment f => f.name != "on"

end Graphql

namespace Compilation

open Graphql

section Single

variable {schema : Schema} {path : Path} {document : Document} {context : Context} {nodes : List Node}

theorem ContextOf.gives_single (holds : ContextOf schema [⟨path, document⟩] context) :
    List.Forall₂ (Conversion.Gives schema) document.definitions context.nodes := by
  simpa using holds.gives

/-- The nodes of a plain document that was read, and that compiles alone. -/
theorem formed_of_parse {text : String} (parsed : Document.parse text = .ok document)
    (plain : ∀ definition ∈ document.definitions, definition.isPlain = true)
    (holds : ContextOf schema [⟨path, document⟩] context) (known : context.unknownFragments = [])
    (readBack : ∀ node ∈ context.nodes, AllReadBack node.rounded) : ∀ node ∈ context.nodes, node.Formed schema := by
  intro node member
  obtain ⟨definition, defined, gives⟩ := Conversion.exists_definition_of_gives holds.gives_single member
  refine Node.formed_of_gives (Document.printable_of_parse parsed definition defined) gives (readBack node member) ?_ ?_
  · intro spreads
    obtain ⟨fragment, found⟩ := Context.exists_fragment_of_known known member spreads
    obtain ⟨isNode, named⟩ := Context.mem_of_get? found
    obtain ⟨written, isWritten, given⟩ := Conversion.exists_definition_of_gives holds.gives_single isNode
    have isPlain := plain written isWritten
    cases written with
    | operation => cases given.written
    | fragment written =>
      have isOn : written.name = "on" := (Option.some.inj given.name).trans named
      simp [Document.Definition.isPlain, isOn] at isPlain
  · rintro operation rfl written inOperation
    have isPlain := List.all_eq_true.mp (plain _ defined) written inOperation
    simpa using isPlain

/-- A document that has all fragments that it spreads, and is valid alone. -/
theorem compilable_single (gives : List.Forall₂ (Conversion.Gives schema) document.definitions nodes)
    (valid : validate schema document (.ofDocument document) ViolatedRule.standard = [])
    (isPart : IsClosedPart nodes nodes) : Compilable schema [⟨path, document⟩] := by
  constructor
  · simpa [fragmentTypes] using valid
  · simpa using ⟨nodes, Node.ofDocument_eq_ok gives⟩
  · rw [definitionNames_eq, List.flatMap_singleton, ← Conversion.map_name_of_gives gives]
    exact isPart.distinct
  · rintro source isSource definition defined name spreads
    cases List.mem_singleton.mp isSource
    obtain ⟨node, isNode, given⟩ := Conversion.exists_node_of_gives gives defined
    obtain ⟨fragment, isFragment, rfl⟩ := isPart.closed node isNode name (given.spreads.mpr spreads)
    obtain ⟨written, isWritten, givesFragment⟩ := Conversion.exists_definition_of_gives gives isFragment
    rw [fragmentNames_eq, List.flatMap_singleton]
    exact List.mem_filterMap.mpr ⟨written, isWritten, givesFragment.fragmentName?⟩

theorem compileDocuments_single (path : Path) (gives : List.Forall₂ (Conversion.Gives schema) document.definitions nodes)
    (valid : validate schema document (.ofDocument document) ViolatedRule.standard = [])
    (isPart : IsClosedPart nodes nodes) :
    ContextOf schema [⟨path, document⟩] ⟨nodes⟩ ∧
    compileDocuments schema [⟨path, document⟩] =
      .ok (.insertAll [] (nodes.filterMap (printedQuery? [⟨path, document⟩] (Context.normalize ⟨nodes⟩)))) := by
  have compilable : Compilable schema [⟨path, document⟩] := compilable_single gives valid isPart
  obtain ⟨compiled, ok⟩ := compilable.exists_compiled (List.pairwise_singleton _ _)
  obtain ⟨context, holds, _, rfl⟩ := compileDocuments_eq_ok ok
  have same : context.nodes = nodes := by
    rw [holds.nodes_eq, List.flatMap_singleton, nodesOf, Node.ofDocument_eq_ok gives]
    rfl
  obtain ⟨found⟩ := context
  cases same
  exact ⟨holds, ok⟩

end Single

/-- A query and its fragments in normal form are a part of the context that has all that it spreads. -/
theorem isClosedPart_of_reached {context : Context} (known : context.unknownFragments = []) {root : Root}
    (isRoot : .root root ∈ context.nodes) {fragments : List Fragment}
    (once : (root.name :: fragments.map Fragment.name).Nodup)
    (reached : ∀ fragment, fragment ∈ fragments ↔ context.Reaches (.root root) (.fragment fragment)) :
    IsClosedPart (.root root :: fragments.map .fragment) context.nodes := by
  refine ⟨List.cons_subset.mpr ⟨isRoot, ?_⟩, ?_, ?_⟩
  · intro node member
    obtain ⟨fragment, isFragment, rfl⟩ := List.mem_map.mp member
    exact (((reached fragment).mp isFragment).cases_of_known known isRoot).1
  · intro node member name spreads
    obtain ⟨fragment, isFragment, rfl⟩ := List.mem_map.mp
      (mem_names_of_spreads known isRoot reached node member name (node.mem_spreads_normal.mpr spreads))
    exact ⟨fragment, List.mem_cons_of_mem _ (List.mem_map_of_mem isFragment), rfl⟩
  · simpa [Function.comp_def, Node.name] using once

section Text

variable {schema : Schema} {part : List Node} {root : Root} {fragments : List Fragment}

/-- The text of nodes in normal form is read as these. -/
theorem parse_normal (formed : ∀ node ∈ part, node.Formed schema) (distinct : (part.map Node.name).Nodup)
    (isRoot : .root root ∈ part) :
    ∃ again, Document.parse ("\n".intercalate ((part.map Node.normal).map Node.text)) = .ok again ∧
      List.Forall₂ (Conversion.Gives schema) again.definitions (part.map Node.normal) := by
  have ofNormal : ∀ normal ∈ part.map Node.normal, normal.Formed schema :=
    List.forall_mem_map.mpr fun node member => (formed node member).normal
  have normalDistinct : ((part.map Node.normal).map Node.name).Nodup := by simpa [Function.comp_def] using distinct
  have isNormal : (Node.root root).normal ∈ part.map Node.normal := List.mem_map_of_mem isRoot
  obtain ⟨again, parsed, same⟩ := parse_joined (fun normal member => (ofNormal normal member).printable)
    (fun normal member => (ofNormal normal member).readable) (fun normal member => (ofNormal normal member).readBack)
    normalDistinct isNormal
  exact ⟨again, parsed, Conversion.gives_of_map_eq same fun normal member => ⟨_, (ofNormal normal member).gives⟩⟩

theorem filterMap_printedQuery? (sources : List SourceDocument) (printed : Context) :
    ((Node.root root :: fragments.map Node.fragment).map Node.normal).filterMap (printedQuery? sources printed) =
      (printedQuery? sources printed (Node.root root).normal).toList := by
  have noFragment : ((fragments.map Node.fragment).map Node.normal).filterMap (printedQuery? sources printed) = [] := by
    rw [List.filterMap_eq_nil_iff]
    exact List.forall_mem_map.mpr (List.forall_mem_map.mpr fun fragment _ => rfl)
  rw [List.map_cons, List.filterMap_cons, noFragment]
  cases printedQuery? sources printed (Node.root root).normal <;> rfl

/-- A query and its fragments in normal form are normal, and are found again as they are. -/
theorem rootText?_again {context : Context} (distinct : context.names.Nodup)
    (formed : ∀ node ∈ part, node.Formed schema) (isRoot : .root root ∈ context.nodes)
    (reached : context.normalize.reachable root.name = some (part.map Node.normal)) :
    (Context.normalize ⟨part.map Node.normal⟩).rootText? root.name =
      some ("\n".intercalate ((part.map Node.normal).map Node.text)) := by
  have isNormal : Context.normalize ⟨part.map Node.normal⟩ = ⟨part.map Node.normal⟩ := by
    rw [Context.normalize_eq_map, Context.map, List.map_map]
    exact congrArg Context.mk (List.map_congr_left fun node member => (formed node member).normal_normal)
  have again := Context.reachable_reached (Context.names_normalize context ▸ distinct)
    (Context.get?_normalize_root distinct isRoot) reached
  rw [isNormal, Context.rootText?, again]
  rfl

end Text

/-- The text of every query of a plain document is read, and compiles to the same text. -/
theorem compileDocuments_text {schema : Schema} {text : String} {document : Document} {path : Path}
    {compiled : CompiledQueries} (parsed : Document.parse text = .ok document)
    (plain : ∀ definition ∈ document.definitions, definition.isPlain = true)
    (readBack : ∀ nodes, Node.ofDocument schema document = .ok nodes → ∀ node ∈ nodes, AllReadBack node.rounded)
    (ok : compileDocuments schema [⟨path, document⟩] = .ok compiled) {query : CompiledQuery}
    (member : query ∈ compiled.all) :
    ∃ again, Document.parse query.text = .ok again ∧ ∀ other : Path,
      compileDocuments schema [⟨other, again⟩] = .ok [(other, [⟨query.name, other, query.text⟩])] := by
  obtain ⟨context, holds, known, printed⟩ := compileDocuments_eq_ok ok
  obtain ⟨root, isRoot, named, -, isText⟩ := (mem_all_iff printed).mp member
  obtain ⟨fragments, reached, once, minimal⟩ := Context.exists_reachable_normalize holds.distinct known isRoot
  have isPart := isClosedPart_of_reached known isRoot once minimal
  have formed := formed_of_parse parsed plain holds known (readBack _ (Node.ofDocument_eq_ok holds.gives_single))
  have formedPart := fun node member => formed node (isPart.subset member)
  -- the text is that of the part in normal form
  rw [Context.rootText?, reached, Option.map_some, Option.some.injEq] at isText
  obtain ⟨again, parsedAgain, givesAgain⟩ := parse_normal formedPart isPart.distinct List.mem_cons_self
  refine ⟨again, isText ▸ parsedAgain, fun other => ?_⟩
  -- what was valid is still valid
  have validWhole : validate schema document (.ofDocument document) ViolatedRule.standard = [] := by
    simpa [fragmentTypes] using holds.valid _ List.mem_cons_self
  have validAgain : validate schema again (.ofDocument again) ViolatedRule.standard = [] := by
    rw [← Document.valid_unplaced_iff, Document.unplaced_of_gives holds.gives_single] at validWhole
    rw [← Document.valid_unplaced_iff, Document.unplaced_of_gives givesAgain]
    exact validate_part formed isPart holds.distinct validWhole
  obtain ⟨holdsAgain, okAgain⟩ := compileDocuments_single other givesAgain validAgain isPart.normal
  have isText : (Context.normalize ⟨(Node.root root :: fragments.map Node.fragment).map Node.normal⟩).rootText? root.name =
      some query.text := isText ▸ rootText?_again holds.distinct formedPart isRoot reached
  have isNode : (Node.root root).normal ∈ nodesOf schema ⟨other, again⟩ := by
    have allNodes := holdsAgain.nodes_eq
    rw [List.flatMap_singleton] at allNodes
    exact allNodes ▸ List.mem_cons_self
  have located : definitionPath? [⟨other, again⟩] root.name = some other := holdsAgain.located List.mem_cons_self isNode
  have isQuery : printedQuery? [⟨other, again⟩]
      (Context.normalize ⟨(Node.root root :: fragments.map Node.fragment).map Node.normal⟩) (Node.root root).normal =
        some ⟨query.name, other, query.text⟩ :=
    printedQuery?_eq_some.mpr ⟨_, rfl, named, located, isText⟩
  rw [okAgain, filterMap_printedQuery?, isQuery]
  rfl

def shelfQuery : String :=
  "query A($w: Float = 1.5) \x7b shelf(width: $w) \x7b ...F \x7d shelf(width: $w) \x7b ... on Shelf \x7b title \x7d \x7d \x7d "
    ++ "fragment F on Shelf \x7b title ...F \x7d"

/-- The document is plain, its numbers are read back, and it compiles to one query. -/
def isShelfQuery (document : Document) : Bool :=
  document.definitions.all (·.isPlain) &&
    (Node.ofDocument Context.shelfSchema document).toOption.all (·.all fun node => decide (AllReadBack node.rounded)) &&
    (compileDocuments Context.shelfSchema [⟨⟨"/p/a.js"⟩, document⟩]).toOption.any (·.all.length == 1)

set_option maxRecDepth 20000 in
theorem compileDocuments_text_shelf : ∃ document compiled query again, Document.parse shelfQuery = .ok document ∧
    compileDocuments Context.shelfSchema [⟨⟨"/p/a.js"⟩, document⟩] = .ok compiled ∧ compiled.all = [query] ∧
      Document.parse query.text = .ok again ∧ compileDocuments Context.shelfSchema [⟨⟨"/p/b.js"⟩, again⟩] =
        .ok [(⟨"/p/b.js"⟩, [⟨query.name, ⟨"/p/b.js"⟩, query.text⟩])] := by
  have checked : (Document.parse shelfQuery).toOption.any isShelfQuery = true := by decide +kernel
  obtain ⟨document, isDocument, holds⟩ := (Option.any_eq_true _ _).mp checked
  obtain ⟨front, compiles⟩ := Bool.and_eq_true_iff.mp holds
  obtain ⟨plain, readBack⟩ := Bool.and_eq_true_iff.mp front
  obtain ⟨compiled, ok, one⟩ := exists_compiled_with _ compiles
  obtain ⟨query, isQuery⟩ := List.length_eq_one_iff.mp (eq_of_beq one)
  have parsed := toOption_eq_some isDocument
  have allReadBack : ∀ nodes, Node.ofDocument Context.shelfSchema document = .ok nodes →
      ∀ node ∈ nodes, AllReadBack node.rounded := by
    intro nodes converted node member
    rw [converted] at readBack
    exact of_decide_eq_true (List.all_eq_true.mp readBack node member)
  obtain ⟨again, parsedAgain, fixed⟩ := compileDocuments_text parsed (List.all_eq_true.mp plain) allReadBack ok
    (isQuery ▸ List.mem_singleton_self query)
  exact ⟨document, compiled, query, again, parsed, ok, isQuery, parsedAgain, fixed ⟨"/p/b.js"⟩⟩

end Compilation

end SiteQuery
