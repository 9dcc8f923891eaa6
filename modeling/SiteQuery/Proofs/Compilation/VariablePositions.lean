import SiteQuery.Proofs.Compilation.Documents
import SiteQuery.Proofs.Graphql.Usages

/-!
The positions of variables in documents that compile.

`variable_allowed` holds for all uses that an operation reaches through the fragments of its own document, below
fields of composite types. Neither condition can go: `misplaced_variable` has a use in the fragment of another
document, and one below a field of an input type.
-/

namespace SiteQuery.Graphql

/-- Each fragment of a document gives one of its nodes. -/
theorem Document.names_fragments_sublist {schema : Schema} {document : Document} {nodes : List Node}
    (converted : Node.ofDocument schema document = .ok nodes) :
    (document.fragments.map (·.name)).Sublist (nodes.map Node.name) := by
  simp only [Node.ofDocument] at converted
  split at converted
  · cases converted
    unfold Document.fragments
    induction document.definitions with
    | nil => exact List.Sublist.slnil
    | cons definition rest ih =>
      cases definition with
      | operation operation =>
        simp only [List.filterMap_cons, List.map_cons]
        cases (Conversion.ofDefinition schema (.operation operation)).result with
        | none => exact ih
        | some node => exact ih.cons _
      | fragment fragment =>
        simp only [List.filterMap_cons, List.map_cons]
        exact ih.cons_cons _
  · cases converted

namespace Validation

variable {schema : Schema} {document : Document} {types : FragmentTypes}

theorem isSound_of_report
    (valid : (report schema types document).filter (ViolatedRule.standard.contains ·.rule) = [])
    {definition : Document.Definition} (member : definition ∈ document.definitions) :
    (Walk.ofDefinition schema types definition).IsSound := by
  intro violation inWalk
  rw [List.filter_eq_nil_iff] at valid
  have inReport : violation ∈ report schema types document := by
    unfold report
    refine List.mem_append_left _ (List.mem_append_right _ ?_)
    exact List.mem_flatMap.mpr ⟨definition, member, inWalk⟩
  simpa using valid violation inReport

theorem allowed_of_report
    (valid : (report schema types document).filter (ViolatedRule.standard.contains ·.rule) = [])
    {operation : Document.Operation} (member : .operation operation ∈ document.definitions) {usage : Usage}
    (used : usage ∈ (Walk.ofOperation schema types operation).allUsages (walkedFragments schema types document))
    {declared : Document.Variable}
    (isDeclared : operation.variableDefinitions.find? (·.name == usage.name) = some declared) :
    usage.expected.allows usage.hasLocationDefault declared.type (declared.default?.any (!·.value.isNull)) = true := by
  by_contra refused
  rw [Bool.not_eq_true] at refused
  rw [List.filter_eq_nil_iff] at valid
  have violates : usageViolation? operation.variableDefinitions usage =
      some ⟨.variablePosition usage.name declared.type usage.expected, some usage.position⟩ := by
    simp [usageViolation?, isDeclared, refused]
  have inReport : (⟨.variablePosition usage.name declared.type usage.expected, some usage.position⟩ : Violation) ∈
      report schema types document := by
    unfold report variableViolations
    refine List.mem_append_right _ (List.mem_flatMap.mpr ⟨_, member, ?_⟩)
    exact List.mem_filterMap.mpr ⟨usage, used, violates⟩
  exact valid _ inReport rfl

end Validation

end SiteQuery.Graphql

namespace SiteQuery.Compilation

open Graphql

/-- Where documents compile, a variable is used at positions only that its declaration allows: in the operation
and in the fragments that it reaches in its own document, below fields of output types. -/
theorem variable_allowed {schema : Schema} {sources : List SourceDocument} {compiled : CompiledQueries}
    (ok : compileDocuments schema sources = .ok compiled) {source : SourceDocument} (member : source ∈ sources)
    {operation : Document.Operation} (defined : .operation operation ∈ source.document.definitions)
    {root : TypeDefinition} (typed : schema.rootType? operation.kind = some root) {usage : Usage}
    (uses : UsesVariable schema source.document.fragments (schema.isOutput · = true) root.name
      operation.selections usage)
    {declared : Document.Variable}
    (isDeclared : operation.variableDefinitions.find? (·.name == usage.name) = some declared) :
    usage.expected.allows usage.hasLocationDefault declared.type
      (declared.default?.any (!·.value.isNull)) = true := by
  obtain ⟨context, holds, _, _⟩ := compileDocuments_eq_ok ok
  have valid := holds.valid source member
  rw [validate_eq_filter] at valid
  have distinct : (source.document.fragments.map (·.name)).Nodup := by
    obtain ⟨nodes, converted, sublist⟩ := holds.exists_nodes member
    exact holds.distinct.sublist ((Document.names_fragments_sublist converted).trans (sublist.map Node.name))
  refine Validation.allowed_of_report valid defined ?_ isDeclared
  refine uses.mem_allUsages (fun fragment => Validation.find?_walkedFragments distinct) ?_ typed ?_
  · intro fragment inFragments
    exact Validation.isSound_of_report valid (Document.mem_fragments.mp inFragments)
  · exact Validation.isSound_of_report valid defined

/-! A variable `path` whose position takes `String!`. -/

def pageField : Document.Selection :=
  .field ⟨1, 23⟩ none "page" [⟨"path", ⟨1, 28⟩, .reference "path", ⟨1, 34⟩⟩] [] ⟨1, 41⟩
    [.field ⟨1, 43⟩ none "title" [] [] ⟨1, 48⟩ []]

def pageFragment : Document.Fragment := ⟨⟨1, 1⟩, "F", ⟨"Query", ⟨1, 15⟩⟩, [], [pageField]⟩

def pageQuery (path : TypeReference) (selections : List Document.Selection) : Document.Operation :=
  ⟨⟨1, 1⟩, some "A", .query, [⟨"path", path, ⟨1, 16⟩, none, []⟩], [], selections⟩

def pageDefinition : FieldDefinition := ⟨"page", [⟨"path", .nonNull (.named "String"), none⟩], .named "Page"⟩

def queryType : TypeDefinition where
  name := "Query"
  kind := .object
  fields := [pageDefinition, ⟨"filter", [], .named "Filter"⟩]

/-- Its input type has a field with an argument, as an extension can give it one. -/
def pageSchema : Schema where
  types := [{ name := "String", kind := .scalar }, queryType,
    { name := "Page", kind := .object, fields := [⟨"title", [], .named "String"⟩] },
    { name := "Filter", kind := .inputObject, fields := [pageDefinition] }]
  directives := []
  queryType := "Query"
  mutationType? := none
  subscriptionType? := none

def pathUsage : Usage := ⟨"path", .nonNull (.named "String"), false, ⟨1, 34⟩⟩

theorem uses_pageField {fragments : List Document.Fragment} {enters : String → Prop} {parent : String}
    (defined : pageSchema.field? parent "page" = some pageDefinition) :
    UsesVariable pageSchema fragments enters parent [pageField] pathUsage := by
  refine .argument (List.mem_singleton.mpr rfl) defined (List.mem_singleton.mpr rfl) rfl ?_
  exact List.mem_singleton.mpr rfl

theorem uses_pageFragment {fragments : List Document.Fragment} {enters : String → Prop}
    (member : pageFragment ∈ fragments) :
    UsesVariable pageSchema fragments enters "Query" [.spread ⟨1, 26⟩ "F" []] pathUsage :=
  .spread (List.mem_singleton.mpr rfl) member (uses_pageField rfl)

def spreadQuery (path : TypeReference) : Document.Operation := pageQuery path [.spread ⟨1, 26⟩ "F" []]

def ownFragment : SourceDocument :=
  ⟨⟨"/p/a.js"⟩, ⟨[.operation (spreadQuery (.nonNull (.named "String"))), .fragment pageFragment]⟩⟩

theorem variable_allowed_page : ∃ compiled, compileDocuments pageSchema [ownFragment] = .ok compiled ∧
    pathUsage.expected.allows false (.nonNull (.named "String")) false = true := by
  obtain ⟨compiled, ok⟩ := exists_compiled (show (compileDocuments pageSchema [ownFragment]).toOption.isSome = true by
    decide +kernel)
  have isDefined : .operation (spreadQuery (.nonNull (.named "String"))) ∈ ownFragment.document.definitions :=
    List.mem_cons_self
  have typed : pageSchema.rootType? .query = some queryType := rfl
  have uses : UsesVariable pageSchema ownFragment.document.fragments (pageSchema.isOutput · = true) "Query"
      [.spread ⟨1, 26⟩ "F" []] pathUsage := uses_pageFragment List.mem_cons_self
  exact ⟨compiled, ok, variable_allowed ok List.mem_cons_self isDefined typed uses rfl⟩

def otherFragment : List SourceDocument :=
  [⟨⟨"/p/a.js"⟩, ⟨[.operation (spreadQuery (.named "String"))]⟩⟩, ⟨⟨"/p/b.js"⟩, ⟨[.fragment pageFragment]⟩⟩]

/-- The use in the fragment of another source is not looked at. -/
theorem misplaced_variable :
    ∃ compiled, compileDocuments pageSchema otherFragment = .ok compiled ∧
      ∃ source ∈ otherFragment, ∃ operation, .operation operation ∈ source.document.definitions ∧
      ∃ root, pageSchema.rootType? operation.kind = some root ∧
      ∃ usage, UsesVariable pageSchema (otherFragment.flatMap (·.document.fragments)) (pageSchema.isOutput · = true)
          root.name operation.selections usage ∧
      ∃ declared, operation.variableDefinitions.find? (·.name == usage.name) = some declared ∧
        usage.expected.allows usage.hasLocationDefault declared.type (declared.default?.any (!·.value.isNull)) =
          false := by
  obtain ⟨compiled, ok⟩ := exists_compiled (show (compileDocuments pageSchema otherFragment).toOption.isSome = true by
    decide +kernel)
  have uses : UsesVariable pageSchema (otherFragment.flatMap (·.document.fragments)) (pageSchema.isOutput · = true)
      "Query" [.spread ⟨1, 26⟩ "F" []] pathUsage := uses_pageFragment List.mem_cons_self
  exact ⟨compiled, ok, _, List.mem_cons_self, spreadQuery (.named "String"), List.mem_singleton.mpr rfl,
    queryType, rfl, pathUsage, uses, _, rfl, rfl⟩

def filterField : Document.Selection := .field ⟨1, 26⟩ none "filter" [] [] ⟨1, 33⟩ [pageField]

def inputQuery : SourceDocument := ⟨⟨"/p/a.js"⟩, ⟨[.operation (pageQuery (.named "String") [filterField])]⟩⟩

/-- The use below a field of an input type is not looked at. -/
theorem misplaced_variable_in_input :
    ∃ compiled, compileDocuments pageSchema [inputQuery] = .ok compiled ∧
      UsesVariable pageSchema inputQuery.document.fragments (fun _ => True) "Query" [filterField] pathUsage ∧
      pathUsage.expected.allows pathUsage.hasLocationDefault (.named "String") false = false := by
  obtain ⟨compiled, ok⟩ := exists_compiled (show (compileDocuments pageSchema [inputQuery]).toOption.isSome = true by
    decide +kernel)
  have defined : pageSchema.field? "Query" "filter" = some ⟨"filter", [], .named "Filter"⟩ := rfl
  exact ⟨compiled, ok, .field (List.mem_singleton.mpr rfl) defined trivial (uses_pageField rfl), rfl⟩

end SiteQuery.Compilation
