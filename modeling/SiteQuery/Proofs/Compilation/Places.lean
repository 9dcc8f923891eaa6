import SiteQuery.Compilation.Documents
import SiteQuery.Proofs.Graphql.Conversion
import SiteQuery.Proofs.Graphql.Unplaced

/-!
Compilation does not depend on places.

Each step gives the same on documents without places, with the places of what it reports forgotten. So lists of
documents that differ in places alone compile to the same queries, or are refused with the same violations of the same
file: `compileDocuments_moved`.
-/

namespace SiteQuery.Graphql

theorem Node.ofDocument_unplaced (schema : Schema) (document : Document) :
    Node.ofDocument schema document.unplaced =
      (Node.ofDocument schema document).mapError (·.map Violation.unplaced) := by
  have converted : document.unplaced.definitions.map (Conversion.ofDefinition schema) =
      (document.definitions.map (Conversion.ofDefinition schema)).map Reported.unplaced := by
    simp [Document.unplaced, Conversion.ofDefinition_unplaced]
  have sameViolations (converted : List (Reported (Option Node))) :
      (converted.map Reported.unplaced).flatMap (·.violations) =
        (converted.flatMap (·.violations)).map Violation.unplaced := by
    simp [List.flatMap_map, List.map_flatMap, Reported.unplaced]
  have sameResults (converted : List (Reported (Option Node))) :
      (converted.map Reported.unplaced).filterMap (·.result) = converted.filterMap (·.result) := by
    simp [List.filterMap_map, Function.comp_def, Reported.unplaced]
  simp only [Node.ofDocument, converted, sameViolations, sameResults, List.isEmpty_map]
  split <;> rfl

end SiteQuery.Graphql

namespace SiteQuery.Compilation

open Graphql

def SourceDocument.unplaced (source : SourceDocument) : SourceDocument := ⟨source.path, source.document.unplaced⟩

def Rejection.unplaced (rejection : Rejection) : Rejection :=
  ⟨rejection.path, rejection.violations.map Violation.unplaced⟩

theorem foldlM_map_of_mapError {Error Other State Item Changed : Type} {f : Item → Changed} {g : Error → Other}
    {step : State → Item → Except Error State} {changed : State → Changed → Except Other State}
    (steps : ∀ state item, changed state (f item) = (step state item).mapError g) (items : List Item) (start : State) :
    (items.map f).foldlM changed start = (items.foldlM step start).mapError g := by
  induction items generalizing start with
  | nil => rfl
  | cons item rest ih =>
    rw [List.map_cons, List.foldlM_cons, List.foldlM_cons, steps]
    cases step start item with
    | error reason => rfl
    | ok next => exact ih next

variable (schema : Schema)

theorem definitionPath?_unplaced (sources : List SourceDocument) (name : String) :
    definitionPath? (sources.map SourceDocument.unplaced) name = definitionPath? sources name := by
  have sameName (definition : Document.Definition) : definition.unplaced.name? = definition.name? := by
    cases definition <;> rfl
  simp [definitionPath?, List.flatMap_map, SourceDocument.unplaced, Document.unplaced, Function.comp_def, sameName]

theorem fragmentTypes_unplaced (sources : List SourceDocument) :
    fragmentTypes (sources.map SourceDocument.unplaced) = fragmentTypes sources := by
  simp [fragmentTypes, List.flatMap_map, SourceDocument.unplaced, FragmentTypes.ofDocument_unplaced]

/-- A name that is defined again is reported without a place. -/
theorem addNode_mapError (path : Path) (context : Context) (node : Node) :
    addNode path context node = (addNode path context node).mapError Rejection.unplaced := by
  unfold addNode Context.add
  cases context.get? node.name <;> rfl

theorem addDocument_unplaced (types : FragmentTypes) (context : Context) (source : SourceDocument) :
    addDocument schema types context source.unplaced =
      (addDocument schema types context source).mapError Rejection.unplaced := by
  simp only [addDocument, SourceDocument.unplaced, Document.validate_unplaced, List.isEmpty_map,
    Node.ofDocument_unplaced]
  split
  · cases Node.ofDocument schema source.document with
    | error violations => rfl
    | ok nodes =>
      have added := foldlM_map_of_mapError (f := id) (addNode_mapError source.path) nodes context
      rw [List.map_id] at added
      exact added
  · rfl

/-- An unknown fragment is reported without a place. -/
theorem unplaced_of_mem_unknownFragments {context : Context} {entry : String × Violation}
    (unknown : entry ∈ context.unknownFragments) : entry.2.unplaced = entry.2 := by
  obtain ⟨node, -, inNode⟩ := List.mem_flatMap.mp unknown
  obtain ⟨name, -, rfl⟩ := List.mem_map.mp inNode
  rfl

theorem checkFragments_unplaced (sources : List SourceDocument) (context : Context) :
    checkFragments (sources.map SourceDocument.unplaced) context =
      (checkFragments sources context).mapError Rejection.unplaced := by
  have noPlaces (chosen : String × Violation → Bool) :
      ((context.unknownFragments.filter chosen).map (·.2)).map Violation.unplaced =
        (context.unknownFragments.filter chosen).map (·.2) := by
    rw [List.map_map]
    refine List.map_congr_left fun entry member => ?_
    exact unplaced_of_mem_unknownFragments (List.mem_of_mem_filter member)
  simp only [checkFragments, definitionPath?_unplaced]
  split
  · rfl
  · rename_i owner _ _ isUnknown
    have sameViolations := noPlaces fun other => samePath? (definitionPath? sources other.1) (definitionPath? sources owner)
    rw [isUnknown] at sameViolations
    simp only [Except.mapError, Rejection.unplaced, sameViolations]

theorem printedQuery?_unplaced (sources : List SourceDocument) (printed : Context) :
    printedQuery? (sources.map SourceDocument.unplaced) printed = printedQuery? sources printed := by
  funext node
  simp only [printedQuery?, definitionPath?_unplaced]

theorem compileDocuments_unplaced (sources : List SourceDocument) :
    compileDocuments schema (sources.map SourceDocument.unplaced) =
      (compileDocuments schema sources).mapError Rejection.unplaced := by
  unfold compileDocuments
  rw [fragmentTypes_unplaced, foldlM_map_of_mapError (addDocument_unplaced schema (fragmentTypes sources))]
  cases sources.foldlM (addDocument schema (fragmentTypes sources)) {} with
  | error rejection => rfl
  | ok context =>
    simp only [Except.mapError, bind, Except.bind, checkFragments_unplaced, printedQuery?_unplaced]
    cases checkFragments sources context <;> rfl

/-- The same file, with the same document but for places. -/
structure SourceDocument.Moved (source moved : SourceDocument) : Prop where
  path : source.path = moved.path
  document : source.document.unplaced = moved.document.unplaced

theorem map_unplaced_of_moved {sources moved : List SourceDocument}
    (pairwise : List.Forall₂ SourceDocument.Moved sources moved) :
    sources.map SourceDocument.unplaced = moved.map SourceDocument.unplaced := by
  induction pairwise with
  | nil => rfl
  | cons same _ ih => simp only [List.map_cons, ih, SourceDocument.unplaced, same.path, same.document]

/-- Documents that differ in places alone compile to the same queries, or are both refused: because of the same file,
with the same faults in the same order, each with a place in both reports or in none. -/
theorem compileDocuments_moved {sources moved : List SourceDocument}
    (pairwise : List.Forall₂ SourceDocument.Moved sources moved) :
    (∃ compiled, compileDocuments schema sources = .ok compiled ∧ compileDocuments schema moved = .ok compiled) ∨
      ∃ rejection other, compileDocuments schema sources = .error rejection ∧
        compileDocuments schema moved = .error other ∧ rejection.path = other.path ∧
        rejection.violations.map Violation.unplaced = other.violations.map Violation.unplaced := by
  have sameOutcome : (compileDocuments schema sources).mapError Rejection.unplaced =
      (compileDocuments schema moved).mapError Rejection.unplaced := by
    rw [← compileDocuments_unplaced, ← compileDocuments_unplaced, map_unplaced_of_moved pairwise]
  cases first : compileDocuments schema sources with
  | ok compiled =>
    cases second : compileDocuments schema moved with
    | ok other =>
      rw [first, second] at sameOutcome
      cases sameOutcome
      exact .inl ⟨compiled, rfl, rfl⟩
    | error other => simp [first, second, Except.mapError] at sameOutcome
  | error rejection =>
    cases second : compileDocuments schema moved with
    | ok other => simp [first, second, Except.mapError] at sameOutcome
    | error other =>
      rw [first, second] at sameOutcome
      obtain ⟨samePath, sameViolations⟩ := Rejection.mk.inj (Except.error.inj sameOutcome)
      exact .inr ⟨rejection, other, rfl, rfl, samePath, sameViolations⟩

/-! Two files, each with a query for one field, written on some line. -/

def fieldQuery (name field : String) (line : Nat) : Document.Definition :=
  .operation ⟨⟨line, 1⟩, some name, .query, [], [], [.field ⟨line, 12⟩ none field [] [] ⟨line, 17⟩ []]⟩

def fieldSources (field : String) (line : Nat) : List SourceDocument :=
  [⟨⟨"/p/a.js"⟩, ⟨[fieldQuery "A" "site" line]⟩⟩, ⟨⟨"/p/b.js"⟩, ⟨[fieldQuery "B" field (line + 1)]⟩⟩]

theorem fieldSources_moved (field : String) (line other : Nat) :
    List.Forall₂ SourceDocument.Moved (fieldSources field line) (fieldSources field other) :=
  .cons ⟨rfl, rfl⟩ (.cons ⟨rfl, rfl⟩ .nil)

/-- The field `site` is found wherever it is written, and `sight` nowhere. -/
theorem compileDocuments_moved_lines :
    (∃ compiled, compileDocuments faultySchema (fieldSources "site" 1) = .ok compiled ∧
      compileDocuments faultySchema (fieldSources "site" 8) = .ok compiled) ∧
    ∃ rejection other, compileDocuments faultySchema (fieldSources "sight" 1) = .error rejection ∧
      compileDocuments faultySchema (fieldSources "sight" 8) = .error other ∧ rejection.path = other.path ∧
      rejection.violations.map Violation.unplaced = other.violations.map Violation.unplaced := by
  have compiles : (compileDocuments faultySchema (fieldSources "site" 1)).toOption.isSome = true := by decide +kernel
  have fails : (compileDocuments faultySchema (fieldSources "sight" 1)).toOption.isSome = false := by decide +kernel
  constructor
  · rcases compileDocuments_moved faultySchema (fieldSources_moved "site" 1 8) with same | ⟨_, _, failed, _⟩
    · exact same
    · rw [failed] at compiles
      exact absurd compiles nofun
  · rcases compileDocuments_moved faultySchema (fieldSources_moved "sight" 1 8) with ⟨_, compiled, _⟩ | same
    · rw [compiled] at fails
      exact absurd fails nofun
    · exact same

end SiteQuery.Compilation
