import Mathlib.Data.List.Nodup
import Mathlib.Data.List.Pairwise
import SiteQuery.Proofs.Compilation.CompiledQueries
import SiteQuery.Proofs.Compilation.Documents
import SiteQuery.Proofs.Graphql.Flattening
import SiteQuery.Proofs.Graphql.Nodes
import SiteQuery.Proofs.Graphql.Reachable

/-!
Documents compile all together or not at all.

`compileDocuments_spec` says when they do, which queries are found then, and what else is reported.
-/

namespace SiteQuery.Compilation

open Graphql

/-- The names of all operations and fragments, one for each definition. -/
def definitionNames (sources : List SourceDocument) : List String := sources.flatMap (·.document.names)

def fragmentNames (sources : List SourceDocument) : List String := sources.flatMap (·.document.fragmentNames)

/-- Nothing is wrong with any of the documents. -/
structure Compilable (schema : Schema) (sources : List SourceDocument) : Prop where
  valid : ∀ source ∈ sources, validate schema source.document (fragmentTypes sources) ViolatedRule.standard = []
  converted : ∀ source ∈ sources, ∃ nodes, Node.ofDocument schema source.document = .ok nodes
  distinct : (definitionNames sources).Nodup
  known : ∀ source ∈ sources, ∀ definition ∈ source.document.definitions, ∀ name,
    Document.Spreads definition.selections name → name ∈ fragmentNames sources

def CompiledQuery.key (query : CompiledQuery) : String × Path := (query.name, query.path)

/-- The queries are the named operations, under the file of their document and in its order. -/
structure IsComplete (sources : List SourceDocument) (compiled : CompiledQueries) : Prop where
  ordered : compiled.Ordered
  found : ∀ source ∈ sources, (compiled.get? source.path).map (List.map CompiledQuery.key) =
    if source.document.operationNames = [] then none
    else some (source.document.operationNames.map fun name => (name, source.path))
  no_other : ∀ path, (∀ source ∈ sources, source.path.same path = false) → compiled.get? path = none

/-- What is reported of a document, by the first check that finds anything wrong with it. -/
inductive Rejects (schema : Schema) (sources : List SourceDocument) (source : SourceDocument) : List Violation → Prop
  | invalid : Rejects schema sources source
      (validate schema source.document (fragmentTypes sources) ViolatedRule.standard)
  | unconverted {violations} (failed : Node.ofDocument schema source.document = .error violations) :
      Rejects schema sources source violations
  | repeated {name} (defined : name ∈ source.document.names) (again : 1 < (definitionNames sources).count name) :
      Rejects schema sources source [⟨.duplicateDefinition name, none⟩]
  | unknown {violations : List Violation}
      (exact : ∀ violation, violation ∈ violations ↔
        ∃ definition ∈ source.document.definitions, ∃ owner name, definition.name? = some owner ∧
          Document.Spreads definition.selections name ∧ name ∉ fragmentNames sources ∧
          violation = ⟨.unknownFragment name owner, none⟩) :
      Rejects schema sources source violations

/-- A fold that fails does so at one of the items, after those before it. -/
theorem foldlM_eq_error {Error State Item : Type} {step : State → Item → Except Error State} {items : List Item}
    {start : State} {error : Error} (failed : items.foldlM step start = .error error) :
    ∃ before item after reached, items = before ++ item :: after ∧ before.foldlM step start = .ok reached ∧
      step reached item = .error error := by
  induction items generalizing start with
  | nil => cases failed
  | cons first rest ih =>
    rw [List.foldlM_cons] at failed
    cases outcome : step start first with
    | error reason =>
      simp only [outcome, bind, Except.bind, Except.error.injEq] at failed
      exact ⟨[], first, rest, start, rfl, rfl, failed ▸ outcome⟩
    | ok next =>
      simp only [outcome, bind, Except.bind] at failed
      obtain ⟨before, item, after, reached, rfl, isReached, isError⟩ := ih failed
      refine ⟨first :: before, item, after, reached, rfl, ?_, isError⟩
      rw [List.foldlM_cons, outcome]
      exact isReached

section Names

variable {schema : Schema} {sources : List SourceDocument} {context : Context}

theorem gives_flatten {nodes : List (List Node)}
    (converted : List.Forall₂ (fun source nodes => Node.ofDocument schema source.document = .ok nodes) sources nodes) :
    List.Forall₂ (Conversion.Gives schema) (sources.flatMap (·.document.definitions)) nodes.flatten := by
  rw [List.flatMap_def]
  apply List.rel_flatten
  rw [List.forall₂_map_left_iff]
  exact converted.imp fun _ _ => Node.gives_of_ofDocument

theorem ContextOf.gives (holds : ContextOf schema sources context) :
    List.Forall₂ (Conversion.Gives schema) (sources.flatMap (·.document.definitions)) context.nodes := by
  obtain ⟨nodes, converted, all⟩ := holds.converted
  rw [all]
  exact gives_flatten converted

theorem definitionNames_eq (sources : List SourceDocument) :
    definitionNames sources = (sources.flatMap (·.document.definitions)).filterMap Document.Definition.name? := by
  rw [List.filterMap_flatMap]
  rfl

theorem fragmentNames_eq (sources : List SourceDocument) :
    fragmentNames sources = (sources.flatMap (·.document.definitions)).filterMap Document.Definition.fragmentName? := by
  rw [List.filterMap_flatMap]
  rfl

theorem ContextOf.names_eq (holds : ContextOf schema sources context) : context.names = definitionNames sources := by
  rw [definitionNames_eq]
  exact Conversion.map_name_of_gives holds.gives

theorem ContextOf.mem_unknownFragments (holds : ContextOf schema sources context) {owner : String}
    {violation : Violation} :
    (owner, violation) ∈ context.unknownFragments ↔
      ∃ definition ∈ sources.flatMap (·.document.definitions), definition.name? = some owner ∧
        ∃ name, Document.Spreads definition.selections name ∧ name ∉ fragmentNames sources ∧
          violation = ⟨.unknownFragment name owner, none⟩ := by
  have unknown (name : String) : (context.fragment? name).isNone = true ↔ name ∉ fragmentNames sources := by
    rw [fragmentNames_eq, ← Context.isSome_fragment?_iff holds.gives holds.distinct]
    simp
  rw [Context.unknownFragments, List.mem_flatMap]
  apply Conversion.exists_mem_iff_of_gives holds.gives
  intro definition node gives
  simp only [List.mem_map, List.mem_filter, gives.spreads, unknown, gives.name, Prod.mk.injEq, Option.some.injEq]
  constructor
  · rintro ⟨name, ⟨spreads, isUnknown⟩, rfl, rfl⟩
    exact ⟨rfl, name, spreads, isUnknown, rfl⟩
  · rintro ⟨rfl, name, spreads, isUnknown, rfl⟩
    exact ⟨name, ⟨spreads, isUnknown⟩, rfl, rfl⟩

/-- A key that no other entry has is found from either end. -/
theorem find?_reverse_of_mem {entries : List (Option String × Path)} (distinct : (entries.filterMap (·.1)).Nodup)
    {name : String} {path : Path} (member : (some name, path) ∈ entries) :
    entries.reverse.find? (·.1 == some name) = some (some name, path) := by
  induction entries with
  | nil => cases member
  | cons first rest ih =>
    rw [List.reverse_cons, List.find?_append]
    rcases List.mem_cons.mp member with rfl | inRest
    · have isKey : ((some name, path) : Option String × Path).1 = some name := rfl
      rw [List.filterMap_cons_some isKey, List.nodup_cons] at distinct
      have missing : rest.reverse.find? (·.1 == some name) = none := by
        rw [List.find?_eq_none]
        intro entry inReverse isName
        apply distinct.1
        exact List.mem_filterMap.mpr ⟨entry, List.mem_reverse.mp inReverse, by simpa using isName⟩
      simp [missing]
    · have restDistinct : (rest.filterMap (·.1)).Nodup := by
        refine distinct.sublist ?_
        exact (List.sublist_cons_self first rest).filterMap _
      rw [ih restDistinct inRest]
      rfl

theorem definitionPath?_of_mem (distinct : (definitionNames sources).Nodup) {source : SourceDocument}
    (member : source ∈ sources) {definition : Document.Definition} (defined : definition ∈ source.document.definitions)
    {name : String} (named : definition.name? = some name) :
    definitionPath? sources name = some source.path := by
  have isEntry : (some name, source.path) ∈ sources.flatMap fun source =>
      source.document.definitions.map fun definition => (definition.name?, source.path) :=
    List.mem_flatMap.mpr ⟨source, member, List.mem_map.mpr ⟨definition, defined, by rw [named]⟩⟩
  rw [definitionPath?, find?_reverse_of_mem ?_ isEntry]
  · rfl
  · rw [List.filterMap_flatMap]
    simp only [List.filterMap_map]
    exact distinct

end Names

section Queries

variable {schema : Schema} {sources : List SourceDocument} {context : Context}

theorem isSome_rootText?_normalize (distinct : context.names.Nodup) {root : Root} (isRoot : .root root ∈ context.nodes) :
    (context.normalize.rootText? root.name).isSome = true := by
  have member : context.get? root.name = some (.root root) := Context.get?_of_mem distinct isRoot
  have flattened := Context.get?_flatten_root member
  have found : ∃ normal, context.normalize.get? root.name = some (.root normal) := by
    rw [Context.normalize, Context.merge, Context.get?_map (by simp), flattened]
    exact ⟨_, rfl⟩
  obtain ⟨normal, isNormal⟩ := found
  rw [Context.rootText?, Context.reachable, isNormal]
  rfl

/-- A root that has its place is printed under its name and that place; a fragment is not printed. -/
theorem map_key_printedQuery? {printed : Context} {path : Path} {definition : Document.Definition} {node : Node}
    (gives : Conversion.Gives schema definition node) (located : definitionPath? sources node.name = some path)
    (isPrinted : ∀ root, node = .root root → (printed.rootText? root.name).isSome = true) :
    (printedQuery? sources printed node).map CompiledQuery.key = definition.operationName?.map (·, path) := by
  rw [gives.operationName?]
  cases node with
  | fragment => rfl
  | root root =>
    obtain ⟨text, isText⟩ := Option.isSome_iff_exists.mp (isPrinted root rfl)
    have found : definitionPath? sources root.name = some path := located
    simp only [printedQuery?, found, isText]
    rfl

theorem map_key_filterMap {printed : Context} {path : Path} {definitions : List Document.Definition} {nodes : List Node}
    (gives : List.Forall₂ (Conversion.Gives schema) definitions nodes)
    (located : ∀ node ∈ nodes, definitionPath? sources node.name = some path)
    (isPrinted : ∀ root, .root root ∈ nodes → (printed.rootText? root.name).isSome = true) :
    (nodes.filterMap (printedQuery? sources printed)).map CompiledQuery.key =
      (definitions.filterMap Document.Definition.operationName?).map (·, path) := by
  rw [List.map_filterMap, List.map_filterMap]
  induction gives with
  | nil => rfl
  | @cons definition node _ _ first _ ih =>
    have ofFirst := map_key_printedQuery? first (located node List.mem_cons_self)
      fun root isRoot => isPrinted root (isRoot ▸ List.mem_cons_self)
    have ofRest := ih (fun other inRest => located other (List.mem_cons_of_mem _ inRest))
      fun root inRest => isPrinted root (List.mem_cons_of_mem _ inRest)
    rw [List.filterMap_cons, List.filterMap_cons, ofFirst, ofRest]

theorem map_key_flatten {printed : Context} {part : List SourceDocument} {nodes : List (List Node)}
    (converted : List.Forall₂ (fun source nodes => Node.ofDocument schema source.document = .ok nodes) part nodes)
    (located : ∀ source ∈ part, ∀ definition ∈ source.document.definitions, ∀ name, definition.name? = some name →
      definitionPath? sources name = some source.path)
    (isPrinted : ∀ root, .root root ∈ nodes.flatten → (printed.rootText? root.name).isSome = true) :
    (nodes.flatten.filterMap (printedQuery? sources printed)).map CompiledQuery.key =
      part.flatMap fun source => source.document.operationNames.map (·, source.path) := by
  induction converted with
  | nil => rfl
  | @cons source own _ _ isOwn _ ih =>
    have ownLocated : ∀ node ∈ own, definitionPath? sources node.name = some source.path := by
      intro node member
      obtain ⟨definition, defined, gives⟩ := Node.gives_of_mem_ofDocument isOwn member
      exact located source List.mem_cons_self definition defined node.name gives.name
    have ofOwn := map_key_filterMap (Node.gives_of_ofDocument isOwn) ownLocated
      fun root member => isPrinted root (List.mem_append_left _ member)
    have ofOthers := ih (fun other inRest => located other (List.mem_cons_of_mem _ inRest))
      fun root member => isPrinted root (List.mem_append_right _ member)
    rw [List.flatten_cons, List.filterMap_append, List.map_append, ofOwn, ofOthers, List.flatMap_cons]
    rfl

/-- The printed queries are the named operations of all documents, in order. -/
theorem ContextOf.map_key_queries (holds : ContextOf schema sources context) :
    (context.nodes.filterMap (printedQuery? sources context.normalize)).map CompiledQuery.key =
      sources.flatMap fun source => source.document.operationNames.map (·, source.path) := by
  have distinct : (definitionNames sources).Nodup := holds.names_eq ▸ holds.distinct
  obtain ⟨nodes, converted, all⟩ := holds.converted
  rw [all]
  apply map_key_flatten converted
  · intro source member definition defined name named
    exact definitionPath?_of_mem distinct member defined named
  · intro root member
    exact isSome_rootText?_normalize holds.distinct (all ▸ member)

/-- What stands under the path of one document is what that document gave. -/
theorem filter_flatMap_path {sources : List SourceDocument}
    (apart : sources.Pairwise fun a b => a.path.same b.path = false) (names : SourceDocument → List String)
    {source : SourceDocument} (member : source ∈ sources) :
    (sources.flatMap fun source => (names source).map (·, source.path)).filter (·.2.same source.path) =
      (names source).map (·, source.path) := by
  induction sources with
  | nil => cases member
  | cons first rest ih =>
    obtain ⟨others, restApart⟩ := List.pairwise_cons.mp apart
    rw [List.flatMap_cons, List.filter_append]
    rcases List.mem_cons.mp member with rfl | inRest
    · have ofSource : ((names source).map (·, source.path)).filter (·.2.same source.path) =
          (names source).map (·, source.path) := by
        simp [List.filter_map, Function.comp_def]
      have ofRest : (rest.flatMap fun source => (names source).map (·, source.path)).filter
          (·.2.same source.path) = [] := by
        simp only [List.filter_eq_nil_iff, List.mem_flatMap, List.mem_map]
        rintro _ ⟨other, inRest, name, _, rfl⟩
        rw [Path.same_comm, others other inRest]
        exact Bool.false_ne_true
      rw [ofSource, ofRest, List.append_nil]
    · have ofFirst : ((names first).map (·, first.path)).filter (·.2.same source.path) = [] := by
        simp [List.filter_map, Function.comp_def, others source inRest]
      rw [ofFirst, List.nil_append]
      exact ih restApart inRest

/-- Queries whose names and paths are those of the operations make a complete result. -/
theorem isComplete_foldl_insert (apart : sources.Pairwise fun a b => a.path.same b.path = false)
    {queries : List CompiledQuery}
    (keys : queries.map CompiledQuery.key =
      sources.flatMap fun source => source.document.operationNames.map (·, source.path)) :
    IsComplete sources (queries.foldl (fun compiled query => compiled.insert query) []) := by
  have keysAt (path : Path) : (queries.filter (·.path.same path)).map CompiledQuery.key =
      (sources.flatMap fun source => source.document.operationNames.map (·, source.path)).filter (·.2.same path) := by
    rw [← keys, List.filter_map]
    rfl
  constructor
  · exact CompiledQueries.Ordered.foldl_insert List.Pairwise.nil queries
  · intro source member
    have own := keysAt source.path
    rw [filter_flatMap_path apart _ member] at own
    have noneIff : queries.filter (·.path.same source.path) = [] ↔ source.document.operationNames = [] := by
      rw [← List.map_eq_nil_iff (f := CompiledQuery.key), own, List.map_eq_nil_iff]
    rw [CompiledQueries.get?_foldl_insert, ← own]
    by_cases empty : source.document.operationNames = []
    · rw [if_pos (noneIff.mpr empty), if_pos empty]
      rfl
    · rw [if_neg (mt noneIff.mp empty), if_neg empty]
      rfl
  · intro path missing
    have none : queries.filter (·.path.same path) = [] := by
      rw [← List.map_eq_nil_iff (f := CompiledQuery.key), keysAt]
      simp only [List.filter_eq_nil_iff, List.mem_flatMap, List.mem_map]
      rintro _ ⟨source, member, name, _, rfl⟩
      rw [missing source member]
      exact Bool.false_ne_true
    rw [CompiledQueries.get?_foldl_insert, if_pos none]

end Queries

section Rejections

variable {schema : Schema} {sources : List SourceDocument} {context : Context} {rejection : Rejection}

theorem addNode_eq_error {path : Path} {node : Node} (failed : addNode path context node = .error rejection) :
    node.name ∈ context.names ∧ rejection = ⟨path, [⟨.duplicateDefinition node.name, none⟩]⟩ := by
  unfold addNode Context.add at failed
  cases found : context.get? node.name with
  | none => simp [found] at failed
  | some other =>
    simp only [found, Except.error.injEq] at failed
    refine ⟨?_, failed.symm⟩
    by_contra missing
    rw [Context.get?_eq_none.mpr missing] at found
    cases found

/-- A name that is added twice is there twice. -/
theorem foldlM_addNode_eq_error {path : Path} {nodes : List Node} (distinct : context.names.Nodup)
    (failed : nodes.foldlM (addNode path) context = .error rejection) :
    ∃ name ∈ nodes.map Node.name, 1 < (context.names ++ nodes.map Node.name).count name ∧
      rejection = ⟨path, [⟨.duplicateDefinition name, none⟩]⟩ := by
  obtain ⟨before, node, after, reached, rfl, isReached, isError⟩ := foldlM_eq_error failed
  obtain ⟨all, -⟩ := foldlM_addNode isReached distinct
  obtain ⟨again, isRejection⟩ := addNode_eq_error isError
  have earlier : node.name ∈ context.names ++ before.map Node.name := by
    simpa [Context.names, all] using again
  refine ⟨node.name, by simp, ?_, isRejection⟩
  have counted := List.count_pos_iff.mpr earlier
  simp only [List.map_append, List.map_cons, List.count_append, List.count_cons_self] at counted ⊢
  omega

theorem ofDocument_eq_error {document : Document} {violations : List Violation}
    (failed : Node.ofDocument schema document = .error violations) : violations ≠ [] := by
  simp only [Node.ofDocument] at failed
  split at failed
  · cases failed
  · rename_i refused
    cases failed
    simpa using refused

/-- Where the documents before one were added, what is refused of it is wrong in it. -/
theorem rejects_of_addDocument {before after : List SourceDocument} {source : SourceDocument}
    (split : sources = before ++ source :: after)
    (reached : before.foldlM (addDocument schema (fragmentTypes sources)) {} = .ok context)
    (failed : addDocument schema (fragmentTypes sources) context source = .error rejection) :
    rejection.path = source.path ∧ rejection.violations ≠ [] ∧ Rejects schema sources source rejection.violations := by
  obtain ⟨-, ⟨nodes, converted, all⟩, distinct⟩ := foldlM_addDocument reached List.nodup_nil
  unfold addDocument at failed
  by_cases valid : (validate schema source.document (fragmentTypes sources) ViolatedRule.standard).isEmpty = true
  · simp only [valid, if_true] at failed
    cases outcome : Node.ofDocument schema source.document with
    | error violations =>
      simp only [outcome, Except.error.injEq] at failed
      subst failed
      exact ⟨rfl, ofDocument_eq_error outcome, .unconverted outcome⟩
    | ok own =>
      simp only [outcome] at failed
      obtain ⟨name, defined, again, rfl⟩ := foldlM_addNode_eq_error distinct failed
      have earlierNames : context.names = definitionNames before := by
        rw [definitionNames_eq, Context.names, all]
        exact Conversion.map_name_of_gives (gives_flatten converted)
      have ownNames : own.map Node.name = source.document.names :=
        Conversion.map_name_of_gives (Node.gives_of_ofDocument outcome)
      have allNames : definitionNames sources =
          (context.names ++ own.map Node.name) ++ definitionNames after := by
        rw [earlierNames, ownNames, split]
        simp [definitionNames]
      refine ⟨rfl, List.cons_ne_nil _ _, .repeated (ownNames ▸ defined) ?_⟩
      rw [allNames, List.count_append]
      omega
  · simp only [valid, Bool.false_eq_true, if_false, Except.error.injEq] at failed
    subst failed
    exact ⟨rfl, by simpa using valid, .invalid⟩

theorem eq_of_same_path (apart : sources.Pairwise fun a b => a.path.same b.path = false) {source other : SourceDocument}
    (member : source ∈ sources) (inSources : other ∈ sources) (same : other.path.same source.path = true) :
    other = source := by
  by_contra different
  have symmetric : Std.Symm fun a b : SourceDocument => a.path.same b.path = false :=
    ⟨fun a b isApart => by rw [Path.same_comm, isApart]⟩
  have isApart := apart.forall inSources member different
  rw [same] at isApart
  cases isApart

/-- Fragments that are defined nowhere are reported for one document, and all those that it spreads. -/
theorem rejects_of_checkFragments (apart : sources.Pairwise fun a b => a.path.same b.path = false)
    (holds : ContextOf schema sources context) (failed : checkFragments sources context = .error rejection) :
    ∃ source ∈ sources, rejection.path = source.path ∧ rejection.violations ≠ [] ∧
      Rejects schema sources source rejection.violations := by
  have distinct : (definitionNames sources).Nodup := holds.names_eq ▸ holds.distinct
  unfold checkFragments at failed
  split at failed
  · cases failed
  · rename_i owner violation rest unknown
    have isUnknown : (owner, violation) ∈ context.unknownFragments := unknown ▸ List.mem_cons_self
    obtain ⟨definition, inSources, named, -⟩ := holds.mem_unknownFragments.mp isUnknown
    obtain ⟨source, member, defined⟩ := List.mem_flatMap.mp inSources
    have located := definitionPath?_of_mem distinct member defined named
    simp only [Except.error.injEq] at failed
    subst failed
    refine ⟨source, member, by rw [located]; rfl, ?_, .unknown fun reported => ?_⟩
    · simp [located, samePath?]
    · rw [← unknown, located]
      simp only [List.mem_map, List.mem_filter, Prod.exists]
      constructor
      · rintro ⟨other, _, ⟨inUnknown, same⟩, rfl⟩
        obtain ⟨written, inSources, named, name, spreads, missing, rfl⟩ := holds.mem_unknownFragments.mp inUnknown
        obtain ⟨place, inPlace, isWritten⟩ := List.mem_flatMap.mp inSources
        rw [definitionPath?_of_mem distinct inPlace isWritten named] at same
        obtain rfl := eq_of_same_path apart member inPlace same
        exact ⟨written, isWritten, other, name, named, spreads, missing, rfl⟩
      · rintro ⟨written, isWritten, other, name, named, spreads, missing, rfl⟩
        have inUnknown := holds.mem_unknownFragments.mpr
          ⟨written, List.mem_flatMap.mpr ⟨source, member, isWritten⟩, named, name, spreads, missing, rfl⟩
        refine ⟨other, _, ⟨inUnknown, ?_⟩, rfl⟩
        rw [definitionPath?_of_mem distinct member isWritten named]
        exact Path.same_refl source.path

/-- A pass that fails names one of its documents, with all that the failing check found there. -/
theorem compileDocuments_eq_error (apart : sources.Pairwise fun a b => a.path.same b.path = false)
    (failed : compileDocuments schema sources = .error rejection) :
    ∃ source ∈ sources, rejection.path = source.path ∧ rejection.violations ≠ [] ∧
      Rejects schema sources source rejection.violations := by
  unfold compileDocuments at failed
  cases folded : sources.foldlM (addDocument schema (fragmentTypes sources)) {} with
  | error reason =>
    simp only [folded, bind, Except.bind, Except.error.injEq] at failed
    subst failed
    obtain ⟨before, source, after, reached, split, isReached, isError⟩ := foldlM_eq_error folded
    exact ⟨source, by simp [split], rejects_of_addDocument split isReached isError⟩
  | ok context =>
    obtain ⟨valid, ⟨nodes, converted, all⟩, distinct⟩ := foldlM_addDocument folded List.nodup_nil
    have holds : ContextOf schema sources context := ⟨valid, ⟨nodes, converted, by simpa using all⟩, distinct⟩
    cases checked : checkFragments sources context with
    | ok _ => simp [folded, checked, bind, Except.bind, pure, Except.pure] at failed
    | error reason =>
      simp only [folded, checked, bind, Except.bind, Except.error.injEq] at failed
      subst failed
      exact rejects_of_checkFragments apart holds checked

/-- Nothing is reported of documents that have nothing wrong. -/
theorem Compilable.not_rejects (compilable : Compilable schema sources) {source : SourceDocument}
    (member : source ∈ sources) {violations : List Violation} (rejects : Rejects schema sources source violations) :
    violations = [] := by
  cases rejects with
  | invalid => exact compilable.valid source member
  | unconverted failed =>
    obtain ⟨nodes, converted⟩ := compilable.converted source member
    rw [converted] at failed
    cases failed
  | @repeated name defined again =>
    have once := List.nodup_iff_count_le_one.mp compilable.distinct name
    omega
  | unknown exact =>
    apply List.eq_nil_iff_forall_not_mem.mpr
    intro violation reported
    obtain ⟨definition, defined, _, name, _, spreads, missing, _⟩ := (exact violation).mp reported
    exact missing (compilable.known source member definition defined name spreads)

theorem compilable_of_ok {compiled : CompiledQueries} (ok : compileDocuments schema sources = .ok compiled) :
    Compilable schema sources := by
  obtain ⟨context, holds, known, _⟩ := compileDocuments_eq_ok ok
  constructor
  · exact holds.valid
  · intro source member
    obtain ⟨nodes, converted, _⟩ := holds.exists_nodes member
    exact ⟨nodes, converted⟩
  · exact holds.names_eq ▸ holds.distinct
  · intro source member definition defined name spreads
    by_contra missing
    have inSources : definition ∈ sources.flatMap (·.document.definitions) :=
      List.mem_flatMap.mpr ⟨source, member, defined⟩
    obtain ⟨owner, named⟩ := Conversion.exists_name_of_gives holds.gives inSources
    have unknown := holds.mem_unknownFragments.mpr ⟨definition, inSources, named, name, spreads, missing, rfl⟩
    rw [known] at unknown
    cases unknown

theorem Compilable.exists_compiled (compilable : Compilable schema sources)
    (apart : sources.Pairwise fun a b => a.path.same b.path = false) :
    ∃ compiled, compileDocuments schema sources = .ok compiled := by
  cases outcome : compileDocuments schema sources with
  | ok compiled => exact ⟨compiled, rfl⟩
  | error rejection =>
    obtain ⟨source, member, _, notEmpty, rejects⟩ := compileDocuments_eq_error apart outcome
    exact absurd (compilable.not_rejects member rejects) notEmpty

end Rejections

/-- Documents of different files compile exactly when nothing is wrong with any of them; then every named operation is
found under the file of its document, and else one document is named with all that a check found there. -/
theorem compileDocuments_spec (schema : Schema) (sources : List SourceDocument)
    (apart : sources.Pairwise fun a b => a.path.same b.path = false) :
    ((∃ compiled, compileDocuments schema sources = .ok compiled) ↔ Compilable schema sources) ∧
      (∀ compiled, compileDocuments schema sources = .ok compiled → IsComplete sources compiled) ∧
      ∀ rejection, compileDocuments schema sources = .error rejection →
        rejection.violations ≠ [] ∧ ∃ source ∈ sources, rejection.path = source.path ∧
          Rejects schema sources source rejection.violations := by
  refine ⟨⟨?_, ?_⟩, ?_, ?_⟩
  · rintro ⟨compiled, ok⟩
    exact compilable_of_ok ok
  · intro compilable
    exact compilable.exists_compiled apart
  · intro compiled ok
    obtain ⟨context, holds, _, rfl⟩ := compileDocuments_eq_ok ok
    exact isComplete_foldl_insert apart holds.map_key_queries
  · intro rejection failed
    obtain ⟨source, member, isPath, notEmpty, rejects⟩ := compileDocuments_eq_error apart failed
    exact ⟨notEmpty, source, member, isPath, rejects⟩

def titleSchema : Schema where
  types := [{ name := "String", kind := .scalar },
    { name := "Query", kind := .object, fields := [⟨"title", [], .named "String"⟩] }]
  directives := []
  queryType := "Query"
  mutationType? := none
  subscriptionType? := none

def titleField : Document.Selection := .field ⟨1, 1⟩ none "title" [] [] ⟨1, 6⟩ []

def titleQuery (name : String) (selection : Document.Selection) : Document.Definition :=
  .operation ⟨⟨1, 1⟩, some name, .query, [], [], [selection]⟩

/-- Two queries in one file, the first with a fragment of the other. -/
def titleSources : List SourceDocument :=
  [⟨⟨"/p/b.js"⟩, ⟨[titleQuery "B" (.spread ⟨1, 11⟩ "F" []), titleQuery "A" titleField]⟩⟩,
    ⟨⟨"/p/a.js"⟩, ⟨[.fragment ⟨⟨1, 1⟩, "F", ⟨"Query", ⟨1, 15⟩⟩, [], [titleField]⟩]⟩⟩]

theorem compileDocuments_titles : (titleSources.Pairwise fun a b => a.path.same b.path = false) ∧
    Compilable titleSchema titleSources ∧
      ∃ compiled, compileDocuments titleSchema titleSources = .ok compiled ∧ IsComplete titleSources compiled := by
  have apart : titleSources.Pairwise fun a b => a.path.same b.path = false := by decide +kernel
  obtain ⟨compiled, ok⟩ := exists_compiled
    (show (compileDocuments titleSchema titleSources).toOption.isSome = true by decide +kernel)
  obtain ⟨compiles, complete, _⟩ := compileDocuments_spec titleSchema titleSources apart
  exact ⟨apart, compiles.mp ⟨compiled, ok⟩, compiled, ok, complete compiled ok⟩

end SiteQuery.Compilation
