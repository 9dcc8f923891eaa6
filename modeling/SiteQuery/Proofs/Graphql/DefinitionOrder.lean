import SiteQuery.Proofs.Graphql.BuiltSchema
import SiteQuery.Proofs.Sorting

/-!
The order of definitions in a schema.

Only definitions of one subject may replace or extend each other, so as long as these stay in order, all others may
move: a schema is built from both lists or from neither, and both schemas give the same answers
(`Schema.ofDefinitions_of_reordered`).
-/

namespace SiteQuery.Graphql

/-- What is defined. The extensions of a type are apart from its definitions, since they wait until all are there. -/
inductive Subject where
  | schema
  | type (name : String)
  | extension (name : String)
  | directive (name : String)
deriving DecidableEq

namespace SystemDefinition

def subject : SystemDefinition → Subject
  | schema _ => .schema
  | type definition => .type definition.name
  | extension additions => .extension additions.name
  | directive definition => .directive definition.name

def about (subject : Subject) (definitions : List SystemDefinition) : List SystemDefinition :=
  definitions.filter (·.subject = subject)

/-- Both lists have the same definitions of every subject, in the same order; so one is a permutation of the other. -/
def Reordered (definitions others : List SystemDefinition) : Prop :=
  ∀ subject, about subject definitions = about subject others

namespace Reordered

variable {definitions others : List SystemDefinition}

theorem symm (reordered : Reordered definitions others) : Reordered others definitions :=
  fun subject => (reordered subject).symm

theorem perm (reordered : Reordered definitions others) : definitions.Perm others := by
  classical
  rw [List.perm_iff_count]
  intro definition
  have alike := congrArg (List.count definition) (reordered definition.subject)
  simpa [about, List.count_filter] using alike

/-- There are no definitions of other subjects that could stand in another order. -/
theorem of_subjects (alike : ∀ definition ∈ definitions ++ others,
    about definition.subject definitions = about definition.subject others) : Reordered definitions others := by
  intro subject
  by_cases isDefined : ∃ definition ∈ definitions ++ others, definition.subject = subject
  · obtain ⟨definition, member, rfl⟩ := isDefined
    exact alike definition member
  · have nothing (part : List SystemDefinition) (isPart : part ⊆ definitions ++ others) : about subject part = [] := by
      refine List.filter_eq_nil_iff.mpr fun definition member isAbout => isDefined ?_
      exact ⟨definition, isPart member, of_decide_eq_true isAbout⟩
    rw [nothing definitions (List.subset_append_left _ _), nothing others (List.subset_append_right _ _)]

end Reordered

end SystemDefinition

/-- What is seen of a state after all steps depends only on the steps that can be seen. -/
theorem foldl_view_filter {State Item View : Type} (view : State → View) (step : State → Item → State)
    (sees : Item → Bool) (passes : ∀ state item, sees item = false → view (step state item) = view state)
    (depends : ∀ state other item, view state = view other → view (step state item) = view (step other item))
    (items : List Item) {state other : State} (same : view state = view other) :
    view (items.foldl step state) = view ((items.filter sees).foldl step other) := by
  induction items generalizing state other with
  | nil => exact same
  | cons item rest ih =>
    rw [List.foldl_cons, List.filter_cons]
    cases seen : sees item with
    | true => exact ih (depends state other item same)
    | false => exact ih ((passes state item seen).trans same)

namespace TypeDefinition

variable {types others : List TypeDefinition}

def Distinct (types : List TypeDefinition) : Prop := (types.map (·.name)).Nodup

theorem name_mem_insert {type other : TypeDefinition} (member : other ∈ type.insert types) :
    other.name = type.name ∨ other ∈ types := by
  induction types with
  | nil => exact .inl (congrArg name (List.mem_singleton.mp member))
  | cons first rest ih =>
    rw [insert] at member
    split at member
    · rcases List.mem_cons.mp member with rfl | inRest
      · exact .inl rfl
      · exact .inr (List.mem_cons_of_mem _ inRest)
    · rcases List.mem_cons.mp member with rfl | inRest
      · exact .inr List.mem_cons_self
      · exact (ih inRest).imp id (List.mem_cons_of_mem _)

theorem Distinct.insert (distinct : Distinct types) (type : TypeDefinition) : Distinct (type.insert types) := by
  induction types with
  | nil => exact List.nodup_singleton _
  | cons other rest ih =>
    have fresh : other.name ∉ rest.map (·.name) := (List.nodup_cons.mp distinct).1
    have apart := (List.nodup_cons.mp distinct).2
    rw [TypeDefinition.insert]
    by_cases replaced : other.name = type.name
    · have free : type.name ∉ rest.map (·.name) := replaced ▸ fresh
      rw [if_pos replaced]
      exact List.nodup_cons.mpr ⟨free, apart⟩
    · rw [if_neg replaced]
      refine List.nodup_cons.mpr ⟨fun taken => ?_, ih apart⟩
      obtain ⟨found, member, sameName⟩ := List.mem_map.mp taken
      rcases name_mem_insert member with isType | inRest
      · exact replaced (sameName.symm.trans isType)
      · exact fresh (List.mem_map.mpr ⟨found, inRest, sameName⟩)

theorem Distinct.mem_iff (distinct : Distinct types) {type : TypeDefinition} :
    type ∈ types ↔ find? types type.name = some type := by
  refine ⟨fun member => ?_, List.mem_of_find?_eq_some⟩
  induction types with
  | nil => cases member
  | cons first rest ih =>
    obtain ⟨fresh, apart⟩ := List.nodup_cons.mp distinct
    rw [find?_cons]
    rcases List.mem_cons.mp member with rfl | inRest
    · rw [if_pos rfl]
    · have notFirst : ¬ first.name = type.name := fun same => fresh (List.mem_map.mpr ⟨type, inRest, same.symm⟩)
      rw [if_neg notFirst, ih apart inRest]

/-- Types that are found alike are the same types. -/
theorem Distinct.perm (distinct : Distinct types) (otherDistinct : Distinct others)
    (same : ∀ name, find? types name = find? others name) : types.Perm others := by
  rw [List.perm_ext_iff_of_nodup (List.Nodup.of_map _ distinct) (List.Nodup.of_map _ otherDistinct)]
  intro type
  rw [distinct.mem_iff, otherDistinct.mem_iff, same]

def extendAll (type : TypeDefinition) (extensions : List TypeDefinition) : TypeDefinition := extensions.foldl extend type

@[simp] theorem name_extend (type additions : TypeDefinition) : (type.extend additions).name = type.name := rfl

end TypeDefinition

theorem DirectiveDefinition.find?_insert (directive : DirectiveDefinition) (directives : List DirectiveDefinition)
    (name : String) : (directive.insert directives).find? (·.name == name) =
      if directive.name = name then some directive else directives.find? (·.name == name) := by
  induction directives with
  | nil => by_cases here : directive.name = name <;> simp [insert, here]
  | cons other rest ih =>
    rw [insert]
    by_cases replaced : other.name = directive.name
    · rw [if_pos replaced]
      by_cases here : directive.name = name <;> simp [here, replaced]
    · rw [if_neg replaced, List.find?_cons, List.find?_cons, ih]
      by_cases here : other.name = name
      · have apart : ¬ directive.name = name := fun same => replaced (here.trans same.symm)
        simp [here, apart]
      · simp [beq_eq_false_iff_ne.mpr here]

namespace Schema

open TypeDefinition

namespace Draft

/-- What two drafts have in common that are made of definitions in different orders. -/
structure Agrees (draft other : Draft) : Prop where
  type : ∀ name, find? draft.types name = find? other.types name
  directive : ∀ name, draft.directives.find? (·.name == name) = other.directives.find? (·.name == name)
  roots : draft.roots = other.roots
  extension : ∀ name, draft.extensions.filter (·.name = name) = other.extensions.filter (·.name = name)

variable {definitions others : List SystemDefinition}

/-- Whatever is seen through the definitions of one subject is the same in both orders. -/
theorem foldl_view {View : Type} (subject : Subject) (view : Draft → View)
    (passes : ∀ draft definition, ¬ definition.subject = subject → view (add draft definition) = view draft)
    (depends : ∀ draft other definition, view draft = view other →
      view (add draft definition) = view (add other definition))
    (reordered : SystemDefinition.Reordered definitions others) :
    view (definitions.foldl add {}) = view (others.foldl add {}) := by
  have ofSubject (definitions : List SystemDefinition) :
      view (definitions.foldl add {}) = view ((SystemDefinition.about subject definitions).foldl add {}) :=
    foldl_view_filter view add (·.subject = subject)
      (fun draft definition unseen => passes draft definition (of_decide_eq_false unseen)) depends definitions rfl
  rw [ofSubject definitions, ofSubject others, reordered subject]

theorem agrees_of_reordered (reordered : SystemDefinition.Reordered definitions others) :
    Agrees (definitions.foldl add {}) (others.foldl add {}) where
  type name := by
    refine foldl_view (.type name) (fun draft => find? draft.types name) ?_ ?_ reordered
    · intro draft definition unseen
      cases definition with
      | type definition =>
        have apart : ¬ definition.name = name := fun same => unseen (congrArg Subject.type same)
        rw [add, find?_insert, if_neg apart]
      | schema | extension | directive => rfl
    · intro draft other definition same
      cases definition with
      | type definition => rw [add, add, find?_insert, find?_insert, same]
      | schema | extension | directive => exact same
  directive name := by
    refine foldl_view (.directive name) (fun draft => draft.directives.find? (·.name == name)) ?_ ?_ reordered
    · intro draft definition unseen
      cases definition with
      | directive definition =>
        have apart : ¬ definition.name = name := fun same => unseen (congrArg Subject.directive same)
        rw [add, DirectiveDefinition.find?_insert, if_neg apart]
      | schema | type | extension => rfl
    · intro draft other definition same
      cases definition with
      | directive definition =>
        rw [add, add, DirectiveDefinition.find?_insert, DirectiveDefinition.find?_insert, same]
      | schema | type | extension => exact same
  roots := by
    refine foldl_view .schema Draft.roots ?_ ?_ reordered
    · intro draft definition unseen
      cases definition with
      | schema roots => exact absurd rfl unseen
      | type | extension | directive => rfl
    · intro draft other definition same
      cases definition with
      | schema roots => rw [add, add, same]
      | type | extension | directive => exact same
  extension name := by
    refine foldl_view (.extension name) (fun draft => draft.extensions.filter (·.name = name)) ?_ ?_ reordered
    · intro draft definition unseen
      cases definition with
      | extension additions =>
        have apart : ¬ additions.name = name := fun same => unseen (congrArg Subject.extension same)
        simp [add, List.filter_append, apart]
      | schema | type | directive => rfl
    · intro draft other definition same
      cases definition with
      | extension additions => rw [add, add, List.filter_append, List.filter_append, same]
      | schema | type | directive => exact same

theorem distinct_foldl_add {draft : Draft} (distinct : Distinct draft.types) (definitions : List SystemDefinition) :
    Distinct (definitions.foldl add draft).types := by
  induction definitions generalizing draft with
  | nil => exact distinct
  | cons definition rest ih =>
    apply ih
    cases definition with
    | type definition => exact distinct.insert definition
    | schema | extension | directive => exact distinct

end Draft

variable {types larger : List TypeDefinition} {extensions : List TypeDefinition}

theorem applyExtension_eq_ok {additions : TypeDefinition} (extended : applyExtension types additions = .ok larger) :
    (find? types additions.name).isSome = true ∧ (Distinct types → Distinct larger) ∧
      ∀ name, find? larger name =
        (find? types name).map (·.extendAll ([additions].filter (·.name = name))) := by
  unfold applyExtension at extended
  cases found : find? types additions.name with
  | none => simp [found] at extended
  | some type =>
    rw [found] at extended
    cases Except.ok.inj extended
    have sameName : type.name = additions.name := by simpa [find?] using List.find?_some found
    refine ⟨rfl, fun distinct => distinct.insert _, fun name => ?_⟩
    rw [find?_insert, name_extend, sameName]
    by_cases here : additions.name = name
    · subst here
      simp [found, extendAll]
    · simp [here, extendAll]

/-- All extensions apply if every type that is extended is there, and each type gets its own. -/
theorem foldlM_applyExtension_eq_ok (extended : extensions.foldlM applyExtension types = .ok larger) :
    (∀ additions ∈ extensions, (find? types additions.name).isSome = true) ∧ (Distinct types → Distinct larger) ∧
      ∀ name, find? larger name = (find? types name).map (·.extendAll (extensions.filter (·.name = name))) := by
  induction extensions generalizing types with
  | nil =>
    cases Except.ok.inj extended
    exact ⟨nofun, id, fun name => Option.map_id_apply.symm⟩
  | cons additions rest ih =>
    obtain ⟨next, isNext, onward⟩ := bind_eq_ok extended
    obtain ⟨known, distinct, found⟩ := applyExtension_eq_ok isNext
    obtain ⟨allKnown, stillDistinct, foundAll⟩ := ih onward
    refine ⟨List.forall_mem_cons.mpr ⟨known, fun other inRest => ?_⟩, stillDistinct ∘ distinct, fun name => ?_⟩
    · have stillKnown := allKnown other inRest
      rwa [found, Option.isSome_map] at stillKnown
    · rw [foundAll, found, Option.map_map]
      congr 1
      funext type
      have split : (additions :: rest).filter (·.name = name) =
          [additions].filter (·.name = name) ++ rest.filter (·.name = name) := List.filter_append [additions] rest
      rw [split, extendAll, List.foldl_append]
      rfl

theorem exists_foldlM_applyExtension (known : ∀ additions ∈ extensions, (find? types additions.name).isSome = true) :
    ∃ larger, extensions.foldlM applyExtension types = .ok larger := by
  induction extensions generalizing types with
  | nil => exact ⟨types, rfl⟩
  | cons additions rest ih =>
    obtain ⟨isKnown, restKnown⟩ := List.forall_mem_cons.mp known
    obtain ⟨type, found⟩ := Option.isSome_iff_exists.mp isKnown
    have extended : applyExtension types additions = .ok ((type.extend additions).insert types) := by
      rw [applyExtension, found]
    have stillKnown : ∀ other ∈ rest, (find? ((type.extend additions).insert types) other.name).isSome = true :=
      fun other inRest => isSome_find?_insert (restKnown other inRest) _
    obtain ⟨larger, onward⟩ := ih stillKnown
    refine ⟨larger, ?_⟩
    rw [List.foldlM_cons, extended]
    exact onward

/-- A root type that is not named has the usual name, if there is such a type. -/
def rootOr (types : List TypeDefinition) (declared? : Option String) (usual : String) : Option String :=
  declared? <|> (find? types usual).map fun _ => usual

/-- A schema that is made of definitions. -/
structure MadeOf (draft : Draft) (schema : Schema) : Prop where
  extended : draft.extensions.foldlM applyExtension draft.types = .ok schema.types
  directives : schema.directives = draft.directives
  query : rootOr schema.types draft.roots.query? "Query" = some schema.queryType
  mutation : schema.mutationType? = rootOr schema.types draft.roots.mutation? "Mutation"
  subscription : schema.subscriptionType? = rootOr schema.types draft.roots.subscription? "Subscription"
  complete : ∀ mention ∈ schema.mentions, (schema.type? mention.name).isSome = true

theorem ofDefinitions_eq_ok_iff {definitions : List SystemDefinition} {schema : Schema} :
    ofDefinitions definitions = .ok schema ↔ MadeOf (definitions.foldl Draft.add {}) schema := by
  unfold ofDefinitions
  constructor
  · intro built
    obtain ⟨types, areTypes, more⟩ := bind_eq_ok built
    dsimp only at more
    split at more
    · cases more
    · rename_i queryType isRoot
      obtain ⟨rfl, complete⟩ := check_eq_ok_iff.mp more
      exact ⟨areTypes, rfl, isRoot, rfl, rfl, complete⟩
  · intro made
    have query := made.query
    have whole : (⟨schema.types, (definitions.foldl Draft.add {}).directives, schema.queryType,
        rootOr schema.types (definitions.foldl Draft.add {}).roots.mutation? "Mutation",
        rootOr schema.types (definitions.foldl Draft.add {}).roots.subscription? "Subscription"⟩ : Schema) = schema := by
      rw [← made.directives, ← made.mutation, ← made.subscription]
    unfold rootOr at query
    simp only [made.extended, bind, Except.bind, query]
    exact check_eq_ok_iff.mpr ⟨whole, whole.symm ▸ made.complete⟩

/-- Two schemas that differ in the order of their types and directives at most. -/
structure Same (schema other : Schema) : Prop where
  types : schema.types.Perm other.types
  type : ∀ name, schema.type? name = other.type? name
  directive : ∀ name, schema.directive? name = other.directive? name
  root : ∀ kind, schema.rootName? kind = other.rootName? kind

/-- Both schemas answer alike, whatever is asked. -/
structure AnswersAs (schema other : Schema) : Prop where
  type : ∀ name, schema.type? name = other.type? name
  field : ∀ typeName fieldName, schema.field? typeName fieldName = other.field? typeName fieldName
  directive : ∀ name, schema.directive? name = other.directive? name
  root : ∀ kind, schema.rootType? kind = other.rootType? kind
  possible : ∀ name, schema.possibleTypes name = other.possibleTypes name
  overlap : ∀ a b, schema.overlap a b = other.overlap a b

theorem Same.possibleTypes {schema other : Schema} (same : Same schema other) (name : String) :
    schema.possibleTypes name = other.possibleTypes name := by
  unfold Schema.possibleTypes
  rw [same.type]
  have objects := (same.types.filter fun type => type.kind == .object && type.interfaces.contains name).map (·.name)
  have inOrder := sorted_congr (fun a b => decide (a ≤ b)) (fun a b => by simpa using String.le_total a b)
    (fun a b c => by simpa using String.le_trans) (fun a b => by simpa using String.le_antisymm) objects
  dsimp only
  rw [inOrder]

theorem Same.answersAs {schema other : Schema} (same : Same schema other) : AnswersAs schema other where
  type := same.type
  field typeName fieldName := by rw [field?, field?, same.type]
  directive := same.directive
  root kind := by
    have sameTypes : schema.type? = other.type? := funext same.type
    rw [rootType?, rootType?, same.root, sameTypes]
  possible := same.possibleTypes
  overlap a b := by rw [Schema.overlap, Schema.overlap, same.possibleTypes, same.possibleTypes]

theorem distinct_ofDraft (definitions : List SystemDefinition) :
    Distinct (definitions.foldl Draft.add {}).types := by
  have builtin : Distinct ({} : Draft).types := by unfold Distinct; decide
  exact Draft.distinct_foldl_add builtin definitions

variable {definitions others : List SystemDefinition}

theorem exists_same_of_reordered (reordered : SystemDefinition.Reordered definitions others) {schema : Schema}
    (built : ofDefinitions definitions = .ok schema) :
    ∃ other, ofDefinitions others = .ok other ∧ Same schema other := by
  have made := ofDefinitions_eq_ok_iff.mp built
  have agrees := Draft.agrees_of_reordered reordered
  obtain ⟨known, distinct, found⟩ := foldlM_applyExtension_eq_ok made.extended
  have otherKnown : ∀ additions ∈ (others.foldl Draft.add {}).extensions,
      (find? (others.foldl Draft.add {}).types additions.name).isSome = true := by
    intro additions member
    have ofName : additions ∈ (others.foldl Draft.add {}).extensions.filter (·.name = additions.name) :=
      List.mem_filter.mpr ⟨member, decide_eq_true rfl⟩
    rw [← agrees.extension] at ofName
    rw [← agrees.type]
    exact known additions (List.mem_filter.mp ofName).1
  obtain ⟨types, extended⟩ := exists_foldlM_applyExtension otherKnown
  obtain ⟨-, otherDistinct, otherFound⟩ := foldlM_applyExtension_eq_ok extended
  have sameTypes (name : String) : find? schema.types name = find? types name := by
    rw [found, otherFound, agrees.type, agrees.extension]
  have perm := (distinct (distinct_ofDraft definitions)).perm (otherDistinct (distinct_ofDraft others)) sameTypes
  have sameRoot (declared? : Option String) (usual : String) :
      rootOr schema.types declared? usual = rootOr types declared? usual := by
    rw [rootOr, rootOr, sameTypes]
  let other : Schema := ⟨types, (others.foldl Draft.add {}).directives, schema.queryType, schema.mutationType?,
    schema.subscriptionType?⟩
  have mentions : schema.mentions.Perm other.mentions := (perm.flatMap_right _).append_left _
  refine ⟨other, ofDefinitions_eq_ok_iff.mpr ?_, perm, sameTypes, ?_, fun kind => by cases kind <;> rfl⟩
  · refine ⟨extended, rfl, ?_, ?_, ?_, fun mention member => ?_⟩
    · rw [← sameRoot, ← agrees.roots, made.query]
    · rw [← sameRoot, ← agrees.roots, ← made.mutation]
    · rw [← sameRoot, ← agrees.roots, ← made.subscription]
    · have isKnown := made.complete mention (mentions.mem_iff.mpr member)
      rwa [type?, sameTypes] at isKnown
  · intro name
    rw [directive?, made.directives]
    exact agrees.directive name

/-- Definitions of different subjects may stand in any order. -/
theorem ofDefinitions_of_reordered (reordered : SystemDefinition.Reordered definitions others) :
    (∃ schema other, ofDefinitions definitions = .ok schema ∧ ofDefinitions others = .ok other ∧
        AnswersAs schema other) ∨
      ∃ fault otherFault, ofDefinitions definitions = .error fault ∧ ofDefinitions others = .error otherFault := by
  cases built : ofDefinitions definitions with
  | ok schema =>
    obtain ⟨other, otherBuilt, same⟩ := exists_same_of_reordered reordered built
    exact .inl ⟨schema, other, rfl, otherBuilt, same.answersAs⟩
  | error fault =>
    cases otherBuilt : ofDefinitions others with
    | error otherFault => exact .inr ⟨fault, otherFault, rfl, rfl⟩
    | ok other =>
      obtain ⟨schema, isBuilt, -⟩ := exists_same_of_reordered reordered.symm otherBuilt
      cases built.symm.trans isBuilt

def shelfDefinitions : List SystemDefinition :=
  [.type { name := "Query", kind := .object, fields := [⟨"title", [], .named "String"⟩] },
    .type { name := "Page", kind := .object, fields := [⟨"text", [], .named "String"⟩] },
    .type { name := "Page", kind := .object, fields := [⟨"path", [⟨"base", .named "Base", none⟩], .named "String"⟩] },
    .extension { name := "Page", kind := .object, interfaces := ["Node"] },
    .type { name := "Post", kind := .object, interfaces := ["Node"] },
    .type { name := "Node", kind := .interface },
    .type { name := "Base", kind := .enum, enumValues := ["SITE"] },
    .extension { name := "Query", kind := .object, fields := [⟨"node", [], .named "Node"⟩] },
    .directive ⟨"include", []⟩]

/-- The same definitions with all extensions first, and with interfaces and enums before the types that use them. -/
def shuffledShelf : List SystemDefinition :=
  [.extension { name := "Query", kind := .object, fields := [⟨"node", [], .named "Node"⟩] },
    .extension { name := "Page", kind := .object, interfaces := ["Node"] },
    .directive ⟨"include", []⟩,
    .type { name := "Base", kind := .enum, enumValues := ["SITE"] },
    .type { name := "Node", kind := .interface },
    .type { name := "Post", kind := .object, interfaces := ["Node"] },
    .type { name := "Page", kind := .object, fields := [⟨"text", [], .named "String"⟩] },
    .type { name := "Page", kind := .object, fields := [⟨"path", [⟨"base", .named "Base", none⟩], .named "String"⟩] },
    .type { name := "Query", kind := .object, fields := [⟨"title", [], .named "String"⟩] }]

theorem reordered_shelf : SystemDefinition.Reordered shelfDefinitions shuffledShelf := by
  apply SystemDefinition.Reordered.of_subjects
  simp only [shelfDefinitions, shuffledShelf, List.cons_append, List.nil_append, List.forall_mem_cons]
  refine ⟨rfl, rfl, rfl, rfl, rfl, rfl, rfl, rfl, rfl, rfl, rfl, rfl, rfl, rfl, rfl, rfl, rfl, rfl, nofun⟩

theorem ofDefinitions_of_reordered_shelf : SystemDefinition.Reordered shelfDefinitions shuffledShelf ∧
    ∃ schema other, ofDefinitions shelfDefinitions = .ok schema ∧ ofDefinitions shuffledShelf = .ok other ∧
      AnswersAs schema other ∧ other.possibleTypes "Node" = ["Page", "Post"] := by
  have accepted : (ofDefinitions shelfDefinitions).toOption.any (·.possibleTypes "Node" == ["Page", "Post"]) = true := by
    decide
  obtain ⟨schema, found, possible⟩ := (Option.any_eq_true _ _).mp accepted
  have built := toOption_eq_some found
  rcases ofDefinitions_of_reordered reordered_shelf with ⟨other, shuffled, isOther, isShuffled, answers⟩ | failed
  · cases built.symm.trans isOther
    refine ⟨reordered_shelf, schema, shuffled, built, isShuffled, answers, ?_⟩
    rw [← answers.possible]
    exact beq_iff_eq.mp possible
  · obtain ⟨fault, -, isFault, -⟩ := failed
    cases built.symm.trans isFault

end Schema

end SiteQuery.Graphql
