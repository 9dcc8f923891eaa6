import SiteQuery.Proofs.Graphql.BuiltSchema

/-!
What a schema that is read refers to.

Root types, fields with their arguments, input fields, members and interfaces are of known types, those that
extensions add among them; so are the arguments of all directives but those that the text defines itself:
`Schema.isSome_type?_of_refers`.
-/

namespace SiteQuery.Graphql

inductive TypeDefinition.Refers (type : TypeDefinition) : String → Prop
  | field {field : FieldDefinition} (isField : field ∈ type.fields) : Refers type field.type.name
  | fieldArgument {field : FieldDefinition} {argument : InputDefinition} (isField : field ∈ type.fields)
      (isArgument : argument ∈ field.arguments) : Refers type argument.type.name
  | inputField {field : InputDefinition} (isField : field ∈ type.inputFields) : Refers type field.type.name
  | member {name : String} (isMember : name ∈ type.members) : Refers type name
  | interface {name : String} (isInterface : name ∈ type.interfaces) : Refers type name

inductive Schema.Refers (schema : Schema) : String → Prop
  | root {kind : OperationKind} {name : String} (isRoot : schema.rootName? kind = some name) : Refers schema name
  | type {type : TypeDefinition} {name : String} (isType : type ∈ schema.types) (refers : type.Refers name) :
      Refers schema name

namespace TypeDefinition

variable {type additions : TypeDefinition} {types : List TypeDefinition} {name : String}

theorem Refers.extend (refers : type.Refers name) (additions : TypeDefinition) :
    (type.extend additions).Refers name := by
  cases refers with
  | field isField => exact .field (List.mem_append_left _ isField)
  | fieldArgument isField isArgument => exact .fieldArgument (List.mem_append_left _ isField) isArgument
  | inputField isField => exact .inputField (List.mem_append_left _ isField)
  | member isMember => exact .member (List.mem_append_left _ isMember)
  | interface isInterface => exact .interface (List.mem_append_left _ isInterface)

theorem Refers.ofAdditions (refers : additions.Refers name) (type : TypeDefinition) :
    (type.extend additions).Refers name := by
  cases refers with
  | field isField => exact .field (List.mem_append_right _ isField)
  | fieldArgument isField isArgument => exact .fieldArgument (List.mem_append_right _ isField) isArgument
  | inputField isField => exact .inputField (List.mem_append_right _ isField)
  | member isMember => exact .member (List.mem_append_right _ isMember)
  | interface isInterface => exact .interface (List.mem_append_right _ isInterface)

theorem mem_insert (type : TypeDefinition) (types : List TypeDefinition) : type ∈ type.insert types := by
  induction types with
  | nil => exact List.mem_singleton_self _
  | cons other rest ih =>
    rw [insert]
    by_cases replaced : other.name = type.name
    · rw [if_pos replaced]
      exact List.mem_cons_self
    · rw [if_neg replaced]
      exact List.mem_cons_of_mem _ ih

/-- What is put in replaces only what is found under its name. -/
theorem mem_insert_or_find? {other : TypeDefinition} (member : other ∈ types) (type : TypeDefinition) :
    other ∈ type.insert types ∨ find? types type.name = some other := by
  induction types with
  | nil => cases member
  | cons first rest ih =>
    rw [insert]
    by_cases replaced : first.name = type.name
    · rw [if_pos replaced]
      rcases List.mem_cons.mp member with rfl | inRest
      · exact .inr (by simp [find?, replaced])
      · exact .inl (List.mem_cons_of_mem _ inRest)
    · rw [if_neg replaced]
      rcases List.mem_cons.mp member with rfl | inRest
      · exact .inl List.mem_cons_self
      · rcases ih inRest with kept | found
        · exact .inl (List.mem_cons_of_mem _ kept)
        · exact .inr (by simpa [find?, List.find?_cons, replaced] using found)

end TypeDefinition

theorem DirectiveDefinition.eq_or_mem_of_mem_insert {directive other : DirectiveDefinition}
    {directives : List DirectiveDefinition} (member : other ∈ directive.insert directives) :
    other = directive ∨ other ∈ directives := by
  induction directives with
  | nil => exact .inl (List.mem_singleton.mp member)
  | cons first rest ih =>
    rw [insert] at member
    split at member
    · rcases List.mem_cons.mp member with isNew | inRest
      · exact .inl isNew
      · exact .inr (List.mem_cons_of_mem _ inRest)
    · rcases List.mem_cons.mp member with rfl | inRest
      · exact .inr List.mem_cons_self
      · exact (ih inRest).imp id (List.mem_cons_of_mem _)

namespace Schema

variable {schema : Schema} {definitions : List SystemDefinition} {name : String}

/-- Some type of a list refers to a name. -/
def Mentioned (types : List TypeDefinition) (name : String) : Prop := ∃ type ∈ types, type.Refers name

theorem Mentioned.applyExtension {types larger : List TypeDefinition} {additions : TypeDefinition}
    (mentioned : Mentioned types name) (extended : applyExtension types additions = .ok larger) :
    Mentioned larger name := by
  unfold Schema.applyExtension at extended
  split at extended
  · cases extended
  · rename_i type found
    cases Except.ok.inj extended
    obtain ⟨other, member, refers⟩ := mentioned
    have sameName : (type.extend additions).name = additions.name := by
      simpa [TypeDefinition.extend] using List.find?_some found
    rcases TypeDefinition.mem_insert_or_find? member (type.extend additions) with kept | isOther
    · exact ⟨other, kept, refers⟩
    · rw [sameName, found] at isOther
      cases isOther
      exact ⟨_, TypeDefinition.mem_insert _ _, refers.extend additions⟩

theorem mentioned_applyExtension {types larger : List TypeDefinition} {additions : TypeDefinition}
    (refers : additions.Refers name) (extended : applyExtension types additions = .ok larger) :
    Mentioned larger name := by
  unfold applyExtension at extended
  split at extended
  · cases extended
  · cases Except.ok.inj extended
    exact ⟨_, TypeDefinition.mem_insert _ _, refers.ofAdditions _⟩

theorem mentioned_foldlM {types larger : List TypeDefinition} {extensions : List TypeDefinition}
    {additions : TypeDefinition} (member : additions ∈ extensions) (refers : additions.Refers name)
    (extended : extensions.foldlM applyExtension types = .ok larger) : Mentioned larger name := by
  induction extensions generalizing types with
  | nil => cases member
  | cons first rest ih =>
    obtain ⟨next, isNext, onward⟩ := bind_eq_ok extended
    rcases List.mem_cons.mp member with rfl | inRest
    · exact foldlM_invariant (Mentioned · name) (fun _ _ _ mentioned => mentioned.applyExtension) onward
        (mentioned_applyExtension refers isNext)
    · exact ih inRest onward

theorem mem_extensions_foldl_add {draft : Draft} {additions : TypeDefinition}
    (member : additions ∈ draft.extensions ∨ .extension additions ∈ definitions) :
    additions ∈ (definitions.foldl Draft.add draft).extensions := by
  induction definitions generalizing draft with
  | nil => simpa using member
  | cons definition rest ih =>
    apply ih
    rcases member with before | inDefinitions
    · left
      cases definition with
      | extension => exact List.mem_append_left _ before
      | schema | type | directive => exact before
    · rcases List.mem_cons.mp inDefinitions with rfl | inRest
      · exact .inl (List.mem_append_right _ (List.mem_singleton_self _))
      · exact .inr inRest

theorem mem_directives_foldl_add {draft : Draft} {directive : DirectiveDefinition}
    (member : directive ∈ (definitions.foldl Draft.add draft).directives) :
    directive ∈ draft.directives ∨ .directive directive ∈ definitions := by
  induction definitions generalizing draft with
  | nil => exact .inl member
  | cons definition rest ih =>
    rcases ih member with before | inRest
    · cases definition with
      | directive added =>
        rcases DirectiveDefinition.eq_or_mem_of_mem_insert before with rfl | old
        · exact .inr List.mem_cons_self
        · exact .inl old
      | schema | type | extension => exact .inl before
    · exact .inr (List.mem_cons_of_mem _ inRest)

namespace Mention

theorem exists_mem_ofField (owner : String) {field : FieldDefinition} {argument : InputDefinition}
    (isArgument : argument ∈ field.arguments) : ∃ mention ∈ ofField owner field, mention.name = argument.type.name :=
  ⟨_, List.mem_cons_of_mem _ (List.mem_map_of_mem isArgument), rfl⟩

theorem exists_mem_ofType {type : TypeDefinition} (refers : type.Refers name) :
    ∃ mention ∈ ofType type, mention.name = name := by
  unfold ofType
  cases refers with
  | @field field isField =>
    have ofField : _ ∈ Mention.ofField type.name field := List.mem_cons_self
    have inFields := List.mem_flatMap.mpr ⟨field, isField, ofField⟩
    exact ⟨_, List.mem_append_left _ (List.mem_append_left _ inFields), rfl⟩
  | @fieldArgument field argument isField isArgument =>
    obtain ⟨mention, ofArgument, isName⟩ := exists_mem_ofField type.name isArgument
    have inFields := List.mem_flatMap.mpr ⟨field, isField, ofArgument⟩
    exact ⟨mention, List.mem_append_left _ (List.mem_append_left _ inFields), isName⟩
  | inputField isField =>
    exact ⟨_, List.mem_append_left _ (List.mem_append_right _ (List.mem_map_of_mem isField)), rfl⟩
  | member isMember =>
    have isName : name ∈ type.members ++ type.interfaces := List.mem_append_left _ isMember
    exact ⟨_, List.mem_append_right _ (List.mem_map_of_mem isName), rfl⟩
  | interface isInterface =>
    have isName : name ∈ type.members ++ type.interfaces := List.mem_append_right _ isInterface
    exact ⟨_, List.mem_append_right _ (List.mem_map_of_mem isName), rfl⟩

end Mention

/-- Whatever a schema refers to is looked up when it is checked. -/
theorem exists_mem_mentions (refers : schema.Refers name) : ∃ mention ∈ schema.mentions, mention.name = name := by
  unfold mentions
  cases refers with
  | @root kind _ isRoot =>
    have inRoots : name ∈ schema.queryType :: (schema.mutationType?.toList ++ schema.subscriptionType?.toList) := by
      cases kind with
      | query => simp [Option.some.inj isRoot]
      | mutation => simp [show schema.mutationType? = some name from isRoot]
      | subscription => simp [show schema.subscriptionType? = some name from isRoot]
    exact ⟨_, List.mem_append_left _ (List.mem_map_of_mem inRoots), rfl⟩
  | @type type _ isType refers =>
    obtain ⟨mention, ofType, isName⟩ := Mention.exists_mem_ofType refers
    have inTypes := List.mem_flatMap.mpr ⟨type, isType, ofType⟩
    exact ⟨mention, List.mem_append_right _ inTypes, isName⟩

theorem isSome_type?_of_refers (built : ofDefinitions definitions = .ok schema) (refers : schema.Refers name) :
    (schema.type? name).isSome = true := by
  obtain ⟨mention, member, rfl⟩ := exists_mem_mentions refers
  exact (ofDefinitions_eq_ok built).2 mention member

theorem types_of_ofDefinitions (built : ofDefinitions definitions = .ok schema) :
    (definitions.foldl Draft.add {}).extensions.foldlM applyExtension (definitions.foldl Draft.add {}).types =
        .ok schema.types ∧
      schema.directives = (definitions.foldl Draft.add {}).directives := by
  obtain ⟨types, areTypes, more⟩ := bind_eq_ok built
  dsimp only at more
  split at more
  · cases more
  · unfold check at more
    split at more
    · cases more
    · cases Except.ok.inj more
      exact ⟨areTypes, rfl⟩

theorem refers_of_extension (built : ofDefinitions definitions = .ok schema) {additions : TypeDefinition}
    (isExtension : .extension additions ∈ definitions) (refers : additions.Refers name) : schema.Refers name := by
  have isWaiting : additions ∈ (definitions.foldl Draft.add {}).extensions :=
    mem_extensions_foldl_add (.inr isExtension)
  obtain ⟨type, isType, alsoRefers⟩ := mentioned_foldlM isWaiting refers (types_of_ofDefinitions built).1
  exact .type isType alsoRefers

theorem parse_eq_ok {text : String} (parsed : Schema.parse text = .ok schema) :
    ∃ definitions, SystemDefinition.parse text = .ok definitions ∧ ofDefinitions definitions = .ok schema := by
  unfold Schema.parse at parsed
  split at parsed
  · cases parsed
  · rename_i definitions isParsed
    split at parsed
    · cases parsed
    · rename_i built
      cases parsed
      exact ⟨definitions, isParsed, built⟩

theorem parse_of_read {text : String} (isRead : SystemDefinition.parse text = .ok definitions)
    (built : ofDefinitions definitions = .ok schema) : Schema.parse text = .ok schema := by
  simp [Schema.parse, isRead, built]

/-- No name that a schema refers to dangles, whether a definition or an extension has brought it in; only the
arguments of directives that the text defines are left out. -/
theorem references_known {text : String} (parsed : Schema.parse text = .ok schema) :
    ∃ definitions, SystemDefinition.parse text = .ok definitions ∧
      (∀ name, schema.Refers name → (schema.type? name).isSome = true) ∧
      (∀ additions, .extension additions ∈ definitions → ∀ name, additions.Refers name → schema.Refers name) ∧
      ∀ directive ∈ schema.directives, .directive directive ∉ definitions →
        ∀ argument ∈ directive.arguments, (schema.type? argument.type.name).isSome = true := by
  obtain ⟨definitions, isRead, built⟩ := parse_eq_ok parsed
  refine ⟨definitions, isRead, fun name refers => isSome_type?_of_refers built refers,
    fun additions isExtension name refers => refers_of_extension built isExtension refers, ?_⟩
  intro directive member undefined argument isArgument
  rw [(types_of_ofDefinitions built).2] at member
  rcases mem_directives_foldl_add member with isBuiltin | isDefined
  · have ofScalars : ∀ directive ∈ builtinDirectives, ∀ argument ∈ directive.arguments,
        argument.type.name ∈ builtinScalars := by decide
    exact (ofDefinitions_eq_ok built).1 _ (ofScalars directive isBuiltin argument isArgument)
  · exact absurd isDefined undefined

/-- All kinds of places, with extensions before and after what they extend. -/
def placesText : String :=
  "extend type Query { gate(where: Place): Gate } schema { query: Query } type Query { any: [Any!] } "
    ++ "interface Node { id: ID! } type Gate implements Node { id: ID! } input Place { floor: Int! } "
    ++ "union Any = Gate extend input Place { next: Place } extend union Any = Query"

/-- Some extension adds an argument of a type. -/
def addsArgument (definitions : List SystemDefinition) (name : String) : Bool :=
  definitions.any fun
    | .extension additions => additions.fields.any fun field => field.arguments.any (·.type.name == name)
    | _ => false

theorem exists_extension_of_addsArgument (adds : addsArgument definitions name = true) :
    ∃ additions, .extension additions ∈ definitions ∧ additions.Refers name := by
  obtain ⟨definition, member, more⟩ := List.any_eq_true.mp adds
  cases definition with
  | extension additions =>
    obtain ⟨field, isField, inField⟩ := List.any_eq_true.mp more
    obtain ⟨argument, isArgument, isName⟩ := List.any_eq_true.mp inField
    have refers : additions.Refers argument.type.name := .fieldArgument isField isArgument
    exact ⟨additions, member, beq_iff_eq.mp isName ▸ refers⟩
  | schema | type | directive => cases more

set_option maxRecDepth 20000 in
theorem references_known_places : ∃ schema, Schema.parse placesText = .ok schema ∧
    ∃ definitions, SystemDefinition.parse placesText = .ok definitions ∧
      ∃ additions, .extension additions ∈ definitions ∧ additions.Refers "Place" ∧ schema.Refers "Place" ∧
        (schema.type? "Place").isSome = true := by
  have holds : (SystemDefinition.parse placesText).toOption.any (fun definitions =>
      addsArgument definitions "Place" && (ofDefinitions definitions).toOption.isSome) = true := by
    decide +kernel
  obtain ⟨written, found, more⟩ := (Option.any_eq_true _ _).mp holds
  obtain ⟨adds, accepted⟩ := Bool.and_eq_true_iff.mp more
  obtain ⟨schema, isSchema⟩ := Option.isSome_iff_exists.mp accepted
  have parsed := parse_of_read (toOption_eq_some found) (toOption_eq_some isSchema)
  obtain ⟨definitions, isRead, known, extended, -⟩ := references_known parsed
  cases (toOption_eq_some found).symm.trans isRead
  obtain ⟨additions, isExtension, refers⟩ := exists_extension_of_addsArgument adds
  have alsoRefers := extended additions isExtension "Place" refers
  exact ⟨schema, parsed, written, isRead, additions, isExtension, refers, alsoRefers, known "Place" alsoRefers⟩

def danglingText : String := "directive @d(a: Missing) on FIELD type Query { a: Int }"

/-- Some directive has an argument whose type is not known. -/
def hasDangling (schema : Schema) : Bool :=
  schema.directives.any fun directive => directive.arguments.any fun argument =>
    (schema.type? argument.type.name).isNone

set_option maxRecDepth 20000 in
/-- The type of a directive argument is not looked up. -/
theorem danglingText_accepted : ∃ schema, Schema.parse danglingText = .ok schema ∧
    ∃ directive ∈ schema.directives, ∃ argument ∈ directive.arguments,
      (schema.type? argument.type.name).isSome = false := by
  have accepted : (Schema.parse danglingText).toOption.any hasDangling = true := by decide +kernel
  obtain ⟨schema, parsed, dangling⟩ := (Option.any_eq_true _ _).mp accepted
  obtain ⟨directive, member, more⟩ := List.any_eq_true.mp dangling
  obtain ⟨argument, isArgument, missing⟩ := List.any_eq_true.mp more
  exact ⟨schema, toOption_eq_some parsed, directive, member, argument, isArgument, by simpa using missing⟩

end Schema

end SiteQuery.Graphql
