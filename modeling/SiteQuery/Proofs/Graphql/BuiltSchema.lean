import SiteQuery.Proofs.Graphql.Collected
import SiteQuery.Graphql.Schema.Basic

/-!
A schema that is built lacks no type that its fields refer to.
-/

namespace SiteQuery.Graphql

namespace TypeDefinition

theorem find?_cons (first : TypeDefinition) (rest : List TypeDefinition) (name : String) :
    find? (first :: rest) name = if first.name = name then some first else find? rest name := by
  by_cases same : first.name = name <;> simp [find?, same]

theorem find?_insert (type : TypeDefinition) (types : List TypeDefinition) (name : String) :
    find? (type.insert types) name = if type.name = name then some type else find? types name := by
  induction types with
  | nil => exact find?_cons type [] name
  | cons other rest ih =>
    rw [insert]
    by_cases replaced : other.name = type.name
    · rw [if_pos replaced, find?_cons, find?_cons, replaced]
      by_cases here : type.name = name
      · rw [if_pos here, if_pos here]
      · rw [if_neg here, if_neg here, if_neg here]
    · rw [if_neg replaced, find?_cons, find?_cons, ih]
      by_cases here : other.name = name
      · have apart : ¬ type.name = name := fun same => replaced (here.trans same.symm)
        rw [if_pos here, if_pos here, if_neg apart]
      · rw [if_neg here, if_neg here]

theorem isSome_find?_insert {types : List TypeDefinition} {name : String} (known : (find? types name).isSome = true)
    (type : TypeDefinition) : (find? (type.insert types) name).isSome = true := by
  rw [find?_insert]
  split
  · rfl
  · exact known

end TypeDefinition

namespace Schema

variable {schema : Schema} {definitions : List SystemDefinition}

theorem isSome_find?_foldl_add {draft : Draft} {name : String}
    (known : (TypeDefinition.find? draft.types name).isSome = true) :
    (TypeDefinition.find? (definitions.foldl Draft.add draft).types name).isSome = true := by
  induction definitions generalizing draft with
  | nil => exact known
  | cons definition rest ih =>
    apply ih
    cases definition with
    | type definition => exact TypeDefinition.isSome_find?_insert known definition
    | schema => exact known
    | extension => exact known
    | directive => exact known

theorem isSome_find?_applyExtension {types larger : List TypeDefinition} {additions : TypeDefinition} {name : String}
    (known : (TypeDefinition.find? types name).isSome = true) (extended : applyExtension types additions = .ok larger) :
    (TypeDefinition.find? larger name).isSome = true := by
  unfold applyExtension at extended
  split at extended
  · cases extended
  · exact Except.ok.inj extended ▸ TypeDefinition.isSome_find?_insert known _

theorem check_eq_ok_iff {whole : Schema} : check whole = .ok schema ↔
    whole = schema ∧ ∀ mention ∈ whole.mentions, (whole.type? mention.name).isSome = true := by
  have complete_iff : (whole.mentions.find? fun mention => (whole.type? mention.name).isNone) = none ↔
      ∀ mention ∈ whole.mentions, (whole.type? mention.name).isSome = true := by
    simp [List.find?_eq_none, Option.isSome_iff_ne_none]
  unfold check
  split
  · rename_i mention found
    simp only [← complete_iff, found, reduceCtorEq, and_false]
  · rename_i complete
    rw [Except.ok.injEq]
    exact (and_iff_left (complete_iff.mp complete)).symm

/-- Every scalar that is built in is known, and so is every type that is looked up. -/
theorem ofDefinitions_eq_ok (built : ofDefinitions definitions = .ok schema) :
    (∀ name ∈ builtinScalars, (schema.type? name).isSome = true) ∧
      ∀ mention ∈ schema.mentions, (schema.type? mention.name).isSome = true := by
  obtain ⟨types, areTypes, more⟩ := bind_eq_ok built
  dsimp only at more
  split at more
  · cases more
  · rename_i queryType isRoot
    obtain ⟨rfl, complete⟩ := check_eq_ok_iff.mp more
    refine ⟨fun name builtin => ?_, complete⟩
    have atStart : (TypeDefinition.find? ({} : Draft).types name).isSome = true := by
      have all : builtinScalars.all fun name => (TypeDefinition.find? ({} : Draft).types name).isSome := by decide
      exact List.all_eq_true.mp all name builtin
    have known : (TypeDefinition.find? types name).isSome = true :=
      foldlM_invariant (fun types => (TypeDefinition.find? types name).isSome = true)
        (fun _ _ _ => isSome_find?_applyExtension) areTypes (isSome_find?_foldl_add atStart)
    exact known

/-- The type of a field is known. -/
theorem exists_type_of_field? (built : ofDefinitions definitions = .ok schema) {parent name : String}
    {definition : FieldDefinition} (defined : schema.field? parent name = some definition) :
    ∃ type, schema.type? definition.type.name = some type := by
  obtain ⟨builtin, mentioned⟩ := ofDefinitions_eq_ok built
  rw [← Option.isSome_iff_exists]
  unfold field? at defined
  split at defined
  · cases defined
  · rename_i type isType
    split at defined
    · obtain rfl := Option.some.inj defined
      exact builtin "String" (by decide)
    · have inFields := List.mem_of_find?_eq_some defined
      have inTypes : type ∈ schema.types := List.mem_of_find?_eq_some isType
      have ofType : (⟨definition.type.name, s!"{type.name}.{definition.name}"⟩ : Mention) ∈ Mention.ofType type := by
        unfold Mention.ofType
        refine List.mem_append_left _ (List.mem_append_left _ ?_)
        exact List.mem_flatMap.mpr ⟨definition, inFields, List.mem_cons_self⟩
      have member : (⟨definition.type.name, s!"{type.name}.{definition.name}"⟩ : Mention) ∈ schema.mentions := by
        unfold mentions
        exact List.mem_append_right _ (List.mem_flatMap.mpr ⟨type, inTypes, ofType⟩)
      exact mentioned _ member

end Schema

end SiteQuery.Graphql
