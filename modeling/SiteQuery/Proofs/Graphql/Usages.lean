import Mathlib.Data.List.Nodup
import SiteQuery.Proofs.Graphql.ChosenRules

/-!
Where a document uses variables, and which of these places validation looks at.

`UsesVariable` follows selections and spreads; `mem_allUsages` says that the walk over an operation collects
every use that is reached through the fragments of its own document, below fields of known types that are not
input types.
-/

namespace SiteQuery.Graphql

/-- A known type that is not an input type. -/
def Schema.isOutput (schema : Schema) (name : String) : Bool :=
  (schema.type? name).any (·.kind != .inputObject)

/-- A variable is used within an argument of a field that is reached from selections on a type: through inline
fragments, through spreads of the given fragments, and below fields of the types that are entered. -/
inductive UsesVariable (schema : Schema) (fragments : List Document.Fragment) (enters : String → Prop) :
    String → List Document.Selection → Usage → Prop
  | argument {parent selections position alias? name arguments directives bodyPosition inner definition argument
        input usage}
      (member : .field position alias? name arguments directives bodyPosition inner ∈ selections)
      (defined : schema.field? parent name = some definition) (given : argument ∈ arguments)
      (known : definition.argument? argument.name = some input)
      (used : usage ∈ Usage.ofValue schema argument.valuePosition argument.value input.type input.default?.isSome) :
      UsesVariable schema fragments enters parent selections usage
  | field {parent selections position alias? name arguments directives bodyPosition inner definition usage}
      (member : .field position alias? name arguments directives bodyPosition inner ∈ selections)
      (defined : schema.field? parent name = some definition) (entered : enters definition.type.name)
      (onward : UsesVariable schema fragments enters definition.type.name inner usage) :
      UsesVariable schema fragments enters parent selections usage
  | inline {parent selections position condition? directives inner usage}
      (member : .inline position condition? directives inner ∈ selections)
      (onward : UsesVariable schema fragments enters ((condition?.map (·.name)).getD parent) inner usage) :
      UsesVariable schema fragments enters parent selections usage
  | spread {parent selections position directives usage} {fragment : Document.Fragment}
      (member : .spread position fragment.name directives ∈ selections) (defined : fragment ∈ fragments)
      (onward : UsesVariable schema fragments enters fragment.condition.name fragment.selections usage) :
      UsesVariable schema fragments enters parent selections usage

theorem UsesVariable.selections_ne_nil {schema : Schema} {fragments : List Document.Fragment}
    {enters : String → Prop} {parent : String} {selections : List Document.Selection} {usage : Usage}
    (uses : UsesVariable schema fragments enters parent selections usage) : selections ≠ [] := by
  rintro rfl
  cases uses <;> simp_all

namespace Walk

theorem spreads_append (a b : Walk) : (a ++ b).spreads = a.spreads ++ b.spreads := rfl

/-- No standard rule is violated. -/
def IsSound (walk : Walk) : Prop :=
  ∀ violation ∈ walk.violations, ViolatedRule.standard.contains violation.rule = false

/-- The whole has all that the part has. -/
structure Covers (whole part : Walk) : Prop where
  violations : ∀ violation ∈ part.violations, violation ∈ whole.violations
  usages : ∀ usage ∈ part.usages, usage ∈ whole.usages
  spreads : ∀ name ∈ part.spreads, name ∈ whole.spreads

namespace Covers

theorem sound {whole part : Walk} (covers : Covers whole part) (sound : whole.IsSound) : part.IsSound :=
  fun violation member => sound violation (covers.violations violation member)

theorem trans {a b c : Walk} (first : Covers a b) (second : Covers b c) : Covers a c where
  violations violation member := first.violations violation (second.violations violation member)
  usages usage member := first.usages usage (second.usages usage member)
  spreads name member := first.spreads name (second.spreads name member)

theorem left (a b : Walk) : Covers (a ++ b) a where
  violations _ member := List.mem_append_left _ member
  usages _ member := List.mem_append_left _ member
  spreads _ member := List.mem_append_left _ member

theorem right (a b : Walk) : Covers (a ++ b) b where
  violations _ member := List.mem_append_right _ member
  usages _ member := List.mem_append_right _ member
  spreads _ member := List.mem_append_right _ member

theorem flat {Item : Type} (visit : Item → Walk) {item : Item} {items : List Item} (member : item ∈ items) :
    Covers (flat visit items) (visit item) := by
  induction items with
  | nil => exact absurd member List.not_mem_nil
  | cons first rest ih =>
    rcases List.mem_cons.mp member with rfl | inRest
    · exact left _ _
    · exact (right _ _).trans (ih inRest)

theorem ofSelections (schema : Schema) (types : FragmentTypes) (parent : String)
    {selection : Document.Selection} {selections : List Document.Selection} (member : selection ∈ selections) :
    Covers (ofSelections schema types parent selections) (ofSelection schema types parent selection) := by
  induction selections with
  | nil => exact absurd member List.not_mem_nil
  | cons first rest ih =>
    rw [Walk.ofSelections]
    rcases List.mem_cons.mp member with rfl | inRest
    · exact left _ _
    · exact (right _ _).trans (ih inRest)

end Covers

section Selections

variable {schema : Schema} {types : FragmentTypes} {parent : String} {position bodyPosition : Position}
  {alias? : Option String} {name : String} {arguments : List Document.Argument}
  {directives : List Document.Directive} {inner : List Document.Selection}

theorem covers_argument {definition : FieldDefinition} (defined : schema.field? parent name = some definition)
    {argument : Document.Argument} (given : argument ∈ arguments) :
    Covers (ofSelection schema types parent (.field position alias? name arguments directives bodyPosition inner))
      (ofArgument schema definition.arguments argument) := by
  have own : Covers (flat (ofArgument schema definition.arguments) arguments ++ ofDirectives schema directives)
      (ofArgument schema definition.arguments argument) :=
    (Covers.left _ _).trans (.flat _ given)
  simp only [ofSelection, defined]
  cases schema.type? definition.type.name with
  | none => exact own
  | some type => exact (Covers.left _ _).trans own

theorem not_isSound_report {fault : Fault} (standard : ViolatedRule.standard.contains fault.rule = true) :
    ¬ (report fault position).IsSound := by
  intro sound
  have refused := sound ⟨fault, some position⟩ List.mem_cons_self
  rw [Violation.rule, standard] at refused
  exact Bool.false_ne_true refused.symm

theorem covers_below {definition : FieldDefinition} (defined : schema.field? parent name = some definition)
    (output : schema.isOutput definition.type.name = true) (below : inner ≠ [])
    (sound : (ofSelection schema types parent
      (.field position alias? name arguments directives bodyPosition inner)).IsSound) :
    Covers (ofSelection schema types parent (.field position alias? name arguments directives bodyPosition inner))
      (ofSelections schema types definition.type.name inner) := by
  obtain ⟨type, found, kind⟩ : ∃ type, schema.type? definition.type.name = some type ∧
      (type.kind != .inputObject) = true := by
    simpa [Schema.isOutput, Option.any_eq_true] using output
  have notEmpty : inner.isEmpty = false := by simpa using below
  by_cases leaf : type.kind.isLeaf = true
  · simp only [ofSelection, defined, found, leaf, notEmpty] at sound
    exact absurd ((Covers.right _ _).sound sound) (not_isSound_report rfl)
  · have composite : type.kind.isComposite = true := by
      cases shape : type.kind <;> simp_all [TypeKind.isLeaf, TypeKind.isComposite]
    simp only [ofSelection, defined, found, leaf, composite, notEmpty]
    exact Covers.right _ _

theorem mem_spreads_ofSpread :
    name ∈ (ofSelection schema types parent (.spread position name directives)).spreads := by
  simp [ofSelection, spreads_append]

theorem rule_of_conditionFault {fragment? : Option String} {type : String} {fault : Fault}
    (found : conditionFault? schema fragment? type = some fault) :
    ViolatedRule.standard.contains fault.rule = true := by
  unfold conditionFault? at found
  cases known : schema.type? type with
  | none =>
    simp only [known, Option.some.injEq] at found
    subst found
    rfl
  | some definition =>
    simp only [known, Option.ite_none_left_eq_some, Option.some.injEq] at found
    obtain ⟨_, rfl⟩ := found
    rfl

theorem covers_inline {condition? : Option Document.Condition}
    (sound : (ofSelection schema types parent (.inline position condition? directives inner)).IsSound) :
    Covers (ofSelection schema types parent (.inline position condition? directives inner))
      (ofSelections schema types ((condition?.map (·.name)).getD parent) inner) := by
  cases condition? with
  | none =>
    simp only [ofSelection]
    exact Covers.right _ _
  | some condition =>
    simp only [ofSelection] at sound ⊢
    cases fault : conditionFault? schema none condition.name with
    | some reason =>
      simp only [fault] at sound
      exact absurd ((Covers.right _ _).sound sound) (not_isSound_report (rule_of_conditionFault fault))
    | none => exact (Covers.right _ _).trans (.right _ _)

theorem covers_fragment {fragment : Document.Fragment}
    (sound : (ofFragment schema types fragment).IsSound) :
    Covers (ofFragment schema types fragment)
      (ofSelections schema types fragment.condition.name fragment.selections) := by
  rw [ofFragment] at sound ⊢
  cases fault : conditionFault? schema (some fragment.name) fragment.condition.name with
  | some reason =>
    simp only [fault] at sound
    exact absurd ((Covers.left _ _).sound sound) (not_isSound_report (rule_of_conditionFault fault))
  | none => exact Covers.left _ _

end Selections

theorem mem_usages_ofArgument {schema : Schema} {definitions : List InputDefinition}
    {argument : Document.Argument} {input : InputDefinition}
    (known : InputDefinition.find? definitions argument.name = some input) {usage : Usage}
    (used : usage ∈ Usage.ofValue schema argument.valuePosition argument.value input.type input.default?.isSome) :
    usage ∈ (ofArgument schema definitions argument).usages := by
  simp only [ofArgument, known]
  exact List.mem_append_right _ used

end Walk

namespace WalkedFragments

/-- A usage in a walked fragment that is reached from names. -/
inductive Reaches (fragments : WalkedFragments) : List String → Usage → Prop
  | here {names name key walk usage} (member : name ∈ names)
      (found : fragments.find? (·.1 == name) = some (key, walk)) (used : usage ∈ walk.usages) :
      Reaches fragments names usage
  | onward {names name key walk usage} (member : name ∈ names)
      (found : fragments.find? (·.1 == name) = some (key, walk)) (onward : Reaches fragments walk.spreads usage) :
      Reaches fragments names usage

theorem Reaches.mono {fragments : WalkedFragments} {names others : List String} {usage : Usage}
    (reaches : Reaches fragments names usage) (included : ∀ name ∈ names, name ∈ others) :
    Reaches fragments others usage := by
  cases reaches with
  | here member found used => exact .here (included _ member) found used
  | onward member found onward => exact .onward (included _ member) found onward

theorem find?_without {fragments : WalkedFragments} {name other : String} (different : other ≠ name) :
    (fragments.without name).find? (·.1 == other) = fragments.find? (·.1 == other) := by
  induction fragments with
  | nil => rfl
  | cons fragment rest ih =>
    rw [without_cons]
    by_cases here : fragment.1 = name
    · have apart : fragment.1 ≠ other := fun also => different (also.symm.trans here)
      rw [if_pos here, ih]
      simp [apart]
    · rw [if_neg here, List.find?_cons, List.find?_cons, ih]

theorem find?_without_self (fragments : WalkedFragments) (name : String) :
    (fragments.without name).find? (·.1 == name) = none := by
  simp [without]

/-- What is reached through a fragment is in it or reached from it without coming back. -/
theorem Reaches.without {fragments : WalkedFragments} {name key : String} {walk : Walk}
    (found : fragments.find? (·.1 == name) = some (key, walk)) {names : List String} {usage : Usage}
    (reaches : Reaches fragments names usage) :
    usage ∈ walk.usages ∨ Reaches (fragments.without name) walk.spreads usage ∨
      Reaches (fragments.without name) names usage := by
  induction reaches with
  | @here _ other _ _ _ member foundHere used =>
    by_cases same : other = name
    · subst same
      rw [found] at foundHere
      cases foundHere
      exact .inl used
    · exact .inr (.inr (.here member (by rwa [find?_without same]) used))
  | @onward _ other _ _ _ member foundHere _ ih =>
    rcases ih with used | fromWalk | fromHere
    · exact .inl used
    · exact .inr (.inl fromWalk)
    · by_cases same : other = name
      · subst same
        rw [found] at foundHere
        cases foundHere
        exact .inr (.inl fromHere)
      · exact .inr (.inr (.onward member (by rwa [find?_without same]) fromHere))

theorem Reaches.skip {fragments : WalkedFragments} {name : String} {rest : List String} {usage : Usage}
    (missing : fragments.find? (·.1 == name) = none) (reaches : Reaches fragments (name :: rest) usage) :
    Reaches fragments rest usage := by
  cases reaches with
  | here member found used =>
    rcases List.mem_cons.mp member with rfl | inRest
    · rw [missing] at found
      exact absurd found nofun
    · exact .here inRest found used
  | onward member found onward =>
    rcases List.mem_cons.mp member with rfl | inRest
    · rw [missing] at found
      exact absurd found nofun
    · exact .onward inRest found onward

/-- The search misses nothing that is reached from its stack. -/
theorem mem_usages {fragments : WalkedFragments} {stack : List String} {usage : Usage}
    (reaches : Reaches fragments stack usage) : usage ∈ fragments.usages stack := by
  induction fragments, stack using usages.induct with
  | case1 fragments => cases reaches <;> simp_all
  | case2 fragments name rest missing ih =>
    rw [usages]
    split
    · exact ih (reaches.skip missing)
    · rename_i found
      rw [missing] at found
      cases found
  | case3 fragments name rest key walk found ih =>
    rw [usages]
    split
    · rename_i missing
      rw [found] at missing
      cases missing
    · rename_i foundHere
      rw [found] at foundHere
      cases foundHere
      refine List.mem_append.mpr ?_
      rcases reaches.without found with used | fromWalk | fromStack
      · exact .inl used
      · exact .inr (ih (fromWalk.mono fun _ member => by simp [member]))
      · have fromRest := fromStack.skip (find?_without_self fragments name)
        exact .inr (ih (fromRest.mono fun _ member => by simp [member]))

end WalkedFragments

section AllUsages

variable {schema : Schema} {types : FragmentTypes} {fragments : List Document.Fragment} {walked : WalkedFragments}

/-- A use is in the walk over the selections, or is reached from what they spread. -/
theorem UsesVariable.mem_or_reaches
    (isWalked : ∀ fragment ∈ fragments, walked.find? (·.1 == fragment.name) =
      some (fragment.name, Walk.ofFragment schema types fragment))
    (sound : ∀ fragment ∈ fragments, (Walk.ofFragment schema types fragment).IsSound)
    {parent : String} {selections : List Document.Selection} {usage : Usage}
    (uses : UsesVariable schema fragments (schema.isOutput · = true) parent selections usage)
    (soundHere : (Walk.ofSelections schema types parent selections).IsSound) :
    usage ∈ (Walk.ofSelections schema types parent selections).usages ∨
      walked.Reaches (Walk.ofSelections schema types parent selections).spreads usage := by
  induction uses with
  | argument member defined given known used =>
    left
    have covers := (Walk.Covers.ofSelections schema types _ member).trans (Walk.covers_argument defined given)
    exact covers.usages _ (Walk.mem_usages_ofArgument known used)
  | @field outerType _ _ _ _ _ _ _ _ _ _ member defined output onward ih =>
    have outer := Walk.Covers.ofSelections schema types outerType member
    have covers := outer.trans (Walk.covers_below defined output onward.selections_ne_nil (outer.sound soundHere))
    rcases ih (covers.sound soundHere) with here | reached
    · exact .inl (covers.usages _ here)
    · exact .inr (reached.mono covers.spreads)
  | @inline outerType _ _ _ _ _ _ member onward ih =>
    have outer := Walk.Covers.ofSelections schema types outerType member
    have covers := outer.trans (Walk.covers_inline (outer.sound soundHere))
    rcases ih (covers.sound soundHere) with here | reached
    · exact .inl (covers.usages _ here)
    · exact .inr (reached.mono covers.spreads)
  | @spread outerType _ _ _ _ _ member defined onward ih =>
    right
    have spreads := (Walk.Covers.ofSelections schema types outerType member).spreads _ Walk.mem_spreads_ofSpread
    have covers := Walk.covers_fragment (sound _ defined)
    rcases ih (covers.sound (sound _ defined)) with here | reached
    · exact .here spreads (isWalked _ defined) (covers.usages _ here)
    · exact .onward spreads (isWalked _ defined) (reached.mono covers.spreads)

/-- Validation looks at every use that is reached within the document. -/
theorem UsesVariable.mem_allUsages
    (isWalked : ∀ fragment ∈ fragments, walked.find? (·.1 == fragment.name) =
      some (fragment.name, Walk.ofFragment schema types fragment))
    (sound : ∀ fragment ∈ fragments, (Walk.ofFragment schema types fragment).IsSound)
    {operation : Document.Operation} {root : TypeDefinition} (typed : schema.rootType? operation.kind = some root)
    (soundHere : (Walk.ofOperation schema types operation).IsSound) {usage : Usage}
    (uses : UsesVariable schema fragments (schema.isOutput · = true) root.name operation.selections usage) :
    usage ∈ (Walk.ofOperation schema types operation).allUsages walked := by
  have covers : Walk.Covers (Walk.ofOperation schema types operation)
      (Walk.ofSelections schema types root.name operation.selections) := by
    simp only [Walk.ofOperation, typed]
    exact (Walk.Covers.left _ _).trans (.right _ _)
  rcases uses.mem_or_reaches isWalked sound (covers.sound soundHere) with here | reached
  · exact List.mem_append_left _ (covers.usages _ here)
  · have fromSpreads := reached.mono covers.spreads
    exact List.mem_append_right _ (WalkedFragments.mem_usages (fromSpreads.mono fun _ member => by simp [member]))

end AllUsages

theorem Document.mem_fragments {document : Document} {fragment : Document.Fragment} :
    fragment ∈ document.fragments ↔ .fragment fragment ∈ document.definitions := by
  unfold Document.fragments
  rw [List.mem_filterMap]
  constructor
  · rintro ⟨definition, member, isFragment⟩
    cases definition with
    | operation => exact absurd isFragment nofun
    | fragment other =>
      cases isFragment
      exact member
  · exact fun member => ⟨_, member, rfl⟩

namespace Validation

variable {schema : Schema} {document : Document} {types : FragmentTypes}

theorem find?_walkedFragments (distinct : (document.fragments.map (·.name)).Nodup)
    {fragment : Document.Fragment} (member : fragment ∈ document.fragments) :
    (walkedFragments schema types document).find? (·.1 == fragment.name) =
      some (fragment.name, Walk.ofFragment schema types fragment) := by
  have inWalked : (fragment.name, Walk.ofFragment schema types fragment) ∈ walkedFragments schema types document := by
    unfold walkedFragments
    exact List.mem_reverse.mpr (List.mem_map.mpr ⟨fragment, member, rfl⟩)
  have distinctKeys : ((walkedFragments schema types document).map (·.1)).Nodup := by
    unfold walkedFragments
    rw [List.map_reverse, List.nodup_reverse, List.map_map]
    exact distinct
  obtain ⟨entry, found⟩ : ∃ entry,
      (walkedFragments schema types document).find? (·.1 == fragment.name) = some entry :=
    Option.isSome_iff_exists.mp (List.find?_isSome.mpr ⟨_, inWalked, by simp⟩)
  have sameName : entry.1 = fragment.name := by simpa using List.find?_some found
  rw [found, List.inj_on_of_nodup_map distinctKeys (List.mem_of_find?_eq_some found) inWalked sameName]

end Validation

end SiteQuery.Graphql
