import SiteQuery.Proofs.Graphql.Nodes
import SiteQuery.Proofs.Graphql.WellTyped

/-!
The uses of variables in well-typed definitions.

`Operation.Uses` says where an operation uses variables: in itself and in every fragment that its spreads reach, at
arguments of fields and of directives. `mem_allUsages_iff` says that validation collects exactly these uses.
-/

namespace SiteQuery.Graphql

namespace Document

/-- A variable is used within an argument that is declared. -/
def Argument.Uses (schema : Schema) (declared : List InputDefinition) (argument : Argument) (usage : Usage) : Prop :=
  ∃ input, InputDefinition.find? declared argument.name = some input ∧
    usage ∈ Usage.ofValue schema argument.valuePosition argument.value input.type input.default?.isSome

def Directive.Uses (schema : Schema) (directive : Directive) (usage : Usage) : Prop :=
  ∃ definition, schema.directive? directive.name = some definition ∧
    ∃ argument ∈ directive.arguments, argument.Uses schema definition.arguments usage

/-- A variable is used in a selection on a type, at any depth, without following spreads. -/
inductive Selection.Uses (schema : Schema) : String → Selection → Usage → Prop
  | argument {parent position alias? name arguments directives bodyPosition inner definition argument usage}
      (defined : schema.field? parent name = some definition) (given : argument ∈ arguments)
      (uses : argument.Uses schema definition.arguments usage) :
      Uses schema parent (.field position alias? name arguments directives bodyPosition inner) usage
  | ofField {parent position alias? name arguments directives bodyPosition inner} {directive : Directive} {usage}
      (given : directive ∈ directives) (uses : directive.Uses schema usage) :
      Uses schema parent (.field position alias? name arguments directives bodyPosition inner) usage
  | nested {parent position alias? name arguments directives bodyPosition inner definition selection usage}
      (defined : schema.field? parent name = some definition) (member : selection ∈ inner)
      (uses : Uses schema definition.type.name selection usage) :
      Uses schema parent (.field position alias? name arguments directives bodyPosition inner) usage
  | ofSpread {parent position name directives} {directive : Directive} {usage}
      (given : directive ∈ directives) (uses : directive.Uses schema usage) :
      Uses schema parent (.spread position name directives) usage
  | ofInline {parent position condition? directives inner} {directive : Directive} {usage}
      (given : directive ∈ directives) (uses : directive.Uses schema usage) :
      Uses schema parent (.inline position condition? directives inner) usage
  | inside {parent position condition? directives inner selection usage} (member : selection ∈ inner)
      (uses : Uses schema ((condition?.map (·.name)).getD parent) selection usage) :
      Uses schema parent (.inline position condition? directives inner) usage

namespace Selection.Uses

variable {schema : Schema} {parent : String} {position bodyPosition : Position} {alias? : Option String} {name : String}
  {arguments : List Argument} {directives : List Directive} {inner : List Selection} {usage : Usage}

theorem field_iff {definition : FieldDefinition} (defined : schema.field? parent name = some definition) :
    Uses schema parent (.field position alias? name arguments directives bodyPosition inner) usage ↔
      (∃ argument ∈ arguments, argument.Uses schema definition.arguments usage) ∨
        (∃ directive ∈ directives, directive.Uses schema usage) ∨
          ∃ selection ∈ inner, Uses schema definition.type.name selection usage := by
  constructor
  · intro uses
    cases uses with
    | argument isDefined given used =>
      cases defined.symm.trans isDefined
      exact .inl ⟨_, given, used⟩
    | ofField given used => exact .inr (.inl ⟨_, given, used⟩)
    | nested isDefined member used =>
      cases defined.symm.trans isDefined
      exact .inr (.inr ⟨_, member, used⟩)
  · rintro (⟨argument, given, used⟩ | ⟨directive, given, used⟩ | ⟨selection, member, used⟩)
    · exact .argument defined given used
    · exact .ofField given used
    · exact .nested defined member used

theorem spread_iff : Uses schema parent (.spread position name directives) usage ↔
    ∃ directive ∈ directives, directive.Uses schema usage := by
  constructor
  · intro uses
    cases uses with
    | ofSpread given used => exact ⟨_, given, used⟩
  · rintro ⟨directive, given, used⟩
    exact .ofSpread given used

theorem inline_iff {condition? : Option Condition} :
    Uses schema parent (.inline position condition? directives inner) usage ↔
      (∃ directive ∈ directives, directive.Uses schema usage) ∨
        ∃ selection ∈ inner, Uses schema ((condition?.map (·.name)).getD parent) selection usage := by
  constructor
  · intro uses
    cases uses with
    | ofInline given used => exact .inl ⟨_, given, used⟩
    | inside member used => exact .inr ⟨_, member, used⟩
  · rintro (⟨directive, given, used⟩ | ⟨selection, member, used⟩)
    · exact .ofInline given used
    · exact .inside member used

end Selection.Uses

def Fragment.Uses (schema : Schema) (fragment : Fragment) (usage : Usage) : Prop :=
  (∃ selection ∈ fragment.selections, selection.Uses schema fragment.condition.name usage) ∨
    ∃ directive ∈ fragment.directives, directive.Uses schema usage

/-- A fragment is reached from selections by following spreads. -/
inductive Reaches (fragments : List Fragment) : List Selection → Fragment → Prop
  | here {selections fragment} (member : fragment ∈ fragments) (spreads : Spreads selections fragment.name) :
      Reaches fragments selections fragment
  | onward {selections} {next fragment : Fragment} (member : next ∈ fragments) (spreads : Spreads selections next.name)
      (reaches : Reaches fragments next.selections fragment) : Reaches fragments selections fragment

theorem Reaches.mem {fragments : List Fragment} {selections : List Selection} {fragment : Fragment}
    (reaches : Reaches fragments selections fragment) : fragment ∈ fragments := by
  induction reaches with
  | here member => exact member
  | onward _ _ _ ih => exact ih

/-- A variable is used in an operation or in a fragment that it reaches. -/
inductive Operation.Uses (schema : Schema) (fragments : List Fragment) (operation : Operation) : Usage → Prop
  | own {root selection usage} (typed : schema.rootType? operation.kind = some root)
      (member : selection ∈ operation.selections) (uses : selection.Uses schema root.name usage) :
      Uses schema fragments operation usage
  | directive {directive : Directive} {usage} (given : directive ∈ operation.directives)
      (uses : directive.Uses schema usage) : Uses schema fragments operation usage
  | fragment {fragment usage} (reached : Reaches fragments operation.selections fragment)
      (uses : fragment.Uses schema usage) : Uses schema fragments operation usage

theorem Operation.Uses.iff {schema : Schema} {fragments : List Fragment} {operation : Operation} {usage : Usage}
    {root : TypeDefinition} (typed : schema.rootType? operation.kind = some root) :
    operation.Uses schema fragments usage ↔
      (∃ selection ∈ operation.selections, selection.Uses schema root.name usage) ∨
        (∃ directive ∈ operation.directives, directive.Uses schema usage) ∨
          ∃ fragment, Reaches fragments operation.selections fragment ∧ fragment.Uses schema usage := by
  constructor
  · intro uses
    cases uses with
    | own isTyped member used =>
      cases typed.symm.trans isTyped
      exact .inl ⟨_, member, used⟩
    | directive given used => exact .inr (.inl ⟨_, given, used⟩)
    | fragment reached used => exact .inr (.inr ⟨_, reached, used⟩)
  · rintro (⟨selection, member, used⟩ | ⟨directive, given, used⟩ | ⟨fragment, reached, used⟩)
    · exact .own typed member used
    · exact .directive given used
    · exact .fragment reached used

end Document

namespace Walk

theorem usages_append (a b : Walk) : (a ++ b).usages = a.usages ++ b.usages := rfl

theorem usages_report (fault : Fault) (position : Position) : (report fault position).usages = [] := rfl

theorem usages_reportAt (fault? : Option Fault) (position : Position) : (reportAt fault? position).usages = [] := by
  cases fault? <;> rfl

theorem mem_usages_flat {Item : Type} {visit : Item → Walk} {items : List Item} {usage : Usage} :
    usage ∈ (flat visit items).usages ↔ ∃ item ∈ items, usage ∈ (visit item).usages := by
  induction items with
  | nil => simp [flat]
  | cons first rest ih => simp [flat, usages_append, ih]

variable {schema : Schema} {types : FragmentTypes} {parent : String} {usage : Usage}

theorem mem_usages_ofArgument_iff {definitions : List InputDefinition} {argument : Document.Argument} :
    usage ∈ (ofArgument schema definitions argument).usages ↔ argument.Uses schema definitions usage := by
  unfold Document.Argument.Uses
  cases declared : InputDefinition.find? definitions argument.name with
  | none => simp [ofArgument, declared]
  | some input =>
    cases checked : schema.checkLiteral argument.value input.type with
    | none => simp [ofArgument, declared, checked, usages_append]
    | some detail => simp [ofArgument, declared, checked, usages_append, usages_report]

theorem mem_usages_ofDirectives {directives : List Document.Directive} :
    usage ∈ (ofDirectives schema directives).usages ↔ ∃ directive ∈ directives, directive.Uses schema usage := by
  have ofDirective_iff (directive : Document.Directive) :
      usage ∈ (ofDirective schema directive).usages ↔ directive.Uses schema usage := by
    unfold ofDirective Document.Directive.Uses
    cases schema.directive? directive.name with
    | none => simp
    | some definition => simp [mem_usages_flat, mem_usages_ofArgument_iff]
  simp [ofDirectives, mem_usages_flat, ofDirective_iff]

theorem spreads_flat {Item : Type} {visit : Item → Walk} (none : ∀ item, (visit item).spreads = []) (items : List Item) :
    (flat visit items).spreads = [] := by
  induction items with
  | nil => rfl
  | cons first rest ih => rw [flat, spreads_append, none, ih, List.append_nil]

theorem spreads_ofArgument (definitions : List InputDefinition) (argument : Document.Argument) :
    (ofArgument schema definitions argument).spreads = [] := by
  cases declared : InputDefinition.find? definitions argument.name with
  | none => simp [ofArgument, declared]
  | some input =>
    cases checked : schema.checkLiteral argument.value input.type with
    | none => simp [ofArgument, declared, checked, spreads_append]
    | some detail => simp [ofArgument, declared, checked, spreads_append, report]

theorem spreads_ofDirectives (directives : List Document.Directive) : (ofDirectives schema directives).spreads = [] := by
  apply spreads_flat
  intro directive
  unfold ofDirective
  split
  · rfl
  · exact spreads_flat (spreads_ofArgument _) directive.arguments

theorem usages_flat {Item : Type} {visit : Item → Walk} (none : ∀ item, (visit item).usages = []) (items : List Item) :
    (flat visit items).usages = [] := by
  induction items with
  | nil => rfl
  | cons first rest ih => rw [flat, usages_append, none, ih, List.append_nil]

/-- The definition of a variable uses and spreads nothing, as far as the walk looks. -/
theorem ofVariable_eq (definition : Document.Variable) :
    (ofVariable schema definition).usages = [] ∧ (ofVariable schema definition).spreads = [] := by
  cases typed : schema.type? definition.type.name with
  | none => simp [ofVariable, typed, report]
  | some type =>
    cases isInput : type.kind.isInput with
    | false => simp [ofVariable, typed, isInput, report]
    | true =>
      cases given : definition.default? with
      | none => simp [ofVariable, typed, isInput, given]
      | some default =>
        cases checked : schema.checkLiteral default.value definition.type with
        | none => simp [ofVariable, typed, isInput, given, checked]
        | some detail => simp [ofVariable, typed, isInput, given, checked, report]

theorem mem_usages_ofSelections {selections : List Document.Selection} :
    usage ∈ (ofSelections schema types parent selections).usages ↔
      ∃ selection ∈ selections, usage ∈ (ofSelection schema types parent selection).usages := by
  induction selections with
  | nil => simp [ofSelections]
  | cons first rest ih => simp [ofSelections, usages_append, ih]

theorem mem_spreads_ofSelections {selections : List Document.Selection} {name : String} :
    name ∈ (ofSelections schema types parent selections).spreads ↔
      ∃ selection ∈ selections, name ∈ (ofSelection schema types parent selection).spreads := by
  induction selections with
  | nil => simp [ofSelections]
  | cons first rest ih => simp [ofSelections, spreads_append, ih]

/-- The walk over a well-typed selection collects what it uses. -/
theorem mem_usages_ofSelection {selection : Document.Selection} (wellTyped : selection.WellTyped schema types parent) :
    usage ∈ (ofSelection schema types parent selection).usages ↔ selection.Uses schema parent usage := by
  induction wellTyped with
  | leaf isField typed isLeaf =>
    rw [Document.Selection.Uses.field_iff isField.defined]
    simp [ofSelection, isField.defined, typed, isLeaf, usages_append, mem_usages_flat, mem_usages_ofArgument_iff,
      mem_usages_ofDirectives]
  | @composite _ _ _ _ _ _ _ inner definition _ isField typed isComposite notEmpty _ ih =>
    have notLeaf := TypeKind.not_leaf_of_composite isComposite
    have below : usage ∈ (ofSelections schema types definition.type.name inner).usages ↔
        ∃ selection ∈ inner, selection.Uses schema definition.type.name usage := by
      rw [mem_usages_ofSelections]
      exact exists_congr fun selection => and_congr_right (ih selection)
    rw [Document.Selection.Uses.field_iff isField.defined, ← below]
    simp [ofSelection, isField.defined, typed, notLeaf, isComposite, notEmpty, usages_append, mem_usages_flat,
      mem_usages_ofArgument_iff, mem_usages_ofDirectives]
  | spread =>
    rw [Document.Selection.Uses.spread_iff]
    simp [ofSelection, usages_append, usages_reportAt, mem_usages_ofDirectives]
  | @inline outer _ _ inner _ _ ih =>
    have below : usage ∈ (ofSelections schema types outer inner).usages ↔
        ∃ selection ∈ inner, selection.Uses schema outer usage := by
      rw [mem_usages_ofSelections]
      exact exists_congr fun selection => and_congr_right (ih selection)
    rw [Document.Selection.Uses.inline_iff]
    simp [ofSelection, usages_append, mem_usages_ofDirectives, below]
  | @narrowed outer _ condition _ inner _ isComposite overlaps _ ih =>
    have below : usage ∈ (ofSelections schema types condition.name inner).usages ↔
        ∃ selection ∈ inner, selection.Uses schema condition.name usage := by
      rw [mem_usages_ofSelections]
      exact exists_congr fun selection => and_congr_right (ih selection)
    have noFault : conditionFault? schema none condition.name = none := conditionFault?_eq_none.mpr isComposite
    rw [Document.Selection.Uses.inline_iff]
    simp [ofSelection, noFault, overlaps, usages_append, mem_usages_ofDirectives, below]

/-- The walk over a well-typed selection collects what it spreads. -/
theorem mem_spreads_ofSelection {selection : Document.Selection} (wellTyped : selection.WellTyped schema types parent)
    {name : String} :
    name ∈ (ofSelection schema types parent selection).spreads ↔ Document.Spreads [selection] name := by
  have noSpreads (directives : List Document.Directive) : (ofDirectives schema directives).spreads = [] :=
    spreads_ofDirectives directives
  have noArgument (definitions : List InputDefinition) (arguments : List Document.Argument) :
      (flat (ofArgument schema definitions) arguments).spreads = [] :=
    spreads_flat (spreads_ofArgument definitions) arguments
  induction wellTyped with
  | leaf isField typed isLeaf =>
    have nowhere : ¬ Document.Spreads [] name := Document.Spreads.not_nil
    rw [Document.Spreads.field_iff]
    simp [ofSelection, isField.defined, typed, isLeaf, spreads_append, noSpreads, noArgument, nowhere]
  | @composite _ _ _ _ _ _ _ inner definition _ isField typed isComposite notEmpty _ ih =>
    have notLeaf := TypeKind.not_leaf_of_composite isComposite
    have below : name ∈ (ofSelections schema types definition.type.name inner).spreads ↔
        Document.Spreads inner name := by
      rw [mem_spreads_ofSelections, Document.Spreads.iff_exists]
      exact exists_congr fun selection => and_congr_right (ih selection)
    rw [Document.Spreads.field_iff, ← below]
    simp [ofSelection, isField.defined, typed, notLeaf, isComposite, notEmpty, spreads_append, noSpreads, noArgument]
  | @spread outer _ spread =>
    have notReported : ∀ fault? position, (reportAt fault? position).spreads = [] := by
      intro fault? position
      cases fault? <;> rfl
    rw [Document.Spreads.spread_iff]
    simp [ofSelection, spreads_append, notReported, noSpreads]
  | @inline outer _ _ inner _ _ ih =>
    have below : name ∈ (ofSelections schema types outer inner).spreads ↔ Document.Spreads inner name := by
      rw [mem_spreads_ofSelections, Document.Spreads.iff_exists]
      exact exists_congr fun selection => and_congr_right (ih selection)
    rw [Document.Spreads.inline_iff, ← below]
    simp [ofSelection, spreads_append, noSpreads]
  | @narrowed outer _ condition _ inner _ isComposite overlaps _ ih =>
    have below : name ∈ (ofSelections schema types condition.name inner).spreads ↔ Document.Spreads inner name := by
      rw [mem_spreads_ofSelections, Document.Spreads.iff_exists]
      exact exists_congr fun selection => and_congr_right (ih selection)
    have noFault : conditionFault? schema none condition.name = none := conditionFault?_eq_none.mpr isComposite
    rw [Document.Spreads.inline_iff, ← below]
    simp [ofSelection, noFault, overlaps, spreads_append, noSpreads]

section Bodies

variable {selections : List Document.Selection}

theorem usages_of_wellTyped (wellTyped : ∀ selection ∈ selections, selection.WellTyped schema types parent) :
    usage ∈ (ofSelections schema types parent selections).usages ↔
      ∃ selection ∈ selections, selection.Uses schema parent usage := by
  rw [mem_usages_ofSelections]
  exact exists_congr fun selection => and_congr_right fun member => mem_usages_ofSelection (wellTyped selection member)

theorem spreads_of_wellTyped (wellTyped : ∀ selection ∈ selections, selection.WellTyped schema types parent)
    {name : String} :
    name ∈ (ofSelections schema types parent selections).spreads ↔ Document.Spreads selections name := by
  rw [mem_spreads_ofSelections, Document.Spreads.iff_exists]
  exact exists_congr fun selection => and_congr_right fun member => mem_spreads_ofSelection (wellTyped selection member)

theorem mem_usages_ofFragment {fragment : Document.Fragment} (wellTyped : fragment.WellTyped schema types) :
    usage ∈ (ofFragment schema types fragment).usages ↔ fragment.Uses schema usage := by
  have noFault : conditionFault? schema (some fragment.name) fragment.condition.name = none :=
    conditionFault?_eq_none.mpr wellTyped.isComposite
  simp only [ofFragment, noFault, usages_append, List.mem_append, usages_of_wellTyped wellTyped.body,
    mem_usages_ofDirectives]
  rfl

theorem mem_spreads_ofFragment {fragment : Document.Fragment} (wellTyped : fragment.WellTyped schema types)
    {name : String} :
    name ∈ (ofFragment schema types fragment).spreads ↔ Document.Spreads fragment.selections name := by
  have noFault : conditionFault? schema (some fragment.name) fragment.condition.name = none :=
    conditionFault?_eq_none.mpr wellTyped.isComposite
  simp only [ofFragment, noFault, spreads_append, List.mem_append, spreads_of_wellTyped wellTyped.body,
    spreads_ofDirectives, List.not_mem_nil, or_false]

end Bodies

end Walk

namespace WalkedFragments

variable {fragments : WalkedFragments} {names : List String} {usage : Usage}

theorem Reaches.of_without {name : String} (reaches : (fragments.without name).Reaches names usage) :
    fragments.Reaches names usage := by
  have different {other key : String} {walk : Walk}
      (found : (fragments.without name).find? (·.1 == other) = some (key, walk)) : other ≠ name := by
    rintro rfl
    rw [find?_without_self] at found
    cases found
  induction reaches with
  | here member found used => exact .here member (find?_without (different found) ▸ found) used
  | onward member found _ ih => exact .onward member (find?_without (different found) ▸ found) ih

theorem Reaches.of_append {others : List String} (reaches : fragments.Reaches (names ++ others) usage) :
    fragments.Reaches names usage ∨ fragments.Reaches others usage := by
  cases reaches with
  | here member found used =>
    rcases List.mem_append.mp member with inNames | inOthers
    · exact .inl (.here inNames found used)
    · exact .inr (.here inOthers found used)
  | onward member found onward =>
    rcases List.mem_append.mp member with inNames | inOthers
    · exact .inl (.onward inNames found onward)
    · exact .inr (.onward inOthers found onward)

/-- The search finds nothing that is not reached from its stack. -/
theorem reaches_of_mem_usages {stack : List String} (member : usage ∈ fragments.usages stack) :
    fragments.Reaches stack usage := by
  induction fragments, stack using usages.induct with
  | case1 fragments => simp [usages] at member
  | case2 fragments name rest missing ih =>
    rw [usages] at member
    split at member
    · exact (ih member).mono fun other inRest => List.mem_cons_of_mem _ inRest
    · rename_i found
      rw [missing] at found
      cases found
  | case3 fragments name rest key walk found ih =>
    rw [usages] at member
    split at member
    · rename_i missing
      rw [found] at missing
      cases missing
    · rename_i foundHere
      rw [found] at foundHere
      cases foundHere
      rcases List.mem_append.mp member with used | later
      · exact .here List.mem_cons_self found used
      · rcases (ih later).of_without.of_append with fromWalk | fromRest
        · exact .onward List.mem_cons_self found (fromWalk.mono fun other inSpreads => by simpa using inSpreads)
        · exact fromRest.mono fun other inRest => List.mem_cons_of_mem _ inRest

theorem mem_usages_iff {stack : List String} : usage ∈ fragments.usages stack ↔ fragments.Reaches stack usage :=
  ⟨reaches_of_mem_usages, mem_usages⟩

end WalkedFragments

section Documents

variable {schema : Schema} {types : FragmentTypes} {document : Document} {usage : Usage}

theorem exists_fragment_of_find? {name key : String} {walk : Walk}
    (found : (Validation.walkedFragments schema types document).find? (·.1 == name) = some (key, walk)) :
    ∃ fragment ∈ document.fragments, fragment.name = name ∧ walk = Walk.ofFragment schema types fragment := by
  have named : key = name := by simpa using List.find?_some found
  have member := List.mem_of_find?_eq_some found
  rw [Validation.walkedFragments, List.mem_reverse, List.mem_map] at member
  obtain ⟨fragment, inDocument, same⟩ := member
  cases same
  exact ⟨fragment, inDocument, named, rfl⟩

/-- What validation reaches from spreads is used in a fragment that these reach. -/
theorem walkedFragments_reaches_iff (distinct : (document.fragments.map (·.name)).Nodup)
    (wellTyped : ∀ fragment ∈ document.fragments, fragment.WellTyped schema types) {names : List String}
    {selections : List Document.Selection} (areSpreads : ∀ name, name ∈ names ↔ Document.Spreads selections name) :
    (Validation.walkedFragments schema types document).Reaches names usage ↔
      ∃ fragment, Document.Reaches document.fragments selections fragment ∧ fragment.Uses schema usage := by
  constructor
  · intro reaches
    induction reaches generalizing selections with
    | here member found used =>
      obtain ⟨fragment, inDocument, rfl, rfl⟩ := exists_fragment_of_find? found
      exact ⟨fragment, .here inDocument ((areSpreads _).mp member),
        (Walk.mem_usages_ofFragment (wellTyped fragment inDocument)).mp used⟩
    | onward member found _ ih =>
      obtain ⟨next, inDocument, rfl, rfl⟩ := exists_fragment_of_find? found
      obtain ⟨fragment, reached, uses⟩ := ih fun name => Walk.mem_spreads_ofFragment (wellTyped next inDocument)
      exact ⟨fragment, .onward inDocument ((areSpreads _).mp member) reached, uses⟩
  · rintro ⟨fragment, reached, uses⟩
    induction reached generalizing names with
    | @here _ fragment member spreads =>
      have used := (Walk.mem_usages_ofFragment (wellTyped fragment member)).mpr uses
      exact .here ((areSpreads _).mpr spreads) (Validation.find?_walkedFragments distinct member) used
    | @onward _ next _ member spreads _ ih =>
      have further := ih (fun name => Walk.mem_spreads_ofFragment (wellTyped next member)) uses
      exact .onward ((areSpreads _).mpr spreads) (Validation.find?_walkedFragments distinct member) further

/-- Validation collects exactly the uses of an operation. -/
theorem mem_allUsages_iff (distinct : (document.fragments.map (·.name)).Nodup)
    (wellTyped : ∀ fragment ∈ document.fragments, fragment.WellTyped schema types) {operation : Document.Operation}
    (isWellTyped : operation.WellTyped schema types) :
    usage ∈ (Walk.ofOperation schema types operation).allUsages (Validation.walkedFragments schema types document) ↔
      operation.Uses schema document.fragments usage := by
  obtain ⟨root, typed, body⟩ := isWellTyped.body
  have noUsages : (Walk.flat (Walk.ofVariable schema) operation.variableDefinitions).usages = [] :=
    Walk.usages_flat (fun definition => (Walk.ofVariable_eq definition).1) operation.variableDefinitions
  have noSpreads : (Walk.flat (Walk.ofVariable schema) operation.variableDefinitions).spreads = [] :=
    Walk.spreads_flat (fun definition => (Walk.ofVariable_eq definition).2) operation.variableDefinitions
  have areSpreads (name : String) : name ∈ (Walk.ofOperation schema types operation).spreads.eraseDups.reverse ↔
      Document.Spreads operation.selections name := by
    rw [List.mem_reverse, List.mem_eraseDups]
    simp [Walk.ofOperation, typed, Walk.spreads_append, noSpreads, Walk.spreads_ofDirectives,
      Walk.spreads_of_wellTyped body]
  have own : usage ∈ (Walk.ofOperation schema types operation).usages ↔
      (∃ selection ∈ operation.selections, selection.Uses schema root.name usage) ∨
        ∃ directive ∈ operation.directives, directive.Uses schema usage := by
    simp [Walk.ofOperation, typed, Walk.usages_append, noUsages, Walk.mem_usages_ofDirectives,
      Walk.usages_of_wellTyped body]
  rw [Walk.allUsages, List.mem_append, own, WalkedFragments.mem_usages_iff,
    walkedFragments_reaches_iff distinct wellTyped areSpreads, Document.Operation.Uses.iff typed]
  exact or_assoc

end Documents

end SiteQuery.Graphql
