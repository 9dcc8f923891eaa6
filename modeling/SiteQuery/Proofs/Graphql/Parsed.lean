import SiteQuery.Proofs.Graphql.Clauses
import SiteQuery.Proofs.Graphql.Collected
import SiteQuery.Proofs.Graphql.Grammatical
import SiteQuery.Proofs.Sorting

/-!
What is read from a text is printable.
-/

namespace SiteQuery

namespace Graphql

open Grammar

section Values

variable {isConstant : Bool} {places : Places}

theorem isName_ofList {text : List Char} (isName : IsName text) : IsName (String.ofList text).toList := by
  rwa [String.toList_ofList]

theorem keys_insertField (key : String) (value : Value) (fields : List (String × Value)) :
    (Value.insertField key value fields).map (·.1) =
      if key ∈ fields.map (·.1) then fields.map (·.1) else fields.map (·.1) ++ [key] := by
  induction fields with
  | nil => rfl
  | cons field rest ih =>
    by_cases same : field.1 = key
    · simp [Value.insertField, same]
    · simp only [Value.insertField, same, if_false, List.map_cons, ih, List.mem_cons, Ne.symm same, false_or]
      split <;> rfl

theorem mem_insertField {key : String} {value : Value} {fields : List (String × Value)} {field : String × Value}
    (member : field ∈ Value.insertField key value fields) : field = (key, value) ∨ field ∈ fields := by
  induction fields with
  | nil => exact .inl (List.mem_singleton.mp member)
  | cons first rest ih =>
    simp only [Value.insertField] at member
    split at member
    · exact (List.mem_cons.mp member).imp_right (List.mem_cons_of_mem _)
    · rcases List.mem_cons.mp member with rfl | inRest
      · exact .inr List.mem_cons_self
      · exact (ih inRest).imp_right (List.mem_cons_of_mem _)

/-- What has been read of an object so far. -/
structure PrintableFields (isConstant : Bool) (fields : List (String × Value)) : Prop where
  names : ∀ field ∈ fields, IsName field.1.toList
  distinct : (fields.map (·.1)).Nodup
  values : ∀ field ∈ fields, field.2.Printable isConstant

theorem PrintableFields.insertField {key : String} {value : Value} {fields : List (String × Value)}
    (printable : PrintableFields isConstant fields) (isName : IsName key.toList) (ofValue : value.Printable isConstant) :
    PrintableFields isConstant (Value.insertField key value fields) where
  names field member := by
    rcases mem_insertField member with rfl | inFields
    · exact isName
    · exact printable.names field inFields
  distinct := by
    rw [keys_insertField]
    split
    · exact printable.distinct
    · rename_i fresh
      refine List.nodup_append.mpr ⟨printable.distinct, by simp, fun name member other isKey => ?_⟩
      rintro rfl
      exact fresh (List.mem_singleton.mp isKey ▸ member)
  values field member := by
    rcases mem_insertField member with rfl | inFields
    · exact ofValue
    · exact printable.values field inFields

/-- A tree, as far as it is one of a value, is read as a printable value. -/
def ReadsPrintable (isConstant : Bool) (places : Places) (tree : SyntaxTree) : Prop :=
  ∀ value, Yields (.call (valueRule isConstant)) [tree] → Document.readValue places tree = .ok value →
    value.Printable isConstant

theorem printable_of_readItems {items : List SyntaxTree} {values : List Value}
    (areValues : ∀ item ∈ items, Yields (.call (valueRule isConstant)) [item])
    (inner : ∀ item ∈ items, ReadsPrintable isConstant places item)
    (read : Document.readItems places items = .ok values) : ∀ value ∈ values, value.Printable isConstant := by
  induction items generalizing values with
  | nil =>
    cases read
    simp
  | cons item rest ih =>
    obtain ⟨value, isRead, more⟩ := bind_eq_ok read
    obtain ⟨others, readOthers, same⟩ := bind_eq_ok more
    obtain rfl := Except.ok.inj same
    refine List.forall_mem_cons.mpr ⟨?_, ?_⟩
    · exact inner item List.mem_cons_self value (areValues item List.mem_cons_self) isRead
    · exact ih (fun other member => areValues other (List.mem_cons_of_mem _ member))
        (fun other member => inner other (List.mem_cons_of_mem _ member)) readOthers

theorem printable_of_readFields {trees : List SyntaxTree} {seen fields : List (String × Value)}
    (areFields : ∀ tree ∈ trees, ∃ left leftAfter leftName name item,
      tree = .branch (fieldRule isConstant) left leftAfter [.token .name leftName name, item] ∧ IsName name ∧
        Yields (.call (valueRule isConstant)) [item] ∧ ReadsPrintable isConstant places item)
    (printable : PrintableFields isConstant seen) (read : Document.readFields places seen trees = .ok fields) :
    PrintableFields isConstant fields := by
  induction trees generalizing seen with
  | nil =>
    rw [Document.readFields] at read
    exact Except.ok.inj read ▸ printable
  | cons tree rest ih =>
    obtain ⟨left, leftAfter, leftName, name, item, rfl, isName, isValue, reads⟩ := areFields tree List.mem_cons_self
    rw [Document.readFields] at read
    obtain ⟨value, isRead, more⟩ := bind_eq_ok read
    have larger := printable.insertField (isName_ofList isName) (reads value isValue isRead)
    exact ih (fun other member => areFields other (List.mem_cons_of_mem _ member)) larger more

theorem nameOf_token_ofList (left : Nat) (text : List Char) :
    Document.nameOf (.token .name left text) = String.ofList text := rfl

theorem printable_of_readString {left leftAfter : Nat} {parts : List SyntaxTree} {value : Value}
    (read : Document.readValue places (.branch .string left leftAfter parts) = .ok value) : value.Printable isConstant := by
  unfold Document.readValue at read
  split at read
  case h_4 | h_5 => exact Except.ok.inj read ▸ .string
  case h_11 => exact Except.ok.inj read ▸ .null
  all_goals
    rename_i same
    cases same

theorem printable_of_readValue (tree : SyntaxTree) : ReadsPrintable isConstant places tree := by
  induction tree using SyntaxTree.inside with
  | step tree ih =>
    intro value yields read
    obtain ⟨rule, isRule, isKind⟩ := yields.value
    rcases isKind with ⟨notConstant, rfl⟩ | rfl | rfl | rfl | rfl | rfl | rfl | rfl
    · obtain ⟨left, leftAfter, parts, same, isBody⟩ := isRule.of_branch rfl
      obtain rfl := List.singleton_inj.mp same
      obtain ⟨leftName, text, rfl, isName⟩ := Yields.afterWord isBody
      rw [Document.readValue] at read
      exact Except.ok.inj read ▸ .reference (isName_ofList isName) notConstant
    · obtain ⟨input, rest, isMatch⟩ := isRule
      obtain ⟨left, text, parts, _, same, _⟩ := token_of_accepts rfl isMatch
      obtain rfl := List.singleton_inj.mp same
      rw [Document.readValue] at read
      split at read
      · rename_i number isNumber
        refine Except.ok.inj read ▸ .number fun integer isInteger => ?_
        exact Number.fits_of_ofLiteral? (isNumber.trans (congrArg some isInteger))
      · cases read
    · obtain ⟨left, leftAfter, parts, same, _⟩ := isRule.of_branch rfl
      obtain rfl := List.singleton_inj.mp same
      exact printable_of_readString read
    · obtain ⟨input, rest, isMatch⟩ := isRule
      obtain ⟨left, text, parts, _, same, _⟩ := token_of_accepts rfl isMatch
      obtain rfl := List.singleton_inj.mp same
      rw [Document.readValue] at read
      exact Except.ok.inj read ▸ .boolean
    · obtain ⟨input, rest, isMatch⟩ := isRule
      obtain ⟨left, text, parts, _, same, _⟩ := token_of_accepts rfl isMatch
      obtain rfl := List.singleton_inj.mp same
      exact Except.ok.inj read ▸ .null
    · obtain ⟨left, leftAfter, leftName, text, same, isName, notKeyworded⟩ := Yields.enumValue isRule
      obtain rfl := List.singleton_inj.mp same
      rw [Document.readValue] at read
      refine Except.ok.inj read ▸ .enum (isName_ofList isName) ?_
      rwa [nameOf_token_ofList, String.toList_ofList]
    · obtain ⟨left, leftAfter, items, same, areValues⟩ := Yields.list isRule
      obtain rfl := List.singleton_inj.mp same
      have isList : Value.list <$> Document.readItems places items = .ok value := by
        cases isConstant <;> exact read
      obtain ⟨values, isRead, rfl⟩ := map_eq_ok isList
      exact .list (printable_of_readItems areValues (fun item member => (ih item member).1) isRead)
    · obtain ⟨left, leftAfter, trees, same, areFields⟩ := Yields.object isRule
      obtain rfl := List.singleton_inj.mp same
      have isObject : Value.object <$> Document.readFields places [] trees = .ok value := by
        cases isConstant <;> exact read
      obtain ⟨fields, isRead, rfl⟩ := map_eq_ok isObject
      have printable : PrintableFields isConstant fields := by
        refine printable_of_readFields (fun field member => ?_) ⟨by simp, by simp, by simp⟩ isRead
        obtain ⟨left, leftAfter, leftName, name, item, rfl, isName, isValue⟩ := areFields field member
        exact ⟨left, leftAfter, leftName, name, item, rfl, isName, isValue, (ih _ member).2 item (by simp [SyntaxTree.parts])⟩
      exact .object printable.names printable.distinct printable.values

end Values

section Clauses

variable {trees : List SyntaxTree} {tree : SyntaxTree} {places : Places}

theorem Yields.argument (yields : Yields (.call .argument) [tree]) :
    ∃ left leftAfter leftName name item, tree = .branch .argument left leftAfter [.token .name leftName name, item] ∧
      IsName name ∧ ∀ places value, Document.readValue places item = .ok value → value.Printable false := by
  obtain ⟨left, leftAfter, leftName, name, item, same, isName, isValue⟩ := Yields.pair false rfl rfl yields
  exact ⟨left, leftAfter, leftName, name, item, List.singleton_inj.mp same, isName,
    fun _ value => printable_of_readValue item value isValue⟩

theorem Yields.arguments (yields : Yields (.option (.call .arguments)) trees) :
    ∀ tree ∈ trees, Yields (.call .argument) [tree] := by
  rcases yields.of_option with rfl | isSome
  · simp
  · have isBody : Yields (Rule.body .arguments) trees := Yields.of_spliced rfl isSome
    exact (isBody.of_within.of_someSpaced isBlank_isPlain (isSingle_branch rfl)).2

theorem printable_of_readArguments {arguments : List Document.Argument}
    (areArguments : ∀ tree ∈ trees, Yields (.call .argument) [tree])
    (read : Document.readArguments places trees = .ok arguments) : ∀ argument ∈ arguments, argument.Printable := by
  induction trees generalizing arguments with
  | nil =>
    rw [Document.readArguments] at read
    cases Except.ok.inj read
    simp
  | cons tree rest ih =>
    obtain ⟨left, leftAfter, leftName, name, item, rfl, isName, ofValue⟩ :=
      Yields.argument (areArguments tree List.mem_cons_self)
    rw [Document.readArguments] at read
    obtain ⟨value, isRead, more⟩ := bind_eq_ok read
    obtain ⟨others, readOthers, same⟩ := bind_eq_ok more
    obtain rfl := Except.ok.inj same
    refine List.forall_mem_cons.mpr ⟨⟨isName_ofList isName, ofValue places value isRead⟩, ?_⟩
    exact ih (fun other member => areArguments other (List.mem_cons_of_mem _ member)) readOthers

theorem Yields.directive (yields : Yields (.call .directive) [tree]) :
    ∃ left leftAfter parts, tree = .branch .directive left leftAfter parts ∧
      ∀ places directive, Document.readDirective places parts = .ok directive → directive.Printable := by
  obtain ⟨left, leftAfter, parts, same, isBody⟩ := yields.of_branch rfl
  refine ⟨left, leftAfter, parts, List.singleton_inj.mp same, fun places directive read => ?_⟩
  obtain ⟨sign, more, rfl, isSign, isMore⟩ := isBody.of_spaced_cons isBlank_isPlain
  obtain ⟨names, arguments, rfl, isNamed, areArguments⟩ := isMore.of_spaced_cons isBlank_isPlain
  obtain ⟨leftName, name, rfl, isName⟩ := Yields.name isNamed
  rw [isSign.of_isPlain rfl, List.nil_append, List.singleton_append, Document.readDirective] at read
  obtain ⟨readAll, isRead, same⟩ := bind_eq_ok read
  obtain rfl := Except.ok.inj same
  exact ⟨isName_ofList isName, printable_of_readArguments (Yields.arguments areArguments) isRead⟩

theorem Yields.directives (yields : Yields (.option (.call .directives)) trees) :
    ∀ tree ∈ trees, Yields (.call .directive) [tree] := by
  rcases yields.of_option with rfl | isSome
  · simp
  · have isBody : Yields (Rule.body .directives) trees := Yields.of_spliced rfl isSome
    exact (isBody.of_someSpaced isBlank_isPlain (isSingle_branch rfl)).2

theorem Yields.rule_eq {rule : Rule} (notSpliced : Rule.kind rule ≠ .spliced) (yields : Yields (.call rule) [tree]) :
    tree.rule = rule := by
  obtain ⟨input, rest, isMatch⟩ := yields
  obtain ⟨parts, _, same⟩ := accepts_call.mp isMatch
  cases isKind : Rule.kind rule with
  | token =>
    rw [isKind] at same
    rw [List.singleton_inj.mp same]
    rfl
  | branch =>
    rw [isKind] at same
    rw [List.singleton_inj.mp same]
    rfl
  | spliced => exact absurd isKind notSpliced

theorem Yields.isLiteral (yields : Yields (.call (valueRule true)) [tree]) : tree.rule.isLiteral = true := by
  obtain ⟨rule, isRule, isKind⟩ := yields.value
  rcases isKind with ⟨notConstant, _⟩ | rfl | rfl | rfl | rfl | rfl | rfl | rfl
  · cases notConstant
  all_goals
    rw [Yields.rule_eq (by decide) isRule]
    rfl

theorem printable_of_readVariable_end {directives defaults : List SyntaxTree} {done definition : Document.Variable}
    (areDirectives : ∀ tree ∈ directives, Yields (.call .directive) [tree])
    (isDefault : defaults = [] ∨ ∃ tree, defaults = [tree] ∧ Yields (.call (valueRule true)) [tree])
    (printable : done.Printable) (read : Document.readVariable places done (directives ++ defaults) = .ok definition) :
    definition.Printable := by
  induction directives generalizing done with
  | nil =>
    rcases isDefault with rfl | ⟨tree, rfl, isValue⟩
    · rw [List.append_nil, Document.readVariable] at read
      exact Except.ok.inj read ▸ printable
    · rw [List.nil_append, readVariable_cons_literal isValue.isLiteral] at read
      obtain ⟨value, isRead, more⟩ := bind_eq_ok read
      rw [Document.readVariable] at more
      refine Except.ok.inj more ▸ { printable with default := ?_ }
      rintro _ ⟨⟩
      exact printable_of_readValue tree value isValue isRead
  | cons tree rest ih =>
    obtain ⟨left, leftAfter, parts, rfl, ofParts⟩ := Yields.directive (areDirectives tree List.mem_cons_self)
    rw [List.cons_append, Document.readVariable] at read
    obtain ⟨directive, isRead, more⟩ := bind_eq_ok read
    refine ih (fun other member => areDirectives other (List.mem_cons_of_mem _ member)) ?_ more
    refine { printable with directives := fun other member => ?_ }
    rcases List.mem_append.mp member with before | last
    · exact printable.directives other before
    · exact List.mem_singleton.mp last ▸ ofParts places directive isRead

theorem Yields.variableDefinition (yields : Yields (.call .variableDefinition) [tree]) :
    ∃ left leftAfter parts, tree = .branch .variableDefinition left leftAfter parts ∧ ∀ places definition,
      Document.readVariable places ⟨"", .named "", .start, none, []⟩ parts = .ok definition → definition.Printable := by
  obtain ⟨left, leftAfter, parts, same, isBody⟩ := yields.of_branch rfl
  refine ⟨left, leftAfter, parts, List.singleton_inj.mp same, fun places definition read => ?_⟩
  obtain ⟨names, more, rfl, isNamed, isMore⟩ := isBody.of_spaced_cons isBlank_isPlain
  obtain ⟨colon, more, rfl, isColon, isMore⟩ := isMore.of_spaced_cons isBlank_isPlain
  obtain ⟨types, more, rfl, isTyped, isMore⟩ := isMore.of_spaced_cons isBlank_isPlain
  obtain ⟨directives, defaults, rfl, areDirectives, areDefaults⟩ := isMore.of_spaced_cons isBlank_isPlain
  obtain ⟨leftVariable, afterVariable, inner, rfl, isVariable⟩ := Yields.of_branch rfl isNamed
  obtain ⟨leftName, name, rfl, isName⟩ := Yields.afterWord isVariable
  obtain ⟨leftType, text, rfl, isType⟩ := Yields.typeText isTyped
  have isDefault : defaults = [] ∨ ∃ tree, defaults = [tree] ∧ Yields (.call (valueRule true)) [tree] := by
    refine areDefaults.of_option.imp_right fun isSome => ?_
    have isDefaultBody : Yields (Rule.body .defaultValue) defaults := Yields.of_spliced rfl isSome
    obtain ⟨sign, value, rfl, isSign, isValue⟩ := isDefaultBody.of_spaced_cons isBlank_isPlain
    obtain ⟨tree, rfl⟩ := isSingle_value true value isValue
    rw [isSign.of_isPlain rfl]
    exact ⟨tree, rfl, isValue⟩
  rw [isColon.of_isPlain rfl] at read
  simp only [List.nil_append, List.singleton_append, Document.readVariable] at read
  refine printable_of_readVariable_end (Yields.directives areDirectives) isDefault ?_ read
  exact ⟨isName_ofList isName, isType, fun _ isSome => absurd isSome (Option.not_mem_none _), by simp⟩

theorem Yields.variableDefinitions (yields : Yields (.option (.call .variableDefinitions)) trees) :
    ∀ tree ∈ trees, Yields (.call .variableDefinition) [tree] := by
  rcases yields.of_option with rfl | isSome
  · simp
  · have isBody : Yields (Rule.body .variableDefinitions) trees := Yields.of_spliced rfl isSome
    exact isBody.of_within.of_manySpaced isBlank_isPlain (isSingle_branch rfl)

end Clauses

section Parts

variable {trees : List SyntaxTree} {tree : SyntaxTree} {places : Places} {depth : Nat}

/-- The rules of the trees that are read one by one within selections and definitions. -/
def Rule.isPart : Rule → Bool
  | name | fieldAlias | argument | directive | variableDefinition | typeCondition | operationType | selectionSet => true
  | _ => false

def IsPart (tree : SyntaxTree) : Prop := Yields (.call tree.rule) [tree] ∧ tree.rule.isPart = true

/-- All that the expression leaves are parts. -/
def LeavesParts (part : Rule.Part) : Prop := ∀ trees, Yields part trees → ∀ tree ∈ trees, IsPart tree

theorem isPart_of_yields {rule : Rule} (notSpliced : Rule.kind rule ≠ .spliced) (isPart : rule.isPart = true)
    (yields : Yields (.call rule) [tree]) : IsPart tree := by
  have same := Yields.rule_eq notSpliced yields
  exact ⟨same ▸ yields, same ▸ isPart⟩

theorem LeavesParts.plain {part : Rule.Part} (plain : part.isPlain = true) : LeavesParts part := by
  intro trees yields
  rw [yields.of_isPlain plain]
  simp

theorem isSingle_of_notSpliced {rule : Rule} (notSpliced : Rule.kind rule ≠ .spliced) :
    (Expression.call rule).IsSingle grammar.match? := by
  cases isKind : Rule.kind rule with
  | token => exact isSingle_token isKind
  | branch => exact isSingle_branch isKind
  | spliced => exact absurd isKind notSpliced

theorem LeavesParts.call {rule : Rule} (notSpliced : Rule.kind rule ≠ .spliced) (isPart : rule.isPart = true) :
    LeavesParts (.call rule) := by
  intro trees yields tree member
  obtain ⟨only, rfl⟩ := isSingle_of_notSpliced notSpliced trees yields
  obtain rfl := List.mem_singleton.mp member
  exact isPart_of_yields notSpliced isPart yields

theorem LeavesParts.option {part : Rule.Part} (leaves : LeavesParts part) : LeavesParts part.option := by
  intro trees yields
  rcases yields.of_option with rfl | isSome
  · simp
  · exact leaves trees isSome

theorem leavesParts_arguments : LeavesParts (.option (.call .arguments)) :=
  fun _ yields tree member => isPart_of_yields (by decide) rfl (Yields.arguments yields tree member)

theorem leavesParts_directives : LeavesParts (.option (.call .directives)) :=
  fun _ yields tree member => isPart_of_yields (by decide) rfl (Yields.directives yields tree member)

theorem leavesParts_variables : LeavesParts (.option (.call .variableDefinitions)) :=
  fun _ yields tree member => isPart_of_yields (by decide) rfl (Yields.variableDefinitions yields tree member)

theorem LeavesParts.spaced {parts : List Rule.Part} (each : ∀ part ∈ parts, LeavesParts part) :
    LeavesParts (Rule.spaced parts) := by
  induction parts with
  | nil => exact .plain rfl
  | cons part more ih =>
    cases more with
    | nil => exact each part List.mem_cons_self
    | cons next others =>
      intro trees yields tree member
      obtain ⟨before, after, rfl, isFirst, isRest⟩ := yields.of_spaced_cons isBlank_isPlain
      rcases List.mem_append.mp member with inBefore | inAfter
      · exact each part List.mem_cons_self before isFirst tree inBefore
      · exact ih (fun other inMore => each other (List.mem_cons_of_mem _ inMore)) after isRest tree inAfter

/-- What a needed rule leaves is among the trees. -/
theorem rule_mem_of_spaced {parts : List Rule.Part} {rule : Rule} (notSpliced : Rule.kind rule ≠ .spliced)
    (needed : Expression.call rule ∈ parts) (yields : Yields (Rule.spaced parts) trees) :
    rule ∈ trees.map Grammar.SyntaxTree.rule := by
  induction parts generalizing trees with
  | nil => cases needed
  | cons part more ih =>
    have ofFirst {before : List SyntaxTree} (isFirst : Yields (.call rule) before) :
        rule ∈ before.map Grammar.SyntaxTree.rule := by
      obtain ⟨only, rfl⟩ := isSingle_of_notSpliced notSpliced before isFirst
      simp [Yields.rule_eq notSpliced isFirst]
    cases more with
    | nil =>
      obtain rfl := List.mem_singleton.mp needed
      exact ofFirst yields
    | cons next others =>
      obtain ⟨before, after, rfl, isFirst, isRest⟩ := yields.of_spaced_cons isBlank_isPlain
      rw [List.map_append, List.mem_append]
      rcases List.mem_cons.mp needed with rfl | inMore
      · exact .inl (ofFirst isFirst)
      · exact .inr (ih inMore isRest)

/-- What has been read of a selection or a definition so far. -/
structure PrintableParts (depth : Nat) (parts : Document.Parts) : Prop where
  names : ∀ name ∈ parts.names, IsName name.toList
  isAlias : ∀ key ∈ parts.alias?, IsName key.toList
  condition : ∀ condition ∈ parts.condition?, IsName condition.name.toList
  variableDefinitions : ∀ definition ∈ parts.variableDefinitions, definition.Printable
  arguments : ∀ argument ∈ parts.arguments, argument.Printable
  directives : ∀ directive ∈ parts.directives, directive.Printable
  set : parts.selections = [] ∨ ∃ inner, depth = inner + 1 ∧ Document.PrintableBody inner parts.selections

/-- What has been read stays, and the parts under these rules have been read. -/
structure Extends (parts next : Document.Parts) (rules : List Rule) : Prop where
  name : parts.names ≠ [] ∨ .name ∈ rules → next.names ≠ []
  condition : parts.condition? ≠ none ∨ .typeCondition ∈ rules → next.condition? ≠ none
  set : parts.selections ≠ [] ∨ .selectionSet ∈ rules → next.selections ≠ []

theorem Extends.trans {parts next last : Document.Parts} {rules others : List Rule} (first : Extends parts next rules)
    (second : Extends next last others) : Extends parts last (rules ++ others) where
  name has := by
    rw [List.mem_append, ← or_assoc] at has
    exact second.name (has.imp_left first.name)
  condition has := by
    rw [List.mem_append, ← or_assoc] at has
    exact second.condition (has.imp_left first.condition)
  set has := by
    rw [List.mem_append, ← or_assoc] at has
    exact second.set (has.imp_left first.set)

/-- The set of a tree, as far as it is one, is read as printable selections. -/
def ReadsPrintableSet (places : Places) (tree : SyntaxTree) : Prop :=
  ∀ left leftAfter items, tree = .branch .selectionSet left leftAfter items → ∀ inner selections,
    Document.readSelections places inner items = .ok selections → Document.PrintableBody inner selections

theorem forall_append_singleton {Item : Type} {property : Item → Prop} {items : List Item} {last : Item}
    (areAll : ∀ item ∈ items, property item) (isLast : property last) : ∀ item ∈ items ++ [last], property item := by
  intro item member
  rcases List.mem_append.mp member with before | isItem
  · exact areAll item before
  · exact List.mem_singleton.mp isItem ▸ isLast

theorem Yields.fieldAlias (yields : Yields (.call .fieldAlias) [tree]) :
    ∃ left leftAfter leftName text, tree = .branch .fieldAlias left leftAfter [.token .name leftName text] ∧ IsName text := by
  obtain ⟨left, leftAfter, parts, same, isBody⟩ := yields.of_branch rfl
  obtain ⟨names, colon, rfl, isNamed, isColon⟩ := isBody.of_spaced_cons isBlank_isPlain
  obtain ⟨leftName, text, rfl, isName⟩ := Yields.name isNamed
  rw [isColon.of_isPlain rfl] at same
  exact ⟨left, leftAfter, leftName, text, List.singleton_inj.mp same, isName⟩

theorem Yields.typeCondition (yields : Yields (.call .typeCondition) [tree]) :
    ∃ left leftAfter leftName text, tree = .branch .typeCondition left leftAfter [.token .name leftName text] ∧
      IsName text := by
  obtain ⟨left, leftAfter, parts, same, isBody⟩ := yields.of_branch rfl
  obtain ⟨word, more, rfl, isWord, isMore⟩ := isBody.of_both
  obtain ⟨blanks, names, rfl, isBlank, isNamed⟩ := isMore.of_both
  obtain ⟨leftName, text, rfl, isName⟩ := Yields.name isNamed
  rw [isWord.of_isPlain rfl, isBlank.of_isPlain rfl] at same
  exact ⟨left, leftAfter, leftName, text, List.singleton_inj.mp same, isName⟩

theorem printable_of_readPart {parts next : Document.Parts} (isPart : IsPart tree) (ofSet : ReadsPrintableSet places tree)
    (printable : PrintableParts depth parts) (read : Document.readPart places depth parts tree = .ok next) :
    PrintableParts depth next ∧ Extends parts next [tree.rule] := by
  obtain ⟨yields, isRule⟩ := isPart
  generalize ofTree : tree.rule = rule at yields isRule ⊢
  cases rule with
  | name =>
    obtain ⟨left, text, same, isName⟩ := Yields.name yields
    obtain rfl := List.singleton_inj.mp same
    obtain rfl := Except.ok.inj read
    exact ⟨{ printable with names := forall_append_singleton printable.names (isName_ofList isName) },
      by simp, by simp, by simp⟩
  | fieldAlias =>
    obtain ⟨left, leftAfter, leftName, text, rfl, isName⟩ := Yields.fieldAlias yields
    rw [Document.readPart] at read
    obtain rfl := Except.ok.inj read
    refine ⟨{ printable with isAlias := ?_ }, by simp, by simp, by simp⟩
    rintro _ ⟨⟩
    exact isName_ofList isName
  | argument =>
    obtain ⟨left, leftAfter, leftName, name, item, rfl, isName, ofValue⟩ := Yields.argument yields
    rw [Document.readPart] at read
    obtain ⟨value, isRead, same⟩ := bind_eq_ok read
    obtain rfl := Except.ok.inj same
    have ofArgument : Document.Argument.Printable ⟨String.ofList name, places leftName, value, places item.left⟩ :=
      ⟨isName_ofList isName, ofValue places value isRead⟩
    exact ⟨{ printable with arguments := forall_append_singleton printable.arguments ofArgument },
      by simp, by simp, by simp⟩
  | directive =>
    obtain ⟨left, leftAfter, inner, rfl, ofParts⟩ := Yields.directive yields
    rw [Document.readPart] at read
    obtain ⟨directive, isRead, same⟩ := bind_eq_ok read
    obtain rfl := Except.ok.inj same
    exact ⟨{ printable with directives := forall_append_singleton printable.directives (ofParts places directive isRead) },
      by simp, by simp, by simp⟩
  | variableDefinition =>
    obtain ⟨left, leftAfter, inner, rfl, ofParts⟩ := Yields.variableDefinition yields
    rw [Document.readPart] at read
    obtain ⟨definition, isRead, same⟩ := bind_eq_ok read
    obtain rfl := Except.ok.inj same
    have ofDefinition := ofParts places definition isRead
    exact ⟨{ printable with
      variableDefinitions := forall_append_singleton printable.variableDefinitions ofDefinition }, by simp, by simp, by simp⟩
  | typeCondition =>
    obtain ⟨left, leftAfter, leftName, text, rfl, isName⟩ := Yields.typeCondition yields
    rw [Document.readPart] at read
    obtain rfl := Except.ok.inj read
    refine ⟨{ printable with condition := ?_ }, by simp, by simp, by simp⟩
    rintro _ ⟨⟩
    exact isName_ofList isName
  | operationType =>
    obtain ⟨input, rest, isMatch⟩ := yields
    obtain ⟨left, text, _, _, same, _⟩ := token_of_accepts rfl isMatch
    obtain rfl := List.singleton_inj.mp same
    obtain rfl := Except.ok.inj read
    exact ⟨{ printable with }, by simp, by simp, by simp⟩
  | selectionSet =>
    obtain ⟨left, leftAfter, items, same, _⟩ := Yields.of_branch rfl yields
    obtain rfl := List.singleton_inj.mp same
    cases depth with
    | zero => cases read
    | succ inner =>
      rw [Document.readPart] at read
      obtain ⟨selections, isRead, same⟩ := bind_eq_ok read
      obtain rfl := Except.ok.inj same
      have body := ofSet left leftAfter items rfl inner selections isRead
      exact ⟨{ printable with set := .inr ⟨inner, rfl, body⟩ }, by simp, by simp, fun _ => body.1⟩
  | _ => cases isRule

theorem printable_of_readParts {parts last : Document.Parts} (areParts : ∀ tree ∈ trees, IsPart tree)
    (ofSets : ∀ tree ∈ trees, ReadsPrintableSet places tree) (printable : PrintableParts depth parts)
    (read : Document.readParts places depth parts trees = .ok last) :
    PrintableParts depth last ∧ Extends parts last (trees.map Grammar.SyntaxTree.rule) := by
  induction trees generalizing parts with
  | nil =>
    rw [Document.readParts] at read
    obtain rfl := Except.ok.inj read
    exact ⟨printable, by simp, by simp, by simp⟩
  | cons tree rest ih =>
    rw [Document.readParts] at read
    obtain ⟨next, isRead, more⟩ := bind_eq_ok read
    obtain ⟨ofNext, first⟩ := printable_of_readPart (areParts tree List.mem_cons_self) (ofSets tree List.mem_cons_self)
      printable isRead
    obtain ⟨ofLast, others⟩ := ih (fun other member => areParts other (List.mem_cons_of_mem _ member))
      (fun other member => ofSets other (List.mem_cons_of_mem _ member)) ofNext more
    exact ⟨ofLast, first.trans others⟩

theorem printableParts_empty : PrintableParts depth {} :=
  ⟨by simp, nofun, nofun, by simp, by simp, by simp, .inl rfl⟩

end Parts

section Selections

variable {tree : SyntaxTree} {places : Places} {depth : Nat}

theorem Yields.field (yields : Yields (.call .field) [tree]) :
    ∃ left leftAfter parts, tree = .branch .field left leftAfter parts ∧ (∀ part ∈ parts, IsPart part) ∧
      .name ∈ parts.map Grammar.SyntaxTree.rule := by
  obtain ⟨left, leftAfter, parts, same, isBody⟩ := yields.of_branch rfl
  refine ⟨left, leftAfter, parts, List.singleton_inj.mp same, ?_, rule_mem_of_spaced (by decide) (by simp) isBody⟩
  refine LeavesParts.spaced (fun part member => ?_) parts isBody
  simp only [List.mem_cons, List.not_mem_nil, or_false] at member
  rcases member with rfl | rfl | rfl | rfl | rfl
  · exact .option (.call (by decide) rfl)
  · exact .call (by decide) rfl
  · exact leavesParts_arguments
  · exact leavesParts_directives
  · exact .option (.call (by decide) rfl)

theorem Yields.fragmentSpread (yields : Yields (.call .fragmentSpread) [tree]) :
    ∃ left leftAfter parts, tree = .branch .fragmentSpread left leftAfter parts ∧ (∀ part ∈ parts, IsPart part) ∧
      .name ∈ parts.map Grammar.SyntaxTree.rule := by
  obtain ⟨left, leftAfter, parts, same, isBody⟩ := yields.of_branch rfl
  refine ⟨left, leftAfter, parts, List.singleton_inj.mp same, ?_, rule_mem_of_spaced (by decide) (by simp) isBody⟩
  refine LeavesParts.spaced (fun part member => ?_) parts isBody
  simp only [List.mem_cons, List.not_mem_nil, or_false] at member
  rcases member with rfl | rfl | rfl | rfl
  · exact .plain rfl
  · exact .plain rfl
  · exact .call (by decide) rfl
  · exact leavesParts_directives

theorem Yields.inlineFragment (yields : Yields (.call .inlineFragment) [tree]) :
    ∃ left leftAfter parts, tree = .branch .inlineFragment left leftAfter parts ∧ (∀ part ∈ parts, IsPart part) ∧
      .selectionSet ∈ parts.map Grammar.SyntaxTree.rule := by
  obtain ⟨left, leftAfter, parts, same, isBody⟩ := yields.of_branch rfl
  refine ⟨left, leftAfter, parts, List.singleton_inj.mp same, ?_, rule_mem_of_spaced (by decide) (by simp) isBody⟩
  refine LeavesParts.spaced (fun part member => ?_) parts isBody
  simp only [List.mem_cons, List.not_mem_nil, or_false] at member
  rcases member with rfl | rfl | rfl | rfl
  · exact .plain rfl
  · exact .option (.call (by decide) rfl)
  · exact leavesParts_directives
  · exact .call (by decide) rfl

theorem Yields.selection {trees : List SyntaxTree} (yields : Yields (.call .selection) trees) :
    Yields (.call .field) trees ∨ Yields (.call .inlineFragment) trees ∨ Yields (.call .fragmentSpread) trees := by
  have isChoice : Yields (.choice ([Rule.field, .inlineFragment, .fragmentSpread].map .call)) trees :=
    Yields.of_spliced rfl yields
  obtain ⟨rule, member, isRule⟩ := isChoice.of_choice
  simp only [List.mem_cons, List.not_mem_nil, or_false] at member
  rcases member with rfl | rfl | rfl
  · exact .inl isRule
  · exact .inr (.inl isRule)
  · exact .inr (.inr isRule)

theorem Yields.selectionSet {left leftAfter : Nat} {items : List SyntaxTree}
    (yields : Yields (.call .selectionSet) [.branch .selectionSet left leftAfter items]) :
    items ≠ [] ∧ ∀ item ∈ items, Yields (.call .selection) [item] := by
  obtain ⟨_, _, parts, same, isBody⟩ := yields.of_branch rfl
  cases same
  have single : (Expression.call .selection).IsSingle grammar.match? := by
    intro trees yields
    rcases Yields.selection yields with isField | isInline | isSpread
    · exact isSingle_branch rfl trees isField
    · exact isSingle_branch rfl trees isInline
    · exact isSingle_branch rfl trees isSpread
  exact isBody.of_within.of_someSpaced isBlank_isPlain single

/-- A tree, as far as it is one of a selection, is read as a printable selection. -/
def ReadsPrintableSelection (places : Places) (tree : SyntaxTree) : Prop :=
  Yields (.call .selection) [tree] → ∀ depth selection?, Document.readSelection places depth tree = .ok selection? →
    ∃ selection, selection? = some selection ∧ selection.Printable depth

theorem printable_of_readSelections {items : List SyntaxTree} {selections : List Document.Selection}
    (areSelections : ∀ item ∈ items, Yields (.call .selection) [item])
    (inner : ∀ item ∈ items, ReadsPrintableSelection places item)
    (read : Document.readSelections places depth items = .ok selections) :
    (items ≠ [] → selections ≠ []) ∧ ∀ selection ∈ selections, selection.Printable depth := by
  induction items generalizing selections with
  | nil =>
    rw [Document.readSelections] at read
    cases Except.ok.inj read
    simp
  | cons item rest ih =>
    rw [Document.readSelections] at read
    obtain ⟨selection?, isRead, more⟩ := bind_eq_ok read
    obtain ⟨others, readOthers, same⟩ := bind_eq_ok more
    obtain ⟨selection, rfl, printable⟩ :=
      inner item List.mem_cons_self (areSelections item List.mem_cons_self) depth selection? isRead
    obtain rfl := Except.ok.inj same
    have ofOthers := ih (fun other member => areSelections other (List.mem_cons_of_mem _ member))
      (fun other member => inner other (List.mem_cons_of_mem _ member)) readOthers
    exact ⟨by simp, List.forall_mem_cons.mpr ⟨printable, ofOthers.2⟩⟩

theorem readsPrintableSet (isPart : IsPart tree)
    (inner : ∀ item ∈ SyntaxTree.parts tree, ReadsPrintableSelection places item) : ReadsPrintableSet places tree := by
  rintro left leftAfter items rfl depth selections read
  obtain ⟨notEmpty, areSelections⟩ := Yields.selectionSet isPart.1
  have printable := printable_of_readSelections areSelections inner read
  exact ⟨printable.1 notEmpty, printable.2⟩

theorem PrintableParts.isName {parts : Document.Parts} (printable : PrintableParts depth parts) (named : parts.names ≠ []) :
    IsName parts.name.toList := by
  cases isNames : parts.names with
  | nil => exact absurd isNames named
  | cons name others =>
    have isName := printable.names name (by simp [isNames])
    simpa [Document.Parts.name, isNames] using isName

theorem printable_of_readSelection (tree : SyntaxTree) : ReadsPrintableSelection places tree := by
  induction tree using SyntaxTree.inside with
  | step tree ih =>
    intro yields depth selection? read
    have ofSets (part : SyntaxTree) (member : part ∈ SyntaxTree.parts tree) (isPart : IsPart part) :
        ReadsPrintableSet places part := readsPrintableSet isPart (ih part member).2
    rcases Yields.selection yields with isField | isInline | isSpread
    · obtain ⟨left, leftAfter, inner, rfl, areParts, named⟩ := Yields.field isField
      rw [Document.readSelection] at read
      obtain ⟨parts, isRead, same⟩ := bind_eq_ok read
      obtain rfl := Except.ok.inj same
      obtain ⟨printable, extend⟩ := printable_of_readParts areParts
        (fun part member => ofSets part member (areParts part member)) printableParts_empty isRead
      have isName := printable.isName (extend.name (.inr named))
      refine ⟨_, rfl, ?_⟩
      rcases printable.set with empty | ⟨below, rfl, body⟩
      · rw [empty]
        exact .leaf printable.isAlias isName printable.arguments printable.directives
      · exact .field printable.isAlias isName printable.arguments printable.directives body.1 body.2
    · obtain ⟨left, leftAfter, inner, rfl, areParts, hasSet⟩ := Yields.inlineFragment isInline
      rw [Document.readSelection] at read
      obtain ⟨parts, isRead, same⟩ := bind_eq_ok read
      obtain rfl := Except.ok.inj same
      obtain ⟨printable, extend⟩ := printable_of_readParts areParts
        (fun part member => ofSets part member (areParts part member)) printableParts_empty isRead
      obtain ⟨below, rfl, body⟩ := printable.set.resolve_left (extend.set (.inr hasSet))
      exact ⟨_, rfl, .inline printable.condition printable.directives body.1 body.2⟩
    · obtain ⟨left, leftAfter, inner, rfl, areParts, named⟩ := Yields.fragmentSpread isSpread
      rw [Document.readSelection] at read
      obtain ⟨parts, isRead, same⟩ := bind_eq_ok read
      obtain rfl := Except.ok.inj same
      obtain ⟨printable, extend⟩ := printable_of_readParts areParts
        (fun part member => ofSets part member (areParts part member)) printableParts_empty isRead
      exact ⟨_, rfl, .spread (printable.isName (extend.name (.inr named))) printable.directives⟩

end Selections

section Definitions

variable {tree : SyntaxTree} {places : Places}

theorem readsPrintableSet_of_isPart (isPart : IsPart tree) : ReadsPrintableSet places tree :=
  readsPrintableSet isPart fun item _ => printable_of_readSelection item

theorem PrintableParts.body {parts : Document.Parts} (printable : PrintableParts Document.maximalDepth parts)
    (hasSet : parts.selections ≠ []) : Document.PrintableBody 64 parts.selections := by
  obtain ⟨inner, isDepth, body⟩ := printable.set.resolve_left hasSet
  cases isDepth
  exact body

theorem Yields.namedOperation (yields : Yields (.call .namedOperation) [tree]) :
    ∃ left leftAfter parts, tree = .branch .namedOperation left leftAfter parts ∧ (∀ part ∈ parts, IsPart part) ∧
      .selectionSet ∈ parts.map Grammar.SyntaxTree.rule := by
  obtain ⟨left, leftAfter, parts, same, isBody⟩ := yields.of_branch rfl
  refine ⟨left, leftAfter, parts, List.singleton_inj.mp same, ?_, rule_mem_of_spaced (by decide) (by simp) isBody⟩
  refine LeavesParts.spaced (fun part member => ?_) parts isBody
  simp only [List.mem_cons, List.not_mem_nil, or_false] at member
  rcases member with rfl | rfl | rfl | rfl | rfl
  · exact .call (by decide) rfl
  · exact .option (.call (by decide) rfl)
  · exact leavesParts_variables
  · exact leavesParts_directives
  · exact .call (by decide) rfl

theorem Yields.fragmentDefinition (yields : Yields (.call .fragmentDefinition) [tree]) :
    ∃ left leftAfter parts, tree = .branch .fragmentDefinition left leftAfter parts ∧ (∀ part ∈ parts, IsPart part) ∧
      ∀ rule ∈ [Rule.name, .typeCondition, .selectionSet], rule ∈ parts.map Grammar.SyntaxTree.rule := by
  obtain ⟨left, leftAfter, parts, same, isBody⟩ := yields.of_branch rfl
  refine ⟨left, leftAfter, parts, List.singleton_inj.mp same, ?_, fun rule member => ?_⟩
  · refine LeavesParts.spaced (fun part member => ?_) parts isBody
    simp only [List.mem_cons, List.not_mem_nil, or_false] at member
    rcases member with rfl | rfl | rfl | rfl | rfl
    · exact .plain rfl
    · exact .call (by decide) rfl
    · exact .call (by decide) rfl
    · exact leavesParts_directives
    · exact .call (by decide) rfl
  · simp only [List.mem_cons, List.not_mem_nil, or_false] at member
    rcases member with rfl | rfl | rfl <;> exact rule_mem_of_spaced (by decide) (by simp) isBody

theorem Yields.executableDefinition {trees : List SyntaxTree} (yields : Yields (.call .executableDefinition) trees) :
    Yields (.call .namedOperation) trees ∨ Yields (.call .selectionSet) trees ∨ Yields (.call .fragmentDefinition) trees := by
  have isEither : Yields (Rule.body .executableDefinition) trees := Yields.of_spliced rfl yields
  rcases isEither.of_either with isOperation | isFragment
  · have isBody : Yields (Rule.body .operationDefinition) trees := Yields.of_spliced rfl isOperation
    rcases isBody.of_either with isNamed | isSet
    · exact .inl isNamed
    · exact .inr (.inl isSet)
  · exact .inr (.inr isFragment)

theorem printable_of_readDefinition {definition? : Option Document.Definition}
    (yields : Yields (.call .executableDefinition) [tree])
    (read : Document.readDefinition places tree = .ok definition?) : ∀ definition ∈ definition?, definition.Printable := by
  rcases Yields.executableDefinition yields with isOperation | isSet | isFragment
  · obtain ⟨left, leftAfter, inner, rfl, areParts, hasSet⟩ := Yields.namedOperation isOperation
    rw [Document.readDefinition] at read
    obtain ⟨parts, isRead, same⟩ := bind_eq_ok read
    obtain rfl := Except.ok.inj same
    obtain ⟨printable, extend⟩ := printable_of_readParts areParts
      (fun part member => readsPrintableSet_of_isPart (areParts part member)) printableParts_empty isRead
    rintro _ ⟨⟩
    refine ⟨fun name isName => printable.names name (List.mem_of_mem_head? isName), printable.variableDefinitions,
      printable.directives, printable.body (extend.set (.inr hasSet))⟩
  · obtain ⟨left, leftAfter, items, same, _⟩ := Yields.of_branch rfl isSet
    obtain rfl := List.singleton_inj.mp same
    have isPart := isPart_of_yields (by decide) rfl isSet
    rw [Document.readDefinition] at read
    obtain ⟨parts, isRead, same⟩ := bind_eq_ok read
    obtain rfl := Except.ok.inj same
    obtain ⟨printable, extend⟩ := printable_of_readParts (List.forall_mem_singleton.mpr isPart)
      (List.forall_mem_singleton.mpr (readsPrintableSet_of_isPart isPart)) printableParts_empty isRead
    rintro _ ⟨⟩
    exact ⟨nofun, by simp, by simp, printable.body (extend.set (.inr List.mem_cons_self))⟩
  · obtain ⟨left, leftAfter, inner, rfl, areParts, has⟩ := Yields.fragmentDefinition isFragment
    rw [Document.readDefinition] at read
    obtain ⟨parts, isRead, same⟩ := bind_eq_ok read
    obtain rfl := Except.ok.inj same
    obtain ⟨printable, extend⟩ := printable_of_readParts areParts
      (fun part member => readsPrintableSet_of_isPart (areParts part member)) printableParts_empty isRead
    have named := extend.name (.inr (has .name (by simp)))
    have conditioned := extend.condition (.inr (has .typeCondition (by simp)))
    obtain ⟨condition, isCondition⟩ := Option.ne_none_iff_exists'.mp conditioned
    rintro _ ⟨⟩
    refine ⟨printable.isName named, ?_, printable.directives, printable.body (extend.set (.inr (has .selectionSet (by simp))))⟩
    simpa [isCondition] using printable.condition condition isCondition

end Definitions

section Documents

theorem mem_of_mapM_eq_ok {Error Item Result : Type} {f : Item → Except Error Result} {items : List Item}
    {results : List Result} (mapped : items.mapM f = .ok results) :
    ∀ result ∈ results, ∃ item ∈ items, f item = .ok result := by
  induction items generalizing results with
  | nil =>
    cases Except.ok.inj mapped
    simp
  | cons item rest ih =>
    rw [List.mapM_cons] at mapped
    obtain ⟨first, isFirst, more⟩ := bind_eq_ok mapped
    obtain ⟨others, areOthers, same⟩ := bind_eq_ok more
    obtain rfl := Except.ok.inj same
    refine List.forall_mem_cons.mpr ⟨⟨item, List.mem_cons_self, isFirst⟩, fun result member => ?_⟩
    obtain ⟨other, inRest, isOther⟩ := ih areOthers result member
    exact ⟨other, List.mem_cons_of_mem _ inRest, isOther⟩

theorem Yields.executableDocument {trees : List SyntaxTree} (yields : Yields (.call .executableDocument) trees) :
    ∀ tree ∈ trees, Yields (.call .executableDefinition) [tree] := by
  have isBody : Yields (Rule.body .executableDocument) trees := yields.of_spliced rfl
  obtain ⟨start, more, rfl, isStart, isMore⟩ := isBody.of_spaced_cons isBlank_isPlain
  obtain ⟨definitions, stop, rfl, areDefinitions, isEnd⟩ := isMore.of_spaced_cons isBlank_isPlain
  have isNothing : Yields (Rule.body .endOfInput) stop := Yields.of_spliced rfl isEnd
  rw [isStart.of_isPlain rfl, isNothing.of_isPlain rfl, List.nil_append, List.append_nil]
  have single : (Expression.call .executableDefinition).IsSingle grammar.match? := by
    intro trees yields
    rcases Yields.executableDefinition yields with isOperation | isSet | isFragment
    · exact isSingle_branch rfl trees isOperation
    · exact isSingle_branch rfl trees isSet
    · exact isSingle_branch rfl trees isFragment
  exact (areDefinitions.of_someSpaced isBlank_isPlain single).2

theorem accepts_of_treesOf {rule : Rule} {text : List Char} {trees : List SyntaxTree}
    (isTree : Document.treesOf rule text = .ok trees) : ∃ rest, Accepts (.call rule) text trees rest := by
  unfold Document.treesOf at isTree
  split at isTree
  · rename_i found isParsed
    obtain rfl := Except.ok.inj isTree
    exact Grammar.parse_eq_ok.mp isParsed
  · cases isTree

theorem printable_of_parseOperations {text : List Char} {definitions : List Document.Definition}
    (parsed : Document.parseOperations text = .ok definitions) : ∀ definition ∈ definitions, definition.Printable := by
  unfold Document.parseOperations at parsed
  obtain ⟨trees, areTrees, more⟩ := bind_eq_ok parsed
  obtain ⟨read, areRead, more⟩ := bind_eq_ok more
  obtain ⟨collected, isFolded, isLast⟩ := bind_eq_ok more
  obtain ⟨rest, isMatch⟩ := accepts_of_treesOf areTrees
  intro definition member
  have inCollected : definition ∈ collected.definitions := by
    split at isLast
    · cases isLast
    · exact Except.ok.inj isLast ▸ member
  have inRead := (Document.Collected.perm_of_foldlM_add isFolded).subset inCollected
  obtain ⟨definition?, isSome, same⟩ := List.mem_filterMap.mp inRead
  obtain ⟨tree, inTrees, isRead⟩ := mem_of_mapM_eq_ok areRead definition? isSome
  exact printable_of_readDefinition (Yields.executableDocument isMatch.yields tree inTrees) isRead definition same

/-- Whatever is read from a text is printable. -/
theorem Document.printable_of_parse {text : String} {document : Document} (parsed : Document.parse text = .ok document) :
    document.Printable := by
  have ofOrdered {definitions : List Document.Definition} (printable : ∀ definition ∈ definitions, definition.Printable) :
      (Document.inOrder definitions).Printable :=
    fun definition member => printable definition ((sorted_perm _ definitions).subset member)
  unfold Document.parse at parsed
  split at parsed
  · rename_i definitions areParsed
    exact Except.ok.inj parsed ▸ ofOrdered (printable_of_parseOperations areParsed)
  · obtain ⟨definitions, areParsed, same⟩ := bind_eq_ok parsed
    refine Except.ok.inj same ▸ ofOrdered fun definition member => ?_
    exact printable_of_parseOperations areParsed definition (List.mem_of_mem_filter member)
  · cases parsed

end Documents

end Graphql

end SiteQuery
