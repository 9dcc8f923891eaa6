import SiteQuery.Proofs.Graphql.Nodes
import SiteQuery.Proofs.Graphql.ReadBack
import SiteQuery.Proofs.Graphql.Spreading
import SiteQuery.Proofs.Graphql.Throughout

/-!
Selections that a document can have: of fields that the schema defines, with names and numbers that can be read.

What is formed like this is printed so that it is read back, and converted back to what it was; and the normal form
is formed like the selections that it comes from.
-/

namespace SiteQuery.Graphql

@[simp] theorem Argument.ofWritten_written (argument : Argument) : ofWritten argument.written = argument := rfl

@[simp] theorem Directive.ofWritten_written (directive : Directive) : ofWritten directive.written = directive := by
  simp [ofWritten, written, Function.comp_def]

theorem AllReadBack.join {first second : List Decimal.Binary64} (ofFirst : AllReadBack first)
    (ofSecond : AllReadBack second) : AllReadBack (first ++ second) := fun number member =>
  (List.mem_append.mp member).elim (ofFirst number) (ofSecond number)

theorem allReadBack_flatMap {Item : Type} {items : List Item} {numbers : Item → List Decimal.Binary64}
    (each : ∀ item ∈ items, AllReadBack (numbers item)) : AllReadBack (items.flatMap numbers) := by
  intro number member
  obtain ⟨item, inItems, inNumbers⟩ := List.mem_flatMap.mp member
  exact each item inItems number inNumbers

namespace Selection

/-- A selection as a document has it, whatever is below. -/
inductive Fits (schema : Schema) (parent : String) : Selection → Prop
  | field {alias? name arguments directives selections} {definition : FieldDefinition}
      (defined : schema.field? parent name = some definition)
      (declared : Conversion.argumentViolations definition parent name (arguments.map Argument.written) = [])
      (isAlias : ∀ key ∈ alias?, IsName key.toList) (isName : IsName name.toList)
      (ofArguments : ∀ argument ∈ arguments.map Argument.written, argument.Printable)
      (ofDirectives : ∀ directive ∈ directives.map Directive.written, directive.Printable)
      (argumentsRead : AllReadBack (arguments.flatMap (·.value.rounded)))
      (directivesRead : AllReadBack (directives.flatMap Directive.rounded)) :
      Fits schema parent (.field alias? name arguments directives definition.type.name selections)
  | spread {name directives} (isName : IsName name.toList) (notOn : name ≠ "on")
      (ofDirectives : ∀ directive ∈ directives.map Directive.written, directive.Printable)
      (directivesRead : AllReadBack (directives.flatMap Directive.rounded)) :
      Fits schema parent (.spread name directives)
  | inline {condition? directives selections} (isType : ∀ condition ∈ condition?, IsName condition.toList)
      (ofDirectives : ∀ directive ∈ directives.map Directive.written, directive.Printable)
      (directivesRead : AllReadBack (directives.flatMap Directive.rounded)) :
      Fits schema parent (.inline condition? directives selections)

variable {schema : Schema} {depth : Nat} {parent : String} {selection : Selection}

theorem isLocal_fits (schema : Schema) : IsLocal (Fits schema) where
  withSelections inner fits := by
    cases fits with
    | field defined declared isAlias isName ofArguments ofDirectives argumentsRead directivesRead =>
      exact .field defined declared isAlias isName ofArguments ofDirectives argumentsRead directivesRead
    | spread isName notOn ofDirectives directivesRead => exact .spread isName notOn ofDirectives directivesRead
    | inline isType ofDirectives directivesRead => exact .inline isType ofDirectives directivesRead
  typeBelow ofFirst ofOther same := by
    cases ofFirst with
    | field defined =>
      obtain ⟨_, _, _, _, _, rfl, _⟩ := samePlace_field same
      cases ofOther with
      | field otherDefined =>
        cases defined.symm.trans otherDefined
        rfl
    | spread =>
      obtain ⟨_, rfl, _⟩ := samePlace_spread same
      rfl
    | inline =>
      obtain ⟨_, _, rfl, _⟩ := samePlace_inline same
      rfl

theorem writtenAll_ne_nil {selections : List Selection} (notEmpty : selections ≠ []) : writtenAll selections ≠ [] := by
  rw [writtenAll_eq]
  simpa using notEmpty

theorem Throughout.printable (formed : Throughout (Fits schema) depth parent selection) :
    selection.written.Printable depth := by
  induction formed with
  | @intro depth parent selection here filled deep _ ih =>
    have ofBelow : ∀ written ∈ writtenAll selection.selections, written.Printable (depth - 1) := by
      rw [writtenAll_eq]
      exact List.forall_mem_map.mpr ih
    have oneMore (notEmpty : selection.selections ≠ []) : depth = depth - 1 + 1 :=
      (Nat.succ_pred_eq_of_pos (deep notEmpty)).symm
    cases here with
    | @field alias? name arguments directives selections definition _ _ isAlias isName ofArguments ofDirectives _ _ =>
      by_cases empty : selections = []
      · subst empty
        exact .leaf isAlias isName ofArguments ofDirectives
      · rw [oneMore empty]
        exact .field isAlias isName ofArguments ofDirectives (writtenAll_ne_nil empty) ofBelow
    | spread isName _ ofDirectives _ => exact .spread isName ofDirectives
    | @inline condition? directives selections isType ofDirectives _ =>
      rw [oneMore (filled rfl)]
      refine .inline ?_ ofDirectives (writtenAll_ne_nil (filled rfl)) ofBelow
      intro condition isCondition
      obtain ⟨type, isWritten, rfl⟩ := Option.map_eq_some_iff.mp isCondition
      exact isType type isWritten

theorem Throughout.readBack (formed : Throughout (Fits schema) depth parent selection) : AllReadBack selection.rounded := by
  induction formed with
  | @intro depth parent selection here _ _ _ ih =>
    have ofBelow : AllReadBack (roundedAll selection.selections) := by
      rw [roundedAll_eq]
      exact allReadBack_flatMap ih
    cases here with
    | field _ _ _ _ _ _ argumentsRead directivesRead => exact (argumentsRead.join directivesRead).join ofBelow
    | spread _ _ _ directivesRead => exact directivesRead
    | inline _ _ directivesRead => exact directivesRead.join ofBelow

theorem areReadable_of_forall {selections : List Selection}
    (each : ∀ selection ∈ selections, selection.isReadable = true ∧ selection.isBareOn = false) :
    areReadable selections = true := by
  induction selections with
  | nil => rfl
  | cons first rest ih =>
    obtain ⟨⟨readable, notBareOn⟩, ofRest⟩ := List.forall_mem_cons.mp each
    simp [areReadable, readable, notBareOn, ih ofRest]

theorem Fits.isBareOn_eq (fits : Fits schema parent selection) : selection.isBareOn = false := by
  cases fits with
  | field => rfl
  | spread _ notOn => simp [isBareOn, notOn]
  | inline => rfl

theorem Throughout.isReadable (formed : Throughout (Fits schema) depth parent selection) :
    selection.isReadable = true := by
  induction formed with
  | @intro depth parent selection _ _ _ below ih =>
    have ofBelow : areReadable selection.selections = true :=
      areReadable_of_forall fun inner member => ⟨ih inner member, (below inner member).here.isBareOn_eq⟩
    cases selection with
    | field => exact ofBelow
    | spread => rfl
    | inline => exact ofBelow

theorem areReadable_of_formed {selections : List Selection}
    (formed : ∀ selection ∈ selections, selection.Throughout (Fits schema) depth parent) :
    areReadable selections = true :=
  areReadable_of_forall fun selection member =>
    ⟨(formed selection member).isReadable, (formed selection member).here.isBareOn_eq⟩

end Selection

namespace Conversion

variable {schema : Schema} {depth : Nat} {parent : String}

theorem ofVariable_written (definition : Variable) : ofVariable definition.written = definition := by
  obtain ⟨name, type, default?, directives⟩ := definition
  cases default? <;> simp [ofVariable, Variable.written, Function.comp_def]

theorem selections_writtenAll {converted : List Selection}
    (each : ∀ found ∈ converted, selection schema parent found.written = ⟨some found, []⟩) :
    selections schema parent (Selection.writtenAll converted) = ⟨converted, []⟩ := by
  induction converted with
  | nil => rfl
  | cons first rest ih =>
    obtain ⟨ofFirst, ofRest⟩ := List.forall_mem_cons.mp each
    simp [Selection.writtenAll, selections, ofFirst, ih ofRest]

/-- What is formed is converted back to what it was. -/
theorem selection_written {converted : Selection} (formed : converted.Throughout (Selection.Fits schema) depth parent) :
    selection schema parent converted.written = ⟨some converted, []⟩ := by
  induction formed with
  | @intro depth parent converted here _ _ _ ih =>
    have ofBelow := selections_writtenAll ih
    cases here with
    | field defined declared =>
      simp only [Selection.typeBelow, Selection.selections] at ofBelow
      simp [Selection.written, selection, defined, declared, ofBelow, Function.comp_def]
    | spread => simp [Selection.written, selection, Function.comp_def]
    | @inline condition? directives selections =>
      have sameType : (condition?.map fun type => (⟨type, .start⟩ : Document.Condition)).map (·.name) = condition? := by
        cases condition? <;> rfl
      simp only [Selection.typeBelow, Selection.selections] at ofBelow
      simp [Selection.written, selection, sameType, ofBelow, Function.comp_def]

theorem mem_result_selections {written : List Document.Selection}
    (accepted : (selections schema parent written).violations = []) {found : Selection}
    (member : found ∈ (selections schema parent written).result) :
    ∃ origin ∈ written, (selection schema parent origin).violations = [] ∧
      (selection schema parent origin).result = some found := by
  induction written with
  | nil => cases member
  | cons first rest ih =>
    simp only [selections, List.append_eq_nil_iff, List.mem_append, Option.mem_toList] at accepted member
    rcases member with ofFirst | inRest
    · exact ⟨first, List.mem_cons_self, accepted.1, ofFirst⟩
    · obtain ⟨origin, inWritten, isAccepted, isFound⟩ := ih accepted.2 inRest
      exact ⟨origin, List.mem_cons_of_mem _ inWritten, isAccepted, isFound⟩

theorem result_selections_ne_nil {written : List Document.Selection}
    (accepted : (selections schema parent written).violations = []) (notEmpty : written ≠ []) :
    (selections schema parent written).result ≠ [] := by
  have same := writtenAll_selections schema parent written accepted
  intro empty
  rw [empty] at same
  cases written with
  | nil => exact notEmpty rfl
  | cons => cases same

theorem printable_ofWritten {directives : List Document.Directive}
    (printable : ∀ directive ∈ directives, directive.Printable) :
    ∀ directive ∈ (directives.map Directive.ofWritten).map Directive.written, directive.Printable := by
  simpa [Function.comp_def] using Document.printable_map_unplaced printable

/-- A field is formed as far as what is below it. -/
theorem fits_field {alias? : Option String} {name : String} {arguments : List Document.Argument}
    {directives : List Document.Directive} {below : List Selection} {definition : FieldDefinition}
    (defined : schema.field? parent name = some definition)
    (declared : argumentViolations definition parent name arguments = [])
    (isAlias : ∀ key ∈ alias?, IsName key.toList) (isName : IsName name.toList)
    (ofArguments : ∀ argument ∈ arguments, argument.Printable) (ofDirectives : ∀ directive ∈ directives, directive.Printable)
    (readBack : AllReadBack (Selection.field alias? name (arguments.map .ofWritten) (directives.map .ofWritten)
      definition.type.name below).rounded) :
    Selection.Fits schema parent
      (.field alias? name (arguments.map .ofWritten) (directives.map .ofWritten) definition.type.name below) := by
  have sameArguments : (arguments.map Argument.ofWritten).map Argument.written =
      arguments.map Document.Argument.unplaced := by simp
  obtain ⟨argumentsRead, directivesRead⟩ := readBack.append.1.append
  refine .field defined ?_ isAlias isName ?_ (printable_ofWritten ofDirectives) argumentsRead directivesRead
  · rw [sameArguments, argumentViolations_unplaced, declared, List.map_nil]
  · rw [sameArguments]
    exact List.forall_mem_map.mpr fun argument member =>
      ⟨(ofArguments argument member).name, (ofArguments argument member).value⟩

/-- Selections of a document are formed, where their numbers are read back and nothing is spread under the name `on`. -/
theorem throughout_of_converted {written : Document.Selection} (printable : written.Printable depth)
    (accepted : (selection schema parent written).violations = []) {converted : Selection}
    (isResult : (selection schema parent written).result = some converted) (readBack : AllReadBack converted.rounded)
    (notOn : "on" ∉ converted.spreads) : converted.Throughout (Selection.Fits schema) depth parent := by
  induction printable generalizing parent converted with
  | @leaf depth position alias? name arguments directives bodyPosition isAlias isName ofArguments ofDirectives =>
    cases known : schema.field? parent name with
    | none => simp [selection, known] at accepted
    | some definition =>
      simp only [selection, known, Option.some.injEq, List.append_eq_nil_iff] at isResult accepted
      subst isResult
      exact .of_empty (fits_field known accepted.1 isAlias isName ofArguments ofDirectives readBack) rfl rfl
  | @field depth position alias? name arguments directives bodyPosition inner isAlias isName ofArguments ofDirectives
      _ _ ih =>
    cases known : schema.field? parent name with
    | none => simp [selection, known] at accepted
    | some definition =>
      simp only [selection, known, Option.some.injEq, List.append_eq_nil_iff] at isResult accepted
      subst isResult
      refine .intro (fits_field known accepted.1 isAlias isName ofArguments ofDirectives readBack)
        (fun isInline => absurd isInline Bool.false_ne_true) (fun _ => Nat.succ_pos depth) fun found member => ?_
      obtain ⟨origin, inInner, isAccepted, isFound⟩ := mem_result_selections accepted.2 member
      have readBelow := readBack.append.2
      rw [Selection.roundedAll_eq] at readBelow
      exact ih origin inInner isAccepted isFound (readBelow.flatMap found member)
        fun spread => notOn (Selection.mem_spreadsIn.mpr ⟨found, member, spread⟩)
  | @spread depth position name directives isName ofDirectives =>
    simp only [selection, Option.some.injEq] at isResult
    subst isResult
    have differs : name ≠ "on" := fun same => notOn (by simp [Selection.spreads, same])
    exact .of_empty (.spread isName differs (printable_ofWritten ofDirectives) readBack) rfl rfl
  | @inline depth position condition? directives inner isType ofDirectives notEmpty _ ih =>
    simp only [selection, Option.some.injEq] at isResult accepted
    subst isResult
    obtain ⟨directivesRead, readBelow⟩ := readBack.append
    have isName : ∀ condition ∈ condition?.map (·.name), IsName condition.toList := by
      intro condition isCondition
      obtain ⟨found, isFound, rfl⟩ := Option.map_eq_some_iff.mp isCondition
      exact isType found isFound
    refine .intro (.inline isName (printable_ofWritten ofDirectives) directivesRead)
      (fun _ => result_selections_ne_nil accepted notEmpty) (fun _ => Nat.succ_pos depth) fun found member => ?_
    obtain ⟨origin, inInner, isAccepted, isFound⟩ := mem_result_selections accepted member
    rw [Selection.roundedAll_eq] at readBelow
    exact ih origin inInner isAccepted isFound (readBelow.flatMap found member)
      fun spread => notOn (Selection.mem_spreadsIn.mpr ⟨found, member, spread⟩)

theorem body_of_converted {written : List Document.Selection} (printable : ∀ origin ∈ written, origin.Printable depth)
    (accepted : (selections schema parent written).violations = [])
    (readBack : AllReadBack (Selection.roundedAll (selections schema parent written).result))
    (notOn : "on" ∉ Selection.spreadsIn (selections schema parent written).result) :
    ∀ found ∈ (selections schema parent written).result, found.Throughout (Selection.Fits schema) depth parent := by
  intro found member
  obtain ⟨origin, inWritten, isAccepted, isFound⟩ := mem_result_selections accepted member
  rw [Selection.roundedAll_eq] at readBack
  exact throughout_of_converted (printable origin inWritten) isAccepted isFound (readBack.flatMap found member)
    fun spread => notOn (Selection.mem_spreadsIn.mpr ⟨found, member, spread⟩)

end Conversion

namespace Node

/-- A node of a document whose text can be read. -/
structure Formed (schema : Schema) (node : Node) : Prop where
  printable : node.written.Printable
  gives : Conversion.Gives schema node.written node
  readBack : AllReadBack node.rounded
  readable : node.Readable
  body : ∀ selection ∈ node.selections, selection.Throughout (Selection.Fits schema) 64 node.type

variable {schema : Schema} {node : Node}

theorem rootType_of_gives {root : Root} (gives : Conversion.Gives schema (Node.root root).written (.root root)) :
    ∃ type, schema.rootType? root.kind = some type ∧ type.name = root.type := by
  obtain ⟨result, accepted⟩ := gives
  cases typed : schema.rootType? root.kind with
  | none => simp [written, Conversion.ofDefinition, Conversion.ofOperation, typed] at accepted
  | some type =>
    simp only [written, Conversion.ofDefinition, Conversion.ofOperation, typed, Option.some.injEq, Node.root.injEq] at result
    exact ⟨type, rfl, congrArg Root.type result⟩

theorem gives_withSelections (gives : Conversion.Gives schema node.written node) {selections : List Selection}
    (converted : Conversion.selections schema node.type (Selection.writtenAll selections) = ⟨selections, []⟩) :
    Conversion.Gives schema (node.withSelections selections).written (node.withSelections selections) := by
  cases node with
  | root root =>
    obtain ⟨type, typed, sameType⟩ := rootType_of_gives gives
    simp only [Node.type] at converted
    constructor <;> simp [withSelections, written, Conversion.ofDefinition, Conversion.ofOperation, typed, converted,
      Function.comp_def, Conversion.ofVariable_written, sameType]
  | fragment fragment =>
    simp only [Node.type] at converted
    constructor <;> simp [withSelections, written, Conversion.ofDefinition, Conversion.ofFragment, converted,
      Function.comp_def]

/-- Other selections are as good, if they are formed as well. -/
theorem Formed.withSelections (formed : node.Formed schema) {selections : List Selection} (notEmpty : selections ≠ [])
    (body : ∀ selection ∈ selections, selection.Throughout (Selection.Fits schema) 64 node.type) :
    (node.withSelections selections).Formed schema := by
  have printableBody : Document.PrintableBody 64 (Selection.writtenAll selections) := by
    refine ⟨Selection.writtenAll_ne_nil notEmpty, ?_⟩
    rw [Selection.writtenAll_eq]
    exact List.forall_mem_map.mpr fun selection member => (body selection member).printable
  have readBody : AllReadBack (Selection.roundedAll selections) := by
    rw [Selection.roundedAll_eq]
    exact allReadBack_flatMap fun selection member => (body selection member).readBack
  have readableBody := Selection.areReadable_of_formed body
  have gives := gives_withSelections formed.gives
    (Conversion.selections_writtenAll fun selection member => Conversion.selection_written (body selection member))
  obtain ⟨printable, _, readBack, readable, _⟩ := formed
  cases node with
  | root root =>
    have isOperation : Document.Operation.Printable _ := printable
    exact ⟨{ isOperation with body := printableBody }, gives, readBack.append.1.join readBody,
      ⟨readable.1, readableBody⟩, body⟩
  | fragment fragment =>
    have isFragment : Document.Fragment.Printable _ := printable
    exact ⟨{ isFragment with body := printableBody }, gives, readBack.append.1.join readBody, readableBody, body⟩

theorem Formed.filled (formed : node.Formed schema) : node.selections ≠ [] := by
  have printable := formed.printable
  cases node with
  | root root =>
    have isOperation : Document.Operation.Printable _ := printable
    rintro empty
    exact isOperation.body.1 (congrArg Selection.writtenAll empty)
  | fragment fragment =>
    have isFragment : Document.Fragment.Printable _ := printable
    rintro empty
    exact isFragment.body.1 (congrArg Selection.writtenAll empty)

theorem Formed.normal (formed : node.Formed schema) : node.normal.Formed schema :=
  formed.withSelections (Selection.normal_ne_nil (Selection.isLocal_fits schema) formed.filled formed.body)
    fun selection member => (Selection.throughout_normal (Selection.isLocal_fits schema) formed.body selection member).of_settled

theorem Formed.normal_normal (formed : node.Formed schema) : node.normal.normal = node.normal := by
  have same := Selection.normal_normal (Selection.isLocal_fits schema) formed.body
  cases node with
  | root root => exact congrArg (fun selections => Node.root { root with selections }) same
  | fragment fragment => exact congrArg (fun selections => Node.fragment { fragment with selections }) same

theorem body_of_gives {definition : Document.Definition} (printable : definition.Printable)
    (gives : Conversion.Gives schema definition node) (readBack : AllReadBack node.rounded) (notOn : "on" ∉ node.spreads) :
    ∀ selection ∈ node.selections, selection.Throughout (Selection.Fits schema) 64 node.type := by
  rw [spreads, List.mem_eraseDups] at notOn
  obtain ⟨result, accepted⟩ := gives
  cases definition with
  | operation operation =>
    have isOperation : operation.Printable := printable
    cases named : operation.name? with
    | none => simp [Conversion.ofDefinition, Conversion.ofOperation, named] at accepted
    | some name =>
      cases typed : schema.rootType? operation.kind with
      | none => simp [Conversion.ofDefinition, Conversion.ofOperation, named, typed] at accepted
      | some type =>
        simp only [Conversion.ofDefinition, Conversion.ofOperation, named, typed, Option.some.injEq] at result accepted
        subst result
        exact Conversion.body_of_converted isOperation.body.2 accepted readBack.append.2 notOn
  | fragment fragment =>
    have isFragment : fragment.Printable := printable
    simp only [Conversion.ofDefinition, Conversion.ofFragment, Option.some.injEq] at result accepted
    subst result
    exact Conversion.body_of_converted isFragment.body.2 accepted readBack.append.2 notOn

/-- A definition that was read gives a node whose text can be read, but for numbers, the name `on` and variables. -/
theorem formed_of_gives {definition : Document.Definition} (printable : definition.Printable)
    (gives : Conversion.Gives schema definition node) (readBack : AllReadBack node.rounded) (notOn : "on" ∉ node.spreads)
    (plain : ∀ operation, definition = .operation operation →
      ∀ written ∈ operation.variableDefinitions, written.default? = none ∨ written.directives = []) :
    node.Formed schema := by
  have body := body_of_gives printable gives readBack notOn
  have isWritten : node.written = definition.unplaced := gives.written
  have agree := Conversion.ofDefinition_unplaced schema definition
  rw [← isWritten] at agree
  have readableBody := Selection.areReadable_of_formed body
  have converted : Conversion.Gives schema node.written node := by
    constructor
    · rw [agree]
      exact gives.result
    · rw [agree]
      exact Reported.accepted_unplaced_iff.mpr gives.accepted
  refine ⟨isWritten ▸ printable.unplaced, converted, readBack, ?_, body⟩
  cases node with
  | fragment => exact readableBody
  | root root =>
    refine ⟨?_, readableBody⟩
    cases definition with
    | fragment => cases isWritten
    | operation operation =>
      have sameVariables : root.variableDefinitions.map Variable.written =
          operation.variableDefinitions.map Document.Variable.unplaced :=
        congrArg Document.Operation.variableDefinitions (Document.Definition.operation.inj isWritten)
      intro declared member
      have inWritten := List.mem_map_of_mem (f := Variable.written) member
      rw [sameVariables] at inWritten
      obtain ⟨written, isVariable, same⟩ := List.mem_map.mp inWritten
      rcases plain operation rfl written isVariable with noDefault | noDirectives
      · have sameDefault := congrArg Document.Variable.default? same
        simp only [Document.Variable.unplaced, Variable.written, noDefault, Option.map_none] at sameDefault
        exact .inl (Option.map_eq_none_iff.mp sameDefault.symm)
      · have sameDirectives := congrArg Document.Variable.directives same
        simp only [Document.Variable.unplaced, Variable.written, noDirectives, List.map_nil] at sameDirectives
        exact .inr (List.map_eq_nil_iff.mp sameDirectives.symm)

end Node

end SiteQuery.Graphql
