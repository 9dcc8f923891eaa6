import SiteQuery.Proofs.Graphql.Parsed
import SiteQuery.Proofs.Graphql.Printing

/-!
The values of a document, and their texts.

Whatever value is read from a text, at any depth, is read back from the text that is printed of it.
-/

namespace SiteQuery.Graphql

/-- A value stands in another, or is it. -/
inductive Value.Within (value : Value) : Value → Prop
  | here : Within value value
  | item {items : List Value} {item : Value} (member : item ∈ items) (inner : Within value item) :
      Within value (.list items)
  | field {fields : List (String × Value)} {field : String × Value} (member : field ∈ fields)
      (inner : Within value field.2) : Within value (.object fields)

namespace Document

def Directive.values (directive : Directive) : List Value := directive.arguments.map (·.value)

def Variable.values (definition : Variable) : List Value :=
  (definition.default?.map (·.value)).toList ++ definition.directives.flatMap Directive.values

namespace Selection

mutual

def values : Selection → List Value
  | field _ _ _ arguments directives _ selections =>
    arguments.map (·.value) ++ directives.flatMap Directive.values ++ valuesIn selections
  | spread _ _ directives => directives.flatMap Directive.values
  | inline _ _ directives selections => directives.flatMap Directive.values ++ valuesIn selections

def valuesIn : List Selection → List Value
  | [] => []
  | selection :: rest => values selection ++ valuesIn rest

end

theorem valuesIn_eq (selections : List Selection) : valuesIn selections = selections.flatMap values := by
  induction selections with
  | nil => rw [valuesIn, List.flatMap_nil]
  | cons selection rest ih => rw [valuesIn, ih, List.flatMap_cons]

end Selection

def Definition.values : Definition → List Value
  | .operation o => o.variableDefinitions.flatMap Variable.values ++ o.directives.flatMap Directive.values ++
      Selection.valuesIn o.selections
  | .fragment f => f.directives.flatMap Directive.values ++ Selection.valuesIn f.selections

/-- The arguments and the defaults in a document. -/
def values (document : Document) : List Value := document.definitions.flatMap Definition.values

end Document

namespace Value

/-- The value stands in a text that is read. -/
def IsParsed (value : Value) : Prop :=
  ∃ text document outer, Document.parse text = .ok document ∧ outer ∈ document.values ∧ value.Within outer

variable {value outer : Value}

theorem Printable.of_constant (printable : value.Printable true) : value.Printable false := by
  induction printable with
  | reference _ notConstant => cases notConstant
  | null => exact .null
  | number fitting => exact .number fitting
  | string => exact .string
  | boolean => exact .boolean
  | enum isName notKeyworded => exact .enum isName notKeyworded
  | list _ ih => exact .list ih
  | object names distinct _ ih => exact .object names distinct ih

theorem Printable.of_within (printable : outer.Printable false) (within : value.Within outer) :
    value.Printable false := by
  induction within with
  | here => exact printable
  | item member _ ih =>
    cases printable with
    | list inner => exact ih (inner _ member)
  | field member _ ih =>
    cases printable with
    | object _ _ inner => exact ih (inner _ member)

end Value

namespace Document

variable {value : Value}

theorem printable_of_mem_arguments {arguments : List Argument} (printable : ∀ argument ∈ arguments, argument.Printable)
    (member : value ∈ arguments.map (·.value)) : value.Printable false := by
  obtain ⟨argument, inArguments, rfl⟩ := List.mem_map.mp member
  exact (printable argument inArguments).value

theorem printable_of_mem_directives {directives : List Directive}
    (printable : ∀ directive ∈ directives, directive.Printable) (member : value ∈ directives.flatMap Directive.values) :
    value.Printable false := by
  obtain ⟨directive, inDirectives, inDirective⟩ := List.mem_flatMap.mp member
  exact printable_of_mem_arguments (printable directive inDirectives).arguments inDirective

theorem Variable.Printable.of_mem_values {definition : Variable} (printable : definition.Printable)
    (member : value ∈ definition.values) : value.Printable false := by
  rcases List.mem_append.mp member with isDefault | inDirectives
  · obtain ⟨given, isGiven, rfl⟩ := Option.map_eq_some_iff.mp (Option.mem_toList.mp isDefault)
    exact (printable.default given isGiven).of_constant
  · exact printable_of_mem_directives printable.directives inDirectives

theorem Selection.Printable.of_mem_values {depth : Nat} {selection : Selection} (printable : selection.Printable depth)
    (member : value ∈ selection.values) : value.Printable false := by
  induction printable with
  | leaf _ _ ofArguments ofDirectives =>
    rw [Selection.values, Selection.valuesIn, List.append_nil] at member
    rcases List.mem_append.mp member with inArguments | inDirectives
    · exact printable_of_mem_arguments ofArguments inArguments
    · exact printable_of_mem_directives ofDirectives inDirectives
  | field _ _ ofArguments ofDirectives _ _ ih =>
    rw [Selection.values, Selection.valuesIn_eq, List.append_assoc] at member
    rcases List.mem_append.mp member with inArguments | elsewhere
    · exact printable_of_mem_arguments ofArguments inArguments
    · rcases List.mem_append.mp elsewhere with inDirectives | inSelections
      · exact printable_of_mem_directives ofDirectives inDirectives
      · obtain ⟨selection, inSet, inSelection⟩ := List.mem_flatMap.mp inSelections
        exact ih selection inSet inSelection
  | spread _ ofDirectives =>
    rw [Selection.values] at member
    exact printable_of_mem_directives ofDirectives member
  | inline _ ofDirectives _ _ ih =>
    rw [Selection.values, Selection.valuesIn_eq] at member
    rcases List.mem_append.mp member with inDirectives | inSelections
    · exact printable_of_mem_directives ofDirectives inDirectives
    · obtain ⟨selection, inSet, inSelection⟩ := List.mem_flatMap.mp inSelections
      exact ih selection inSet inSelection

theorem PrintableBody.of_mem_values {depth : Nat} {selections : List Selection}
    (printable : PrintableBody depth selections) (member : value ∈ Selection.valuesIn selections) : value.Printable false := by
  rw [Selection.valuesIn_eq] at member
  obtain ⟨selection, inSet, inSelection⟩ := List.mem_flatMap.mp member
  exact (printable.2 selection inSet).of_mem_values inSelection

theorem Definition.Printable.of_mem_values {definition : Definition} (printable : definition.Printable)
    (member : value ∈ definition.values) : value.Printable false := by
  cases definition with
  | operation operation =>
    have ofOperation : operation.Printable := printable
    rcases List.mem_append.mp member with elsewhere | inSelections
    · rcases List.mem_append.mp elsewhere with inVariables | inDirectives
      · obtain ⟨definition, inDefinitions, inDefinition⟩ := List.mem_flatMap.mp inVariables
        exact (ofOperation.variableDefinitions definition inDefinitions).of_mem_values inDefinition
      · exact printable_of_mem_directives ofOperation.directives inDirectives
    · exact ofOperation.body.of_mem_values inSelections
  | fragment fragment =>
    have ofFragment : fragment.Printable := printable
    rcases List.mem_append.mp member with inDirectives | inSelections
    · exact printable_of_mem_directives ofFragment.directives inDirectives
    · exact ofFragment.body.of_mem_values inSelections

end Document

theorem Value.IsParsed.printable {value : Value} (isParsed : value.IsParsed) : value.Printable false := by
  obtain ⟨text, document, outer, parsed, member, within⟩ := isParsed
  obtain ⟨definition, inDocument, inDefinition⟩ := List.mem_flatMap.mp member
  exact ((Document.printable_of_parse parsed definition inDocument).of_mem_values inDefinition).of_within within

section Argument

variable {operation field argument : String} {value : Value}

/-- A query of one field with one argument, whose value is left to be written. -/
def argumentQuery (operation field argument given : String) : String :=
  "query " ++ operation ++ " \x7b\n  " ++ field ++ "(" ++ argument ++ ": " ++ given ++ ")\n\x7d\n"

def argumentDefinition (operation field argument : String) (value : Value) : Document.Definition :=
  .operation ⟨.start, some operation, .query, [], [],
    [.field .start none field [⟨argument, .start, value, .start⟩] [] .start []]⟩

def argumentRoot (operation field argument : String) (value : Value) : Root :=
  ⟨operation, .query, "", [], [], [.field none field [⟨argument, value⟩] [] "" []]⟩

theorem text_argumentRoot : (Node.root (argumentRoot operation field argument value)).text =
    argumentQuery operation field argument value.text := by
  rw [← String.toList_inj]
  simp [text_root, argumentRoot, argumentQuery, OperationKind.keyword, parenthesized, Directive.listText,
    Selection.bodyText, Selection.text, Selection.lines, Argument.listText, Argument.text, indent]

theorem written_argumentRoot : (Node.root (argumentRoot operation field argument value)).written =
    argumentDefinition operation field argument value := by
  simp [Node.written, argumentRoot, argumentDefinition, Selection.writtenAll, Selection.written, Argument.written]

theorem printable_argumentDefinition (printable : value.Printable false) (isOperation : IsName operation.toList)
    (isField : IsName field.toList) (isArgument : IsName argument.toList) :
    (argumentDefinition operation field argument value).Printable := by
  have ofField :
      (Document.Selection.field .start none field [⟨argument, .start, value, .start⟩] [] .start []).Printable 64 :=
    .leaf nofun isField (by simpa using ⟨isArgument, printable⟩) nofun
  exact Document.Operation.Printable.mk (by simpa using isOperation) nofun nofun ⟨by simp, by simpa using ofField⟩

theorem readable_argumentRoot : (Node.root (argumentRoot operation field argument value)).Readable := by
  simp [Node.Readable, argumentRoot, Selection.areReadable, Selection.isReadable]

theorem rounded_argumentRoot : (Node.root (argumentRoot operation field argument value)).rounded = value.rounded := by
  simp [Node.rounded, argumentRoot, Selection.roundedAll, Selection.rounded]

/-- The text of a value that was read is read as that value, with its fields in their order. -/
theorem parse_argumentQuery (isParsed : value.IsParsed) (readBack : AllReadBack value.rounded)
    (isOperation : IsName operation.toList) (isField : IsName field.toList) (isArgument : IsName argument.toList) :
    ∃ document, Document.parse (argumentQuery operation field argument value.text) = .ok document ∧
      document.definitions.map Document.Definition.unplaced = [argumentDefinition operation field argument value] := by
  let nodes := [Node.root (argumentRoot operation field argument value)]
  have printable : ∀ node ∈ nodes, node.written.Printable := by
    simpa [nodes, written_argumentRoot] using
      printable_argumentDefinition isParsed.printable isOperation isField isArgument
  have readable : ∀ node ∈ nodes, node.Readable := by simpa [nodes] using readable_argumentRoot
  have numbers : ∀ node ∈ nodes, AllReadBack node.rounded := by simpa [nodes, rounded_argumentRoot] using readBack
  obtain ⟨document, parsed, same⟩ := parse_joined printable readable numbers (List.nodup_singleton _) List.mem_cons_self
  refine ⟨document, ?_, ?_⟩
  · simpa [nodes, text_argumentRoot] using parsed
  · simpa [nodes, written_argumentRoot] using same

/-- A line and a block of text, within lists and an object whose keys are not in order. -/
def literalsText : String :=
  "query Q($v: Int) \x7b g(b: \x7bz: [\"\\\"\\\\\\u0001\\u2028😀\", \"\"\"\\n\"\"\", []], " ++
    "a: [$v, null, E, true, 2.5]\x7d) \x7d"

def literalsPrinted : String :=
  "\x7bz: [\"\\\"\\\\\\u0001\u2028😀\", \"\\\\n\", []], a: [$v, null, E, true, 2.5]\x7d"

set_option maxRecDepth 20000 in
theorem parse_argumentQuery_literals : ∃ value document, value.IsParsed ∧ value.text = literalsPrinted ∧
    AllReadBack value.rounded ∧ Document.parse (argumentQuery "A" "f" "a" literalsPrinted) = .ok document ∧
      document.definitions.map Document.Definition.unplaced = [argumentDefinition "A" "f" "a" value] := by
  have read : ∃ document ∈ (Document.parse literalsText).toOption, ∃ value ∈ document.values,
      value.text = literalsPrinted ∧ AllReadBack value.rounded := by decide +kernel
  obtain ⟨origin, isParsed, value, member, isText, readBack⟩ := read
  have isValue : value.IsParsed := ⟨literalsText, origin, value, toOption_eq_some isParsed, member, .here⟩
  have isOperation : IsName "A".toList := ⟨rfl, nofun⟩
  have isField : IsName "f".toList := ⟨rfl, nofun⟩
  have isArgument : IsName "a".toList := ⟨rfl, nofun⟩
  obtain ⟨document, parsed, same⟩ := parse_argumentQuery isValue readBack isOperation isField isArgument
  rw [isText] at parsed
  exact ⟨value, document, isValue, isText, readBack, parsed, same⟩

end Argument

end SiteQuery.Graphql
