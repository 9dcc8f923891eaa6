import SiteQuery.Proofs.Graphql.Clauses
import SiteQuery.Proofs.Graphql.Flattening

/-!
The texts of selections are read back.

There is one exception: after a spread of a fragment named `on`, the name of a field is read as that of a type.
-/

namespace SiteQuery.Graphql

open Grammar

namespace Selection

mutual

def rounded : Selection → List Decimal.Binary64
  | field _ _ arguments directives _ selections =>
    arguments.flatMap (·.value.rounded) ++ directives.flatMap Directive.rounded ++ roundedAll selections
  | spread _ directives => directives.flatMap Directive.rounded
  | inline _ directives selections => directives.flatMap Directive.rounded ++ roundedAll selections

def roundedAll : List Selection → List Decimal.Binary64
  | [] => []
  | selection :: rest => rounded selection ++ roundedAll rest

end

def isField : Selection → Bool
  | field _ _ _ _ _ _ => true
  | _ => false

/-- A name that follows is read as a type. -/
def isBareOn : Selection → Bool
  | spread name directives => name == "on" && directives.isEmpty
  | _ => false

mutual

/-- No field directly follows a bare `...on`. -/
def isReadable : Selection → Bool
  | field _ _ _ _ _ selections => areReadable selections
  | spread _ _ => true
  | inline _ _ selections => areReadable selections

def areReadable : List Selection → Bool
  | [] => true
  | selection :: rest =>
    isReadable selection && !(isBareOn selection && rest.head?.any isField) && areReadable rest

end

theorem roundedAll_eq (selections : List Selection) : roundedAll selections = selections.flatMap rounded := by
  induction selections with
  | nil => rfl
  | cons selection rest ih => rw [roundedAll, ih, List.flatMap_cons]

theorem writtenAll_eq (selections : List Selection) : writtenAll selections = selections.map written := by
  induction selections with
  | nil => rfl
  | cons selection rest ih => rw [writtenAll, ih, List.map_cons]

theorem bodyText_eq {depth : Nat} {selections : List Selection} (notEmpty : selections ≠ []) :
    bodyText depth selections = " \x7b\n" ++ lines depth selections ++ indent depth ++ "\x7d" := by
  cases selections with
  | nil => exact absurd rfl notEmpty
  | cons selection rest => simp [bodyText, lines, String.append_assoc]

end Selection

theorem Document.Selection.unplacedAll_eq (selections : List Document.Selection) :
    unplacedAll selections = selections.map unplaced := by
  induction selections with
  | nil => rfl
  | cons selection rest ih => rw [unplacedAll, ih, List.map_cons]

section Parts

-- what is read of each kind of part, so that no proof below opens the reader

variable {places : Places} {depth left leftAfter : Nat} {parts : Document.Parts} {tree : SyntaxTree}
variable {inner more : List SyntaxTree}

theorem readParts_cons : Document.readParts places depth parts (tree :: more) =
    (Document.readPart places depth parts tree).bind (Document.readParts places depth · more) := rfl

theorem readPart_operationType (text : List Char) :
    Document.readPart places depth parts (.token .operationType left text) =
      .ok { parts with kind := Document.kindOf text } := rfl

theorem readPart_name (text : List Char) : Document.readPart places depth parts (.token .name left text) =
    .ok { parts with names := parts.names ++ [String.ofList text] } := rfl

theorem readPart_alias (name : SyntaxTree) :
    Document.readPart places depth parts (.branch .fieldAlias left leftAfter (name :: more)) =
      .ok { parts with alias? := some (Document.nameOf name) } := rfl

theorem readPart_condition (name : SyntaxTree) :
    Document.readPart places depth parts (.branch .typeCondition left leftAfter (name :: more)) =
      .ok { parts with condition? := some ⟨Document.nameOf name, places name.left⟩ } := rfl

theorem readPart_argument (name item : SyntaxTree) :
    Document.readPart places depth parts (.branch .argument left leftAfter [name, item]) =
      (Document.readValue places item).map fun value => { parts with
        arguments := parts.arguments ++ [⟨Document.nameOf name, places name.left, value, places item.left⟩] } := rfl

theorem readPart_directive : Document.readPart places depth parts (.branch .directive left leftAfter inner) =
    (Document.readDirective places inner).map fun directive =>
      { parts with directives := parts.directives ++ [directive] } := rfl

theorem readPart_variable : Document.readPart places depth parts (.branch .variableDefinition left leftAfter inner) =
    (Document.readVariable places ⟨"", .named "", .start, none, []⟩ inner).map fun definition =>
      { parts with variableDefinitions := parts.variableDefinitions ++ [definition] } := rfl

theorem readPart_set : Document.readPart places (depth + 1) parts (.branch .selectionSet left leftAfter inner) =
    (Document.readSelections places depth inner).map fun selections =>
      { parts with selections, bodyPosition := places left } := rfl

end Parts

section Reading

variable {places : Places} {trees : List SyntaxTree}

theorem readParts_arguments {arguments : List Argument} (areRead : List.Forall₂ ReadsArgument arguments trees)
    (places : Places) :
    ∃ read : List Document.Argument, read.map Document.Argument.unplaced = arguments.map Argument.written ∧
      ∀ depth parts more, Document.readParts places depth parts (trees ++ more) =
        Document.readParts places depth { parts with arguments := parts.arguments ++ read } more := by
  induction areRead with
  | nil => exact ⟨[], rfl, fun depth parts more => by simp⟩
  | @cons argument tree arguments trees isRead _ ih =>
    obtain ⟨left, leftAfter, leftName, item, rfl, isValue⟩ := isRead
    obtain ⟨others, same, readOthers⟩ := ih
    refine ⟨⟨argument.name, places leftName, argument.value, places item.left⟩ :: others, ?_, fun depth parts more => ?_⟩
    · simp [same, Document.Argument.unplaced, Argument.written]
    · rw [List.cons_append, readParts_cons, readPart_argument, isValue.read places, nameOf_token]
      exact (readOthers depth _ more).trans (by simp [SyntaxTree.left])

theorem readParts_directives {directives : List Directive} (areRead : List.Forall₂ ReadsDirective directives trees)
    (places : Places) :
    ∃ read : List Document.Directive, read.map Document.Directive.unplaced = directives.map Directive.written ∧
      ∀ depth parts more, Document.readParts places depth parts (trees ++ more) =
        Document.readParts places depth { parts with directives := parts.directives ++ read } more := by
  induction areRead with
  | nil => exact ⟨[], rfl, fun depth parts more => by simp⟩
  | cons isRead _ ih =>
    obtain ⟨left, leftAfter, inner, directive, rfl, read, same⟩ := isRead.read places
    obtain ⟨others, sameOthers, readOthers⟩ := ih
    refine ⟨directive :: others, by simp [same, sameOthers], fun depth parts more => ?_⟩
    rw [List.cons_append, readParts_cons, readPart_directive, read]
    exact (readOthers depth _ more).trans (by simp)

theorem readParts_variables {definitions : List Variable} (areRead : List.Forall₂ ReadsVariable definitions trees)
    (places : Places) :
    ∃ read : List Document.Variable, read.map Document.Variable.unplaced = definitions.map Variable.written ∧
      ∀ depth parts more, Document.readParts places depth parts (trees ++ more) =
        Document.readParts places depth { parts with variableDefinitions := parts.variableDefinitions ++ read } more := by
  induction areRead with
  | nil => exact ⟨[], rfl, fun depth parts more => by simp⟩
  | cons isRead _ ih =>
    obtain ⟨left, leftAfter, inner, rfl, reads⟩ := isRead
    obtain ⟨definition, read, same⟩ := reads places
    obtain ⟨others, sameOthers, readOthers⟩ := ih
    refine ⟨definition :: others, by simp [same, sameOthers], fun depth parts more => ?_⟩
    rw [List.cons_append, readParts_cons, readPart_variable, read]
    exact (readOthers depth _ more).trans (by simp)

def ReadsSelection (depth : Nat) (selection : Selection) (tree : SyntaxTree) : Prop :=
  ∀ places, ∃ read, Document.readSelection places depth tree = .ok (some read) ∧ read.unplaced = selection.written

theorem readSelections_eq {depth : Nat} {selections : List Selection}
    (areRead : List.Forall₂ (ReadsSelection depth) selections trees) (places : Places) :
    ∃ read, Document.readSelections places depth trees = .ok read ∧
      Document.Selection.unplacedAll read = Selection.writtenAll selections := by
  induction areRead with
  | nil => exact ⟨[], rfl, rfl⟩
  | cons isRead _ ih =>
    obtain ⟨read, isOk, same⟩ := isRead places
    obtain ⟨others, readOthers, sameOthers⟩ := ih
    refine ⟨read :: others, ?_, ?_⟩
    · rw [Document.readSelections, isOk, readOthers]
      rfl
    · rw [Document.Selection.unplacedAll, Selection.writtenAll, same, sameOthers]

/-- There is no set for no selections. -/
def ReadsBody (depth : Nat) (selections : List Selection) (trees : List SyntaxTree) : Prop :=
  (selections = [] ∧ trees = []) ∨
    ∃ inner left leftAfter items, depth = inner + 1 ∧ trees = [.branch .selectionSet left leftAfter items] ∧
      List.Forall₂ (ReadsSelection inner) selections items

theorem ReadsBody.read {depth : Nat} {selections : List Selection} (isRead : ReadsBody depth selections trees)
    (places : Places) :
    ∃ (read : List Document.Selection) (position : Position),
      Document.Selection.unplacedAll read = Selection.writtenAll selections ∧
      ∀ parts : Document.Parts, parts.selections = [] → parts.bodyPosition = .start →
        Document.readParts places depth parts trees =
          .ok { parts with selections := read, bodyPosition := position } := by
  rcases isRead with ⟨rfl, rfl⟩ | ⟨inner, left, leftAfter, items, rfl, rfl, areRead⟩
  · refine ⟨[], .start, rfl, fun parts noSelections noPosition => ?_⟩
    rw [Document.readParts, ← noSelections, ← noPosition]
  · obtain ⟨read, isOk, same⟩ := readSelections_eq areRead places
    refine ⟨read, places left, same, fun parts _ _ => ?_⟩
    rw [readParts_cons, readPart_set, isOk]
    rfl

end Reading

section TypeConditions

variable {name : String} {rest : List Char}

/-- No name follows the blanks. -/
def NoName (rest : List Char) : Prop := ∀ c ∈ (rest.dropWhile Rule.isBlank).head?, Rule.isNameStart c = false

theorem accepts_blanks (c : Char) (isBlank : Rule.isBlank c = true) (rest : List Char) :
    Accepts (.oneOrMore (.one Rule.isBlank)) (c :: rest) [] (rest.dropWhile Rule.isBlank) := by
  have more : Accepts (.many (.one Rule.isBlank)) (rest.takeWhile Rule.isBlank ++ rest.dropWhile Rule.isBlank) []
      (rest.dropWhile Rule.isBlank) := by
    refine .many_one (fun d member => (List.mem_takeWhile_imp member)) fun d isHead => ?_
    have notBlank := List.head?_dropWhile_not Rule.isBlank rest
    rw [isHead] at notBlank
    simpa using notBlank
  rw [List.takeWhile_append_dropWhile] at more
  exact Expression.Matches.both (.one isBlank) more

theorem refuses_typeCondition (isName : IsName name.toList) (ends : NameEnds rest)
    (noType : name = "on" → NoName rest) : Refuses (.call .typeCondition) (name.toList ++ rest) := by
  refine refuses_call ?_
  by_cases isPrefix : "on".toList <+: name.toList ++ rest
  · obtain ⟨more, isOn⟩ := prefix_of_prefix_append (List.all_eq_true.mp (by decide)) ends isPrefix
    have isText : name.toList ++ rest = "on".toList ++ (more ++ rest) := by rw [← isOn, List.append_assoc]
    rw [isText]
    refine .both_right (.word _ _) ?_
    cases more with
    | nil =>
      have noName := noType (String.toList_inj.mp (isOn.symm.trans (List.append_nil _)))
      cases rest with
      | nil => exact .both_left (.both_left rfl)
      | cons c others =>
        cases isBlank : Rule.isBlank c with
        | false => exact .both_left (.both_left (.one (forall_head isBlank)))
        | true =>
          refine .both_right (accepts_blanks c isBlank others) (refuses_name ?_)
          simpa [NoName, List.dropWhile_cons, isBlank] using noName
    | cons c more =>
      rw [← isOn] at isName
      have isRest : Rule.isNameRest c = true := isName.2 c (by simp)
      exact .both_left (.both_left (.one (forall_head (solid_of_isNameRest isRest).1)))
  · exact .both_left (.word isPrefix)

theorem refuses_typeCondition_head (noName : ∀ c ∈ rest.head?, c ≠ 'o') : Refuses (.call .typeCondition) rest :=
  refuses_call (.both_left (.word_head noName))

theorem reaches_typeCondition (isName : IsName name.toList) (ends : NameEnds rest) :
    ∃ left leftAfter leftName, Reaches (.call .typeCondition) ("on ".toList ++ (name.toList ++ rest))
      [.branch .typeCondition left leftAfter [.token .name leftName name.toList]] rest := by
  obtain ⟨leftName, named⟩ : ∃ left, Accepts (.call .name) (name.toList ++ rest) [.token .name left name.toList] rest :=
    ⟨_, accepts_name isName ends⟩
  have blank : Accepts (.oneOrMore (.one Rule.isBlank)) (' ' :: (name.toList ++ rest)) [] (name.toList ++ rest) := by
    have accepted := accepts_blanks ' ' rfl (name.toList ++ rest)
    obtain ⟨c, others, startsWith, notBlank, _⟩ := isName.startsSolid
    rw [startsWith, List.cons_append] at accepted ⊢
    rwa [List.dropWhile_cons_of_neg (by simp [notBlank])] at accepted
  have body : Accepts (Rule.body .typeCondition) ("on".toList ++ (' ' :: (name.toList ++ rest)))
      ([] ++ ([] ++ [.token .name leftName name.toList])) rest := .both (.word _ _) (.both blank named)
  obtain ⟨leftAfter, branch⟩ := reaches_branch .typeCondition rfl body.reaches
  exact ⟨_, leftAfter, leftName, branch⟩

end TypeConditions

section Sets

variable {rest : List Char}

/-- What follows a selection. -/
structure SelectionEnds (rest : List Char) : Prop where
  delimited : Delimited rest
  avoids : Avoids [':', '(', '@', '\x7b'] rest

/-- The text of a selection is read back wherever it may stand. -/
def Selection.Restored (depth : Nat) (selection : Selection) : Prop :=
  ∀ level rest, SelectionEnds rest → (selection.isBareOn = true → NoName rest) →
    ∃ tree, Reaches (.call .selection) ((selection.text level).toList ++ rest) [tree] rest ∧
      ReadsSelection depth selection tree

theorem isBlank_indent {level : Nat} : ∀ c ∈ (indent level).toList, Rule.isBlank c = true := by
  intro c member
  simp only [indent, String.toList_ofList] at member
  rw [List.eq_of_mem_replicate member]
  rfl

/-- The first character of a selection. -/
theorem Selection.text_startsWith {selection : Selection} {depth : Nat} (printable : selection.written.Printable depth)
    (level : Nat) : ∃ c others, (selection.text level).toList = c :: others ∧ (Rule.isNameStart c = true ∨ c = '.') ∧
      (selection.isField = false → c = '.') := by
  cases selection with
  | field alias? name arguments directives type selections =>
    have starts : ∀ text : String, IsName text.toList → ∃ c others, text.toList = c :: others ∧ Rule.isNameStart c = true := by
      intro text isName
      cases isText : text.toList with
      | nil =>
        rw [isText] at isName
        exact isName.elim
      | cons c others =>
        rw [isText] at isName
        exact ⟨c, others, rfl, isName.1⟩
    have names : (∀ key ∈ alias?, IsName key.toList) ∧ IsName name.toList := by
      simp only [written] at printable
      generalize writtenAll selections = inner at printable
      cases printable <;> exact ⟨‹_›, ‹_›⟩
    cases alias? with
    | none =>
      obtain ⟨c, others, isText, isStart⟩ := starts name names.2
      refine ⟨c, _, by simp only [text, String.append_assoc, String.toList_append, isText]; rfl, .inl isStart, ?_⟩
      exact fun isOther => absurd isOther.symm Bool.false_ne_true
    | some key =>
      obtain ⟨c, others, isText, isStart⟩ := starts key (names.1 key rfl)
      refine ⟨c, _, by simp only [text, String.append_assoc, String.toList_append, isText]; rfl, .inl isStart, ?_⟩
      exact fun isOther => absurd isOther.symm Bool.false_ne_true
  | spread name directives =>
    exact ⟨'.', _, by simp only [text, String.append_assoc, String.toList_append]; rfl, .inr rfl, fun _ => rfl⟩
  | inline condition? directives selections =>
    exact ⟨'.', _, by simp only [text, String.append_assoc, String.toList_append]; rfl, .inr rfl, fun _ => rfl⟩

theorem refuses_field {input : List Char} (solid : Solid input) (noName : ∀ c ∈ input.head?, Rule.isNameStart c = false) :
    Refuses (.call .field) input := by
  have noAlias : Refuses (.call .fieldAlias) input := refuses_call (.spaced_head (refuses_name noName))
  refine refuses_call (.spaced_cons isBlank_blank (.option_none noAlias) ?_)
  rw [afterBlank_of_solid solid]
  exact .spaced_head (refuses_name noName)

theorem refuses_selection_closing : Refuses (.call .selection) ('\x7d' :: rest) := by
  have noField : Refuses (.call .field) ('\x7d' :: rest) := refuses_field (forall_head ⟨rfl, by decide⟩) (forall_head rfl)
  have noDots : Refuses (Rule.word "...") ('\x7d' :: rest) := .word_head (forall_head (by decide))
  exact refuses_call (.either noField (.either (refuses_call (.spaced_head noDots)) (refuses_call (.spaced_head noDots))))

theorem Avoids.blanks {characters blanks : List Char} (areBlank : ∀ c ∈ blanks, Rule.isBlank c = true)
    (avoids : Avoids characters rest) : Avoids characters (blanks ++ rest) := by
  rwa [Avoids, afterBlank_append areBlank]

/-- What stands after a line: the next selection or the closing brace. -/
theorem lines_startsWith (level : Nat) {depth : Nat} {selections : List Selection}
    (printable : ∀ selection ∈ selections, selection.written.Printable depth) (rest : List Char) :
    ∃ blanks c others,
      (Selection.lines level selections).toList ++ ((indent level).toList ++ '\x7d' :: rest) = blanks ++ c :: others ∧
      (∀ d ∈ blanks, Rule.isBlank d = true) ∧ (Rule.isNameStart c = true ∨ c = '.' ∨ c = '\x7d') ∧
      (selections.head?.any Selection.isField = false → Rule.isNameStart c = false) := by
  cases selections with
  | nil => exact ⟨(indent level).toList, '\x7d', rest, rfl, isBlank_indent, .inr (.inr rfl), fun _ => rfl⟩
  | cons selection more =>
    obtain ⟨c, others, isText, start, notField⟩ :=
      Selection.text_startsWith (printable selection List.mem_cons_self) (level + 1)
    refine ⟨(indent (level + 1)).toList, c, others ++ ("\n" ++ Selection.lines level more).toList ++
      ((indent level).toList ++ '\x7d' :: rest), ?_, isBlank_indent, start.imp_right .inl, fun isOther => ?_⟩
    · simp [Selection.lines, isText]
    · rw [notField (by simpa using isOther)]
      rfl

theorem selectionEnds_lines (level : Nat) {depth : Nat} {selections : List Selection}
    (printable : ∀ selection ∈ selections, selection.written.Printable depth) (rest : List Char) :
    SelectionEnds ('\n' :: ((Selection.lines level selections).toList ++ ((indent level).toList ++ '\x7d' :: rest))) := by
  obtain ⟨blanks, c, others, isText, areBlank, start, _⟩ := lines_startsWith level printable rest
  rw [isText]
  have solid : Rule.isBlank c = false ∧ c ≠ '#' := by
    rcases start with isStart | rfl | rfl
    · exact solid_of_isNameRest (by simp [Rule.isNameRest, isStart])
    · exact ⟨rfl, by decide⟩
    · exact ⟨rfl, by decide⟩
  refine ⟨Delimited.cons rfl, .blank rfl (.blanks areBlank (.cons solid fun member => ?_))⟩
  rcases start with isStart | rfl | rfl
  · simp only [List.mem_cons, List.not_mem_nil, or_false] at member
    rcases member with rfl | rfl | rfl | rfl <;> exact absurd isStart (by decide)
  · exact absurd member (by decide)
  · exact absurd member (by decide)

theorem noName_lines (level : Nat) {depth : Nat} {selections : List Selection}
    (printable : ∀ selection ∈ selections, selection.written.Printable depth)
    (noField : selections.head?.any Selection.isField = false) (rest : List Char) :
    NoName ('\n' :: ((Selection.lines level selections).toList ++ ((indent level).toList ++ '\x7d' :: rest))) := by
  obtain ⟨blanks, c, others, isText, areBlank, start, notName⟩ := lines_startsWith level printable rest
  have notBlank : Rule.isBlank c = false := by
    rcases start with isStart | rfl | rfl
    · exact (solid_of_isNameRest (by simp [Rule.isNameRest, isStart])).1
    · rfl
    · rfl
  rw [isText, NoName, List.dropWhile_cons_of_pos rfl, List.dropWhile_append_of_pos areBlank,
    List.dropWhile_cons_of_neg (by simp [notBlank])]
  exact forall_head (notName noField)

/-- One selection a line, up to the closing brace. -/
theorem chain_lines (level : Nat) {depth : Nat} {selections : List Selection}
    (restored : ∀ selection ∈ selections, selection.Restored depth)
    (printable : ∀ selection ∈ selections, selection.written.Printable depth)
    (readable : Selection.areReadable selections = true) (rest : List Char) :
    ∃ trees, Expression.Chain grammar.match? (.call .selection) Rule.blank
      ('\n' :: ((Selection.lines level selections).toList ++ ((indent level).toList ++ '\x7d' :: rest))) trees
      ('\n' :: ((indent level).toList ++ '\x7d' :: rest)) ∧ List.Forall₂ (ReadsSelection depth) selections trees := by
  induction selections with
  | nil =>
    refine ⟨[], .nil ?_, .nil⟩
    rw [Selection.lines, String.toList_empty, List.nil_append, afterBlank_cons rfl, afterBlank_append isBlank_indent,
      afterBlank_of_solid (forall_head ⟨rfl, by decide⟩)]
    exact refuses_selection_closing
  | cons selection others ih =>
    simp only [Selection.areReadable, Bool.and_eq_true, Bool.not_eq_true', Bool.and_eq_false_iff] at readable
    have ofOthers (other : Selection) (member : other ∈ others) : other.written.Printable depth :=
      printable other (List.mem_cons_of_mem _ member)
    obtain ⟨trees, chain, areRead⟩ :=
      ih (fun other member => restored other (List.mem_cons_of_mem _ member)) ofOthers readable.2
    have noName (bare : selection.isBareOn = true) : NoName ('\n' :: ((Selection.lines level others).toList ++
        ((indent level).toList ++ '\x7d' :: rest))) := by
      refine noName_lines level ofOthers (readable.1.2.resolve_left fun notBare => ?_) rest
      rw [bare] at notBare
      cases notBare
    obtain ⟨tree, reaches, isRead⟩ :=
      restored selection List.mem_cons_self (level + 1) _ (selectionEnds_lines level ofOthers rest) noName
    obtain ⟨c, tail, startsWith, start, _⟩ :=
      Selection.text_startsWith (printable selection List.mem_cons_self) (level + 1)
    have startsSolid : StartsSolid (selection.text (level + 1)).toList := by
      refine ⟨c, tail, startsWith, ?_⟩
      rcases start with isStart | rfl
      · exact solid_of_isNameRest (by simp [Rule.isNameRest, isStart])
      · exact ⟨rfl, by decide⟩
    have isText : '\n' :: ((Selection.lines level (selection :: others)).toList ++
        ((indent level).toList ++ '\x7d' :: rest)) = '\n' :: ((indent (level + 1)).toList ++
          ((selection.text (level + 1)).toList ++ ('\n' :: ((Selection.lines level others).toList ++
            ((indent level).toList ++ '\x7d' :: rest))))) := by
      simp [Selection.lines]
    rw [isText]
    refine ⟨[tree] ++ trees, .cons ?_ chain, .cons isRead areRead⟩
    rwa [afterBlank_cons rfl, afterBlank_append isBlank_indent, afterBlank_of_solid (startsSolid.solid _)]

theorem reaches_set (level : Nat) {depth : Nat} {selections : List Selection} (notEmpty : selections ≠ [])
    (restored : ∀ selection ∈ selections, selection.Restored depth)
    (printable : ∀ selection ∈ selections, selection.written.Printable depth)
    (readable : Selection.areReadable selections = true) (rest : List Char) :
    ∃ left leftAfter items, Reaches (.call .selectionSet)
      (Rule.blank.after grammar.match? ((Selection.bodyText level selections).toList ++ rest))
      [.branch .selectionSet left leftAfter items] rest ∧ List.Forall₂ (ReadsSelection depth) selections items := by
  obtain ⟨trees, chain, areRead⟩ := chain_lines level restored printable readable rest
  have someTrees : trees ≠ [] := by
    rintro rfl
    cases areRead
    exact notEmpty rfl
  have atBrace : Rule.blank.after grammar.match? ('\n' :: ((indent level).toList ++ '\x7d' :: rest)) =
      Rule.blank.after grammar.match? ('\x7d' :: rest) := (afterBlank_cons rfl).trans (afterBlank_append isBlank_indent)
  have inner := (chain.someSpaced isBlank_blank (strict_call .selection rfl) someTrees).congr atBrace
  have isInner : '\n' :: ((Selection.lines level selections).toList ++ ((indent level).toList ++ '\x7d' :: rest)) =
      ('\n' :: ((Selection.lines level selections).toList ++ (indent level).toList)) ++ '\x7d' :: rest := by simp
  rw [isInner] at inner
  have isClosing : "\x7d".toList = ['\x7d'] := rfl
  have body := reaches_brackets "\x7b" isClosing ⟨rfl, by decide⟩ inner
  obtain ⟨leftAfter, branch⟩ := reaches_branch .selectionSet rfl body
  have isText : (Selection.bodyText level selections).toList ++ rest = ' ' :: ("\x7b".toList ++
      (('\n' :: ((Selection.lines level selections).toList ++ (indent level).toList)) ++ '\x7d' :: rest)) := by
    simp [Selection.bodyText_eq notEmpty]
  have opens (text : List Char) : Solid ("\x7b".toList ++ text) := forall_head ⟨rfl, by decide⟩
  rw [isText, afterBlank_cons rfl, afterBlank_of_solid (opens _)]
  exact ⟨_, leftAfter, trees, branch, areRead⟩

theorem bodyText_startsWith (level : Nat) {selections : List Selection} (notEmpty : selections ≠ []) :
    ∃ others, (Selection.bodyText level selections).toList = ' ' :: '\x7b' :: others := by
  rw [Selection.bodyText_eq notEmpty]
  exact ⟨_, by simp only [String.append_assoc, String.toList_append]; rfl⟩

theorem bodyText_cases (level : Nat) (selections : List Selection) :
    (Selection.bodyText level selections).toList = [] ∨
      ∃ others, (Selection.bodyText level selections).toList = ' ' :: '\x7b' :: others := by
  cases selections with
  | nil => exact .inl rfl
  | cons selection more => exact .inr (bodyText_startsWith level (List.cons_ne_nil _ _))

theorem delimited_body (level : Nat) (selections : List Selection) (delimited : Delimited rest) :
    Delimited ((Selection.bodyText level selections).toList ++ rest) := by
  rcases bodyText_cases level selections with isText | ⟨others, isText⟩
  · rwa [isText]
  · rw [isText]
    exact Delimited.cons rfl

theorem avoids_body {characters : List Char} (level : Nat) (selections : List Selection) (noBrace : '\x7b' ∉ characters)
    (avoids : Avoids characters rest) : Avoids characters ((Selection.bodyText level selections).toList ++ rest) := by
  rcases bodyText_cases level selections with isText | ⟨others, isText⟩
  · rwa [isText]
  · rw [isText]
    exact .blank rfl (.cons ⟨rfl, by decide⟩ noBrace)

theorem avoids_parenthesized {Item : Type} {characters : List Char} (write : Item → String) (items : List Item)
    (noParenthesis : '(' ∉ characters) (avoids : Avoids characters rest) :
    Avoids characters ((parenthesized (items.map write)).toList ++ rest) := by
  rcases parenthesized_cases write items with ⟨_, isText⟩ | ⟨_, isText⟩
  · rwa [isText]
  · simp only [isText, String.append_assoc, String.toList_append]
    exact .cons ⟨rfl, by decide⟩ noParenthesis

/-- A set that can be read back within `depth` levels. -/
structure RestoredSet (depth : Nat) (selections : List Selection) : Prop where
  restored : ∀ selection ∈ selections, selection.Restored depth
  printable : ∀ selection ∈ selections, selection.written.Printable depth
  readable : Selection.areReadable selections = true

/-- A set is written for selections only. -/
theorem reaches_body {depth : Nat} {selections : List Selection} (level : Nat)
    (isSet : selections = [] ∨ ∃ inner, depth = inner + 1 ∧ RestoredSet inner selections) (avoids : Avoids ['\x7b'] rest) :
    ∃ trees, Reaches (.option (.call .selectionSet))
      (Rule.blank.after grammar.match? ((Selection.bodyText level selections).toList ++ rest)) trees rest ∧
      ReadsBody depth selections trees := by
  by_cases isEmpty : selections = []
  · subst isEmpty
    have refused : Refuses (.call .selectionSet) (Rule.blank.after grammar.match? rest) :=
      refuses_call (.spaced_head (.word_head (avoids.ne (by decide))))
    exact ⟨[], (Expression.Reaches.option_none refused).congr (isBlank_blank.after_after rest), .inl ⟨rfl, rfl⟩⟩
  · obtain ⟨inner, rfl, set⟩ := isSet.resolve_left isEmpty
    obtain ⟨left, leftAfter, items, reaches, areRead⟩ :=
      reaches_set level isEmpty set.restored set.printable set.readable rest
    exact ⟨_, .option reaches, .inr ⟨inner, left, leftAfter, items, rfl, rfl, areRead⟩⟩

end Sets

section Fields

variable {name : String} {rest : List Char}

def aliasText : Option String → String
  | some key => key ++ ": "
  | none => ""

theorem reaches_alias {alias? : Option String} (isAlias : ∀ key ∈ alias?, IsName key.toList) (isName : IsName name.toList)
    (ends : NameEnds rest) (avoids : Avoids [':'] rest) :
    ∃ trees, Reaches (.option (.call .fieldAlias)) ((aliasText alias?).toList ++ (name.toList ++ rest)) trees
      (name.toList ++ rest) ∧ ∀ places depth more, Document.readParts places depth {} (trees ++ more) =
        Document.readParts places depth { alias? := alias? } more := by
  cases alias? with
  | none =>
    have refused : Refuses (.call .fieldAlias) (name.toList ++ rest) := by
      obtain ⟨leftName, named⟩ := reaches_name isName ends
      exact refuses_call (.spaced_cons isBlank_blank named (.word_head (avoids.ne (by decide))))
    exact ⟨[], .option_none refused, fun _ _ _ => rfl⟩
  | some key =>
    have isText : (aliasText (some key)).toList ++ (name.toList ++ rest) =
        key.toList ++ ([':'] ++ (' ' :: (name.toList ++ rest))) := by simp [aliasText]
    have colonEnds : NameEnds ([':'] ++ (' ' :: (name.toList ++ rest))) := forall_head rfl
    have colonSolid : Solid ([':'] ++ (' ' :: (name.toList ++ rest))) := forall_head ⟨rfl, by decide⟩
    obtain ⟨leftName, named⟩ := reaches_name (isAlias key rfl) colonEnds
    have body : Reaches (Rule.body .fieldAlias) (key.toList ++ ([':'] ++ (' ' :: (name.toList ++ rest))))
        ([.token .name leftName key.toList] ++ []) (' ' :: (name.toList ++ rest)) := by
      refine named.spaced_cons isBlank_blank ?_
      rw [afterBlank_of_solid colonSolid]
      exact reaches_word [':'] _
    obtain ⟨leftAfter, branch⟩ := reaches_branch .fieldAlias rfl body
    rw [isText]
    refine ⟨_, .option (branch.congr (afterBlank_cons rfl)), fun places depth more => ?_⟩
    rw [List.singleton_append, List.append_nil, readParts_cons, readPart_alias, nameOf_token]
    rfl

theorem Selection.Restored.field {depth : Nat} {alias? : Option String} {arguments : List Argument}
    {directives : List Directive} {type : String} {selections : List Selection}
    (isAlias : ∀ key ∈ alias?, IsName key.toList) (isName : IsName name.toList)
    (ofArguments : ∀ argument ∈ arguments, argument.written.Printable)
    (ofDirectives : ∀ directive ∈ directives, directive.written.Printable)
    (readArguments : ∀ argument ∈ arguments, AllReadBack argument.value.rounded)
    (readDirectives : ∀ directive ∈ directives, AllReadBack directive.rounded)
    (isSet : selections = [] ∨ ∃ inner, depth = inner + 1 ∧ RestoredSet inner selections) :
    (Selection.field alias? name arguments directives type selections).Restored depth := by
  intro level rest ends _
  have beforeBody := delimited_body level selections ends.delimited
  have beforeDirectives := delimited_directives directives beforeBody
  have beforeArguments := delimited_parenthesized Argument.text arguments beforeDirectives
  have bodyAvoids : Avoids [':', '(', '@'] ((bodyText level selections).toList ++ rest) :=
    avoids_body level selections (by decide) (ends.avoids.mono (by simp))
  have directivesAvoid : Avoids [':', '('] ((Directive.listText directives).toList ++
      ((bodyText level selections).toList ++ rest)) :=
    avoids_directives directives (by decide) (bodyAvoids.mono (by simp))
  have argumentsAvoid : Avoids [':'] ((Argument.listText arguments).toList ++ ((Directive.listText directives).toList ++
      ((bodyText level selections).toList ++ rest))) :=
    avoids_parenthesized Argument.text arguments (by decide) (directivesAvoid.mono (by simp))
  obtain ⟨aliasTrees, reachesAlias, readAlias⟩ := reaches_alias isAlias isName beforeArguments.nameEnds argumentsAvoid
  obtain ⟨leftName, named⟩ := reaches_name isName beforeArguments.nameEnds
  obtain ⟨argumentTrees, reachesArguments, areArguments⟩ :=
    reaches_arguments ofArguments readArguments (directivesAvoid.mono (by simp))
  obtain ⟨directiveTrees, reachesDirectives, areDirectives⟩ :=
    reaches_directives ofDirectives readDirectives beforeBody (bodyAvoids.mono (by simp))
  obtain ⟨bodyTrees, reachesBody, isBody⟩ := reaches_body level isSet (ends.avoids.mono (by simp))
  have isText : ((Selection.field alias? name arguments directives type selections).text level).toList ++ rest =
      (aliasText alias?).toList ++ (name.toList ++ ((Argument.listText arguments).toList ++
        ((Directive.listText directives).toList ++ ((bodyText level selections).toList ++ rest)))) := by
    cases alias? <;> simp [Selection.text, aliasText]
  have body : Reaches (Rule.body .field)
      (((Selection.field alias? name arguments directives type selections).text level).toList ++ rest)
      (aliasTrees ++ ([.token .name leftName name.toList] ++ (argumentTrees ++ (directiveTrees ++ bodyTrees)))) rest := by
    rw [isText]
    refine reachesAlias.spaced_cons isBlank_blank ?_
    rw [afterBlank_of_solid (isName.startsSolid.solid _)]
    refine named.spaced_cons isBlank_blank (reachesArguments.spaced_cons isBlank_blank ?_)
    exact reachesDirectives.spaced_cons isBlank_blank reachesBody
  obtain ⟨leftAfter, branch⟩ := reaches_branch .field rfl body
  refine ⟨_, reaches_spliced rfl (.left branch), fun places => ?_⟩
  obtain ⟨argumentsRead, sameArguments, readA⟩ := readParts_arguments areArguments places
  obtain ⟨directivesRead, sameDirectives, readD⟩ := readParts_directives areDirectives places
  obtain ⟨selectionsRead, position, sameBody, readB⟩ := isBody.read places
  have isOk : Document.readParts places depth {} (aliasTrees ++ ([.token .name leftName name.toList] ++
      (argumentTrees ++ (directiveTrees ++ bodyTrees)))) =
        .ok ⟨[name], alias?, .query, [], none, argumentsRead, directivesRead, position, selectionsRead⟩ := by
    rw [readAlias, List.singleton_append, readParts_cons, readPart_name, String.ofList_toList]
    refine (readA depth _ _).trans ((readD depth _ _).trans (readB _ rfl rfl))
  refine ⟨_, by rw [Document.readSelection, isOk]; rfl, ?_⟩
  simp [Document.Selection.unplaced, Selection.written, Document.Parts.name, sameArguments, sameDirectives, sameBody]

end Fields

section Fragments

variable {depth : Nat} {name : String} {directives : List Directive} {rest : List Char}

theorem solid_dots (text : List Char) : Solid ("...".toList ++ text) := forall_head ⟨rfl, by decide⟩

theorem refuses_field_dots (text : List Char) : Refuses (.call .field) ("...".toList ++ text) :=
  refuses_field (solid_dots text) (forall_head rfl)

/-- Where a name that is no type condition stands after the dots, there is no inline fragment. -/
theorem refuses_inlineFragment (isName : IsName name.toList) (noCondition : Refuses (.call .typeCondition) (name.toList ++ rest)) :
    Refuses (.call .inlineFragment) ("...".toList ++ (name.toList ++ rest)) := by
  have solid : Solid (name.toList ++ rest) := isName.startsSolid.solid rest
  have differs (c : Char) (notStart : Rule.isNameStart c = false) : ∀ d ∈ (name.toList ++ rest).head?, d ≠ c := by
    cases isText : name.toList with
    | nil =>
      rw [isText] at isName
      exact isName.elim
    | cons first others =>
      rw [isText] at isName
      refine forall_head ?_
      rintro rfl
      rw [isName.1] at notStart
      cases notStart
  refine refuses_call (.spaced_cons isBlank_blank (reaches_word "...".toList _) ?_)
  rw [afterBlank_of_solid solid]
  refine .spaced_cons isBlank_blank (.option_none noCondition) ?_
  rw [afterBlank_of_solid solid]
  have noDirectives : Refuses (.call .directives) (name.toList ++ rest) :=
    refuses_call (.spaced_head (refuses_directive (differs '@' rfl)))
  refine .spaced_cons isBlank_blank (.option_none noDirectives) ?_
  rw [afterBlank_of_solid solid]
  exact refuses_call (.spaced_head (.word_head (differs '\x7b' rfl)))

theorem Selection.Restored.spread (isName : IsName name.toList)
    (ofDirectives : ∀ directive ∈ directives, directive.written.Printable)
    (readDirectives : ∀ directive ∈ directives, AllReadBack directive.rounded) :
    (Selection.spread name directives).Restored depth := by
  intro level rest ends noName
  have beforeDirectives := delimited_directives directives ends.delimited
  have noType (isOn : name = "on") : NoName ((Directive.listText directives).toList ++ rest) := by
    cases directives with
    | nil => exact noName (by simp [isBareOn, isOn])
    | cons directive others =>
      rw [listText_cons, text_directive, NoName, List.dropWhile_cons_of_pos rfl]
      exact forall_head rfl
  have noCondition := refuses_typeCondition isName beforeDirectives.nameEnds noType
  obtain ⟨leftName, named⟩ := reaches_name isName beforeDirectives.nameEnds
  obtain ⟨directiveTrees, reachesDirectives, areDirectives⟩ :=
    reaches_directives ofDirectives readDirectives ends.delimited (ends.avoids.mono (by simp))
  have isText : ((Selection.spread name directives).text level).toList ++ rest =
      "...".toList ++ (name.toList ++ ((Directive.listText directives).toList ++ rest)) := by simp [Selection.text]
  have solid := isName.startsSolid.solid ((Directive.listText directives).toList ++ rest)
  have absent : Accepts (.absent (.call .typeCondition)) (name.toList ++ ((Directive.listText directives).toList ++ rest)) []
      (name.toList ++ ((Directive.listText directives).toList ++ rest)) := .absent noCondition
  have body : Reaches (Rule.body .fragmentSpread)
      ("...".toList ++ (name.toList ++ ((Directive.listText directives).toList ++ rest)))
      ([] ++ ([] ++ ([.token .name leftName name.toList] ++ directiveTrees))) rest := by
    refine (reaches_word "...".toList _).spaced_cons isBlank_blank ?_
    rw [afterBlank_of_solid solid]
    refine absent.reaches.spaced_cons isBlank_blank ?_
    rw [afterBlank_of_solid solid]
    exact named.spaced_cons isBlank_blank reachesDirectives
  obtain ⟨leftAfter, branch⟩ := reaches_branch .fragmentSpread rfl body
  rw [isText]
  refine ⟨_, reaches_spliced rfl (.right (refuses_field_dots _) (.right (refuses_inlineFragment isName noCondition) branch)),
    fun places => ?_⟩
  obtain ⟨directivesRead, sameDirectives, readD⟩ := readParts_directives areDirectives places
  have isOk : Document.readParts places depth {} ([.token .name leftName name.toList] ++ directiveTrees) =
      .ok ⟨[name], none, .query, [], none, [], directivesRead, .start, []⟩ := by
    rw [List.singleton_append, readParts_cons, readPart_name, String.ofList_toList]
    refine (congrArg _ (List.append_nil directiveTrees).symm).trans ((readD depth _ []).trans ?_)
    rfl
  refine ⟨_, by rw [List.nil_append, List.nil_append, Document.readSelection, isOk]; rfl, ?_⟩
  simp [Document.Selection.unplaced, Selection.written, Document.Parts.name, sameDirectives]

def conditionText : Option String → String
  | some type => " on " ++ type
  | none => ""

theorem reaches_condition {condition? : Option String} (isType : ∀ type ∈ condition?, IsName type.toList)
    (ends : NameEnds rest) (avoids : Avoids ['o'] rest) :
    ∃ trees, Reaches (.option (.call .typeCondition))
      (Rule.blank.after grammar.match? ((conditionText condition?).toList ++ rest)) trees rest ∧
      ∀ places, ∃ read : Option Document.Condition,
        read.map Document.Condition.unplaced = condition?.map (fun type => ⟨type, .start⟩) ∧
        ∀ depth more, Document.readParts places depth {} (trees ++ more) =
          Document.readParts places depth { condition? := read } more := by
  cases condition? with
  | none =>
    have refused : Refuses (.call .typeCondition) (Rule.blank.after grammar.match? rest) :=
      refuses_typeCondition_head (avoids.ne (by decide))
    refine ⟨[], (Expression.Reaches.option_none refused).congr (isBlank_blank.after_after rest), fun places => ?_⟩
    exact ⟨none, rfl, fun _ _ => rfl⟩
  | some type =>
    obtain ⟨left, leftAfter, leftName, branch⟩ := reaches_typeCondition (isType type rfl) ends
    have isText : (conditionText (some type)).toList ++ rest = ' ' :: ("on ".toList ++ (type.toList ++ rest)) := by
      simp [conditionText]
    have start : Solid ("on ".toList ++ (type.toList ++ rest)) := forall_head ⟨rfl, by decide⟩
    rw [isText, afterBlank_cons rfl, afterBlank_of_solid start]
    refine ⟨_, .option branch, fun places => ⟨some ⟨type, places leftName⟩, rfl, fun depth more => ?_⟩⟩
    rw [List.singleton_append, readParts_cons, readPart_condition, nameOf_token]
    rfl

/-- Directives and a set, which end inline fragments and definitions. -/
def tailText (level : Nat) (directives : List Directive) (selections : List Selection) (rest : List Char) : List Char :=
  (Directive.listText directives).toList ++ ((Selection.bodyText level selections).toList ++ rest)

def ReadsTail (depth : Nat) (directives : List Directive) (selections : List Selection) (trees : List SyntaxTree) : Prop :=
  ∀ places, ∃ (directivesRead : List Document.Directive) (selectionsRead : List Document.Selection) (position : Position),
    directivesRead.map Document.Directive.unplaced = directives.map Directive.written ∧
    Document.Selection.unplacedAll selectionsRead = Selection.writtenAll selections ∧
    ∀ parts, Document.readParts places (depth + 1) parts trees = .ok { parts with
      directives := parts.directives ++ directivesRead
      bodyPosition := position
      selections := selectionsRead }

theorem tailText_startsWith (level : Nat) (directives : List Directive) {selections : List Selection}
    (notEmpty : selections ≠ []) (rest : List Char) :
    ∃ c others, tailText level directives selections rest = ' ' :: c :: others ∧ (c = '@' ∨ c = '\x7b') := by
  cases directives with
  | nil =>
    obtain ⟨others, isBody⟩ := bodyText_startsWith level notEmpty
    exact ⟨'\x7b', others ++ rest, by simp [tailText, Directive.listText, isBody], .inr rfl⟩
  | cons directive others =>
    rw [tailText, listText_cons, text_directive]
    exact ⟨'@', _, rfl, .inl rfl⟩

theorem delimited_tail (level : Nat) (directives : List Directive) {selections : List Selection}
    (notEmpty : selections ≠ []) (rest : List Char) : Delimited (tailText level directives selections rest) := by
  obtain ⟨c, others, isText, _⟩ := tailText_startsWith level directives notEmpty rest
  rw [isText]
  exact Delimited.cons rfl

theorem avoids_tail (level : Nat) (directives : List Directive) {selections : List Selection} {characters : List Char}
    (notEmpty : selections ≠ []) (noSign : '@' ∉ characters) (noBrace : '\x7b' ∉ characters) (rest : List Char) :
    Avoids characters (tailText level directives selections rest) := by
  obtain ⟨c, others, isText, isFirst⟩ := tailText_startsWith level directives notEmpty rest
  rw [isText]
  rcases isFirst with rfl | rfl
  · exact .blank rfl (.cons ⟨rfl, by decide⟩ noSign)
  · exact .blank rfl (.cons ⟨rfl, by decide⟩ noBrace)

theorem reaches_tail (level : Nat) {selections : List Selection}
    (ofDirectives : ∀ directive ∈ directives, directive.written.Printable)
    (readDirectives : ∀ directive ∈ directives, AllReadBack directive.rounded)
    (notEmpty : selections ≠ []) (set : RestoredSet depth selections) (rest : List Char) :
    ∃ trees, Reaches (Rule.spaced [.option (.call .directives), .call .selectionSet])
      (Rule.blank.after grammar.match? (tailText level directives selections rest)) trees rest ∧
      ReadsTail depth directives selections trees := by
  obtain ⟨others, isBody⟩ := bodyText_startsWith level notEmpty
  have beforeBody : Delimited ((Selection.bodyText level selections).toList ++ rest) := by
    rw [isBody]
    exact Delimited.cons rfl
  have bodyAvoids : Avoids ['(', '@'] ((Selection.bodyText level selections).toList ++ rest) := by
    rw [isBody]
    exact .blank rfl (.cons ⟨rfl, by decide⟩ (by decide))
  obtain ⟨directiveTrees, reachesDirectives, areDirectives⟩ :=
    reaches_directives ofDirectives readDirectives beforeBody bodyAvoids
  obtain ⟨left, leftAfter, items, reachesSet, areRead⟩ :=
    reaches_set level notEmpty set.restored set.printable set.readable rest
  refine ⟨_, reachesDirectives.spaced_cons isBlank_blank reachesSet, fun places => ?_⟩
  obtain ⟨directivesRead, sameDirectives, readD⟩ := readParts_directives areDirectives places
  obtain ⟨selectionsRead, isOk, sameSelections⟩ := readSelections_eq areRead places
  refine ⟨directivesRead, selectionsRead, places left, sameDirectives, sameSelections, fun parts => ?_⟩
  refine (readD (depth + 1) parts _).trans ?_
  rw [readParts_cons, readPart_set, isOk]
  rfl

theorem Selection.Restored.inline {condition? : Option String} {selections : List Selection}
    (isType : ∀ type ∈ condition?, IsName type.toList)
    (ofDirectives : ∀ directive ∈ directives, directive.written.Printable)
    (readDirectives : ∀ directive ∈ directives, AllReadBack directive.rounded)
    (notEmpty : selections ≠ []) (set : RestoredSet depth selections) :
    (Selection.inline condition? directives selections).Restored (depth + 1) := by
  intro level rest ends _
  obtain ⟨conditionTrees, reachesCondition, readC⟩ := reaches_condition isType
    (delimited_tail level directives notEmpty rest).nameEnds
    (avoids_tail level directives notEmpty (by decide) (by decide) rest)
  obtain ⟨tailTrees, reachesTail, isTail⟩ := reaches_tail level ofDirectives readDirectives notEmpty set rest
  have isText : ((Selection.inline condition? directives selections).text level).toList ++ rest =
      "...".toList ++ ((conditionText condition?).toList ++ tailText level directives selections rest) := by
    cases condition? <;> simp [Selection.text, conditionText, tailText]
  have body : Reaches (Rule.body .inlineFragment) (((Selection.inline condition? directives selections).text level).toList ++ rest)
      ([] ++ (conditionTrees ++ tailTrees)) rest := by
    rw [isText]
    exact (reaches_word "...".toList _).spaced_cons isBlank_blank (reachesCondition.spaced_cons isBlank_blank reachesTail)
  obtain ⟨endsAfter, branch⟩ := reaches_branch .inlineFragment rfl body
  rw [isText] at branch ⊢
  refine ⟨_, reaches_spliced rfl (.right (refuses_field_dots _) (.left branch)), fun places => ?_⟩
  obtain ⟨conditionRead, sameCondition, readCondition⟩ := readC places
  obtain ⟨directivesRead, selectionsRead, position, sameDirectives, sameSelections, readTail⟩ := isTail places
  have isOk : Document.readParts places (depth + 1) {} (conditionTrees ++ tailTrees) =
      .ok ⟨[], none, .query, [], conditionRead, [], directivesRead, position, selectionsRead⟩ :=
    (readCondition (depth + 1) tailTrees).trans (readTail _)
  refine ⟨_, by rw [List.nil_append, Document.readSelection, isOk]; rfl, ?_⟩
  simp [Document.Selection.unplaced, Selection.written, sameCondition, sameDirectives, sameSelections]

end Fragments

section Restoring

variable {depth : Nat}

theorem Selection.isReadable_of_mem {selections : List Selection} (readable : areReadable selections = true) :
    ∀ selection ∈ selections, selection.isReadable = true := by
  induction selections with
  | nil => simp
  | cons first others ih =>
    simp only [areReadable, Bool.and_eq_true] at readable
    exact List.forall_mem_cons.mpr ⟨readable.1.1, ih readable.2⟩

theorem RestoredSet.of_forall {selections : List Selection} (readable : Selection.areReadable selections = true)
    (readBack : AllReadBack (Selection.roundedAll selections))
    (inner : ∀ selection ∈ Selection.writtenAll selections, selection.Printable depth)
    (ih : ∀ selection ∈ selections, ∀ {depth}, selection.written.Printable depth → selection.isReadable = true →
      AllReadBack selection.rounded → selection.Restored depth) : RestoredSet depth selections := by
  have printable (selection : Selection) (member : selection ∈ selections) : selection.written.Printable depth := by
    rw [Selection.writtenAll_eq] at inner
    exact inner _ (List.mem_map_of_mem member)
  refine ⟨fun selection member => ?_, printable, readable⟩
  refine ih selection member (printable selection member) (Selection.isReadable_of_mem readable selection member) ?_
  intro number inSelection
  rw [Selection.roundedAll_eq] at readBack
  exact readBack number (List.mem_flatMap.mpr ⟨selection, member, inSelection⟩)

theorem printable_arguments {arguments : List Argument}
    (printable : ∀ argument ∈ arguments.map Argument.written, argument.Printable) :
    ∀ argument ∈ arguments, argument.written.Printable := fun _ member => printable _ (List.mem_map_of_mem member)

theorem printable_directives {directives : List Directive}
    (printable : ∀ directive ∈ directives.map Directive.written, directive.Printable) :
    ∀ directive ∈ directives, directive.written.Printable := fun _ member => printable _ (List.mem_map_of_mem member)

theorem AllReadBack.flatMap {Item : Type} {items : List Item} {numbers : Item → List Decimal.Binary64}
    (readBack : AllReadBack (items.flatMap numbers)) : ∀ item ∈ items, AllReadBack (numbers item) :=
  fun item member number inItem => readBack number (List.mem_flatMap.mpr ⟨item, member, inItem⟩)

theorem AllReadBack.append {first second : List Decimal.Binary64} (readBack : AllReadBack (first ++ second)) :
    AllReadBack first ∧ AllReadBack second :=
  ⟨fun number member => readBack number (List.mem_append_left _ member),
    fun number member => readBack number (List.mem_append_right _ member)⟩

/-- Selections as a document has them are printed so that they are read back. -/
theorem Selection.restored_of_written {selection : Selection} (printable : selection.written.Printable depth)
    (readable : selection.isReadable = true) (readBack : AllReadBack selection.rounded) : selection.Restored depth := by
  induction selection using inside generalizing depth with
  | field alias? name arguments directives type selections ih =>
    obtain ⟨front, readSelections⟩ := readBack.append
    obtain ⟨readArguments, readDirectives⟩ := front.append
    have ofSet {inner : Nat} (ofInner : ∀ selection ∈ writtenAll selections, selection.Printable inner) :
        RestoredSet inner selections := .of_forall readable readSelections ofInner ih
    simp only [written] at printable
    generalize isWritten : writtenAll selections = body at printable ofSet
    cases printable with
    | leaf isAlias isName ofArguments ofDirectives =>
      refine .field isAlias isName (printable_arguments ofArguments) (printable_directives ofDirectives)
        readArguments.flatMap readDirectives.flatMap (.inl ?_)
      rw [writtenAll_eq] at isWritten
      exact List.map_eq_nil_iff.mp isWritten
    | @field inner _ _ _ _ _ _ _ isAlias isName ofArguments ofDirectives _ ofInner =>
      exact .field isAlias isName (printable_arguments ofArguments) (printable_directives ofDirectives)
        readArguments.flatMap readDirectives.flatMap (.inr ⟨inner, rfl, ofSet ofInner⟩)
  | spread name directives =>
    cases printable with
    | spread isName ofDirectives => exact .spread isName (printable_directives ofDirectives) readBack.flatMap
  | inline condition? directives selections ih =>
    obtain ⟨readDirectives, readSelections⟩ := readBack.append
    have ofSet {inner : Nat} (ofInner : ∀ selection ∈ writtenAll selections, selection.Printable inner) :
        RestoredSet inner selections := .of_forall readable readSelections ofInner ih
    simp only [written] at printable
    generalize isWritten : writtenAll selections = body at printable ofSet
    cases printable with
    | inline isType ofDirectives notEmpty ofInner =>
      refine .inline ?_ (printable_directives ofDirectives) readDirectives.flatMap ?_ (ofSet ofInner)
      · rintro type rfl
        exact isType _ rfl
      · rintro rfl
        exact notEmpty isWritten.symm

end Restoring

end SiteQuery.Graphql
