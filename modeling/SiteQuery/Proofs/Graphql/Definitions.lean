import SiteQuery.Proofs.Graphql.Selections

/-!
The texts of operations and fragments are read back.
-/

namespace SiteQuery.Graphql

open Grammar

namespace Node

def rounded : Node → List Decimal.Binary64
  | root r => r.variableDefinitions.flatMap Variable.rounded ++ r.directives.flatMap Directive.rounded ++
      Selection.roundedAll r.selections
  | fragment f => f.directives.flatMap Directive.rounded ++ Selection.roundedAll f.selections

/-- The text of the definition says what the definition says. -/
def Readable : Node → Prop
  | root r => (∀ definition ∈ r.variableDefinitions, definition.Readable) ∧ Selection.areReadable r.selections = true
  | fragment f => Selection.areReadable f.selections = true

instance : (node : Node) → Decidable node.Readable
  | root r => inferInstanceAs (Decidable ((∀ definition ∈ r.variableDefinitions, definition.Readable) ∧
      Selection.areReadable r.selections = true))
  | fragment f => inferInstanceAs (Decidable (Selection.areReadable f.selections = true))

end Node

/-- The tree of a definition that begins where so many characters are left. -/
def ReadsNode (node : Node) (left : Nat) (tree : SyntaxTree) : Prop :=
  ∀ places, ∃ read, Document.readDefinition places tree = .ok (some read) ∧ read.unplaced = node.written ∧
    read.position = places left

section Texts

theorem text_root (root : Root) : (Node.root root).text =
    root.kind.keyword ++ " " ++ root.name ++ parenthesized (root.variableDefinitions.map Variable.text)
      ++ Directive.listText root.directives ++ Selection.bodyText 0 root.selections ++ "\n" := rfl

theorem text_fragment (fragment : Fragment) : (Node.fragment fragment).text =
    "fragment " ++ fragment.name ++ " on " ++ fragment.condition ++ Directive.listText fragment.directives
      ++ Selection.bodyText 0 fragment.selections ++ "\n" := rfl

theorem accepts_operationType (kind : OperationKind) (rest : List Char) :
    ∃ left, Accepts (.call .operationType) (kind.keyword.toList ++ rest)
      [.token .operationType left kind.keyword.toList] rest := by
  have isKind : Accepts (Rule.body .operationType) (kind.keyword.toList ++ rest) [] rest := by
    cases kind with
    | query => exact .left (.word _ rest)
    | mutation =>
      have noQuery : Refuses (Rule.word "query") ("mutation".toList ++ rest) := .word_head (forall_head (by decide))
      exact .right noQuery (.left (.word _ rest))
    | subscription =>
      have noQuery : Refuses (Rule.word "query") ("subscription".toList ++ rest) := .word_head (forall_head (by decide))
      have noMutation : Refuses (Rule.word "mutation") ("subscription".toList ++ rest) :=
        .word_head (forall_head (by decide))
      exact .right noQuery (.right noMutation (.word _ rest))
  exact ⟨_, accepts_token rfl isKind⟩

theorem kindOf_keyword (kind : OperationKind) : Document.kindOf kind.keyword.toList = kind := by
  cases kind <;> decide

theorem printable_variables {definitions : List Variable}
    (printable : ∀ definition ∈ definitions.map Variable.written, definition.Printable) :
    ∀ definition ∈ definitions, definition.written.Printable := fun _ member => printable _ (List.mem_map_of_mem member)

/-- A definition may have one level more than what its set may have. -/
theorem restoredSet_of_body {selections : List Selection}
    (printable : Document.PrintableBody 64 (Selection.writtenAll selections))
    (readable : Selection.areReadable selections = true) (readBack : AllReadBack (Selection.roundedAll selections)) :
    selections ≠ [] ∧ RestoredSet 64 selections := by
  constructor
  · rintro rfl
    exact printable.1 rfl
  · exact .of_forall readable readBack printable.2 fun selection _ => Selection.restored_of_written

theorem reaches_operation {input rest : List Char} {trees : List SyntaxTree}
    (reaches : Reaches (.call .namedOperation) input trees rest) : Reaches (.call .executableDefinition) input trees rest := by
  have isOperation : Reaches (.call .operationDefinition) input trees rest := reaches_spliced rfl reaches.left
  exact reaches_spliced rfl isOperation.left

/-- Only operations begin with one of these characters. -/
theorem refuses_operation {input : List Char} (differs : ∀ c ∈ input.head?, c ≠ 'q' ∧ c ≠ 'm' ∧ c ≠ 's' ∧ c ≠ '\x7b') :
    Refuses (.call .operationDefinition) input := by
  have noKind : Refuses (.call .operationType) input := by
    refine refuses_call (.either (.word_head fun c isHead => (differs c isHead).1) (.either ?_ ?_))
    · exact .word_head fun c isHead => (differs c isHead).2.1
    · exact .word_head fun c isHead => (differs c isHead).2.2.1
  have noSet : Refuses (.call .selectionSet) input :=
    refuses_call (.spaced_head (.word_head fun c isHead => (differs c isHead).2.2.2))
  exact refuses_call (.either (refuses_call (.spaced_head noKind)) noSet)

theorem reaches_root {root : Root} (printable : (Node.root root).written.Printable) (readable : (Node.root root).Readable)
    (readBack : AllReadBack (Node.root root).rounded) (rest : List Char) :
    ∃ tree, Reaches (.call .executableDefinition) ((Node.root root).text.toList ++ rest) [tree] rest ∧
      ReadsNode (.root root) ((Node.root root).text.toList ++ rest).length tree := by
  obtain ⟨name, kind, type, definitions, directives, selections⟩ := root
  obtain ⟨front, readSelections⟩ := readBack.append
  obtain ⟨readVariables, readDirectives⟩ := front.append
  have ofOperation : Document.Operation.Printable ⟨.start, some name, kind, definitions.map Variable.written,
    directives.map Directive.written, Selection.writtenAll selections⟩ := printable
  have isName : IsName name.toList := ofOperation.name name rfl
  obtain ⟨notEmpty, set⟩ := restoredSet_of_body ofOperation.body readable.2 readSelections
  have beforeTail := delimited_tail 0 directives notEmpty ('\n' :: rest)
  have beforeVariables := delimited_parenthesized Variable.text definitions beforeTail
  obtain ⟨leftKind, isKind⟩ := accepts_operationType kind (' ' :: (name.toList ++
    ((parenthesized (definitions.map Variable.text)).toList ++ tailText 0 directives selections ('\n' :: rest))))
  obtain ⟨leftName, named⟩ := reaches_name isName beforeVariables.nameEnds
  obtain ⟨variableTrees, reachesVariables, areVariables⟩ := reaches_variables
    (printable_variables ofOperation.variableDefinitions) readable.1 readVariables.flatMap
    (avoids_tail 0 directives notEmpty (by decide) (by decide) ('\n' :: rest))
  obtain ⟨tailTrees, reachesTail, isTail⟩ := reaches_tail 0 (printable_directives ofOperation.directives)
    readDirectives.flatMap notEmpty set ('\n' :: rest)
  have isText : (Node.root ⟨name, kind, type, definitions, directives, selections⟩).text.toList ++ rest =
      kind.keyword.toList ++ (' ' :: (name.toList ++ ((parenthesized (definitions.map Variable.text)).toList ++
        tailText 0 directives selections ('\n' :: rest)))) := by
    simp [text_root, tailText]
  have body : Reaches (Rule.body .namedOperation)
      ((Node.root ⟨name, kind, type, definitions, directives, selections⟩).text.toList ++ rest)
      ([.token .operationType leftKind kind.keyword.toList] ++ ([.token .name leftName name.toList] ++
        (variableTrees ++ tailTrees))) ('\n' :: rest) := by
    rw [isText]
    refine isKind.reaches.spaced_cons isBlank_blank ?_
    rw [afterBlank_cons rfl, afterBlank_of_solid (isName.startsSolid.solid _)]
    exact named.option.spaced_cons isBlank_blank (reachesVariables.spaced_cons isBlank_blank reachesTail)
  obtain ⟨leftAfter, branch⟩ := reaches_branch .namedOperation rfl body
  have isOperation := reaches_operation branch
  refine ⟨_, isOperation.congr (afterBlank_cons rfl), fun places => ?_⟩
  obtain ⟨variablesRead, sameVariables, readV⟩ := readParts_variables areVariables places
  obtain ⟨directivesRead, selectionsRead, position, sameDirectives, sameSelections, readTail⟩ := isTail places
  have isOk : Document.readParts places Document.maximalDepth {} ([.token .operationType leftKind kind.keyword.toList] ++
      ([.token .name leftName name.toList] ++ (variableTrees ++ tailTrees))) =
        .ok ⟨[name], none, kind, variablesRead, none, [], directivesRead, position, selectionsRead⟩ := by
    simp only [List.singleton_append, readParts_cons, readPart_operationType, readPart_name, Except.bind,
      kindOf_keyword, String.ofList_toList]
    exact (readV _ _ tailTrees).trans (readTail _)
  refine ⟨_, by rw [Document.readDefinition, isOk]; rfl, ?_, rfl⟩
  simp [Document.Definition.unplaced, Node.written, sameVariables, sameDirectives, sameSelections]

theorem reaches_fragment {fragment : Fragment} (printable : (Node.fragment fragment).written.Printable)
    (readable : (Node.fragment fragment).Readable) (readBack : AllReadBack (Node.fragment fragment).rounded)
    (rest : List Char) :
    ∃ tree, Reaches (.call .executableDefinition) ((Node.fragment fragment).text.toList ++ rest) [tree] rest ∧
      ReadsNode (.fragment fragment) ((Node.fragment fragment).text.toList ++ rest).length tree := by
  obtain ⟨name, condition, directives, selections⟩ := fragment
  obtain ⟨readDirectives, readSelections⟩ := readBack.append
  have ofFragment : Document.Fragment.Printable ⟨.start, name, ⟨condition, .start⟩, directives.map Directive.written,
    Selection.writtenAll selections⟩ := printable
  have isName : IsName name.toList := ofFragment.name
  obtain ⟨notEmpty, set⟩ := restoredSet_of_body ofFragment.body readable readSelections
  have beforeTail := delimited_tail 0 directives notEmpty ('\n' :: rest)
  obtain ⟨left, leftAfter, leftType, isCondition⟩ := reaches_typeCondition ofFragment.condition beforeTail.nameEnds
  have blankEnds (text : List Char) : NameEnds (' ' :: text) := forall_head rfl
  obtain ⟨leftName, named⟩ := reaches_name isName
    (blankEnds ("on ".toList ++ (condition.toList ++ tailText 0 directives selections ('\n' :: rest))))
  obtain ⟨tailTrees, reachesTail, isTail⟩ := reaches_tail 0 (printable_directives ofFragment.directives)
    readDirectives.flatMap notEmpty set ('\n' :: rest)
  have isText : (Node.fragment ⟨name, condition, directives, selections⟩).text.toList ++ rest =
      "fragment".toList ++ (' ' :: (name.toList ++ (' ' :: ("on ".toList ++
        (condition.toList ++ tailText 0 directives selections ('\n' :: rest)))))) := by
    simp [text_fragment, tailText]
  have onSolid (text : List Char) : Solid ("on ".toList ++ text) := forall_head ⟨rfl, by decide⟩
  have body : Reaches (Rule.body .fragmentDefinition)
      ((Node.fragment ⟨name, condition, directives, selections⟩).text.toList ++ rest)
      ([] ++ ([.token .name leftName name.toList] ++
        ([.branch .typeCondition left leftAfter [.token .name leftType condition.toList]] ++ tailTrees)))
      ('\n' :: rest) := by
    rw [isText]
    refine (reaches_word "fragment".toList _).spaced_cons isBlank_blank ?_
    rw [afterBlank_cons rfl, afterBlank_of_solid (isName.startsSolid.solid _)]
    refine named.spaced_cons isBlank_blank ?_
    rw [afterBlank_cons rfl, afterBlank_of_solid (onSolid _)]
    exact isCondition.spaced_cons isBlank_blank reachesTail
  obtain ⟨endsAfter, branch⟩ := reaches_branch .fragmentDefinition rfl body
  have noOperation : Refuses (.call .operationDefinition)
      ((Node.fragment ⟨name, condition, directives, selections⟩).text.toList ++ rest) := by
    rw [isText]
    exact refuses_operation (forall_head (by decide))
  have isDefinition : Reaches (.call .executableDefinition) _ _ _ := reaches_spliced rfl (.right noOperation branch)
  refine ⟨_, isDefinition.congr (afterBlank_cons rfl), fun places => ?_⟩
  obtain ⟨directivesRead, selectionsRead, position, sameDirectives, sameSelections, readTail⟩ := isTail places
  have isOk : Document.readParts places Document.maximalDepth {} ([] ++ ([.token .name leftName name.toList] ++
      ([.branch .typeCondition left leftAfter [.token .name leftType condition.toList]] ++ tailTrees))) =
        .ok ⟨[name], none, .query, [], some ⟨condition, places leftType⟩, [], directivesRead, position, selectionsRead⟩ := by
    simp only [List.nil_append, List.singleton_append, readParts_cons, readPart_name, readPart_condition, Except.bind,
      nameOf_token, String.ofList_toList]
    exact readTail _
  refine ⟨_, by rw [Document.readDefinition, isOk]; rfl, ?_, rfl⟩
  simp [Document.Definition.unplaced, Document.Condition.unplaced, Document.Parts.name, Node.written,
    sameDirectives, sameSelections]

/-- A definition as a document has it is printed so that it is read back. -/
theorem reaches_node {node : Node} (printable : node.written.Printable) (readable : node.Readable)
    (readBack : AllReadBack node.rounded) (rest : List Char) :
    ∃ tree, Reaches (.call .executableDefinition) (node.text.toList ++ rest) [tree] rest ∧
      ReadsNode node (node.text.toList ++ rest).length tree := by
  cases node with
  | root root => exact reaches_root printable readable readBack rest
  | fragment fragment => exact reaches_fragment printable readable readBack rest

end Texts

end SiteQuery.Graphql
