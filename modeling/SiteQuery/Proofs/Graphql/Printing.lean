import SiteQuery.Proofs.Graphql.Collected
import SiteQuery.Proofs.Graphql.Definitions
import SiteQuery.Proofs.Sorting

/-!
Printed definitions are read back as a document, in the order in which they were printed.
-/

namespace SiteQuery

namespace Position

variable {before rest : List Char} {position : Position}

theorem getElem?_table (before rest : List Char) (position : Position) :
    (table position (before ++ rest))[before.length]? = some (before.foldl after position) := by
  induction before generalizing position with
  | nil => cases rest <;> rfl
  | cons c before ih => simpa [table] using ih (position.after c)

theorem line_foldl_after (before : List Char) (position : Position) :
    (before.foldl after position).line = position.line + before.count '\n' := by
  induction before generalizing position with
  | nil => rfl
  | cons c before ih =>
    rw [List.foldl_cons, ih, List.count_cons]
    by_cases isBreak : c = '\n'
    · simp [after, isBreak]
      omega
    · have sameLine : (position.after c).line = position.line := by
        simp only [after, isBreak, if_false]
        split <;> rfl
      simp [sameLine, isBreak]

theorem le_total (a b : Position) : a.le b = true ∨ b.le a = true := by
  simp only [le, Bool.or_eq_true, Bool.and_eq_true, decide_eq_true_eq, beq_iff_eq]
  omega

theorem le_trans {a b c : Position} (first : a.le b = true) (second : b.le c = true) : a.le c = true := by
  simp only [le, Bool.or_eq_true, Bool.and_eq_true, decide_eq_true_eq, beq_iff_eq] at *
  omega

end Position

namespace Graphql

open Grammar

theorem Places.ofText_append (before rest : List Char) :
    Places.ofText (before ++ rest) rest.length = before.foldl Position.after .start := by
  have found := Position.getElem?_table before rest .start
  simp [Places.ofText, Array.getD_eq_getD_getElem?, found]

namespace Node

theorem text_startsSolid (node : Node) : StartsSolid node.text.toList := by
  cases node with
  | root root =>
    obtain ⟨name, kind, type, definitions, directives, selections⟩ := root
    cases kind with
    | query => exact ⟨'q', _, by simp only [text, String.append_assoc, String.toList_append]; rfl, rfl, by decide⟩
    | mutation => exact ⟨'m', _, by simp only [text, String.append_assoc, String.toList_append]; rfl, rfl, by decide⟩
    | subscription => exact ⟨'s', _, by simp only [text, String.append_assoc, String.toList_append]; rfl, rfl, by decide⟩
  | fragment fragment =>
    exact ⟨'f', _, by simp only [text, String.append_assoc, String.toList_append]; rfl, rfl, by decide⟩

theorem newline_mem_text (node : Node) : '\n' ∈ node.text.toList := by
  cases node <;> simp [text]

/-- The text of several definitions. -/
def joined (nodes : List Node) : List Char := ("\n".intercalate (nodes.map text)).toList

theorem joined_cons (node : Node) (more : List Node) :
    ∃ gap, joined (node :: more) = node.text.toList ++ (gap ++ joined more) ∧
      (gap = [] ∧ more = [] ∨ gap = ['\n'] ∧ more ≠ []) := by
  cases more with
  | nil => exact ⟨[], by simp [joined], .inl ⟨rfl, rfl⟩⟩
  | cons next others => exact ⟨['\n'], by simp [joined, String.intercalate_cons_cons], .inr ⟨rfl, List.cons_ne_nil _ _⟩⟩

end Node

/-- What is read from the text that `before` precedes. -/
structure ReadsNodes (before : List Char) (nodes : List Node) (trees : List SyntaxTree)
    (definitions : List Document.Definition) : Prop where
  read : trees.mapM (Document.readDefinition (.ofText (before ++ Node.joined nodes))) = .ok (definitions.map some)
  same : definitions.map Document.Definition.unplaced = nodes.map Node.written
  ordered : definitions.Pairwise fun a b => a.position.line < b.position.line
  after : ∀ definition ∈ definitions, (before.foldl Position.after .start).line ≤ definition.position.line

theorem ReadsNodes.ne_nil {before : List Char} {nodes : List Node} {trees : List SyntaxTree}
    {definitions : List Document.Definition} (reads : ReadsNodes before nodes trees definitions) (notEmpty : nodes ≠ []) :
    trees ≠ [] := by
  rintro rfl
  have noDefinitions : [] = definitions.map some := Except.ok.inj reads.read
  have same := reads.same
  rw [List.map_eq_nil_iff.mp noDefinitions.symm] at same
  exact notEmpty (List.map_eq_nil_iff.mp same.symm)

theorem ReadsNodes.cons {before gap : List Char} {node : Node} {more : List Node} {tree : SyntaxTree}
    {trees : List SyntaxTree} {definitions : List Document.Definition}
    (isText : Node.joined (node :: more) = node.text.toList ++ (gap ++ Node.joined more))
    (isRead : ReadsNode node (node.text.toList ++ (gap ++ Node.joined more)).length tree)
    (reads : ReadsNodes (before ++ (node.text.toList ++ gap)) more trees definitions) :
    ∃ definition, ReadsNodes before (node :: more) (tree :: trees) (definition :: definitions) := by
  obtain ⟨definition, isOk, same, isPosition⟩ := isRead (.ofText (before ++ Node.joined (node :: more)))
  have isPlace : definition.position = before.foldl Position.after .start := by
    rw [isPosition, isText, Places.ofText_append]
  have isLine : (before.foldl Position.after .start).line <
      ((before ++ (node.text.toList ++ gap)).foldl Position.after .start).line := by
    have breaks : 0 < node.text.toList.count '\n' := List.count_pos_iff.mpr node.newline_mem_text
    rw [Position.line_foldl_after, Position.line_foldl_after, List.count_append, List.count_append]
    omega
  have later (other : Document.Definition) (member : other ∈ definitions) :
      definition.position.line < other.position.line := by
    rw [isPlace]
    exact Nat.lt_of_lt_of_le isLine (reads.after other member)
  refine ⟨definition, ?_, ?_, List.pairwise_cons.mpr ⟨later, reads.ordered⟩, ?_⟩
  · have sameText : before ++ (node.text.toList ++ gap) ++ Node.joined more = before ++ Node.joined (node :: more) := by
      simp [isText]
    have others := reads.read
    rw [sameText] at others
    rw [List.mapM_cons, isOk, others]
    rfl
  · rw [List.map_cons, List.map_cons, same, reads.same]
  · refine List.forall_mem_cons.mpr ⟨by rw [isPlace], fun other member => ?_⟩
    have below := later other member
    rw [isPlace] at below
    exact Nat.le_of_lt below

theorem chain_nodes {nodes : List Node} (printable : ∀ node ∈ nodes, node.written.Printable)
    (readable : ∀ node ∈ nodes, node.Readable) (readBack : ∀ node ∈ nodes, AllReadBack node.rounded) (before : List Char) :
    ∃ trees definitions, Expression.Chain grammar.match? (.call .executableDefinition) Rule.blank
      (Node.joined nodes) trees [] ∧ ReadsNodes before nodes trees definitions := by
  induction nodes generalizing before with
  | nil =>
    have refused : Refuses (.call .executableDefinition) [] := by
      have noOperation : Refuses (.call .operationDefinition) [] := refuses_operation (by simp)
      exact refuses_call (.either noOperation (refuses_call (.spaced_head (.word_head (by simp)))))
    have solid : Solid (Node.joined []) := nofun
    refine ⟨[], [], .nil ?_, rfl, rfl, .nil, by simp⟩
    rwa [afterBlank_of_solid solid]
  | cons node more ih =>
    obtain ⟨gap, isText, isGap⟩ := Node.joined_cons node more
    obtain ⟨trees, definitions, chain, reads⟩ := ih (fun other member => printable other (List.mem_cons_of_mem _ member))
      (fun other member => readable other (List.mem_cons_of_mem _ member))
      (fun other member => readBack other (List.mem_cons_of_mem _ member)) (before ++ (node.text.toList ++ gap))
    obtain ⟨tree, reaches, isRead⟩ := reaches_node (printable node List.mem_cons_self) (readable node List.mem_cons_self)
      (readBack node List.mem_cons_self) (gap ++ Node.joined more)
    obtain ⟨definition, readsAll⟩ := reads.cons isText isRead
    have chainMore : Expression.Chain grammar.match? (.call .executableDefinition) Rule.blank
        (gap ++ Node.joined more) trees [] := by
      rcases isGap with ⟨rfl, _⟩ | ⟨rfl, notEmpty⟩
      · exact chain
      · exact chain.of_after (reads.ne_nil notEmpty) (afterBlank_cons rfl)
    rw [← afterBlank_of_solid (node.text_startsSolid.solid _), ← isText] at reaches
    exact ⟨_, _, .cons reaches chainMore, readsAll⟩

namespace Document

theorem name?_of_unplaced {definition : Definition} {node : Node} (same : definition.unplaced = node.written) :
    definition.name? = some node.name := by
  cases definition with
  | operation operation =>
    cases node with
    | root root =>
      have isOperation := Definition.operation.inj same
      exact congrArg Operation.name? isOperation
    | fragment => cases same
  | fragment fragment =>
    cases node with
    | root => cases same
    | fragment other =>
      have isFragment := Definition.fragment.inj same
      exact congrArg (some ·.name) isFragment

theorem isOperation_of_unplaced {definition : Definition} {root : Root} (same : definition.unplaced = (Node.root root).written) :
    ∃ operation, definition = .operation operation := by
  cases definition with
  | operation operation => exact ⟨operation, rfl⟩
  | fragment => cases same

/-- What is read from the definitions of a text in order, if there is an operation among them. -/
theorem parse_of_definitions {text : String} {trees : List SyntaxTree} {definitions : List Definition}
    (isTree : treesOf .executableDocument text.toList = .ok trees)
    (read : trees.mapM (readDefinition (.ofText text.toList)) = .ok (definitions.map some))
    (ordered : definitions.Pairwise fun a b => a.position.line < b.position.line)
    (named : ∀ definition ∈ definitions, definition.name?.isSome = true)
    (distinct : (definitions.map Definition.name?).Nodup) {operation : Operation}
    (member : Definition.operation operation ∈ definitions) : parse text = .ok ⟨definitions⟩ := by
  obtain ⟨collected, isFolded⟩ : ∃ collected, definitions.foldlM Collected.add {} = .ok collected :=
    Collected.exists_foldlM_add named distinct
  have isPerm : collected.definitions.Perm definitions := Collected.perm_of_foldlM_add isFolded
  have notEmpty : collected.operations.isEmpty = false := by
    have inCollected := isPerm.symm.subset member
    cases empty : collected.operations with
    | nil => simp [Collected.definitions, empty] at inCollected
    | cons => rfl
  have parsed : parseOperations text.toList = .ok collected.definitions := by
    have all : (definitions.map some).filterMap id = definitions := by simp
    simp only [parseOperations, isTree, read, bind, Except.bind, all, isFolded, notEmpty]
    rfl
  have strict : definitions.Pairwise fun a b => a.position.le b.position = true ∧ b.position.le a.position = false := by
    refine ordered.imp fun {a b} before => ?_
    simp only [Position.le, Bool.or_eq_true, Bool.or_eq_false_iff, Bool.and_eq_true, Bool.and_eq_false_iff,
      decide_eq_true_eq, decide_eq_false_iff_not, beq_iff_eq, beq_eq_false_iff_ne]
    omega
  have isSorted : sorted (fun a b => a.position.le b.position) collected.definitions = definitions :=
    sorted_eq_of_perm (fun a b : Definition => a.position.le b.position) (fun a b => Position.le_total a.position b.position)
      (fun _ _ _ => Position.le_trans) isPerm strict
  rw [parse, parsed]
  simp only [inOrder, isSorted]

end Document

/-- A text of definitions up to its end. -/
theorem treesOf_of_chain {text stop : List Char} {trees : List SyntaxTree}
    (chain : Expression.Chain grammar.match? (.call .executableDefinition) Rule.blank text trees stop)
    (ends : Rule.blank.after grammar.match? stop = []) (notEmpty : trees ≠ []) :
    Document.treesOf .executableDocument text = .ok trees := by
  have empty : Accepts (.empty) text [] text := rfl
  have ending : Reaches (.call .endOfInput) [] [] [] := reaches_spliced rfl (Expression.Matches.reaches rfl)
  have body : Reaches (Rule.body .executableDocument) text ([] ++ (trees ++ [])) [] := by
    refine empty.reaches.spaced_cons isBlank_blank ?_
    refine (chain.someSpaced isBlank_blank (strict_call .executableDefinition rfl) notEmpty).spaced_cons isBlank_blank ?_
    rwa [ends]
  rw [List.nil_append, List.append_nil] at body
  have isDocument : Reaches (.call .executableDocument) text trees [] := reaches_spliced rfl body
  obtain ⟨last, accepted, _⟩ := isDocument
  have isParsed : grammar.parse .executableDocument text = .ok trees := Grammar.parse_eq_ok.mpr ⟨last, accepted⟩
  rw [Document.treesOf, isParsed]

/-- Definitions under distinct names, with an operation among them, are read back in their order. -/
theorem parse_joined {nodes : List Node} (printable : ∀ node ∈ nodes, node.written.Printable)
    (readable : ∀ node ∈ nodes, node.Readable) (readBack : ∀ node ∈ nodes, AllReadBack node.rounded)
    (distinct : (nodes.map Node.name).Nodup) {root : Root} (member : Node.root root ∈ nodes) :
    ∃ document, Document.parse ("\n".intercalate (nodes.map Node.text)) = .ok document ∧
      document.definitions.map Document.Definition.unplaced = nodes.map Node.written := by
  have notEmpty : nodes ≠ [] := List.ne_nil_of_mem member
  obtain ⟨trees, definitions, chain, reads⟩ := chain_nodes printable readable readBack []
  have areSame : List.Forall₂ (fun definition node => definition.unplaced = Node.written node) definitions nodes := by
    have same := reads.same
    rwa [← List.forall₂_eq_eq_eq, List.forall₂_map_left_iff, List.forall₂_map_right_iff] at same
  have names : definitions.map Document.Definition.name? = (nodes.map Node.name).map some := by
    rw [List.map_map, ← List.forall₂_eq_eq_eq, List.forall₂_map_left_iff, List.forall₂_map_right_iff]
    exact areSame.imp fun definition node => Document.name?_of_unplaced
  have named (definition : Document.Definition) (inDefinitions : definition ∈ definitions) :
      definition.name?.isSome = true := by
    have isName := List.mem_map_of_mem (f := Document.Definition.name?) inDefinitions
    rw [names] at isName
    obtain ⟨name, _, isSome⟩ := List.mem_map.mp isName
    rw [← isSome]
    rfl
  have distinctNames : (definitions.map Document.Definition.name?).Nodup := by
    rw [names]
    exact distinct.map (Option.some_injective _)
  obtain ⟨definition, inDefinitions, same⟩ : ∃ definition ∈ definitions, definition.unplaced = (Node.root root).written := by
    have inWritten := List.mem_map_of_mem (f := Node.written) member
    rw [← reads.same] at inWritten
    obtain ⟨definition, inDefinitions, same⟩ := List.mem_map.mp inWritten
    exact ⟨definition, inDefinitions, same⟩
  obtain ⟨operation, rfl⟩ := Document.isOperation_of_unplaced same
  have isTree := treesOf_of_chain chain (afterBlank_of_solid nofun) (reads.ne_nil notEmpty)
  exact ⟨⟨definitions⟩, Document.parse_of_definitions isTree reads.read reads.ordered named distinctNames inDefinitions,
    reads.same⟩

end Graphql

end SiteQuery
