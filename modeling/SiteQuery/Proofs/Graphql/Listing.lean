import Mathlib.Data.Set.List
import SiteQuery.Proofs.Graphql.Hosted
import SiteQuery.Proofs.Graphql.Parsed
import SiteQuery.Proofs.Graphql.Reading

/-!
What a document lists.

Definitions are collected by kind and name, and sorted by their places afterwards. Where the places are those of the text,
that gives back the order of the text: `Document.parse_listing`.
-/

namespace SiteQuery

theorem bind_eq_error {Error Result Next : Type} {first : Except Error Result} {next : Result → Except Error Next}
    {error : Error} (failed : (first >>= next) = .error error) :
    first = .error error ∨ ∃ result, first = .ok result ∧ next result = .error error := by
  cases first with
  | error other => exact .inl (congrArg Except.error (Except.error.inj failed))
  | ok result => exact .inr ⟨result, rfl, failed⟩

namespace Position

variable {a b c position : Position} {text more : List Char}

/-- Strictly before, in order of reading. -/
def Precedes (a b : Position) : Prop := a.line < b.line ∨ a.line = b.line ∧ a.column < b.column

theorem Precedes.trans (first : a.Precedes b) (second : b.Precedes c) : a.Precedes c := by
  unfold Precedes at *
  omega

theorem Precedes.le (precedes : a.Precedes b) : a.le b = true ∧ b.le a = false := by
  simp only [Precedes, Position.le, Bool.or_eq_true, Bool.or_eq_false_iff, Bool.and_eq_true, Bool.and_eq_false_iff,
    decide_eq_true_eq, decide_eq_false_iff_not, beq_iff_eq, beq_eq_false_iff_ne] at *
  omega

theorem foldl_after_eq (noReturn : '\r' ∉ text) : text.foldl after position = ofPrecedingText text position := by
  induction text, position using ofPrecedingText.induct with
  | case1 => rfl
  | case2 => simp at noReturn
  | case3 c rest position apart ih =>
    have notReturn : c ≠ '\r' := (List.ne_of_not_mem_cons noReturn).symm
    have isNext : position.after c =
        if c = '\n' then ⟨position.line + 1, 1⟩ else ⟨position.line, position.column + 1⟩ := by
      rw [after, if_neg notReturn]
    rw [ofPrecedingText.eq_3 _ _ _ apart, List.foldl_cons, isNext]
    exact ih (List.not_mem_of_not_mem_cons noReturn)

theorem precedes_next (c : Char) (position : Position) :
    position.Precedes (if c = '\n' then ⟨position.line + 1, 1⟩ else ⟨position.line, position.column + 1⟩) := by
  split
  · exact .inl (Nat.lt_succ_self _)
  · exact .inr ⟨rfl, Nat.lt_succ_self _⟩

theorem Precedes.further (precedes : a.Precedes b) (text : List Char) : a.Precedes (ofPrecedingText text b) := by
  induction text, b using ofPrecedingText.induct with
  | case1 => exact precedes
  | case2 rest b ih =>
    rw [ofPrecedingText]
    exact ih (precedes.trans (.inl (Nat.lt_succ_self _)))
  | case3 c rest b apart ih =>
    rw [ofPrecedingText.eq_3 _ _ _ apart]
    exact ih (precedes.trans (precedes_next c b))

theorem precedes_ofPrecedingText (notEmpty : text ≠ []) : position.Precedes (ofPrecedingText text position) := by
  fun_cases ofPrecedingText text position with
  | case1 => exact absurd rfl notEmpty
  | case2 rest =>
    have next : position.Precedes ⟨position.line + 1, 1⟩ := .inl (Nat.lt_succ_self _)
    exact next.further rest
  | case3 c rest => exact (precedes_next c position).further rest

/-- What stands later in a text has a later place. -/
theorem precedes_ofPrecedingText_append (notEmpty : more ≠ []) :
    (ofPrecedingText text position).Precedes (ofPrecedingText (text ++ more) position) := by
  induction text, position using ofPrecedingText.induct with
  | case1 position => exact precedes_ofPrecedingText notEmpty
  | case2 rest position ih =>
    simp only [List.cons_append, ofPrecedingText]
    exact ih
  | case3 c rest position apart ih =>
    rw [ofPrecedingText.eq_3 _ _ _ apart, List.cons_append]
    by_cases isBreak : c = '\r' ∧ ∃ others, rest ++ more = '\n' :: others
    · -- the line break goes across the end of the text
      obtain ⟨rfl, others, behind⟩ := isBreak
      cases rest with
      | nil =>
        rw [behind, ofPrecedingText]
        exact Precedes.further (.inl (Nat.lt_succ_self _)) others
      | cons d rest =>
        obtain ⟨rfl, _⟩ := List.cons.inj behind
        exact absurd rfl (apart rest rfl)
    · rw [ofPrecedingText.eq_3 _ _ _ fun others isReturn behind => isBreak ⟨isReturn, others, behind⟩]
      exact ih

end Position

namespace Graphql

open Grammar

section Lefts

variable {text start stop : List Char} {trees : List SyntaxTree}

/-- A later definition has less left behind its beginning. -/
theorem pairwise_left (chain : Expression.Chain grammar.match? (.call .executableDefinition) Rule.blank start trees stop) :
    trees.Pairwise (fun a b => b.left < a.left) ∧ ∀ tree ∈ trees, tree.left ≤ (skipBlanks start).length := by
  induction chain with
  | nil => exact ⟨.nil, by simp⟩
  | @cons start between stop parts more isFirst chain ih =>
    obtain ⟨place, isMatch, atPlace⟩ := isFirst
    obtain ⟨rule, _, inner, rfl, _⟩ := branch_of_accepts isMatch
    obtain ⟨areApart, areBehind⟩ := ih
    have later (tree : SyntaxTree) (member : tree ∈ more) : tree.left < (skipBlanks start).length :=
      calc tree.left
        _ ≤ (skipBlanks between).length := areBehind tree member
        _ = (skipBlanks place).length := congrArg List.length atPlace.symm
        _ ≤ place.length := length_skipBlanks_le place
        _ < (skipBlanks start).length := strict_call .executableDefinition rfl _ _ _ isMatch
    exact ⟨List.pairwise_cons.mpr ⟨later, areApart⟩,
      List.forall_mem_cons.mpr ⟨Nat.le_refl _, fun tree member => Nat.le_of_lt (later tree member)⟩⟩

/-- The places where the definitions of a text begin. -/
def beginnings (text : List Char) (trees : List SyntaxTree) : List Position :=
  trees.map fun tree => .ofPrecedingText (text.take (text.length - tree.left)) .start

theorem pairwise_beginnings (isTree : Document.treesOf .executableDocument text = .ok trees) :
    (beginnings text trees).Pairwise Position.Precedes := by
  obtain ⟨stop, chain, _⟩ := chain_of_treesOf isTree
  obtain ⟨areApart, areBehind⟩ := pairwise_left chain
  have within := length_skipBlanks_le text
  refine List.pairwise_map.mpr (areApart.imp_of_mem fun {a b} isFirst _ less => ?_)
  have atMost := areBehind a isFirst
  have split : text.take (text.length - b.left) =
      text.take (text.length - a.left) ++ (text.drop (text.length - a.left)).take (a.left - b.left) := by
    rw [← List.take_add]
    congr 1
    omega
  rw [split]
  refine Position.precedes_ofPrecedingText_append (List.ne_nil_of_length_pos ?_)
  rw [List.length_take, List.length_drop]
  omega

end Lefts

namespace Document

section Written

variable {text : List Char} {trees : List SyntaxTree} {definitions : List Definition} {places : Places}

/-- The definitions that a text holds, in the order of the text. -/
def written (text : List Char) : Read (List Definition) := do
  let trees ← treesOf .executableDocument text
  let definitions ← trees.mapM (readDefinition (.ofText text))
  return definitions.filterMap id

/-- The tree of a definition is read as one, at the place where the tree begins. -/
theorem exists_of_readDefinition {tree : SyntaxTree} {definition? : Option Definition}
    (yields : Yields (.call .executableDefinition) [tree]) (read : readDefinition places tree = .ok definition?) :
    ∃ definition, definition? = some definition ∧ definition.position = places tree.left ∧
      (definition.isOperation = false → tree.rule = .fragmentDefinition) := by
  obtain ⟨input, rest, isMatch⟩ := yields
  obtain ⟨rule, isRule, parts, same, _⟩ := branch_of_accepts isMatch
  obtain rfl := List.singleton_inj.mp same
  simp only [List.mem_cons, List.not_mem_nil, or_false] at isRule
  rcases isRule with rfl | rfl | rfl
  all_goals
    obtain ⟨_, _, same⟩ := bind_eq_ok read
    obtain rfl := Except.ok.inj same
  · exact ⟨_, rfl, rfl, nofun⟩
  · exact ⟨_, rfl, rfl, nofun⟩
  · exact ⟨_, rfl, rfl, fun _ => rfl⟩

/-- Each tree is read as the definition, in order. -/
abbrev ReadAs (places : Places) (trees : List SyntaxTree) (definitions : List Definition) : Prop :=
  List.Forall₂ (fun tree definition => readDefinition places tree = .ok (some definition)) trees definitions

theorem readAs_of_mapM {read : List (Option Definition)}
    (yields : ∀ tree ∈ trees, Yields (.call .executableDefinition) [tree])
    (mapped : trees.mapM (readDefinition places) = .ok read) : ReadAs places trees (read.filterMap id) := by
  induction trees generalizing read with
  | nil =>
    obtain rfl := Except.ok.inj mapped
    exact .nil
  | cons tree rest ih =>
    rw [List.mapM_cons] at mapped
    obtain ⟨first, isFirst, more⟩ := bind_eq_ok mapped
    obtain ⟨others, areOthers, same⟩ := bind_eq_ok more
    obtain rfl := Except.ok.inj same
    obtain ⟨ofTree, ofRest⟩ := List.forall_mem_cons.mp yields
    obtain ⟨definition, rfl, _⟩ := exists_of_readDefinition ofTree isFirst
    exact .cons isFirst (ih ofRest areOthers)

theorem ReadAs.traits (readAs : ReadAs places trees definitions)
    (yields : ∀ tree ∈ trees, Yields (.call .executableDefinition) [tree]) :
    List.Forall₂ (fun tree definition => definition.position = places tree.left ∧
      (definition.isOperation = false → tree.rule = .fragmentDefinition)) trees definitions := by
  induction readAs with
  | nil => exact .nil
  | cons isRead _ ih =>
    obtain ⟨ofTree, ofRest⟩ := List.forall_mem_cons.mp yields
    obtain ⟨definition, same, traits⟩ := exists_of_readDefinition ofTree isRead
    obtain rfl := Option.some.inj same
    exact .cons traits (ih ofRest)

theorem ReadAs.areFragments {fragments : List Fragment} (readAs : ReadAs places trees (fragments.map .fragment))
    (yields : ∀ tree ∈ trees, Yields (.call .executableDefinition) [tree]) : AreFragments trees := by
  have each := readAs.traits yields
  rw [List.forall₂_map_right_iff] at each
  have both : List.Forall₂ (fun (tree : SyntaxTree) (_ : Fragment) => tree.rule = .fragmentDefinition ∧ True) trees fragments :=
    each.imp fun _ _ traits => ⟨traits.2 rfl, trivial⟩
  exact ((List.forall₂_and_left _ _).mp both).1

/-- More text behind the trees changes nothing in what they are read as. -/
theorem ReadAs.append (readAs : ReadAs (.ofText text) trees definitions) (others : List Char) :
    ReadAs (.ofText (text ++ others)) (SyntaxTree.shiftAll others.length trees) definitions := by
  rw [SyntaxTree.shiftAll_eq_map, ReadAs, List.forall₂_map_left_iff]
  refine readAs.imp fun tree definition isRead => ?_
  rwa [readDefinition_shift, Places.shift_ofText]

theorem ReadAs.mapM (readAs : ReadAs places trees definitions) :
    trees.mapM (readDefinition places) = .ok (definitions.map some) := by
  induction readAs with
  | nil => rfl
  | cons isFirst _ ih =>
    rw [List.mapM_cons, isFirst, ih]
    rfl

theorem written_eq_ok_iff : written text = .ok definitions ↔
    ∃ trees, treesOf .executableDocument text = .ok trees ∧ ReadAs (.ofText text) trees definitions := by
  constructor
  · intro isWritten
    obtain ⟨trees, isTree, more⟩ := bind_eq_ok isWritten
    obtain ⟨read, mapped, same⟩ := bind_eq_ok more
    obtain rfl := Except.ok.inj same
    obtain ⟨rest, isMatch⟩ := accepts_of_treesOf isTree
    exact ⟨trees, isTree, readAs_of_mapM (Yields.executableDocument isMatch.yields) mapped⟩
  · rintro ⟨trees, isTree, readAs⟩
    have all : (definitions.map some).filterMap id = definitions := by simp
    simp only [written, isTree, readAs.mapM, bind, Except.bind, all]
    rfl

theorem parseOperations_eq (text : List Char) : parseOperations text = (do
    let collected ← (← written text).foldlM Collected.add {}
    if collected.operations.isEmpty then .error .missingOperation else .ok collected.definitions) := by
  unfold parseOperations written
  cases treesOf .executableDocument text with
  | error => rfl
  | ok trees =>
    simp only [bind, Except.bind]
    cases trees.mapM (readDefinition (.ofText text)) <;> rfl

end Written

namespace Collected

variable {collected : Collected} {definitions : List Definition} {fragments : List Fragment}

theorem addOperation_ne_missing (operation : Operation) : collected.addOperation operation ≠ .error .missingOperation := by
  intro failed
  unfold addOperation at failed
  dsimp only at failed
  split at failed
  · cases failed
  · cases failed
  · split at failed
    · cases failed
    · split at failed <;> cases failed

theorem add_ne_missing (definition : Definition) : collected.add definition ≠ .error .missingOperation := by
  cases definition with
  | operation operation => exact addOperation_ne_missing operation
  | fragment fragment =>
    intro failed
    rw [add, addFragment] at failed
    split at failed <;> cases failed

theorem foldlM_add_ne_missing : definitions.foldlM add collected ≠ .error .missingOperation := by
  intro failed
  induction definitions generalizing collected with
  | nil => cases failed
  | cons definition rest ih =>
    rw [List.foldlM_cons] at failed
    rcases bind_eq_error failed with here | ⟨next, _, later⟩
    · exact add_ne_missing definition here
    · exact ih later

theorem perm_of_foldlM_add_empty (folded : definitions.foldlM add {} = .ok collected) :
    collected.definitions.Perm definitions := perm_of_foldlM_add folded

theorem foldlM_add_fragments (distinct : (fragments.map (·.name)).Nodup) :
    ∃ collected, (fragments.map Definition.fragment).foldlM add {} = .ok collected ∧ collected.operations = [] := by
  have names : (fragments.map Definition.fragment).map Definition.name? = (fragments.map (·.name)).map some := by
    simp [Definition.name?]
  have named : ∀ definition ∈ fragments.map Definition.fragment, definition.name?.isSome = true := by
    rintro _ member
    obtain ⟨fragment, _, rfl⟩ := List.mem_map.mp member
    rfl
  have distinctNames : ((fragments.map Definition.fragment).map Definition.name?).Nodup := by
    rw [names]
    exact distinct.map (Option.some_injective _)
  obtain ⟨collected, folded⟩ : ∃ collected, (fragments.map Definition.fragment).foldlM add {} = .ok collected :=
    exists_foldlM_add named distinctNames
  refine ⟨collected, folded, List.eq_nil_iff_forall_not_mem.mpr fun operation member => ?_⟩
  have inDefinitions : Definition.operation operation ∈ collected.definitions := by simp [Collected.definitions, member]
  simpa using (perm_of_foldlM_add_empty folded).subset inDefinitions

/-- Without an operation there are fragments alone, each under a name of its own. -/
theorem fragments_of_foldlM_add (folded : definitions.foldlM add {} = .ok collected) (noOperation : collected.operations = []) :
    ∃ fragments : List Fragment, definitions = fragments.map .fragment ∧ (fragments.map (·.name)).Nodup := by
  have perm := perm_of_foldlM_add_empty folded
  obtain ⟨fragments, rfl⟩ : definitions ∈ Set.range (List.map Definition.fragment) := by
    rw [Set.range_list_map]
    intro definition member
    have inCollected := perm.symm.subset member
    rw [Collected.definitions, noOperation] at inCollected
    obtain ⟨fragment, _, same⟩ := List.mem_map.mp inCollected
    exact ⟨fragment, same⟩
  refine ⟨fragments, rfl, ?_⟩
  have distinct : (collected.fragments.map (·.name)).Nodup :=
    foldlM_invariant (fun collected => (collected.fragments.map (·.name)).Nodup) (fun _ _ _ => nodup_fragments_of_add)
      folded List.nodup_nil
  have same : collected.fragments.reverse.Perm fragments := by
    have inOrder : (Document.fragments ⟨collected.definitions⟩).Perm (Document.fragments ⟨fragments.map .fragment⟩) :=
      perm.filterMap _
    simpa [Document.fragments, Collected.definitions, noOperation, List.filterMap_map] using inOrder
  rwa [← (same.map (·.name)).nodup_iff, List.map_reverse, List.nodup_reverse]

end Collected

section Fragments

variable {text : List Char} {trees : List SyntaxTree} {definitions : List Definition} {fragments : List Fragment}

/-- A text of fragments alone. To have a name twice is an error to the parser, so each has one of its own. -/
structure HasOnlyFragments (text : List Char) (fragments : List Fragment) : Prop where
  written : written text = .ok (fragments.map .fragment)
  distinct : (fragments.map (·.name)).Nodup

theorem failsInPart_mapM {places : Places} : FailsInPart (trees.mapM (readDefinition places)) := by
  induction trees with
  | nil => exact .ok _
  | cons tree rest ih =>
    rw [List.mapM_cons]
    exact (failsInPart_readDefinition tree).bind fun _ => ih.bind fun _ => .ok _

theorem written_ne_missing : written text ≠ .error .missingOperation := by
  intro failed
  rcases bind_eq_error failed with noTree | ⟨trees, _, more⟩
  · unfold treesOf at noTree
    split at noTree
    · cases noTree
    · exact absurd (Except.error.inj noTree) nofun
  · exact (failsInPart_mapM.bind fun _ => .ok _) _ more

/-- The parser misses an operation in these texts, and in no others. -/
theorem parseOperations_eq_missing_iff : parseOperations text = .error .missingOperation ↔
    ∃ fragments, HasOnlyFragments text fragments := by
  rw [parseOperations_eq]
  constructor
  · intro missing
    rcases bind_eq_error missing with failed | ⟨definitions, isWritten, more⟩
    · exact absurd failed written_ne_missing
    rcases bind_eq_error more with failed | ⟨collected, folded, last⟩
    · exact absurd failed Collected.foldlM_add_ne_missing
    split at last
    · rename_i none
      obtain ⟨fragments, rfl, distinct⟩ := Collected.fragments_of_foldlM_add folded (List.isEmpty_iff.mp none)
      exact ⟨fragments, isWritten, distinct⟩
    · cases last
  · rintro ⟨fragments, isWritten, distinct⟩
    obtain ⟨collected, folded, none⟩ := Collected.foldlM_add_fragments distinct
    simp only [isWritten, bind, Except.bind, folded, none, List.isEmpty_nil, if_true]

end Fragments

section Hosting

variable {text : List Char} {trees : List SyntaxTree} {fragments : List Fragment}

/-- The operation that is lent to fragments, on a line of its own. -/
def hostLine : List Char := ("query " ++ hostName ++ " \x7b __typename \x7d\n").toList

theorem toList_hostText : hostText.toList = '\n' :: hostLine := by simp [hostText, hostLine]

def isHostTree : SyntaxTree → Bool
  | .branch .namedOperation _ _ [.token .operationType _ _, .token .name _ name,
      .branch .selectionSet _ _ [.branch .field _ _ [.token .name _ _]]] => name == hostName.toList
  | _ => false

theorem readDefinition_of_isHostTree {tree : SyntaxTree} (isHost : isHostTree tree = true) (places : Places) :
    ∃ host : Operation, readDefinition places tree = .ok (some (.operation host)) ∧ host.name? = some hostName := by
  unfold isHostTree at isHost
  split at isHost
  · obtain rfl := beq_iff_eq.mp isHost
    exact ⟨_, rfl, congrArg some String.ofList_toList⟩
  · cases isHost

theorem exists_hostTree : ∃ tree, treesOf .executableDocument hostLine = .ok [tree] ∧ isHostTree tree = true := by
  have isHost : (treesOf .executableDocument hostLine).toOption.any
      (fun trees => trees.length == 1 && trees.all isHostTree) = true := by decide +kernel
  obtain ⟨trees, isTree, isOne⟩ := (Option.any_eq_true _ _).mp isHost
  obtain ⟨one, all⟩ := Bool.and_eq_true_iff.mp isOne
  obtain ⟨tree, rfl⟩ := List.length_eq_one_iff.mp (beq_iff_eq.mp one)
  exact ⟨tree, toOption_eq_some isTree, List.all_eq_true.mp all tree List.mem_cons_self⟩

/-- Behind fragments the lent operation is read, and they are read as without it. -/
theorem written_hosted (ofFragments : HasOnlyFragments text fragments) : ∃ host : Operation,
    written (text ++ hostText.toList) = .ok (fragments.map .fragment ++ [.operation host]) ∧ host.name? = some hostName := by
  obtain ⟨trees, isTree, readAs⟩ := written_eq_ok_iff.mp ofFragments.written
  obtain ⟨rest, isMatch⟩ := accepts_of_treesOf isTree
  obtain ⟨tree, isHostLine, isHost⟩ := exists_hostTree
  obtain ⟨host, isRead, isName⟩ := readDefinition_of_isHostTree isHost (.ofText (text ++ hostText.toList))
  have areFragments := readAs.areFragments (Yields.executableDocument isMatch.yields)
  have hosted := treesOf_append (by decide) (List.cons_ne_nil _ _) isHostLine isTree areFragments
  rw [← toList_hostText] at hosted
  exact ⟨host, written_eq_ok_iff.mpr ⟨_, hosted, List.rel_append (readAs.append _) (.cons isRead .nil)⟩, isName⟩

/-- The lent operation is collected whatever names the fragments have, and it is the only one to be left out. -/
theorem parseOperations_hosted (ofFragments : HasOnlyFragments text fragments) :
    ∃ hosted, parseOperations (text ++ hostText.toList) = .ok hosted ∧
      (hosted.filter (!isHost ·)).Perm (fragments.map .fragment) := by
  obtain ⟨host, isWritten, isName⟩ := written_hosted ofFragments
  obtain ⟨collected, folded, none⟩ := Collected.foldlM_add_fragments ofFragments.distinct
  have added : collected.add (.operation host) = .ok ⟨[host], collected.fragments⟩ := by
    simp [Collected.add, Collected.addOperation, none]
  have all : (fragments.map Definition.fragment ++ [Definition.operation host]).foldlM Collected.add {} =
      .ok ⟨[host], collected.fragments⟩ := by
    rw [List.foldlM_append, folded]
    change [Definition.operation host].foldlM Collected.add collected = _
    rw [List.foldlM_cons, added]
    rfl
  refine ⟨Collected.definitions ⟨[host], collected.fragments⟩, ?_, ?_⟩
  · rw [parseOperations_eq, isWritten]
    simp only [bind, Except.bind, all]
    rfl
  · have perm := (Collected.perm_of_foldlM_add_empty all).filter (!isHost ·)
    have kept : (fragments.map Definition.fragment ++ [Definition.operation host]).filter (!isHost ·) =
        fragments.map .fragment := by
      simp [List.filter_append, List.filter_map, isHost, isName, Function.comp_def]
    rwa [kept] at perm

end Hosting

section Lists

variable {text : List Char} {definitions listed : List Definition}

/-- The parser tells correctly where the definitions of the text begin. -/
def IsPlaced (text : List Char) (definitions : List Definition) : Prop :=
  ∃ trees, treesOf .executableDocument text = .ok trees ∧ definitions.map (·.position) = beginnings text trees

/-- The document has each of the definitions of the text once, in the order of their places. Where these are correct, that
is the order of the text, and every definition has a place of its own. -/
structure Lists (text : List Char) (definitions : List Definition) (document : Document) : Prop where
  each : document.definitions.Perm definitions
  ordered : document.definitions.Pairwise fun a b => a.position.le b.position = true
  sameOrder : IsPlaced text definitions → document.definitions = definitions
  increasing : IsPlaced text definitions → document.definitions.Pairwise fun a b => a.position.Precedes b.position

theorem IsPlaced.increasing (placed : IsPlaced text definitions) :
    definitions.Pairwise fun a b => a.position.Precedes b.position := by
  obtain ⟨trees, isTree, places⟩ := placed
  have apart := pairwise_beginnings isTree
  rwa [← places, List.pairwise_map] at apart

/-- Without carriage returns every place is the right one. -/
theorem isPlaced_of_noReturn (noReturn : '\r' ∉ text) (isWritten : written text = .ok definitions) :
    IsPlaced text definitions := by
  obtain ⟨trees, isTree, readAs⟩ := written_eq_ok_iff.mp isWritten
  obtain ⟨rest, isMatch⟩ := accepts_of_treesOf isTree
  refine ⟨trees, isTree, ?_⟩
  rw [beginnings, ← List.forall₂_eq_eq_eq, List.forall₂_map_left_iff, List.forall₂_map_right_iff]
  refine (readAs.traits (Yields.executableDocument isMatch.yields)).flip.imp fun definition tree traits => ?_
  rw [traits.1, Places.ofText_eq_foldl, Position.foldl_after_eq fun inTaken => noReturn (List.mem_of_mem_take inTaken)]

theorem lists_inOrder (perm : listed.Perm definitions) : Lists text definitions (inOrder listed) := by
  have total (a b : Definition) := Position.le_total a.position b.position
  have transitive (a b c : Definition) : a.position.le b.position = true → b.position.le c.position = true →
      a.position.le c.position = true := Position.le_trans
  have sameOrder (placed : IsPlaced text definitions) : (inOrder listed).definitions = definitions :=
    sorted_eq_of_perm (fun a b : Definition => a.position.le b.position) total transitive perm
      (placed.increasing.imp Position.Precedes.le)
  refine ⟨(sorted_perm _ listed).trans perm, pairwise_sorted _ total transitive listed, sameOrder, fun placed => ?_⟩
  rw [sameOrder placed]
  exact placed.increasing

theorem perm_of_parseOperations {parsed : List Definition} (isParsed : parseOperations text = .ok parsed) :
    ∃ definitions, written text = .ok definitions ∧ parsed.Perm definitions := by
  rw [parseOperations_eq] at isParsed
  obtain ⟨definitions, isWritten, more⟩ := bind_eq_ok isParsed
  obtain ⟨collected, folded, last⟩ := bind_eq_ok more
  split at last
  · cases last
  · obtain rfl := Except.ok.inj last
    exact ⟨definitions, isWritten, Collected.perm_of_foldlM_add_empty folded⟩

/-- A document lists the definitions of its text, whatever order the parser returns them in. What the parser accepts is
listed; where it misses an operation alone, the fragments are; and every other error is the parser's own. -/
theorem parse_listing (text : String) :
    (∀ parsed, parseOperations text.toList = .ok parsed → ∃ definitions, written text.toList = .ok definitions ∧
      parsed.Perm definitions ∧ parse text = .ok (inOrder parsed) ∧
      ∀ listed : List Definition, listed.Perm parsed → Lists text.toList definitions (inOrder listed)) ∧
    (∀ fragments, HasOnlyFragments text.toList fragments → ∃ hosted, parseOperations (text ++ hostText).toList = .ok hosted ∧
      parse text = .ok (inOrder (hosted.filter (!isHost ·))) ∧
      ∀ listed : List Definition, listed.Perm hosted →
        Lists text.toList (fragments.map .fragment) (inOrder (listed.filter (!isHost ·)))) ∧
    (∀ error, parseOperations text.toList = .error error → (∀ fragments, ¬ HasOnlyFragments text.toList fragments) →
      parse text = .error error) := by
  refine ⟨fun parsed isParsed => ?_, fun fragments ofFragments => ?_, fun error failed others => ?_⟩
  · obtain ⟨definitions, isWritten, perm⟩ := perm_of_parseOperations isParsed
    refine ⟨definitions, isWritten, perm, ?_, fun listed reordered => lists_inOrder (reordered.trans perm)⟩
    rw [parse, isParsed]
  · obtain ⟨hosted, isHosted, perm⟩ := parseOperations_hosted ofFragments
    rw [← String.toList_append] at isHosted
    refine ⟨hosted, isHosted, ?_, fun listed reordered => lists_inOrder ((reordered.filter _).trans perm)⟩
    rw [parse, parseOperations_eq_missing_iff.mpr ⟨fragments, ofFragments⟩, isHosted]
    rfl
  · have apart : error ≠ .missingOperation := by
      rintro rfl
      obtain ⟨fragments, ofFragments⟩ := parseOperations_eq_missing_iff.mp failed
      exact others fragments ofFragments
    rw [parse, failed]
    cases error with
    | missingOperation => exact absurd rfl apart
    | _ => rfl

/-- What a definition is listed as. -/
def Definition.entry (definition : Definition) : Option String × Bool × Position :=
  (definition.name?, definition.isOperation, definition.position)

/-- Both kinds share the name `A`, and the fragment stands between the operations. -/
def mixedText : String := "query B\x7bb\x7d\nfragment A on T\x7ba\x7d\nquery A\x7ba\x7d"

/-- A fragment under the name of the operation that is lent, and a comment at the end. -/
def fragmentsText : String := "fragment __FragmentHost on T\x7ba\x7d\nfragment A on T\x7b...__FragmentHost\x7d# end"

def repeatedText : String := "fragment A on T\x7ba\x7d fragment A on T\x7bb\x7d"

theorem entries_of_written {entries : List (Option String × Bool × Position)}
    (isWritten : written text = .ok definitions)
    (areEntries : (written text).toOption.any (·.map Definition.entry == entries) = true) :
    definitions.map Definition.entry = entries := by
  rw [isWritten] at areEntries
  exact beq_iff_eq.mp areEntries

def failsWith (error : ReadError) : Read (List Definition) → Bool
  | .error other => other == error
  | .ok _ => false

theorem eq_error_of_failsWith {read : Read (List Definition)} {error : ReadError} (fails : failsWith error read = true) :
    read = .error error := by
  cases read with
  | error other => exact congrArg Except.error (beq_iff_eq.mp fails)
  | ok => cases fails

theorem parse_listing_samples :
    (∃ parsed, parseOperations mixedText.toList = .ok parsed ∧ parse mixedText = .ok (inOrder parsed) ∧
      (inOrder parsed).definitions.map Definition.entry =
        [(some "B", true, ⟨1, 1⟩), (some "A", false, ⟨2, 1⟩), (some "A", true, ⟨3, 1⟩)]) ∧
    (∃ fragments document, HasOnlyFragments fragmentsText.toList fragments ∧ parse fragmentsText = .ok document ∧
      document.definitions.map Definition.entry = [(some hostName, false, ⟨1, 1⟩), (some "A", false, ⟨2, 1⟩)]) ∧
    parse repeatedText = .error (.fragmentDuplicated "A" ⟨1, 1⟩ ⟨1, 20⟩) := by
  refine ⟨?_, ?_, ?_⟩
  · obtain ⟨parsed, isSome⟩ := Option.isSome_iff_exists.mp
      (show (parseOperations mixedText.toList).toOption.isSome = true by decide +kernel)
    have isParsed := toOption_eq_some isSome
    obtain ⟨definitions, isWritten, _, isDocument, lists⟩ := (parse_listing mixedText).1 parsed isParsed
    have placed := isPlaced_of_noReturn (by decide +kernel) isWritten
    refine ⟨parsed, isParsed, isDocument, ?_⟩
    rw [(lists parsed (.refl _)).sameOrder placed]
    exact entries_of_written isWritten (by decide +kernel)
  · have missing : parseOperations fragmentsText.toList = .error .missingOperation :=
      eq_error_of_failsWith (by decide +kernel)
    obtain ⟨fragments, ofFragments⟩ := parseOperations_eq_missing_iff.mp missing
    obtain ⟨hosted, _, isDocument, lists⟩ := (parse_listing fragmentsText).2.1 fragments ofFragments
    have placed := isPlaced_of_noReturn (by decide +kernel) ofFragments.written
    refine ⟨fragments, _, ofFragments, isDocument, ?_⟩
    rw [(lists hosted (.refl _)).sameOrder placed]
    exact entries_of_written ofFragments.written (by decide +kernel)
  · have failed : parseOperations repeatedText.toList = .error (.fragmentDuplicated "A" ⟨1, 1⟩ ⟨1, 20⟩) :=
      eq_error_of_failsWith (by decide +kernel)
    refine (parse_listing repeatedText).2.2 _ failed fun fragments ofFragments => ?_
    cases failed.symm.trans (parseOperations_eq_missing_iff.mpr ⟨fragments, ofFragments⟩)

end Lists

end Document

end Graphql

end SiteQuery
