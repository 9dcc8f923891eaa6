import Mathlib.Data.List.Forall2
import SiteQuery.Proofs.Script.Shapes
import SiteQuery.Proofs.Script.SourceOrder

/-!
What is said of a template that is found, from the nodes around it.

`occurrencesIn` lists all nodes of a tree, each with those around it; it knows nothing of the walk. `Listing` says of a
module that the templates found in it are the occurrences of tagged ones, each of them once, and that each is exported
and bound as the nodes around it have it (`Within`).
-/

namespace SiteQuery.Script.Module

open Grammar Outline

/-- A tree within others, and the nodes around it from the inside to the outside. -/
structure Occurrence where
  tree : SyntaxTree
  around : List SyntaxTree

mutual

def occurrences (around : List SyntaxTree) : SyntaxTree → List Occurrence
  | .token rule left text => [⟨.token rule left text, around⟩]
  | .branch rule left leftAfter parts =>
    ⟨.branch rule left leftAfter parts, around⟩ :: occurrencesIn (.branch rule left leftAfter parts :: around) parts

def occurrencesIn (around : List SyntaxTree) : List SyntaxTree → List Occurrence
  | [] => []
  | tree :: rest => occurrences around tree ++ occurrencesIn around rest

end

theorem occurrencesIn_branch (around : List SyntaxTree) (rule : Rule) (left leftAfter : Nat) (parts : List SyntaxTree) :
    occurrencesIn around [.branch rule left leftAfter parts] =
      ⟨.branch rule left leftAfter parts, around⟩ :: occurrencesIn (.branch rule left leftAfter parts :: around) parts := by
  rw [occurrencesIn, occurrences, occurrencesIn, List.append_nil]

theorem occurrencesIn_append (around trees more : List SyntaxTree) :
    occurrencesIn around (trees ++ more) = occurrencesIn around trees ++ occurrencesIn around more := by
  induction trees with
  | nil => rw [occurrencesIn, List.nil_append, List.nil_append]
  | cons tree rest ih => rw [List.cons_append, occurrencesIn, occurrencesIn, ih, List.append_assoc]

/-- The tagged template that a chain starts with. -/
def template? : SyntaxTree → Option Template
  | .branch .chain _ _ parts | .branch .callee _ _ parts => templateOf? parts
  | _ => none

theorem template?_branch (rule : Rule) (left leftAfter : Nat) (parts : List SyntaxTree) :
    template? (.branch rule left leftAfter parts) =
      if rule = .chain ∨ rule = .callee then templateOf? parts else none := by
  cases rule <;> rfl

def isQuery (tag : String) (occurrence : Occurrence) : Bool :=
  (template? occurrence.tree).any fun template => nameOf template.name == tag

/-- What the innermost declarator among some nodes binds, if it is one name. -/
inductive Binds : List SyntaxTree → Option String → Prop
  | nil : Binds [] none
  | name {allowIn left leftAfter start text rest around} :
      Binds (.branch (.declarator allowIn) left leftAfter (.token .bindingName start text :: rest) :: around)
        (some (nameOf text))
  | pattern {allowIn left leftAfter opening closing inner rest around} :
      Binds (.branch (.declarator allowIn) left leftAfter (.branch .bindingPattern opening closing inner :: rest)
        :: around) none
  | outer {node around binding?} (notDeclarator : ∀ allowIn, node.rule ≠ .declarator allowIn)
      (outer : Binds around binding?) : Binds (node :: around) binding?

/-- What is known of a place from the nodes around it. -/
structure Within (around : List SyntaxTree) (binding? : Option String) (isExported : Bool) : Prop where
  binds : Binds around binding?
  exported : isExported = true ↔ ∃ node ∈ around, node.rule = .exportedDeclaration

namespace Within

variable {around parts : List SyntaxTree} {node : SyntaxTree} {binding? : Option String} {isExported : Bool}
  {left leftAfter : Nat}

theorem nil : Within [] none false := ⟨.nil, by simp⟩

theorem neutral (within : Within around binding? isExported) (notExported : node.rule ≠ .exportedDeclaration)
    (notDeclarator : ∀ allowIn, node.rule ≠ .declarator allowIn) : Within (node :: around) binding? isExported where
  binds := .outer notDeclarator within.binds
  exported := by simp [within.exported, notExported]

theorem exportedDeclaration (within : Within around binding? isExported) :
    Within (.branch .exportedDeclaration left leftAfter parts :: around) binding? true where
  binds := .outer nofun within.binds
  exported := by simp [SyntaxTree.rule]

theorem declarator {allowIn : Bool} (within : Within around binding? isExported)
    (fits : Fits (.declarator allowIn) parts) :
    Within (.branch (.declarator allowIn) left leftAfter parts :: around) (bindingOf parts) isExported where
  binds := by
    rcases fits.declarator allowIn rfl with ⟨start, text, rest, rfl⟩ | ⟨opening, closing, inner, rest, rfl⟩
    · exact .name
    · exact .pattern
  exported := by simp [within.exported, SyntaxTree.rule]

end Within

/-- What is found is the template of an occurrence, with what the nodes around it say. -/
structure Reports (offsets : Offsets) (occurrence : Occurrence) (found : TagMatch) : Prop where
  template : ∃ template, template? occurrence.tree = some template ∧ found.start = offsets template.left ∧
    found.stop = offsets template.leftAfter ∧ found.document = readTemplate (textsOf template.parts)
  within : Within occurrence.around found.binding? found.exported

/-- What is found are the queries among some occurrences, each of them once. -/
def Lists (offsets : Offsets) (tag : String) (occurrences : List Occurrence) (found : List TagMatch) : Prop :=
  ∃ listed, listed.Perm (occurrences.filter (isQuery tag)) ∧ List.Forall₂ (Reports offsets) listed found

namespace Lists

variable {offsets : Offsets} {tag : String} {occurrence : Occurrence} {places others : List Occurrence}
  {item : TagMatch} {found more : List TagMatch}

theorem nil : Lists offsets tag [] [] := ⟨[], .refl _, .nil⟩

theorem append (first : Lists offsets tag places found) (second : Lists offsets tag others more) :
    Lists offsets tag (places ++ others) (found ++ more) := by
  obtain ⟨listed, isPerm, reported⟩ := first
  obtain ⟨behind, isPermBehind, reportedBehind⟩ := second
  refine ⟨listed ++ behind, ?_, List.rel_append reported reportedBehind⟩
  rw [List.filter_append]
  exact isPerm.append isPermBehind

theorem perm (lists : Lists offsets tag places found) (reordered : places.Perm others) : Lists offsets tag others found := by
  obtain ⟨listed, isPerm, reported⟩ := lists
  exact ⟨listed, isPerm.trans (reordered.filter _), reported⟩

theorem skip (notQuery : isQuery tag occurrence = false) (lists : Lists offsets tag places found) :
    Lists offsets tag (occurrence :: places) found := by
  obtain ⟨listed, isPerm, reported⟩ := lists
  refine ⟨listed, ?_, reported⟩
  rwa [List.filter_cons_of_neg (by simp [notQuery])]

theorem cons (query : isQuery tag occurrence = true) (reports : Reports offsets occurrence item)
    (lists : Lists offsets tag places found) : Lists offsets tag (occurrence :: places) (item :: found) := by
  obtain ⟨listed, isPerm, reported⟩ := lists
  refine ⟨occurrence :: listed, ?_, .cons reports reported⟩
  rw [List.filter_cons_of_pos query]
  exact isPerm.cons occurrence

end Lists

/-- Neither a chain nor what says something of the templates within it. -/
def isNeutral : Rule → Bool
  | .exportedDeclaration | .declarator _ | .chain | .callee => false
  | _ => true

/-- The walk of some trees finds the queries in them, wherever they stand. -/
def Finds (offsets : Offsets) (tag : String) (trees : List SyntaxTree) (parts : List Outline) : Prop :=
  ∀ around binding? isExported, (∀ tree ∈ trees, IsFormed tree) → Within around binding? isExported →
    Lists offsets tag (occurrencesIn around trees) (tagsIn tag binding? isExported parts)

namespace Finds

variable {offsets : Offsets} {tag : String} {rule : Rule} {left leftAfter : Nat} {trees more parts : List SyntaxTree}
  {found others : List Outline}

theorem nil : Finds offsets tag [] [] := by
  intro around binding? isExported _ _
  rw [occurrencesIn, tagsIn]
  exact .nil

theorem token {text : List Char} : Finds offsets tag [.token rule left text] [] := by
  intro around binding? isExported _ _
  rw [occurrencesIn, occurrences, occurrencesIn, tagsIn]
  exact .skip rfl .nil

theorem append (first : Finds offsets tag trees found) (second : Finds offsets tag more others) :
    Finds offsets tag (trees ++ more) (found ++ others) := by
  intro around binding? isExported formed within
  obtain ⟨formedFirst, formedSecond⟩ := List.forall_mem_append.mp formed
  rw [occurrencesIn_append, tagsIn_append]
  exact (first _ _ _ formedFirst within).append (second _ _ _ formedSecond within)

/-- What stands behind may be walked before. -/
theorem append_swap (first : Finds offsets tag trees found) (second : Finds offsets tag more others) :
    Finds offsets tag (trees ++ more) (others ++ found) := by
  intro around binding? isExported formed within
  obtain ⟨formedFirst, formedSecond⟩ := List.forall_mem_append.mp formed
  rw [occurrencesIn_append, tagsIn_append]
  exact ((second _ _ _ formedSecond within).append (first _ _ _ formedFirst within)).perm List.perm_append_comm

/-- A node that is no query, and whose parts are walked as they stand. -/
theorem node (notExported : rule ≠ .exportedDeclaration) (notDeclarator : ∀ allowIn, rule ≠ .declarator allowIn)
    (untagged : template? (.branch rule left leftAfter parts) = none) (inner : Finds offsets tag parts found) :
    Finds offsets tag [.branch rule left leftAfter parts] found := by
  intro around binding? isExported formed within
  rw [occurrencesIn_branch]
  exact .skip (by rw [isQuery, untagged]; rfl)
    (inner _ _ _ (IsFormed.inner formed) (within.neutral notExported notDeclarator))

/-- A node of a rule that says nothing of what is within. -/
theorem neutral (neutral : isNeutral rule = true) (inner : Finds offsets tag parts found) :
    Finds offsets tag [.branch rule left leftAfter parts] found := by
  refine inner.node ?_ ?_ ?_
  · rintro rfl
    cases neutral
  · rintro allowIn rfl
    cases neutral
  · rw [template?_branch, if_neg]
    rintro (rfl | rfl) <;> cases neutral

theorem exportedDeclaration (inner : Finds offsets tag parts found) :
    Finds offsets tag [.branch .exportedDeclaration left leftAfter parts] [.exported found] := by
  intro around binding? isExported formed within
  rw [occurrencesIn_branch, tagsIn_cons, Outline.tags, tagsIn, List.append_nil]
  exact .skip rfl (inner _ _ _ (IsFormed.inner formed) within.exportedDeclaration)

theorem declarator {allowIn : Bool} (inner : Finds offsets tag parts found) :
    Finds offsets tag [.branch (.declarator allowIn) left leftAfter parts] [.declarator (bindingOf parts) found] := by
  intro around binding? isExported formed within
  rw [occurrencesIn_branch, tagsIn_cons, Outline.tags, tagsIn, List.append_nil]
  exact .skip rfl (inner _ _ _ (IsFormed.inner formed) (within.declarator (IsFormed.fits formed)))

theorem tagged (template : Template) (isTagged : templateOf? parts = some template)
    (inner : Finds offsets tag parts (found ++ others)) (notExported : rule ≠ .exportedDeclaration)
    (notDeclarator : ∀ allowIn, rule ≠ .declarator allowIn) :
    Finds offsets tag [.branch rule left leftAfter parts]
      (.tagged (nameOf template.name) (offsets template.left) (offsets template.leftAfter) (textsOf template.parts) found
        :: others) := by
  intro around binding? isExported formed within
  have isTemplate : template? (.branch rule left leftAfter parts) = some template := by
    rw [template?_branch, if_pos ((IsFormed.fits formed).template (by simp [isTagged])), isTagged]
  have inNode : Within (.branch rule left leftAfter parts :: around) binding? isExported :=
    within.neutral notExported notDeclarator
  have lists := inner _ _ _ (IsFormed.inner formed) inNode
  rw [occurrencesIn_branch, tagsIn_cons, tags_tagged, List.append_assoc, ← tagsIn_append]
  split
  · rename_i isTag
    exact .cons (by simp [isQuery, isTemplate, isTag]) ⟨⟨template, isTemplate, rfl, rfl, rfl⟩, within⟩ lists
  · rename_i otherTag
    exact .skip (by simp [isQuery, isTemplate, otherTag]) lists

end Finds

theorem templateOf?_eq_none {parts : List SyntaxTree}
    (plain : ∀ left name opening after inner rest,
      parts = .token .identifier left name :: .branch .template opening after inner :: rest → False)
    (typed : ∀ left name typesLeft types opening after inner rest,
      parts = .token .identifier left name :: .token .typeArguments typesLeft types
        :: .branch .template opening after inner :: rest → False) : templateOf? parts = none := by
  unfold templateOf?
  split
  · exact (plain _ _ _ _ _ _ rfl).elim
  · exact (typed _ _ _ _ _ _ _ _ rfl).elim
  · rfl

/-- Whatever trees there are, if only formed as the grammar forms them, the queries in them are found. -/
theorem finds_outlines (offsets : Offsets) (tag : String) (trees : List SyntaxTree) :
    Finds offsets tag trees (outlines offsets trees) := by
  -- along the walk itself: it goes into a template, the parts of a loop and a heritage without coming to these nodes
  induction trees using outlines.induct (fun tree => Finds offsets tag [tree] (outline offsets tree)) with
  | case1 rule left text =>
    rw [outline]
    exact .token
  | case2 left leftAfter parts ih =>
    rw [outline]
    exact ih.exportedDeclaration
  | case3 allowIn left leftAfter parts ih =>
    rw [outline]
    exact ih.declarator
  | case4 rule left leftAfter start name opening after inner rest notExported notDeclarator ihInner ihRest =>
    have inTemplate : Finds offsets tag [.branch .template opening after inner] (outlines offsets inner) :=
      ihInner.neutral rfl
    rw [outline]
    · exact .tagged ⟨name, start, after, inner⟩ rfl (Finds.token.append (inTemplate.append ihRest))
        notExported notDeclarator
    all_goals assumption
  | case5 rule left leftAfter start name typesLeft types opening after inner rest notExported notDeclarator ihInner
      ihRest =>
    have inTemplate : Finds offsets tag [.branch .template opening after inner] (outlines offsets inner) :=
      ihInner.neutral rfl
    rw [outline]
    · exact .tagged ⟨name, start, after, inner⟩ rfl
        (Finds.token.append (Finds.token.append (inTemplate.append ihRest))) notExported notDeclarator
    all_goals assumption
  | case6 left leftAfter bodyRule bodyLeft bodyAfter body testRule testLeft testAfter test ihTest ihBody =>
    rw [outline]
    intro around binding? isExported formed
    obtain ⟨_, _, _, _, _, _, shape⟩ := (IsFormed.fits formed).loop rfl
    cases shape
    have inBody : Finds offsets tag [.branch .doBody bodyLeft bodyAfter body] (outlines offsets body) :=
      ihBody.neutral rfl
    have inTest : Finds offsets tag [.branch .doTest testLeft testAfter test] (outlines offsets test) :=
      ihTest.neutral rfl
    have inLoop : Finds offsets tag [.branch .doWhile left leftAfter
        [.branch .doBody bodyLeft bodyAfter body, .branch .doTest testLeft testAfter test]]
        (outlines offsets test ++ outlines offsets body) := (inBody.append_swap inTest).neutral rfl
    exact inLoop around binding? isExported formed
  | case7 left leftAfter heritageLeft heritageAfter inherited rest ihRest ihInherited =>
    have inHeritage : Finds offsets tag [.branch .heritage heritageLeft heritageAfter inherited]
        (outlines offsets inherited) := ihInherited.neutral rfl
    rw [outline]
    exact (inHeritage.append_swap ihRest).neutral rfl
  | case8 rule left leftAfter parts notExported notDeclarator notPlain notTyped notLoop notClassTail ih =>
    rw [outline]
    · refine ih.node notExported notDeclarator ?_
      rw [template?_branch, templateOf?_eq_none notPlain notTyped, ite_self]
    all_goals assumption
  | case9 =>
    rw [outlines]
    exact .nil
  | case10 tree rest ihTree ihRest =>
    rw [outlines_cons]
    exact ihTree.append ihRest

/-- The templates found in a module with these trees, and what is said of them. -/
structure Listing (offsets : Offsets) (trees : List SyntaxTree) (source : Module) (tag : String) : Prop where
  /-- They are the tagged ones of all nodes, exported and bound by those around them. -/
  lists : Lists offsets tag (occurrencesIn [] trees) (source.tags tag)
  distinct : ((source.tags tag).map (·.start)).Nodup

section Parsed

variable {dialect : Dialect} {text : String} {source : Module}

theorem nodup_starts_of_parse? (isModule : parse? dialect text = some source) (tag : String) :
    ((source.tags tag).map (·.start)).Nodup := by
  obtain ⟨trees, rest, parsed, walks⟩ := walks_of_parse? isModule
  obtain ⟨last, covers⟩ := Grammar.covers_of_parse parsed
  have ordered : (source.tags tag).Pairwise (InOrder (offsets (withoutMark text.toList)) trees) :=
    inOrder_of_walks walks (List.suffix_refl _) none false
  refine List.pairwise_map.mpr (ordered.imp_of_mem fun {first second} _ inSecond isOrdered => ?_)
  rcases isOrdered with before | overtakes
  · exact Nat.ne_of_lt before
  · have stands := stands_of_mem walks inSecond
    exact Nat.ne_of_gt (overtakes.start_lt_start covers (stands.start_lt_stop (List.suffix_refl _)))

end Parsed

/-- Queries in a pattern, in a declarator with a query in its template, and behind the exported declaration. -/
def nestedPage : String :=
  "export let a=()=>\x7blet \x7bb=graphql\x60b\x60\x7d=c,d=graphql\x60$\x7bgraphql\x60e\x60\x7d\x60\x7d;graphql\x60f\x60"

end SiteQuery.Script.Module
