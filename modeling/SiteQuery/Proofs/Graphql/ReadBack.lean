import SiteQuery.Proofs.Graphql.Conversion
import SiteQuery.Proofs.Graphql.Parsed
import SiteQuery.Proofs.Graphql.Printing
import SiteQuery.Proofs.Graphql.Reachable

/-!
What is printed of a context is read back.

Variables with a default and directives are excepted, as the grammar has these in the other order, and so are
spreads of a fragment named `on` right before a field.
-/

namespace SiteQuery.Graphql

namespace Document

theorem Directive.Printable.unplaced {directive : Directive} (printable : directive.Printable) :
    directive.unplaced.Printable where
  name := printable.name
  arguments argument member := by
    obtain ⟨written, inDirective, rfl⟩ := List.mem_map.mp member
    exact ⟨(printable.arguments written inDirective).name, (printable.arguments written inDirective).value⟩

theorem printable_map_unplaced {directives : List Directive} (printable : ∀ directive ∈ directives, directive.Printable) :
    ∀ directive ∈ directives.map Directive.unplaced, directive.Printable :=
  List.forall_mem_map.mpr fun directive member => (printable directive member).unplaced

theorem Selection.Printable.unplaced {depth : Nat} {selection : Selection} (printable : selection.Printable depth) :
    selection.unplaced.Printable depth := by
  induction printable with
  | leaf isAlias isName ofArguments ofDirectives =>
    have arguments := List.forall_mem_map.mpr fun argument member =>
      (⟨(ofArguments argument member).name, (ofArguments argument member).value⟩ : Argument.Printable argument.unplaced)
    exact .leaf isAlias isName arguments (printable_map_unplaced ofDirectives)
  | field isAlias isName ofArguments ofDirectives notEmpty _ ih =>
    have arguments := List.forall_mem_map.mpr fun argument member =>
      (⟨(ofArguments argument member).name, (ofArguments argument member).value⟩ : Argument.Printable argument.unplaced)
    simp only [Selection.unplaced, unplacedAll_eq]
    exact .field isAlias isName arguments (printable_map_unplaced ofDirectives) (by simpa using notEmpty)
      (List.forall_mem_map.mpr ih)
  | spread isName ofDirectives => exact .spread isName (printable_map_unplaced ofDirectives)
  | inline isType ofDirectives notEmpty _ ih =>
    simp only [Selection.unplaced, unplacedAll_eq]
    refine .inline ?_ (printable_map_unplaced ofDirectives) (by simpa using notEmpty) (List.forall_mem_map.mpr ih)
    intro condition isCondition
    obtain ⟨written, isWritten, rfl⟩ := Option.map_eq_some_iff.mp isCondition
    exact isType written isWritten

theorem PrintableBody.unplaced {depth : Nat} {selections : List Selection} (printable : PrintableBody depth selections) :
    PrintableBody depth (Selection.unplacedAll selections) := by
  rw [Selection.unplacedAll_eq]
  exact ⟨by simpa using printable.1, List.forall_mem_map.mpr fun selection member => (printable.2 selection member).unplaced⟩

theorem Variable.Printable.unplaced {definition : Variable} (printable : definition.Printable) :
    definition.unplaced.Printable where
  name := printable.name
  type := printable.type
  default given isGiven := by
    obtain ⟨written, isWritten, rfl⟩ := Option.map_eq_some_iff.mp isGiven
    exact printable.default written isWritten
  directives := printable_map_unplaced printable.directives

theorem Definition.Printable.unplaced {definition : Definition} (printable : definition.Printable) :
    definition.unplaced.Printable := by
  cases definition with
  | operation operation =>
    have ofOperation : operation.Printable := printable
    have ofVariables := List.forall_mem_map.mpr fun definition member =>
      (ofOperation.variableDefinitions definition member).unplaced
    exact Operation.Printable.mk ofOperation.name ofVariables (printable_map_unplaced ofOperation.directives)
      ofOperation.body.unplaced
  | fragment fragment =>
    have ofFragment : fragment.Printable := printable
    exact Fragment.Printable.mk ofFragment.name ofFragment.condition (printable_map_unplaced ofFragment.directives)
      ofFragment.body.unplaced

end Document

/-- A definition that says the same is converted to the same node. -/
theorem Conversion.Gives.of_written {schema : Schema} {definition other : Document.Definition} {node : Node}
    (gives : Conversion.Gives schema definition node) (same : other.unplaced = node.written) :
    Conversion.Gives schema other node := by
  have isWritten := written_ofDefinition gives.accepted gives.result
  have ofOther := ofDefinition_unplaced schema other
  have ofDefinition := ofDefinition_unplaced schema definition
  rw [same, isWritten, ofDefinition] at ofOther
  have sameResult := congrArg Reported.result ofOther
  have sameViolations := congrArg Reported.violations ofOther
  refine ⟨sameResult.symm.trans gives.result, Reported.accepted_unplaced_iff.mp ?_⟩
  exact sameViolations.symm.trans (Reported.accepted_unplaced_iff.mpr gives.accepted)

theorem Conversion.gives_of_map_eq {schema : Schema} {definitions : List Document.Definition} {nodes : List Node}
    (same : definitions.map Document.Definition.unplaced = nodes.map Node.written)
    (given : ∀ node ∈ nodes, ∃ definition, Conversion.Gives schema definition node) :
    List.Forall₂ (Conversion.Gives schema) definitions nodes := by
  induction definitions generalizing nodes with
  | nil =>
    obtain rfl := List.map_eq_nil_iff.mp same.symm
    exact .nil
  | cons definition rest ih =>
    cases nodes with
    | nil => cases same
    | cons node more =>
      obtain ⟨first, others⟩ := List.cons.inj same
      obtain ⟨other, gives⟩ := given node List.mem_cons_self
      exact .cons (gives.of_written first) (ih others fun next member => given next (List.mem_cons_of_mem _ member))

namespace Context

variable {schema : Schema} {context : Context} {name : String} {nodes : List Node}

theorem Built.gives (built : context.Built schema fun document => ∃ text, Document.parse text = .ok document) :
    ∀ node ∈ context.nodes, ∃ definition, definition.Printable ∧ Conversion.Gives schema definition node := by
  refine built.forall_nodes fun document nodes accepted converted node member => ?_
  obtain ⟨text, parsed⟩ := accepted
  obtain ⟨definition, inDocument, gives⟩ := Node.gives_of_mem_ofDocument converted member
  exact ⟨definition, Document.printable_of_parse parsed definition inDocument, gives⟩

/-- What a root reaches is printed as a text that is read as the same nodes. -/
theorem parse_rootText (built : context.Built schema fun document => ∃ text, Document.parse text = .ok document)
    {root : Root} (isRoot : .root root ∈ context.nodes) :
    ∃ nodes, context.reachable root.name = some nodes ∧
      ((∀ node ∈ nodes, node.Readable ∧ AllReadBack node.rounded) →
        ∃ text document, context.rootText? root.name = some text ∧ Document.parse text = .ok document ∧
          Node.ofDocument schema document = .ok nodes) := by
  obtain ⟨nodes, reached⟩ := exists_reachable built.names_nodup isRoot
  refine ⟨nodes, reached, fun readable => ?_⟩
  have gives (node : Node) (member : node ∈ nodes) :
      ∃ definition, definition.Printable ∧ Conversion.Gives schema definition node :=
    built.gives node (reachable_subset reached member)
  have printable (node : Node) (member : node ∈ nodes) : node.written.Printable := by
    obtain ⟨definition, ofDefinition, isGiven⟩ := gives node member
    rw [Conversion.written_ofDefinition isGiven.accepted isGiven.result]
    exact ofDefinition.unplaced
  obtain ⟨first, isFirst⟩ := root_mem_reachable reached
  obtain ⟨document, parsed, same⟩ := parse_joined printable (fun node member => (readable node member).1)
    (fun node member => (readable node member).2) (reachable_nodup built.names_nodup reached) isFirst
  have areGiven : List.Forall₂ (Conversion.Gives schema) document.definitions nodes := by
    refine Conversion.gives_of_map_eq same fun node member => ?_
    obtain ⟨definition, _, isGiven⟩ := gives node member
    exact ⟨definition, isGiven⟩
  refine ⟨_, document, ?_, parsed, Node.ofDocument_eq_ok areGiven⟩
  rw [rootText?, reached]
  rfl

/-- The context of the definitions of one text. -/
def ofText? (schema : Schema) (text : String) : Option Context := do
  let document ← (Document.parse text).toOption
  let nodes ← (Node.ofDocument schema document).toOption
  (nodes.foldlM add {}).toOption

theorem Built.foldlM_add {accepts : Document → Prop} {larger : Context} {document : Document} {added : List Node}
    (built : context.Built schema accepts) (accepted : accepts document)
    (converted : Node.ofDocument schema document = .ok nodes) (members : added ⊆ nodes)
    (folded : added.foldlM Context.add context = .ok larger) : larger.Built schema accepts := by
  induction added generalizing context with
  | nil => exact Except.ok.inj folded ▸ built
  | cons node rest ih =>
    rw [List.foldlM_cons] at folded
    obtain ⟨next, isAdded, more⟩ := bind_eq_ok folded
    have ofNext : next.Built schema accepts := .add built accepted converted (members List.mem_cons_self) isAdded
    exact ih ofNext (fun other member => members (List.mem_cons_of_mem _ member)) more

theorem built_ofText? {text : String} (read : ofText? schema text = some context) :
    context.Built schema fun document => ∃ text, Document.parse text = .ok document := by
  obtain ⟨document, isDocument, more⟩ := Option.bind_eq_some_iff.mp read
  obtain ⟨nodes, areNodes, folded⟩ := Option.bind_eq_some_iff.mp more
  exact Built.empty.foldlM_add ⟨text, toOption_eq_some isDocument⟩ (toOption_eq_some areNodes) (List.Subset.refl _)
    (toOption_eq_some folded)

def shelfSchema : Schema where
  types := [{ name := "Float", kind := .scalar }, { name := "String", kind := .scalar },
    { name := "Query", kind := .object, fields := [⟨"shelf", [⟨"width", .named "Float", none⟩], .named "Shelf"⟩] },
    { name := "Shelf", kind := .object, fields := [⟨"title", [], .named "String"⟩] }]
  directives := []
  queryType := "Query"
  mutationType? := none
  subscriptionType? := none

def shelfText : String :=
  "query A($width: Float = 1.5) \x7b shelf(width: $width) \x7b ...F \x7d \x7d fragment F on Shelf \x7b title \x7d"

set_option maxRecDepth 20000 in
theorem parse_rootText_shelf : ∃ context root nodes text document, ofText? shelfSchema shelfText = some context ∧
    .root root ∈ context.nodes ∧ context.reachable root.name = some nodes ∧
      (∀ node ∈ nodes, node.Readable ∧ AllReadBack node.rounded) ∧ context.rootText? root.name = some text ∧
      Document.parse text = .ok document ∧ Node.ofDocument shelfSchema document = .ok nodes := by
  have checked : (ofText? shelfSchema shelfText).any (fun context => context.nodes.any Node.isRoot &&
      context.nodes.all fun node => decide (node.Readable ∧ AllReadBack node.rounded)) = true := by decide +kernel
  obtain ⟨context, isContext, holds⟩ := (Option.any_eq_true _ _).mp checked
  obtain ⟨hasRoot, areReadable⟩ := Bool.and_eq_true_iff.mp holds
  obtain ⟨node, member, isRoot⟩ := List.any_eq_true.mp hasRoot
  cases node with
  | fragment => cases isRoot
  | root root =>
    obtain ⟨nodes, reached, reads⟩ := parse_rootText (built_ofText? isContext) member
    have readable : ∀ node ∈ nodes, node.Readable ∧ AllReadBack node.rounded := fun node inNodes =>
      of_decide_eq_true (List.all_eq_true.mp areReadable node (reachable_subset reached inNodes))
    obtain ⟨text, document, printed, parsed, converted⟩ := reads readable
    exact ⟨context, root, nodes, text, document, isContext, member, reached, readable, printed, parsed, converted⟩

/-- A root of the text is printed as a text that is not read, though its numbers are. -/
def isMisprinted (schema : Schema) (text : String) : Bool :=
  (ofText? schema text).any fun context => context.nodes.any fun node =>
    node.isRoot && decide (AllReadBack node.rounded) &&
      (context.rootText? node.name).any fun printed => (Document.parse printed).toOption.isNone

theorem exists_misprinted {text : String} (checked : isMisprinted schema text = true) :
    ∃ context root printed error, ofText? schema text = some context ∧ .root root ∈ context.nodes ∧
      AllReadBack (Node.root root).rounded ∧ context.rootText? root.name = some printed ∧
      Document.parse printed = .error error := by
  obtain ⟨context, isContext, holds⟩ := (Option.any_eq_true _ _).mp checked
  obtain ⟨node, member, isNode⟩ := List.any_eq_true.mp holds
  obtain ⟨isRoot, misread⟩ := Bool.and_eq_true_iff.mp isNode
  obtain ⟨printed, isPrinted, isNone⟩ := (Option.any_eq_true _ _).mp misread
  cases node with
  | fragment => cases isRoot
  | root root =>
    cases outcome : Document.parse printed with
    | ok document =>
      rw [outcome] at isNone
      cases isNone
    | error error =>
      exact ⟨context, root, printed, error, isContext, member,
        of_decide_eq_true (Bool.and_eq_true_iff.mp isRoot).2, isPrinted, outcome⟩

def misplacedDefault : String := "query A($width: Float @d = 1) \x7b shelf(width: $width) \x7b title \x7d \x7d"

set_option maxRecDepth 20000 in
/-- A default is printed before directives and is read only after them. -/
theorem misprinted_default : ∃ context root printed error, ofText? shelfSchema misplacedDefault = some context ∧
    .root root ∈ context.nodes ∧ AllReadBack (Node.root root).rounded ∧
      context.rootText? root.name = some printed ∧ Document.parse printed = .error error :=
  exists_misprinted (by decide +kernel)

def spreadOn : String :=
  "query A \x7b shelf \x7b ...on #\n title \x7d \x7d fragment on on Shelf \x7b title \x7d"

set_option maxRecDepth 20000 in
/-- A field after `...on` is read as a type. -/
theorem misprinted_spread : ∃ context root printed error, ofText? shelfSchema spreadOn = some context ∧
    .root root ∈ context.nodes ∧ AllReadBack (Node.root root).rounded ∧
      context.rootText? root.name = some printed ∧ Document.parse printed = .error error :=
  exists_misprinted (by decide +kernel)

end Context

end SiteQuery.Graphql
