import SiteQuery.Graphql.Node.OfDocument
import SiteQuery.Proofs.Graphql.Tokens

/-!
What a document that was read from a text consists of: names of the grammar, no empty selection sets, and no more
levels of sets than can be read.

Definitions are compared without their places: `Document.Definition.unplaced` forgets them, and `Node.written` is
a definition of a document without places.
-/

namespace SiteQuery.Graphql

/-- The grammar takes the beginning for a boolean or for null. -/
def IsKeyworded (text : List Char) : Prop :=
  "true".toList <+: text ∨ "false".toList <+: text ∨ "null".toList <+: text

/-- A non-null type is not made non-null again. -/
def TypeReference.Printable : TypeReference → Prop
  | named name => IsName name.toList
  | list item => item.Printable
  | nonNull inner => inner.Printable ∧ inner.isNonNull = false

/-- There are no variables in constants. -/
inductive Value.Printable (isConstant : Bool) : Value → Prop
  | reference {name} (isName : IsName name.toList) (notConstant : isConstant = false) :
      Printable isConstant (.reference name)
  | null : Printable isConstant .null
  | number {number} (fitting : ∀ value, number = .integer value → Number.fits value = true) :
      Printable isConstant (.number number)
  | string {text} : Printable isConstant (.string text)
  | boolean {flag} : Printable isConstant (.boolean flag)
  | enum {name} (isName : IsName name.toList) (notKeyworded : ¬ IsKeyworded name.toList) :
      Printable isConstant (.enum name)
  | list {items} (inner : ∀ item ∈ items, Printable isConstant item) : Printable isConstant (.list items)
  | object {fields : List (String × Value)} (names : ∀ field ∈ fields, IsName field.1.toList)
      (distinct : (fields.map (·.1)).Nodup) (inner : ∀ field ∈ fields, Printable isConstant field.2) :
      Printable isConstant (.object fields)

namespace Document

structure Argument.Printable (argument : Argument) : Prop where
  name : IsName argument.name.toList
  value : argument.value.Printable false

structure Directive.Printable (directive : Directive) : Prop where
  name : IsName directive.name.toList
  arguments : ∀ argument ∈ directive.arguments, argument.Printable

structure Variable.Printable (definition : Variable) : Prop where
  name : IsName definition.name.toList
  type : definition.type.Printable
  default : ∀ given ∈ definition.default?, given.value.Printable true
  directives : ∀ directive ∈ definition.directives, directive.Printable

/-- The selection has no more levels of sets than `depth`. -/
inductive Selection.Printable : Nat → Selection → Prop
  | leaf {depth position alias? name arguments directives bodyPosition}
      (isAlias : ∀ key ∈ alias?, IsName key.toList) (isName : IsName name.toList)
      (ofArguments : ∀ argument ∈ arguments, argument.Printable)
      (ofDirectives : ∀ directive ∈ directives, directive.Printable) :
      Printable depth (.field position alias? name arguments directives bodyPosition [])
  | field {depth position alias? name arguments directives bodyPosition selections}
      (isAlias : ∀ key ∈ alias?, IsName key.toList) (isName : IsName name.toList)
      (ofArguments : ∀ argument ∈ arguments, argument.Printable)
      (ofDirectives : ∀ directive ∈ directives, directive.Printable)
      (notEmpty : selections ≠ []) (inner : ∀ selection ∈ selections, Printable depth selection) :
      Printable (depth + 1) (.field position alias? name arguments directives bodyPosition selections)
  | spread {depth position name directives} (isName : IsName name.toList)
      (ofDirectives : ∀ directive ∈ directives, directive.Printable) :
      Printable depth (.spread position name directives)
  | inline {depth position condition? directives selections}
      (isType : ∀ condition ∈ condition?, IsName condition.name.toList)
      (ofDirectives : ∀ directive ∈ directives, directive.Printable)
      (notEmpty : selections ≠ []) (inner : ∀ selection ∈ selections, Printable depth selection) :
      Printable (depth + 1) (.inline position condition? directives selections)

/-- The body of a definition, below its own set. -/
def PrintableBody (depth : Nat) (selections : List Selection) : Prop :=
  selections ≠ [] ∧ ∀ selection ∈ selections, selection.Printable depth

structure Operation.Printable (operation : Operation) : Prop where
  name : ∀ name ∈ operation.name?, IsName name.toList
  variableDefinitions : ∀ definition ∈ operation.variableDefinitions, definition.Printable
  directives : ∀ directive ∈ operation.directives, directive.Printable
  body : PrintableBody 64 operation.selections

structure Fragment.Printable (fragment : Fragment) : Prop where
  name : IsName fragment.name.toList
  condition : IsName fragment.condition.name.toList
  directives : ∀ directive ∈ fragment.directives, directive.Printable
  body : PrintableBody 64 fragment.selections

def Definition.Printable : Definition → Prop
  | .operation o => o.Printable
  | .fragment f => f.Printable

end Document

def Document.Printable (document : Document) : Prop := ∀ definition ∈ document.definitions, definition.Printable

namespace Document

def Argument.unplaced (argument : Argument) : Argument := ⟨argument.name, .start, argument.value, .start⟩

def Directive.unplaced (directive : Directive) : Directive :=
  ⟨directive.name, directive.arguments.map Argument.unplaced⟩

def Condition.unplaced (condition : Condition) : Condition := ⟨condition.name, .start⟩

def Variable.unplaced (definition : Variable) : Variable :=
  ⟨definition.name, definition.type, .start, definition.default?.map fun given => ⟨given.value, .start⟩,
    definition.directives.map Directive.unplaced⟩

namespace Selection

mutual

def unplaced : Selection → Selection
  | field _ alias? name arguments directives _ selections =>
    field .start alias? name (arguments.map Argument.unplaced) (directives.map Directive.unplaced) .start
      (unplacedAll selections)
  | spread _ name directives => spread .start name (directives.map Directive.unplaced)
  | inline _ condition? directives selections =>
    inline .start (condition?.map Condition.unplaced) (directives.map Directive.unplaced) (unplacedAll selections)

def unplacedAll : List Selection → List Selection
  | [] => []
  | selection :: rest => unplaced selection :: unplacedAll rest

end

end Selection

def Definition.unplaced : Definition → Definition
  | .operation o => .operation ⟨.start, o.name?, o.kind, o.variableDefinitions.map Variable.unplaced,
      o.directives.map Directive.unplaced, Selection.unplacedAll o.selections⟩
  | .fragment f => .fragment ⟨.start, f.name, f.condition.unplaced, f.directives.map Directive.unplaced,
      Selection.unplacedAll f.selections⟩

end Document

def Violation.unplaced (violation : Violation) : Violation :=
  ⟨violation.fault, violation.position?.map fun _ => .start⟩

def Argument.written (argument : Argument) : Document.Argument := ⟨argument.name, .start, argument.value, .start⟩

def Directive.written (directive : Directive) : Document.Directive :=
  ⟨directive.name, directive.arguments.map Argument.written⟩

def Variable.written (definition : Variable) : Document.Variable :=
  ⟨definition.name, definition.type, .start, definition.default?.map fun value => ⟨value, .start⟩,
    definition.directives.map Directive.written⟩

namespace Selection

mutual

def written : Selection → Document.Selection
  | field alias? name arguments directives _ selections =>
    .field .start alias? name (arguments.map Argument.written) (directives.map Directive.written) .start
      (writtenAll selections)
  | spread name directives => .spread .start name (directives.map Directive.written)
  | inline condition? directives selections =>
    .inline .start (condition?.map fun type => ⟨type, .start⟩) (directives.map Directive.written)
      (writtenAll selections)

def writtenAll : List Selection → List Document.Selection
  | [] => []
  | selection :: rest => written selection :: writtenAll rest

end

end Selection

def Node.written : Node → Document.Definition
  | .root r => .operation ⟨.start, some r.name, r.kind, r.variableDefinitions.map Variable.written,
      r.directives.map Directive.written, Selection.writtenAll r.selections⟩
  | .fragment f => .fragment ⟨.start, f.name, ⟨f.condition, .start⟩, f.directives.map Directive.written,
      Selection.writtenAll f.selections⟩

end SiteQuery.Graphql
