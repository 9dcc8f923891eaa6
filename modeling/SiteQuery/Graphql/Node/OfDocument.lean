import SiteQuery.Graphql.Node.Basic
import SiteQuery.Graphql.Schema.Basic
import SiteQuery.Graphql.Violation

/-!
Typed definitions from a document: every field and argument is looked up in the schema.
-/

namespace SiteQuery.Graphql

/-- A result with all that is wrong with it; a result stands only if nothing is. -/
structure Reported (Result : Type) where
  result : Result
  violations : List Violation

namespace Conversion

def argumentViolations (definition : FieldDefinition) (parent name : String)
    (arguments : List Document.Argument) : List Violation :=
  arguments.filterMap fun argument =>
    if (definition.argument? argument.name).isNone then
      some ⟨.unknownArgument argument.name parent name, some argument.namePosition⟩
    else none

mutual

def selections (schema : Schema) (parent : String) : List Document.Selection → Reported (List Selection)
  | [] => ⟨[], []⟩
  | written :: rest =>
    let first := selection schema parent written
    let others := selections schema parent rest
    ⟨first.result.toList ++ others.result, first.violations ++ others.violations⟩

def selection (schema : Schema) (parent : String) : Document.Selection → Reported (Option Selection)
  | .field position alias? name arguments directives _ inner =>
    match schema.field? parent name with
    | none => ⟨none, [⟨.unknownField name parent, some position⟩]⟩
    | some definition =>
      let type := definition.type.name
      let below := selections schema type inner
      ⟨some (.field alias? name (arguments.map .ofWritten) (directives.map .ofWritten) type below.result),
        argumentViolations definition parent name arguments ++ below.violations⟩
  | .spread _ name directives => ⟨some (.spread name (directives.map .ofWritten)), []⟩
  | .inline _ condition? directives inner =>
    let type? := condition?.map (·.name)
    let below := selections schema (type?.getD parent) inner
    ⟨some (.inline type? (directives.map .ofWritten) below.result), below.violations⟩

end

def ofVariable (written : Document.Variable) : Variable :=
  ⟨written.name, written.type, written.default?.map (·.value), written.directives.map .ofWritten⟩

def ofOperation (schema : Schema) (operation : Document.Operation) : Reported (Option Node) :=
  match operation.name? with
  | none => ⟨none, [⟨.unnamedOperation, some operation.position⟩]⟩
  | some name =>
    match schema.rootType? operation.kind with
    | none => ⟨none, [⟨.noRootType operation.kind, some operation.position⟩]⟩
    | some type =>
      let below := selections schema type.name operation.selections
      ⟨some (.root ⟨name, operation.kind, type.name, operation.variableDefinitions.map ofVariable,
        operation.directives.map .ofWritten, below.result⟩), below.violations⟩

def ofFragment (schema : Schema) (fragment : Document.Fragment) : Reported (Option Node) :=
  let below := selections schema fragment.condition.name fragment.selections
  ⟨some (.fragment ⟨fragment.name, fragment.condition.name, fragment.directives.map .ofWritten, below.result⟩),
    below.violations⟩

def ofDefinition (schema : Schema) : Document.Definition → Reported (Option Node)
  | .operation operation => ofOperation schema operation
  | .fragment fragment => ofFragment schema fragment

end Conversion

/-- The nodes of a document, or all that the schema does not define. -/
def Node.ofDocument (schema : Schema) (document : Document) : Except (List Violation) (List Node) :=
  let converted := document.definitions.map (Conversion.ofDefinition schema)
  let violations := converted.flatMap (·.violations)
  if violations.isEmpty then .ok (converted.filterMap (·.result)) else .error violations

end SiteQuery.Graphql
