import SiteQuery.Graphql.Document

/-!
What can be wrong with the text of a document or of a schema.
-/

namespace SiteQuery.Graphql

inductive ReadError where
  /-- The text is not in the grammar; the place is how far it was understood, with the line that it is in. -/
  | ungrammatical (position : Position) (line : String)
  | numberTooLarge (position : Position)
  | multipleRoots (root : OperationKind) (schema position : Position)
  | missingQueryRoot (position : Position)
  | multipleOperations (anonymous operation : Position)
  | operationDuplicated (name : String) (first second : Position)
  | fragmentDuplicated (name : String) (first second : Position)
  | missingOperation
  | recursionLimitExceeded
deriving DecidableEq, Repr

namespace ReadError

/-- A place under its line. -/
def excerpt (position : Position) (line reason : String) : String :=
  let number := toString position.line
  let margin := "".pushn ' ' number.length
  let underline := "".pushn ' ' (position.column - 1) ++ "^---"
  "\n".intercalate [
    s!"{margin}--> {position.text}",
    s!"{margin} |",
    s!"{number} | {line}",
    s!"{margin} | {underline}",
    s!"{margin} |",
    s!"{margin} = {reason}"]

def message : ReadError → String
  | ungrammatical position line => excerpt position line "unexpected text"
  | numberTooLarge position => s!"number too large at {position.text}"
  | multipleRoots root _ _ => s!"multiple {root.keyword} roots in schema definition"
  | missingQueryRoot _ => "schema definition is missing query root"
  | multipleOperations _ _ => "document contains multiple operations"
  | operationDuplicated name _ _ => s!"operation {name} is defined twice"
  | fragmentDuplicated name _ _ => s!"fragment {name} is defined twice"
  | missingOperation => "document does not contain an operation"
  | recursionLimitExceeded => "recursion limit exceeded."

def positions : ReadError → List Position
  | ungrammatical position _ => [position]
  | numberTooLarge position => [position]
  | multipleRoots _ schema position => [position, schema]
  | missingQueryRoot position => [position]
  | multipleOperations anonymous operation => [anonymous, operation]
  | operationDuplicated _ first second => [second, first]
  | fragmentDuplicated _ first second => [second, first]
  | missingOperation => []
  | recursionLimitExceeded => []

end ReadError

end SiteQuery.Graphql
