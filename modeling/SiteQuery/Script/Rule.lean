import SiteQuery.Grammar.Basic

/-!
The rules of the grammar of script modules.

Rules that take `allowIn` come in two forms: the head of a `for` loop has no `in` operator outside brackets.
-/

namespace SiteQuery.Script

/-- Which extensions of the language a source file is written in. -/
structure Dialect where
  /-- Markup elements in expressions. -/
  markup : Bool
  /-- Type annotations. -/
  types : Bool
deriving DecidableEq, Repr

inductive Rule where
  | module | item | statement | block
  | importDeclaration | exportDeclaration | exportedDeclaration | declaration
  | variableDeclaration (allowIn : Bool) | declarator (allowIn : Bool) | bindingName
  | binding | bindingPattern | bindingElement | parameters
  | function | classDeclaration | classTail | heritage | classBody | classMember
  | doWhile | doBody | doTest
  | expression (allowIn : Bool) | assignment (allowIn : Bool) | arrow (allowIn : Bool)
  | conditional (allowIn : Bool) | binary (allowIn : Bool) | unary
  | chain | identifier | composite | suffix | typeArguments | callee
  | propertyKey | objectMember
  | template | templateText
  | element | elementName | closingName | elementAttribute | child
  | type | typeMember | typeParameters | signature | primaryType
deriving DecidableEq, Repr

end SiteQuery.Script
