/-!
References to types, with their list and non-null wrappers.
-/

namespace SiteQuery.Graphql

inductive TypeReference where
  | named (name : String)
  | list (item : TypeReference)
  | nonNull (inner : TypeReference)
deriving DecidableEq, Repr, Inhabited

namespace TypeReference

/-- The innermost named type. -/
def name : TypeReference → String
  | named name => name
  | list item => item.name
  | nonNull inner => inner.name

def isNonNull : TypeReference → Bool
  | nonNull _ => true
  | _ => false

/-- Without one outer non-null wrapper. -/
def nullable : TypeReference → TypeReference
  | nonNull inner => inner
  | other => other

def text : TypeReference → String
  | named name => name
  | list item => "[" ++ item.text ++ "]"
  | nonNull inner => inner.text ++ "!"

def wrap (inner : TypeReference) (c : Char) : TypeReference :=
  if c = '!' then nonNull inner else list inner

/-- Reads the text of a type: what follows the name tells all wrappers from the inside out. -/
def ofText (text : List Char) : TypeReference :=
  let opened := text.dropWhile (· == '[')
  let name := opened.takeWhile fun c => c != ']' && c != '!'
  (opened.drop name.length).foldl wrap (named (String.ofList name))

end TypeReference

end SiteQuery.Graphql
