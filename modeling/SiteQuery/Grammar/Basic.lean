/-!
Grammars of ordered choice, as data, and the trees that they give.

A rule is a name, an expression, and what its matches leave in the tree (`Kind`). Choice takes the first
alternative that matches and never comes back to it; repetition takes all it can.
-/

namespace SiteQuery.Grammar

inductive Expression (Rule : Type) where
  | empty
  | ending
  | one (accepts : Char → Bool)
  | word (text : List Char)
  | call (rule : Rule)
  | both (first second : Expression Rule)
  | either (first second : Expression Rule)
  | many (item : Expression Rule)
  /-- Matches nothing, where `item` does not match. -/
  | absent (item : Expression Rule)

namespace Expression

variable {Rule : Type}

def option (item : Expression Rule) : Expression Rule := .either item .empty

def oneOrMore (item : Expression Rule) : Expression Rule := .both item (.many item)

/-- Matches nothing, where `item` matches. -/
def ahead (item : Expression Rule) : Expression Rule := .absent (.absent item)

def keyword (text : String) : Expression Rule := .word text.toList

def char (c : Char) : Expression Rule := .one (· == c)

def sequence : List (Expression Rule) → Expression Rule
  | [] => .empty
  | [last] => last
  | first :: rest => .both first (sequence rest)

def choice : List (Expression Rule) → Expression Rule
  | [] => .absent .empty
  | [last] => last
  | first :: rest => .either first (choice rest)

/-- A sequence with `blank` between its parts. -/
def spaced (blank : Expression Rule) : List (Expression Rule) → Expression Rule
  | [] => .empty
  | [last] => last
  | first :: rest => .both first (.both blank (spaced blank rest))

/-- Any number of items with `blank` between them. -/
def manySpaced (blank item : Expression Rule) : Expression Rule :=
  .option (.both item (.many (.both blank item)))

/-- One or more items with `blank` between them. -/
def someSpaced (blank item : Expression Rule) : Expression Rule :=
  spaced blank [item, manySpaced blank item]

end Expression

/-- What a match of a rule leaves in the tree: its text, a node over its parts, or only its parts. -/
inductive Kind where
  | token
  | branch
  | spliced
deriving DecidableEq

structure Grammar (Rule : Type) where
  body : Rule → Expression Rule
  kind : Rule → Kind
  /-- A rule that starts with another, at the same place, has the greater rank. -/
  rank : Rule → Nat
  /-- A bound on all ranks. -/
  width : Nat

/-- Places are given as the number of characters that are left from there to the end of the text. -/
inductive SyntaxTree (Rule : Type) where
  | token (rule : Rule) (left : Nat) (text : List Char)
  | branch (rule : Rule) (left leftAfter : Nat) (parts : List (SyntaxTree Rule))

namespace SyntaxTree

variable {Rule : Type}

def rule : SyntaxTree Rule → Rule
  | .token rule _ _ => rule
  | .branch rule _ _ _ => rule

def left : SyntaxTree Rule → Nat
  | .token _ left _ => left
  | .branch _ left _ _ => left

def leftAfter : SyntaxTree Rule → Nat
  | .token _ left text => left - text.length
  | .branch _ _ leftAfter _ => leftAfter

end SyntaxTree

end SiteQuery.Grammar
