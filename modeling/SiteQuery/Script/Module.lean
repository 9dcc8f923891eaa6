import SiteQuery.Path
import SiteQuery.Script.Grammar
import SiteQuery.Text.Escaped

/-!
Script modules, as far as tagged templates go: each template with a bare name for its tag, within the exported
declarations and the variable declarators around it.

The parts of a node come in the order in which a module is walked. That is the order of the text, but for the
condition of a `do` loop, which comes before its body, and for what a class extends, which comes after its body.
-/

namespace SiteQuery.Script

open Grammar

inductive Outline where
  /-- A template with its tag, its place in bytes, its stretches of text and what is between them. -/
  | tagged (tag : String) (start stop : Nat) (texts : List String) (parts : List Outline)
  /-- A variable declarator; a pattern binds no single name. -/
  | declarator (binding? : Option String) (parts : List Outline)
  | exported (parts : List Outline)
  /-- A string that stands where a template was. -/
  | placeholder (text : String)
deriving Repr, Inhabited

structure Module where
  parts : List Outline
deriving Repr, Inhabited

/-- What is said of a text that is no module. -/
def notModuleReason : String := "not a module"

namespace Dialect

/-- By the extension of the file; markup is allowed in all but pure type files. -/
def ofPath (path : Path) : Dialect :=
  match path.extension? with
  | some "ts" => ⟨false, true⟩
  | some "tsx" => ⟨true, true⟩
  | _ => ⟨true, false⟩

end Dialect

namespace Module

abbrev SyntaxTree := Grammar.SyntaxTree Rule

/-- From the number of characters left to the number of bytes before. -/
abbrev Offsets := Nat → Nat

def byteTable : Nat → List Char → List Nat
  | before, [] => [before]
  | before, c :: rest => before :: byteTable (before + c.utf8Size) rest

def offsets (text : List Char) : Offsets :=
  let table := (byteTable 0 text).toArray
  fun left => table.getD (text.length - left) 0

/-- A name without its escapes. -/
def decodeName : List Char → List Char
  | '\\' :: 'u' :: '\x7b' :: rest => decodeBraced [] rest
  | '\\' :: 'u' :: a :: b :: c :: d :: rest => Escaped.ofHex [a, b, c, d] :: decodeName rest
  | c :: rest => c :: decodeName rest
  | [] => []
where
  decodeBraced : List Char → List Char → List Char
  | digits, '\x7d' :: rest => Escaped.ofHex digits.reverse :: decodeName rest
  | digits, c :: rest => decodeBraced (c :: digits) rest
  | _, [] => []

def nameOf (text : List Char) : String := String.ofList (decodeName text)

/-- Every line end becomes a line feed. -/
def normalizeLines : List Char → List Char
  | '\r' :: '\n' :: rest => '\n' :: normalizeLines rest
  | '\r' :: rest => '\n' :: normalizeLines rest
  | c :: rest => c :: normalizeLines rest
  | [] => []

def textsOf : List SyntaxTree → List String
  | .token .templateText _ text :: rest => String.ofList (normalizeLines text) :: textsOf rest
  | _ :: rest => textsOf rest
  | [] => []

def bindingOf : List SyntaxTree → Option String
  | .token .bindingName _ text :: _ => some (nameOf text)
  | _ => none

mutual

def outline (offsets : Offsets) : SyntaxTree → List Outline
  | .token _ _ _ => []
  | .branch .exportedDeclaration _ _ parts => [.exported (outlines offsets parts)]
  | .branch (.declarator _) _ _ parts => [.declarator (bindingOf parts) (outlines offsets parts)]
  | .branch _ _ _ (.token .identifier left name :: .branch .template _ after inner :: rest) =>
    .tagged (nameOf name) (offsets left) (offsets after) (textsOf inner) (outlines offsets inner)
      :: outlines offsets rest
  | .branch _ _ _
      (.token .identifier left name :: .token .typeArguments _ _ :: .branch .template _ after inner :: rest) =>
    .tagged (nameOf name) (offsets left) (offsets after) (textsOf inner) (outlines offsets inner)
      :: outlines offsets rest
  | .branch .doWhile _ _ [.branch _ _ _ loopBody, .branch _ _ _ test] =>
    outlines offsets test ++ outlines offsets loopBody
  | .branch .classTail _ _ (.branch .heritage _ _ inherited :: rest) =>
    outlines offsets rest ++ outlines offsets inherited
  | .branch _ _ _ parts => outlines offsets parts

def outlines (offsets : Offsets) : List SyntaxTree → List Outline
  | [] => []
  | tree :: rest => outline offsets tree ++ outlines offsets rest

end

def elementNames (rule : Rule) (parts : List SyntaxTree) : List (List Char) :=
  parts.filterMap fun
    | .token other _ text => if other = rule then some text else none
    | .branch .. => none

mutual

/-- Every element is closed under the name that it was opened with. -/
def isWellClosed : SyntaxTree → Bool
  | .token _ _ _ => true
  | .branch rule _ _ parts =>
    (rule != .element || (elementNames .closingName parts).all (elementNames .elementName parts).contains)
      && areWellClosed parts

def areWellClosed : List SyntaxTree → Bool
  | [] => true
  | tree :: rest => isWellClosed tree && areWellClosed rest

end

def withoutMark : List Char → List Char
  | '\ufeff' :: rest => rest
  | text => text

/-- The outline of a text, if that is a module. A byte order mark at its start does not count. -/
def parse? (dialect : Dialect) (text : String) : Option Module :=
  let characters := withoutMark text.toList
  match (grammar dialect).parse .module characters with
  | .error _ => none
  | .ok trees => if areWellClosed trees then some ⟨outlines (offsets characters) trees⟩ else none

end Module

end SiteQuery.Script
