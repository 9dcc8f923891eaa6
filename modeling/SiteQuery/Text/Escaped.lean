/-!
What the text between quotes stands for: escapes in a line, and blocks of lines with a common indent.
-/

namespace SiteQuery.Escaped

def hexValue (c : Char) : Nat :=
  if '0' ≤ c && c ≤ '9' then c.toNat - 48
  else if 'a' ≤ c && c ≤ 'f' then c.toNat - 87
  else if 'A' ≤ c && c ≤ 'F' then c.toNat - 55
  else 0

def ofHex (digits : List Char) : Char :=
  Char.ofNat (digits.foldl (fun total c => total * 16 + hexValue c) 0)

def simple (c : Char) : Char :=
  if c = 'b' then '\x08'
  else if c = 'f' then '\x0c'
  else if c = 'n' then '\n'
  else if c = 'r' then '\r'
  else if c = 't' then '\t'
  else c

def decode : List Char → List Char
  | '\\' :: 'u' :: a :: b :: c :: d :: rest => ofHex [a, b, c, d] :: decode rest
  | '\\' :: c :: rest => simple c :: decode rest
  | c :: rest => c :: decode rest
  | [] => []

def isIndent (c : Char) : Bool := c == ' ' || c == '\t'

/-- A line feed, a carriage return or both end a line. -/
def lines : List Char → List Char → List (List Char)
  | current, [] => [current.reverse]
  | current, '\r' :: '\n' :: rest => current.reverse :: lines [] rest
  | current, c :: rest =>
    if c = '\n' ∨ c = '\r' then current.reverse :: lines [] rest else lines (c :: current) rest

def isEmptyLine (line : List Char) : Bool := line.all isIndent

def indent? (line : List Char) : Option Nat :=
  if isEmptyLine line then none else some (line.takeWhile isIndent).length

def commonIndent (rest : List (List Char)) : Nat :=
  ((rest.filterMap indent?).min?).getD 0

def unindent (count : Nat) (line : List Char) : List Char :=
  if line.length < count then line else line.drop count

/-- The common indent of all lines but the first goes away, and so do empty lines at both ends. -/
def block (text : List Char) : List Char :=
  let all := lines [] text
  let shifted :=
    match all with
    | [] => []
    | first :: rest => (first, isEmptyLine first) :: rest.map fun line =>
        (unindent (commonIndent rest) line, isEmptyLine line)
  let kept := ((shifted.dropWhile (·.2)).reverse.dropWhile (·.2)).reverse
  "\n".toList.intercalate (kept.map (·.1))

end SiteQuery.Escaped
