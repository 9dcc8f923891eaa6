/-!
Paths by their components.

Two paths are the same if their components are: repeated separators, inner `.` and a trailing separator do not
count, and `..` stays. The text is kept as it was given.
-/

namespace SiteQuery

inductive Component where
  | root
  | current
  | parent
  | name (text : String)
deriving DecidableEq, Repr, Inhabited

namespace Component

def rank : Component → Nat
  | root => 0
  | current => 1
  | parent => 2
  | name _ => 3

def compare : Component → Component → Ordering
  | name a, name b => Ord.compare a b
  | a, b => Ord.compare a.rank b.rank

def text : Component → String
  | root => "/"
  | current => "."
  | parent => ".."
  | name text => text

end Component

structure Path where
  text : String
deriving DecidableEq, Repr, Inhabited

namespace Path

/-- The pieces between separators, from the front. -/
def pieces : List Char → List Char → List (List Char)
  | current, [] => [current.reverse]
  | current, c :: rest => if c = '/' then current.reverse :: pieces [] rest else pieces (c :: current) rest

def isAbsolute (path : Path) : Bool := path.text.toList.head? == some '/'

def componentOf (piece : List Char) : Option Component :=
  if piece.isEmpty || piece == ['.'] then none
  else if piece == ['.', '.'] then some .parent
  else some (.name (String.ofList piece))

def components (path : Path) : List Component :=
  let all := pieces [] path.text.toList
  let start : List Component :=
    if path.isAbsolute then [.root] else if all.head? == some ['.'] then [.current] else []
  start ++ all.filterMap componentOf

def same (a b : Path) : Bool := a.components == b.components

def compareComponents : List Component → List Component → Ordering
  | [], [] => .eq
  | [], _ :: _ => .lt
  | _ :: _, [] => .gt
  | a :: as, b :: bs =>
    match a.compare b with
    | .eq => compareComponents as bs
    | order => order

def compare (a b : Path) : Ordering := compareComponents a.components b.components

/-- An absolute path replaces what it is joined to. -/
def join (base path : Path) : Path :=
  if path.isAbsolute then path
  else if base.text.isEmpty || base.text.toList.getLast? == some '/' then ⟨base.text ++ path.text⟩
  else ⟨base.text ++ "/" ++ path.text⟩

def startsWith (path start : Path) : Bool := start.components.isPrefixOf path.components

/-- The last component, if it is a name. -/
def fileName? (path : Path) : Option String :=
  match path.components.getLast? with
  | some (.name text) => some text
  | _ => none

def separated (all : List (List Char)) : String := String.ofList (['/'].intercalate all)

/-- The text before the last component, without separators at its end. -/
def parent? (path : Path) : Option Path :=
  match path.components.dropLast, path.components.getLast? with
  | _, none => none
  | _, some .root => none
  | [], some _ => some ⟨""⟩
  | [.root], some _ => some ⟨"/"⟩
  | [.current], some _ => some ⟨"."⟩
  | _, some _ =>
    let isPadding (piece : List Char) : Bool := (componentOf piece).isNone
    let before := ((pieces [] path.text.toList).reverse.dropWhile isPadding).drop 1
    some ⟨separated (before.dropWhile isPadding).reverse⟩

/-- At most `count` parents of parents, the nearest first. -/
def parents : Nat → Path → List Path
  | 0, _ => []
  | count + 1, path =>
    match path.parent? with
    | none => []
    | some parent => parent :: parents count parent

/-- The path, its parent, and so on as far as there is one. -/
def ancestors (path : Path) : List Path := path :: parents path.components.length path

def isComponent (isFirst isAbsolute : Bool) (piece : List Char) : Bool :=
  (isFirst && (isAbsolute || piece == ['.'])) || (componentOf piece).isSome

/-- What is left of the pieces after a number of components. -/
def dropComponents (isFirst isAbsolute : Bool) : Nat → List (List Char) → List (List Char)
  | 0, rest => rest
  | _ + 1, [] => []
  | count + 1, piece :: rest =>
    if isComponent isFirst isAbsolute piece then dropComponents false isAbsolute count rest
    else dropComponents false isAbsolute (count + 1) rest

/-- The path as seen from a directory that it leads through. -/
def relativeTo? (path start : Path) : Option Path :=
  if path.startsWith start then
    let isPadding (piece : List Char) : Bool := (componentOf piece).isNone
    let rest := dropComponents true path.isAbsolute start.components.length (pieces [] path.text.toList)
    let rest := if start.components.isEmpty then rest else rest.dropWhile isPadding
    some ⟨separated (rest.reverse.dropWhile isPadding).reverse⟩
  else none

/-- The stem and the extension of a file name: cut at the last dot, unless that is the first character. -/
def splitName (name : List Char) : List Char × Option (List Char) :=
  if name == ['.', '.'] then (name, none)
  else
    let after := name.reverse.takeWhile (· != '.')
    let before := (name.reverse.drop (after.length + 1)).reverse
    if after.length = name.length || before.isEmpty then (name, none) else (before, some after.reverse)

def extension? (path : Path) : Option String :=
  path.fileName?.bind fun name => (splitName name.toList).2.map String.ofList

def stem? (path : Path) : Option String :=
  path.fileName?.map fun name => String.ofList (splitName name.toList).1

end Path

end SiteQuery
