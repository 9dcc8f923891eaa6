/-!
Places in a text as line and column, both from 1 and counted in characters.

Two counts are in use. `Position.after` places a node of a document: a line feed starts a line and a
carriage return only goes back to the first column. `Position.ofPrecedingText` places a syntax error: a
carriage return counts as a line break with the line feed that follows it and as a column without one.
-/

namespace SiteQuery

structure Position where
  line : Nat
  column : Nat
deriving DecidableEq, Repr, Inhabited

namespace Position

def start : Position := ⟨1, 1⟩

/-- The place of the character that follows `c`, for a `c` at this place. -/
def after (position : Position) (c : Char) : Position :=
  if c = '\n' then ⟨position.line + 1, 1⟩
  else if c = '\r' then ⟨position.line, 1⟩
  else ⟨position.line, position.column + 1⟩

/-- The places of all characters of a text, and of its end. -/
def table : Position → List Char → List Position
  | position, [] => [position]
  | position, c :: rest => position :: table (position.after c) rest

theorem length_table (position : Position) (text : List Char) :
    (table position text).length = text.length + 1 := by
  induction text generalizing position with
  | nil => rfl
  | cons c rest ih => simp [table, ih]

def ofPrecedingText : List Char → Position → Position
  | [], position => position
  | '\r' :: '\n' :: rest, position => ofPrecedingText rest ⟨position.line + 1, 1⟩
  | c :: rest, position =>
    ofPrecedingText rest (if c = '\n' then ⟨position.line + 1, 1⟩ else ⟨position.line, position.column + 1⟩)

/-- Order of reading. -/
def le (left right : Position) : Bool :=
  left.line < right.line || (left.line == right.line && left.column ≤ right.column)

def text (position : Position) : String :=
  s!"{position.line}:{position.column}"

end Position

end SiteQuery
