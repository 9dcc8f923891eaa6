import SiteQuery.Grammar.Basic

/-!
Running a grammar on a text.

`Grammar.run` is total: a rule that calls another at the same place must have the greater rank, so every
call lowers `Grammar.measure`. Beside the match, a run records how far the text was understood
(`Outcome.reach`): the furthest place where a rule was tried in vain.
-/

namespace SiteQuery.Grammar

/-- A place in a text: what is left of it, with its length at hand. -/
structure Cursor where
  rest : List Char
  left : Nat
  length_rest : rest.length = left

namespace Cursor

def ofList (rest : List Char) : Cursor := ⟨rest, rest.length, rfl⟩

theorem eq_ofList (cursor : Cursor) : cursor = ofList cursor.rest := by
  obtain ⟨rest, left, h⟩ := cursor
  subst h
  rfl

def next? : Cursor → Option (Char × Cursor)
  | ⟨[], _, _⟩ => none
  | ⟨c :: rest, left, h⟩ => some (c, ⟨rest, left - 1, by simp only [List.length_cons] at h; omega⟩)

/-- What is left after a given text. -/
def skip? : List Char → Cursor → Option Cursor
  | [], cursor => some cursor
  | c :: word, cursor =>
    match cursor.next? with
    | none => none
    | some (d, cursor) => if c = d then skip? word cursor else none

@[simp] theorem next?_ofList_nil : (ofList []).next? = none := rfl

@[simp] theorem next?_ofList_cons (c : Char) (rest : List Char) :
    (ofList (c :: rest)).next? = some (c, ofList rest) := rfl

@[simp] theorem skip?_ofList_append (word rest : List Char) :
    skip? word (ofList (word ++ rest)) = some (ofList rest) := by
  induction word with
  | nil => rfl
  | cons c word ih => simp [skip?, ih]

end Cursor

/-- Failed rules count while `counted` holds; where a match is unwanted, matched rules count instead. -/
structure Mode where
  counted : Bool
  unwanted : Bool

structure Outcome (Rule : Type) where
  /-- The fewest characters left at a place where a counted rule was tried in vain. -/
  reach : Option Nat
  value : Option (List (SyntaxTree Rule) × Cursor)

/-- The nearer to the end of two places, if any. -/
def nearer : Option Nat → Option Nat → Option Nat
  | none, other => other
  | some a, none => some a
  | some a, some b => some (min a b)

namespace Outcome

variable {Rule : Type}

def success (trees : List (SyntaxTree Rule)) (cursor : Cursor) : Outcome Rule := ⟨none, some (trees, cursor)⟩

def failure : Outcome Rule := ⟨none, none⟩

end Outcome

variable {Rule : Type}

/-- All that `step` matches in a row; ends where a match takes nothing. -/
def repeated (step : Cursor → Outcome Rule) (cursor : Cursor) : Outcome Rule :=
  match step cursor with
  | ⟨reach, none⟩ => ⟨reach, some ([], cursor)⟩
  | ⟨reach, some (trees, next)⟩ =>
    if next.left < cursor.left then
      let more := repeated step next
      ⟨nearer reach more.reach, more.value.map fun (others, last) => (trees ++ others, last)⟩
    else ⟨reach, some (trees, next)⟩
termination_by cursor.left

/-- The match of an expression, where `call` matches rules. -/
def Expression.run (call : Mode → Rule → Cursor → Outcome Rule) (mode : Mode) :
    Expression Rule → Cursor → Outcome Rule
  | .empty, cursor => .success [] cursor
  | .ending, cursor => if cursor.left = 0 then .success [] cursor else .failure
  | .one accepts, cursor =>
    match cursor.next? with
    | some (c, next) => if accepts c then .success [] next else .failure
    | none => .failure
  | .word text, cursor =>
    match cursor.skip? text with
    | some next => .success [] next
    | none => .failure
  | .call rule, cursor => call mode rule cursor
  | .both first second, cursor =>
    match first.run call mode cursor with
    | ⟨reach, none⟩ => ⟨reach, none⟩
    | ⟨reach, some (trees, next)⟩ =>
      let more := second.run call mode next
      ⟨nearer reach more.reach, more.value.map fun (others, last) => (trees ++ others, last)⟩
  | .either first second, cursor =>
    match first.run call mode cursor with
    | ⟨reach, none⟩ =>
      let other := second.run call mode cursor
      ⟨nearer reach other.reach, other.value⟩
    | found => found
  | .many item, cursor => repeated (item.run call mode) cursor
  | .absent item, cursor =>
    match item.run call { mode with unwanted := !mode.unwanted } cursor with
    | ⟨reach, none⟩ => ⟨reach, some ([], cursor)⟩
    | ⟨reach, some _⟩ => ⟨reach, none⟩

namespace Grammar

def measure (grammar : Grammar Rule) (rule : Rule) (cursor : Cursor) : Nat :=
  cursor.left * grammar.width + grammar.rank rule

/-- What the match of its expression means for a rule. -/
def finish (kind : Kind) (mode : Mode) (rule : Rule) (cursor : Cursor) (inner : Outcome Rule) : Outcome Rule :=
  let counts := mode.counted && inner.value.isSome == mode.unwanted
  ⟨if counts then nearer (some cursor.left) inner.reach else inner.reach,
    inner.value.map fun (parts, next) =>
      match kind with
      | .token => ([.token rule cursor.left (cursor.rest.take (cursor.left - next.left))], next)
      | .branch => ([.branch rule cursor.left next.left parts], next)
      | .spliced => (parts, next)⟩

def run (grammar : Grammar Rule) (mode : Mode) (rule : Rule) (cursor : Cursor) : Outcome Rule :=
  let kind := grammar.kind rule
  let call (mode : Mode) (other : Rule) (place : Cursor) : Outcome Rule :=
    if _h : grammar.measure other place < grammar.measure rule cursor then grammar.run mode other place
    else .failure
  let inner := (grammar.body rule).run call { mode with counted := mode.counted && kind != .token } cursor
  finish kind mode rule cursor inner
termination_by grammar.measure rule cursor

/-- The parts of the whole text under a rule, or the number of characters left where it stopped making sense. -/
def parse (grammar : Grammar Rule) (rule : Rule) (text : List Char) : Except Nat (List (SyntaxTree Rule)) :=
  let outcome := grammar.run ⟨true, false⟩ rule (.ofList text)
  match outcome.value with
  | some (trees, _) => .ok trees
  | none => .error (outcome.reach.getD text.length)

end Grammar

end SiteQuery.Grammar
