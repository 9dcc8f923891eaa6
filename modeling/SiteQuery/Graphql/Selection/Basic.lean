import SiteQuery.Graphql.Document

/-!
Selections with the type of every field, without places.
-/

namespace SiteQuery.Graphql

structure Argument where
  name : String
  value : Value
deriving Repr, Inhabited

namespace Argument

def same (a b : Argument) : Bool := a.name == b.name && a.value.same b.value

def ofWritten (argument : Document.Argument) : Argument := ⟨argument.name, argument.value⟩

end Argument

structure Directive where
  name : String
  arguments : List Argument
deriving Repr, Inhabited

/-- Two lists of one length are equal place by place. -/
def sameList {Item : Type} (same : Item → Item → Bool) : List Item → List Item → Bool
  | [], [] => true
  | a :: as, b :: bs => same a b && sameList same as bs
  | _, _ => false

namespace Directive

def same (a b : Directive) : Bool := a.name == b.name && sameList Argument.same a.arguments b.arguments

def ofWritten (directive : Document.Directive) : Directive :=
  ⟨directive.name, directive.arguments.map Argument.ofWritten⟩

end Directive

/-- In a field, `type` is the named type of its value. -/
inductive Selection where
  | field (alias? : Option String) (name : String) (arguments : List Argument) (directives : List Directive)
      (type : String) (selections : List Selection)
  | spread (name : String) (directives : List Directive)
  | inline (condition? : Option String) (directives : List Directive) (selections : List Selection)
deriving Repr, Inhabited

namespace Selection

/-- The key of a field in a response. -/
def responseKey (alias? : Option String) (name : String) : String := alias?.getD name

/-- The second selection repeats the first: it adds only what it selects below. -/
def samePlace : Selection → Selection → Bool
  | field aliasA nameA argumentsA directivesA _ _, field aliasB nameB argumentsB directivesB _ _ =>
    responseKey aliasA nameA == responseKey aliasB nameB && nameA == nameB
      && sameList Argument.same argumentsA argumentsB && sameList Directive.same directivesA directivesB
  | spread nameA directivesA, spread nameB directivesB =>
    nameA == nameB && sameList Directive.same directivesA directivesB
  | inline conditionA directivesA _, inline conditionB directivesB _ =>
    conditionA == conditionB && sameList Directive.same directivesA directivesB
  | _, _ => false

def selections : Selection → List Selection
  | field _ _ _ _ _ selections => selections
  | spread _ _ => []
  | inline _ _ selections => selections

/-- A spread selects nothing itself and stays as it is. -/
def withSelections : Selection → List Selection → Selection
  | field alias? name arguments directives type _, selections =>
    field alias? name arguments directives type selections
  | spread name directives, _ => spread name directives
  | inline condition? directives _, selections => inline condition? directives selections

mutual

/-- The names of the fragments that are spread in a selection, at any depth. -/
def spreads : Selection → List String
  | field _ _ _ _ _ selections => spreadsIn selections
  | spread name _ => [name]
  | inline _ _ selections => spreadsIn selections

def spreadsIn : List Selection → List String
  | [] => []
  | selection :: rest => spreads selection ++ spreadsIn rest

end

mutual

def count : Selection → Nat
  | field _ _ _ _ _ selections => countIn selections + 1
  | spread _ _ => 1
  | inline _ _ selections => countIn selections + 1

def countIn : List Selection → Nat
  | [] => 0
  | selection :: rest => count selection + countIn rest

end

end Selection

end SiteQuery.Graphql
