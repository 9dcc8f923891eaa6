import SiteQuery.Graphql.Context

/-!
The normal form of selections: no inline fragment that its place makes superfluous, and no selection that
repeats an earlier one of the same level.
-/

namespace SiteQuery.Graphql

namespace Selection

/-- An inline fragment that neither narrows the type nor carries a directive. -/
def isSuperfluous (parent : String) (condition? : Option String) (directives : List Directive) : Bool :=
  directives.isEmpty && (condition?.isNone || condition? == some parent)

mutual

/-- Superfluous inline fragments give way to their selections. -/
def flatten (parent : String) : Selection → List Selection
  | field alias? name arguments directives type selections =>
    [field alias? name arguments directives type (flattenAll type selections)]
  | spread name directives => [spread name directives]
  | inline condition? directives selections =>
    if isSuperfluous parent condition? directives then flattenAll parent selections
    else [inline condition? directives (flattenAll (condition?.getD parent) selections)]

def flattenAll (parent : String) : List Selection → List Selection
  | [] => []
  | selection :: rest => flatten parent selection ++ flattenAll parent rest

end

/-- A selection joins the first one that it repeats, else it goes to the end. -/
def join : List Selection → Selection → List Selection
  | [], selection => [selection]
  | first :: rest, selection =>
    if samePlace first selection then first.withSelections (first.selections ++ selection.selections) :: rest
    else first :: join rest selection

theorem count_withSelections (first : Selection) (added : List Selection) :
    (first.withSelections (first.selections ++ added)).count ≤ first.count + countIn added := by
  have countIn_append (xs ys : List Selection) : countIn (xs ++ ys) = countIn xs + countIn ys := by
    induction xs with
    | nil => simp [countIn]
    | cons x xs ih => simp [countIn, ih]; omega
  cases first <;> simp [withSelections, selections, count, countIn_append] <;> omega

theorem countIn_selections_lt (selection : Selection) : countIn selection.selections < selection.count := by
  cases selection <;> simp [selections, count, countIn]

theorem countIn_join (kept : List Selection) (selection : Selection) :
    countIn (join kept selection) ≤ countIn kept + selection.count := by
  induction kept with
  | nil => simp [join, countIn]
  | cons first rest ih =>
    simp only [join]
    split
    · have := count_withSelections first selection.selections
      have := countIn_selections_lt selection
      simp only [countIn]
      omega
    · simp only [countIn]
      omega

theorem countIn_foldl_join (selections kept : List Selection) :
    countIn (selections.foldl join kept) ≤ countIn kept + countIn selections := by
  induction selections generalizing kept with
  | nil => simp [countIn]
  | cons selection rest ih =>
    have := ih (join kept selection)
    have := countIn_join kept selection
    simp only [List.foldl_cons, countIn]
    omega

theorem countIn_selections_lt_of_mem {selection : Selection} {all : List Selection} (h : selection ∈ all) :
    countIn selection.selections < countIn all := by
  induction all with
  | nil => cases h
  | cons first rest ih =>
    have := countIn_selections_lt selection
    rcases List.mem_cons.mp h with rfl | inRest
    · simp only [countIn]; omega
    · have := ih inRest
      simp only [countIn]; omega

/-- Repeated selections are joined, at every depth. -/
def merge (all : List Selection) : List Selection :=
  (all.foldl join []).attach.map fun ⟨selection, _⟩ => selection.withSelections (merge selection.selections)
termination_by countIn all
decreasing_by
  have := countIn_selections_lt_of_mem ‹selection ∈ all.foldl join []›
  have := countIn_foldl_join all []
  simp only [countIn] at this
  omega

end Selection

namespace Context

def flatten (context : Context) : Context :=
  context.map fun node => node.withSelections (Selection.flattenAll node.type node.selections)

def merge (context : Context) : Context :=
  context.map fun node => node.withSelections (Selection.merge node.selections)

/-- The form in which definitions are printed. -/
def normalize (context : Context) : Context := context.flatten.merge

end Context

end SiteQuery.Graphql
