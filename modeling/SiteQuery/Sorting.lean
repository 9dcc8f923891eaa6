/-!
Lists put in order. Items that may stand either way round keep the order that they had.
-/

namespace SiteQuery

variable {α : Type}

/-- The item goes before the first one that it may stand before. -/
def insertSorted (le : α → α → Bool) (item : α) : List α → List α
  | [] => [item]
  | other :: rest => if le item other then item :: other :: rest else other :: insertSorted le item rest

def sorted (le : α → α → Bool) (items : List α) : List α := items.foldr (insertSorted le) []

end SiteQuery
