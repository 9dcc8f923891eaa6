import Mathlib.Data.List.Sort
import SiteQuery.Sorting

/-!
What sorted lists are.
-/

namespace SiteQuery

variable {α : Type}

theorem insertSorted_eq_orderedInsert (le : α → α → Bool) (item : α) (items : List α) :
    insertSorted le item items = items.orderedInsert (fun a b => le a b = true) item := by
  induction items with
  | nil => rfl
  | cons other rest ih => rw [insertSorted, List.orderedInsert_cons, ih]

theorem sorted_eq_insertionSort (le : α → α → Bool) (items : List α) :
    sorted le items = items.insertionSort (fun a b => le a b = true) := by
  have same : insertSorted le = List.orderedInsert (fun a b => le a b = true) := by
    funext item rest
    exact insertSorted_eq_orderedInsert le item rest
  rw [sorted, same, List.insertionSort]

theorem sorted_perm (le : α → α → Bool) (items : List α) : (sorted le items).Perm items := by
  rw [sorted_eq_insertionSort]
  exact List.perm_insertionSort _ items

theorem pairwise_sorted (le : α → α → Bool) (total : ∀ a b, le a b = true ∨ le b a = true)
    (transitive : ∀ a b c, le a b = true → le b c = true → le a c = true) (items : List α) :
    (sorted le items).Pairwise fun a b => le a b = true := by
  rw [sorted_eq_insertionSort]
  have : Std.Total (fun a b => le a b = true) := ⟨total⟩
  have : IsTrans α (fun a b => le a b = true) := ⟨transitive⟩
  exact List.pairwise_insertionSort _ items

/-- Only one list has these items in a strict order. -/
theorem sorted_eq_of_perm (le : α → α → Bool) (total : ∀ a b, le a b = true ∨ le b a = true)
    (transitive : ∀ a b c, le a b = true → le b c = true → le a c = true) {items ordered : List α}
    (perm : items.Perm ordered) (strict : ordered.Pairwise fun a b => le a b = true ∧ le b a = false) :
    sorted le items = ordered := by
  have unordered : ordered.Pairwise fun a b => le a b = true → le b a = true → a = b := by
    refine strict.imp fun ⟨_, after⟩ _ before => ?_
    rw [after] at before
    cases before
  have flipped : ordered.Pairwise (flip fun a b => le a b = true → le b a = true → a = b) :=
    unordered.imp fun same before after => (same after before).symm
  have antisymmetric := unordered.forall_of_forall_of_flip (fun _ _ _ _ => rfl) flipped
  have all := (sorted_perm le items).trans perm
  refine all.eq_of_pairwise (fun a b inSorted inOrdered => ?_) (pairwise_sorted le total transitive items)
    (strict.imp And.left)
  exact antisymmetric (all.subset inSorted) inOrdered

/-- Where only equal items may stand either way round, it does not matter how the items were ordered before. -/
theorem sorted_congr (le : α → α → Bool) (total : ∀ a b, le a b = true ∨ le b a = true)
    (transitive : ∀ a b c, le a b = true → le b c = true → le a c = true)
    (antisymmetric : ∀ a b, le a b = true → le b a = true → a = b) {items others : List α}
    (perm : items.Perm others) : sorted le items = sorted le others := by
  have all : (sorted le items).Perm (sorted le others) :=
    (sorted_perm le items).trans (perm.trans (sorted_perm le others).symm)
  exact all.eq_of_pairwise (fun a b _ _ => antisymmetric a b) (pairwise_sorted le total transitive items)
    (pairwise_sorted le total transitive others)

end SiteQuery
