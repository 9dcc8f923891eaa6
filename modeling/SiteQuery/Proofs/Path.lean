import Mathlib.Data.List.Basic
import SiteQuery.Path

/-!
Paths that are the same, and the order of paths: both go by components.
-/

namespace SiteQuery

namespace Component

theorem compare_eq_compareLex : compare = compareLex (compareOn rank) (compareOn text) := by
  funext a b
  cases a <;> cases b <;> simp [compare, compareLex, compareOn, rank, text] <;> rfl

instance : Std.TransCmp compare := compare_eq_compareLex ▸ inferInstance

instance : Std.LawfulEqCmp compare where
  compare_self := Std.ReflCmp.compare_self
  eq_of_compare {a b} same := by
    cases a <;> cases b <;> simp_all [compare, rank]

end Component

namespace Path

theorem same_iff {a b : Path} : a.same b = true ↔ a.components = b.components := by
  simp [same]

@[simp] theorem same_refl (a : Path) : a.same a = true := same_iff.mpr rfl

theorem same_comm (a b : Path) : a.same b = b.same a :=
  BEq.comm

theorem same_trans {a b c : Path} (first : a.same b = true) (second : b.same c = true) : a.same c = true :=
  same_iff.mpr ((same_iff.mp first).trans (same_iff.mp second))

theorem same_congr_left {a b : Path} (same : a.same b = true) (c : Path) : a.same c = b.same c := by
  simp [Path.same, same_iff.mp same]

theorem same_congr_right {a b : Path} (same : a.same b = true) (c : Path) : c.same a = c.same b := by
  simp [Path.same, same_iff.mp same]

theorem compareComponents_eq_compareLex : compareComponents = List.compareLex Component.compare := by
  funext as bs
  induction as generalizing bs with
  | nil => cases bs <;> rfl
  | cons a as ih =>
    cases bs with
    | nil => rfl
    | cons b bs =>
      rw [compareComponents, List.compareLex, ih]
      cases a.compare b <;> rfl

instance : Std.TransCmp compareComponents := compareComponents_eq_compareLex ▸ inferInstance

instance : Std.LawfulEqCmp compareComponents := compareComponents_eq_compareLex ▸ inferInstance

theorem compare_eq_iff_same {a b : Path} : a.compare b = .eq ↔ a.same b = true := by
  have lawful : compareComponents a.components b.components = .eq ↔ a.components = b.components :=
    Std.LawfulEqCmp.compare_eq_iff_eq
  rw [same_iff]
  exact lawful

theorem compare_congr_left {a b : Path} (same : a.same b = true) (c : Path) : a.compare c = b.compare c := by
  simp only [compare, same_iff.mp same]

theorem compare_congr_right {a b : Path} (same : a.same b = true) (c : Path) : c.compare a = c.compare b := by
  simp only [compare, same_iff.mp same]

theorem compare_swap (a b : Path) : a.compare b = (b.compare a).swap := by
  have oriented : compareComponents a.components b.components = (compareComponents b.components a.components).swap :=
    Std.OrientedCmp.eq_swap
  exact oriented

theorem compare_trans {a b c : Path} (first : a.compare b = .lt) (second : b.compare c = .lt) : a.compare c = .lt := by
  have onward (as bs cs : List Component) : compareComponents as bs = .lt → compareComponents bs cs = .lt →
      compareComponents as cs = .lt := Std.TransCmp.lt_trans
  exact onward _ _ _ first second

theorem compare_total (a b : Path) : (a.compare b != .gt) = true ∨ (b.compare a != .gt) = true := by
  rw [compare_swap b a]
  cases a.compare b <;> simp [Ordering.swap]

theorem compare_ne_gt_trans (a b c : Path) (first : (a.compare b != .gt) = true) (second : (b.compare c != .gt) = true) :
    (a.compare c != .gt) = true := by
  have onward (as bs cs : List Component) : (compareComponents as bs).isLE = true → (compareComponents bs cs).isLE = true →
      (compareComponents as cs).isLE = true := Std.TransCmp.isLE_trans
  have isLE_iff (order : Ordering) : (order != .gt) = order.isLE := by cases order <;> rfl
  rw [isLE_iff] at first second ⊢
  exact onward _ _ _ first second

theorem compareComponents_append (start as bs : List Component) :
    compareComponents (start ++ as) (start ++ bs) = compareComponents as bs := by
  induction start with
  | nil => rfl
  | cons component rest ih =>
    have isSame : component.compare component = .eq := Std.ReflCmp.compare_self
    rw [List.cons_append, List.cons_append, compareComponents, isSame, ih]

/-- Only one list has these paths in order. -/
theorem eq_of_pairwise_lt {paths others : List Path} (ordered : paths.Pairwise fun a b => a.compare b = .lt)
    (alsoOrdered : others.Pairwise fun a b => a.compare b = .lt) (same : ∀ path, path ∈ paths ↔ path ∈ others) :
    paths = others := by
  have irreflexive (path : Path) : path.compare path ≠ .lt := by
    rw [compare_eq_iff_same.mpr (same_refl path)]
    decide
  have distinct {all : List Path} (isOrdered : all.Pairwise fun a b => a.compare b = .lt) : all.Nodup :=
    isOrdered.imp fun {a b} (before : a.compare b = .lt) (isSame : a = b) => irreflexive a (isSame ▸ before)
  have perm : paths.Perm others := (List.perm_ext_iff_of_nodup (distinct ordered) (distinct alsoOrdered)).mpr same
  refine perm.eq_of_pairwise (fun a b _ _ before after => ?_) ordered alsoOrdered
  exact absurd (compare_trans before after) (irreflexive a)

end Path

end SiteQuery
