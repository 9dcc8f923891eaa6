import SiteQuery.Proofs.Graphql.Merging

/-!
Properties of selections at every depth, and what becomes of them in the normal form.

`Throughout` takes the type that applies along, and the number of levels that are left. Flattening and merging keep a
property that does not look below a selection, and add another one: nothing is superfluous, and nothing repeats. So the
normal form of a normal form is the normal form.
-/

namespace SiteQuery.Graphql.Selection

/-- The type that the selections below apply to. -/
def typeBelow (parent : String) : Selection → String
  | field _ _ _ _ type _ => type
  | spread _ _ => parent
  | inline condition? _ _ => condition?.getD parent

def isInline : Selection → Bool
  | inline _ _ _ => true
  | _ => false

def isSuperfluousAt (parent : String) : Selection → Bool
  | inline condition? directives _ => isSuperfluous parent condition? directives
  | _ => false

/-- The property holds of the selection and of all below it, none of the inline fragments is empty, and there are no
more levels of sets than `depth`. -/
inductive Throughout (holds : String → Selection → Prop) : Nat → String → Selection → Prop
  | intro {depth parent selection} (here : holds parent selection)
      (filled : selection.isInline = true → selection.selections ≠ []) (deep : selection.selections ≠ [] → 0 < depth)
      (below : ∀ inner ∈ selection.selections, Throughout holds (depth - 1) (selection.typeBelow parent) inner) :
      Throughout holds depth parent selection

/-- The property does not look below a selection, and settles the type there. -/
structure IsLocal (holds : String → Selection → Prop) : Prop where
  withSelections {parent selection} (inner : List Selection) :
    holds parent selection → holds parent (selection.withSelections inner)
  typeBelow {parent first other} : holds parent first → holds parent other → samePlace first other = true →
    first.typeBelow parent = other.typeBelow parent

def Settled (holds : String → Selection → Prop) (parent : String) (selection : Selection) : Prop :=
  holds parent selection ∧ selection.isSuperfluousAt parent = false

section WithSelections

variable (parent : String) (selection : Selection) (inner : List Selection)

@[simp] theorem typeBelow_withSelections :
    (selection.withSelections inner).typeBelow parent = selection.typeBelow parent := by
  cases selection <;> rfl

@[simp] theorem isInline_withSelections : (selection.withSelections inner).isInline = selection.isInline := by
  cases selection <;> rfl

@[simp] theorem isSuperfluousAt_withSelections :
    (selection.withSelections inner).isSuperfluousAt parent = selection.isSuperfluousAt parent := by
  cases selection <;> rfl

@[simp] theorem samePlace_withSelections_right (first : Selection) :
    samePlace first (selection.withSelections inner) = samePlace first selection := by
  cases first <;> cases selection <;> rfl

@[simp] theorem withSelections_withSelections (others : List Selection) :
    (selection.withSelections others).withSelections inner = selection.withSelections inner := by
  cases selection <;> rfl

theorem withSelections_selections : selection.withSelections selection.selections = selection := by
  cases selection <;> rfl

/-- Only spreads do not take what is put below them. -/
theorem selections_withSelections_cases : (selection.withSelections inner).selections = inner ∨
    selection.selections = [] ∧ (selection.withSelections inner).selections = [] := by
  cases selection with
  | field => exact .inl rfl
  | spread => exact .inr ⟨rfl, rfl⟩
  | inline => exact .inl rfl

end WithSelections

variable {holds : String → Selection → Prop} {depth : Nat} {parent : String} {selection : Selection}

theorem IsLocal.settled (isLocal : IsLocal holds) : IsLocal (Settled holds) where
  withSelections inner settled := ⟨isLocal.withSelections inner settled.1, by simpa using settled.2⟩
  typeBelow ofFirst ofOther same := isLocal.typeBelow ofFirst.1 ofOther.1 same

namespace Throughout

theorem here (throughout : Throughout holds depth parent selection) : holds parent selection := by
  cases throughout
  assumption

theorem of_empty (here : holds parent selection) (notInline : selection.isInline = false)
    (empty : selection.selections = []) : Throughout holds depth parent selection := by
  refine .intro here ?_ (absurd empty) ?_
  · rw [notInline]
    exact fun isInline => absurd isInline Bool.false_ne_true
  · rw [empty]
    exact fun inner member => absurd member List.not_mem_nil

theorem more (throughout : Throughout holds depth parent selection) {larger : Nat} (isLarger : depth ≤ larger) :
    Throughout holds larger parent selection := by
  induction throughout generalizing larger with
  | intro here filled deep _ ih =>
    exact .intro here filled (fun notEmpty => Nat.lt_of_lt_of_le (deep notEmpty) isLarger)
      fun inner member => ih inner member (Nat.sub_le_sub_right isLarger 1)

theorem imp {other : String → Selection → Prop} (throughout : Throughout holds depth parent selection)
    (implies : ∀ parent selection, holds parent selection → other parent selection) :
    Throughout other depth parent selection := by
  induction throughout with
  | intro here filled deep _ ih => exact .intro (implies _ _ here) filled deep ih

theorem of_settled (throughout : Throughout (Settled holds) depth parent selection) :
    Throughout holds depth parent selection :=
  throughout.imp fun _ _ settled => settled.1

/-- Below a selection there may be others instead, if there are any. -/
theorem rebuilt {other : String → Selection → Prop} (throughout : Throughout other depth parent selection)
    {inner : List Selection} (here : holds parent (selection.withSelections inner))
    (sameEmpty : inner = [] ↔ selection.selections = [])
    (below : ∀ found ∈ inner, Throughout holds (depth - 1) (selection.typeBelow parent) found) :
    Throughout holds depth parent (selection.withSelections inner) := by
  have same : (selection.withSelections inner).selections = inner := by
    rcases selections_withSelections_cases selection inner with same | ⟨empty, alsoEmpty⟩
    · exact same
    · rw [alsoEmpty, sameEmpty.mpr empty]
  cases throughout with
  | intro _ filled deep _ =>
    refine .intro here ?_ ?_ ?_
    · intro isInline
      rw [same, Ne, sameEmpty]
      exact filled (by simpa using isInline)
    · intro notEmpty
      rw [same, Ne, sameEmpty] at notEmpty
      exact deep notEmpty
    · rw [same, typeBelow_withSelections]
      exact below

end Throughout

section Flattening

/-- A superfluous inline fragment applies to the type of its place. -/
theorem flatten_of_superfluous (superfluous : selection.isSuperfluousAt parent = true) :
    selection.typeBelow parent = parent ∧ flatten parent selection = flattenAll parent selection.selections := by
  cases selection with
  | field => cases superfluous
  | spread => cases superfluous
  | inline condition? directives inner =>
    have isSuperfluous : isSuperfluous parent condition? directives = true := superfluous
    refine ⟨?_, by rw [flatten, if_pos isSuperfluous]; rfl⟩
    cases condition? with
    | none => rfl
    | some condition => exact (isSuperfluous_iff.mp isSuperfluous).2 condition rfl

theorem flatten_of_needed (needed : selection.isSuperfluousAt parent = false) : flatten parent selection =
    [selection.withSelections (flattenAll (selection.typeBelow parent) selection.selections)] := by
  cases selection with
  | field => rfl
  | spread => rfl
  | inline condition? directives inner =>
    have isNeeded : isSuperfluous parent condition? directives = false := needed
    rw [flatten, isNeeded]
    rfl

theorem flattenAll_eq_nil_iff {selections : List Selection}
    (each : ∀ selection ∈ selections, flatten parent selection ≠ []) :
    flattenAll parent selections = [] ↔ selections = [] := by
  cases selections with
  | nil => exact Iff.rfl
  | cons first rest =>
    rw [flattenAll, List.append_eq_nil_iff]
    exact iff_of_false (fun empty => each first List.mem_cons_self empty.1) (List.cons_ne_nil _ _)

/-- Every selection leaves something, and nothing superfluous. -/
theorem Throughout.flatten (isLocal : IsLocal holds) (throughout : Throughout holds depth parent selection) :
    Selection.flatten parent selection ≠ [] ∧
      ∀ flattened ∈ Selection.flatten parent selection, Throughout (Settled holds) depth parent flattened := by
  have whole := throughout
  induction throughout with
  | @intro depth parent selection here filled _ below ih =>
    have eachBelow : ∀ inner ∈ selection.selections, Selection.flatten (selection.typeBelow parent) inner ≠ [] :=
      fun inner member => (ih inner member (below inner member)).1
    have allBelow : ∀ flattened ∈ flattenAll (selection.typeBelow parent) selection.selections,
        Throughout (Settled holds) (depth - 1) (selection.typeBelow parent) flattened := by
      intro flattened member
      obtain ⟨inner, isInner, inFlatten⟩ := mem_flattenAll.mp member
      exact (ih inner isInner (below inner isInner)).2 flattened inFlatten
    cases superfluous : selection.isSuperfluousAt parent with
    | true =>
      obtain ⟨sameType, flattened⟩ := flatten_of_superfluous superfluous
      rw [sameType] at eachBelow allBelow
      have isInline : selection.isInline = true := by
        cases selection <;> first | rfl | cases superfluous
      rw [flattened, Ne, flattenAll_eq_nil_iff eachBelow]
      exact ⟨filled isInline, fun found member => (allBelow found member).more (Nat.sub_le depth 1)⟩
    | false =>
      rw [flatten_of_needed superfluous]
      refine ⟨List.cons_ne_nil _ _, fun found member => List.mem_singleton.mp member ▸ ?_⟩
      exact whole.rebuilt ⟨isLocal.withSelections _ here, by simpa using superfluous⟩ (flattenAll_eq_nil_iff eachBelow)
        allBelow

/-- Nothing is left to flatten. -/
theorem Throughout.flatten_eq (throughout : Throughout (Settled holds) depth parent selection) :
    Selection.flatten parent selection = [selection] := by
  induction throughout with
  | @intro depth parent selection here _ _ _ ih =>
    have same : flattenAll (selection.typeBelow parent) selection.selections = selection.selections := by
      rw [flattenAll_eq, List.flatMap_congr ih]
      exact List.flatMap_singleton' _
    rw [flatten_of_needed here.2, same, withSelections_selections]

theorem flattenAll_of_settled {selections : List Selection}
    (settled : ∀ selection ∈ selections, Throughout (Settled holds) depth parent selection) :
    flattenAll parent selections = selections := by
  rw [flattenAll_eq, List.flatMap_congr fun selection member => (settled selection member).flatten_eq]
  exact List.flatMap_singleton' _

end Flattening

section Merging

theorem join_ne_nil (kept : List Selection) (selection : Selection) : join kept selection ≠ [] := by
  rcases join_cases kept selection with last | ⟨before, first, after, _, _, joined⟩
  · simp [last]
  · simp [joined]

theorem foldl_join_eq_nil_iff {kept all : List Selection} : all.foldl join kept = [] ↔ kept = [] ∧ all = [] := by
  induction all generalizing kept with
  | nil => simp
  | cons first rest ih => simp [ih, join_ne_nil]

theorem merge_eq_map (all : List Selection) :
    merge all = (all.foldl join []).map fun selection => selection.withSelections (merge selection.selections) := by
  rw [merge]
  simp

theorem merge_eq_nil_iff {all : List Selection} : merge all = [] ↔ all = [] := by
  rw [merge_eq_map, List.map_eq_nil_iff, foldl_join_eq_nil_iff]
  exact and_iff_right rfl

/-- What two selections of one place pass on to the selection that joins them holds of all that are kept. -/
theorem forall_foldl_join {holds : Selection → Prop}
    (joined : ∀ first other, samePlace first other = true → holds first → holds other →
      holds (first.withSelections (first.selections ++ other.selections)))
    {kept all : List Selection} (ofKept : ∀ selection ∈ kept, holds selection)
    (ofAll : ∀ selection ∈ all, holds selection) : ∀ selection ∈ all.foldl join kept, holds selection := by
  induction all generalizing kept with
  | nil => exact ofKept
  | cons next rest ih =>
    obtain ⟨ofNext, ofRest⟩ := List.forall_mem_cons.mp ofAll
    refine ih ?_ ofRest
    rcases join_cases kept next with last | ⟨before, first, after, rfl, same, isJoined⟩
    · rw [last, List.forall_mem_append]
      exact ⟨ofKept, List.forall_mem_singleton.mpr ofNext⟩
    · rw [List.forall_mem_append, List.forall_mem_cons] at ofKept
      rw [isJoined, List.forall_mem_append, List.forall_mem_cons]
      exact ⟨ofKept.1, joined first next same ofKept.2.1 ofNext, ofKept.2.2⟩

theorem Throughout.joined (isLocal : IsLocal holds) {first other : Selection} (same : samePlace first other = true)
    (ofFirst : Throughout holds depth parent first) (ofOther : Throughout holds depth parent other) :
    Throughout holds depth parent (first.withSelections (first.selections ++ other.selections)) := by
  have sameType := isLocal.typeBelow ofFirst.here ofOther.here same
  cases ofFirst with
  | intro here filled deep below =>
    cases ofOther with
    | intro otherHere otherFilled otherDeep otherBelow =>
      refine .intro (isLocal.withSelections _ here) ?_ ?_ ?_
      · intro isInline
        rw [selections_joined same, Ne, List.append_eq_nil_iff]
        exact fun empty => filled (by simpa using isInline) empty.1
      · intro notEmpty
        rw [selections_joined same, Ne, List.append_eq_nil_iff, not_and_or] at notEmpty
        exact notEmpty.elim deep otherDeep
      · rw [selections_joined same, typeBelow_withSelections, List.forall_mem_append]
        exact ⟨below, sameType ▸ otherBelow⟩

theorem Throughout.merge (isLocal : IsLocal holds) {all : List Selection}
    (throughout : ∀ selection ∈ all, Throughout holds depth parent selection) :
    ∀ merged ∈ Selection.merge all, Throughout holds depth parent merged := by
  induction all using Selection.merge.induct generalizing depth parent with
  | case1 all ih =>
    have ofKept : ∀ first ∈ all.foldl join [], Throughout holds depth parent first :=
      forall_foldl_join (fun _ _ same ofFirst ofOther => ofFirst.joined isLocal same ofOther) (by simp) throughout
    intro merged member
    obtain ⟨first, inKept, rfl⟩ := mem_merge.mp member
    have ofFirst := ofKept first inKept
    refine ofFirst.rebuilt (isLocal.withSelections _ ofFirst.here) merge_eq_nil_iff ?_
    cases ofFirst with
    | intro _ _ _ below => exact ih first inKept below

/-- No selection repeats one before it. -/
def Apart (selections : List Selection) : Prop := selections.Pairwise fun a b => samePlace a b = false

theorem join_of_apart {kept : List Selection} {selection : Selection}
    (apart : ∀ first ∈ kept, samePlace first selection = false) : join kept selection = kept ++ [selection] := by
  induction kept with
  | nil => rfl
  | cons first rest ih =>
    obtain ⟨fromFirst, fromRest⟩ := List.forall_mem_cons.mp apart
    rw [join, fromFirst, ih fromRest]
    rfl

theorem Apart.join {kept : List Selection} (apart : Apart kept) (selection : Selection) : Apart (join kept selection) := by
  induction kept with
  | nil => exact List.pairwise_singleton _ _
  | cons first rest ih =>
    obtain ⟨fromFirst, restApart⟩ := List.pairwise_cons.mp apart
    rw [Selection.join]
    split
    · exact List.pairwise_cons.mpr ⟨by simpa using fromFirst, restApart⟩
    · rename_i differs
      refine List.pairwise_cons.mpr ⟨?_, ih restApart⟩
      intro other member
      rcases join_cases rest selection with last | ⟨before, found, after, rfl, _, joined⟩
      · rw [last, List.mem_append, List.mem_singleton] at member
        rcases member with inRest | rfl
        · exact fromFirst other inRest
        · exact Bool.eq_false_iff.mpr differs
      · rw [joined, List.mem_append, List.mem_cons] at member
        rcases member with inBefore | rfl | inAfter
        · exact fromFirst other (by simp [inBefore])
        · simpa using fromFirst found (by simp)
        · exact fromFirst other (by simp [inAfter])

theorem apart_foldl_join {kept : List Selection} (apart : Apart kept) (all : List Selection) :
    Apart (all.foldl join kept) := by
  induction all generalizing kept with
  | nil => exact apart
  | cons selection rest ih => exact ih (apart.join selection)

theorem apart_merge (all : List Selection) : Apart (merge all) := by
  rw [merge_eq_map, Apart, List.pairwise_map]
  simp only [samePlace_withSelections, samePlace_withSelections_right]
  exact apart_foldl_join List.Pairwise.nil all

/-- Where nothing repeats, nothing is joined. -/
theorem foldl_join_of_apart {kept all : List Selection} (apart : Apart (kept ++ all)) :
    all.foldl join kept = kept ++ all := by
  induction all generalizing kept with
  | nil => simp
  | cons selection rest ih =>
    have fromKept : ∀ first ∈ kept, samePlace first selection = false :=
      fun first member => (List.pairwise_append.mp apart).2.2 first member selection List.mem_cons_self
    rw [List.foldl_cons, join_of_apart fromKept, ih (by simpa using apart)]
    simp

theorem merge_merge (all : List Selection) : merge (merge all) = merge all := by
  induction all using Selection.merge.induct with
  | case1 all ih =>
    have kept : (merge all).foldl join [] = merge all := foldl_join_of_apart (apart_merge all)
    conv_lhs => rw [merge_eq_map, kept]
    refine (List.map_congr_left fun merged member => ?_).trans (List.map_id _)
    obtain ⟨first, inKept, rfl⟩ := mem_merge.mp member
    have belowFirst : merge (first.withSelections (merge first.selections)).selections = merge first.selections := by
      rcases selections_withSelections_cases first (merge first.selections) with same | ⟨empty, alsoEmpty⟩
      · rw [same, ih first inKept]
      · rw [alsoEmpty, empty]
    rw [belowFirst, withSelections_withSelections, id]

end Merging

section Normal

variable {all : List Selection}

theorem normal_ne_nil (isLocal : IsLocal holds) (notEmpty : all ≠ [])
    (throughout : ∀ selection ∈ all, Throughout holds depth parent selection) : merge (flattenAll parent all) ≠ [] := by
  rw [Ne, merge_eq_nil_iff]
  rw [flattenAll_eq_nil_iff fun selection member => ((throughout selection member).flatten isLocal).1]
  exact notEmpty

theorem throughout_normal (isLocal : IsLocal holds)
    (throughout : ∀ selection ∈ all, Throughout holds depth parent selection) :
    ∀ selection ∈ merge (flattenAll parent all), Throughout (Settled holds) depth parent selection := by
  refine Throughout.merge isLocal.settled fun flattened member => ?_
  obtain ⟨selection, inAll, inFlatten⟩ := mem_flattenAll.mp member
  exact ((throughout selection inAll).flatten isLocal).2 flattened inFlatten

/-- The normal form stays as it is. -/
theorem normal_normal (isLocal : IsLocal holds)
    (throughout : ∀ selection ∈ all, Throughout holds depth parent selection) :
    merge (flattenAll parent (merge (flattenAll parent all))) = merge (flattenAll parent all) := by
  rw [flattenAll_of_settled (throughout_normal isLocal throughout), merge_merge]

end Normal

end SiteQuery.Graphql.Selection
