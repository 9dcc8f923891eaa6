import SiteQuery.Proofs.Graphql.Flattening

/-!
Merging keeps what is requested.

`Selection.Gathers` tells what a joined list owes to the list that it comes from: a selection stands for all those
that it repeats, and selects below exactly what they select.
-/

namespace SiteQuery.Graphql

namespace Selection

theorem samePlace_field_iff {alias? otherAlias? : Option String} {name otherName type otherType : String}
    {arguments otherArguments : List Argument} {directives otherDirectives : List Directive}
    {inner otherInner : List Selection} :
    samePlace (.field alias? name arguments directives type inner)
        (.field otherAlias? otherName otherArguments otherDirectives otherType otherInner) = true ↔
      responseKey alias? name = responseKey otherAlias? otherName ∧ name = otherName ∧
        sameList Argument.same arguments otherArguments = true ∧
        sameList Directive.same directives otherDirectives = true := by
  change (responseKey alias? name == responseKey otherAlias? otherName && name == otherName
    && sameList Argument.same arguments otherArguments && sameList Directive.same directives otherDirectives) = true ↔ _
  simp only [Bool.and_eq_true, beq_iff_eq, and_assoc]

theorem samePlace_spread_iff {name otherName : String} {directives otherDirectives : List Directive} :
    samePlace (.spread name directives) (.spread otherName otherDirectives) = true ↔
      name = otherName ∧ sameList Directive.same directives otherDirectives = true := by
  change (name == otherName && sameList Directive.same directives otherDirectives) = true ↔ _
  simp only [Bool.and_eq_true, beq_iff_eq]

theorem samePlace_inline_iff {condition? otherCondition? : Option String} {directives otherDirectives : List Directive}
    {inner otherInner : List Selection} :
    samePlace (.inline condition? directives inner) (.inline otherCondition? otherDirectives otherInner) = true ↔
      condition? = otherCondition? ∧ sameList Directive.same directives otherDirectives = true := by
  change (condition? == otherCondition? && sameList Directive.same directives otherDirectives) = true ↔ _
  simp only [Bool.and_eq_true, beq_iff_eq]

theorem samePlace_refl {selection : Selection} (keyed : selection.Keyed) :
    samePlace selection selection = true := by
  cases keyed with
  | field ofArguments ofDirectives _ =>
    exact samePlace_field_iff.mpr
      ⟨rfl, rfl, sameList_refl fun argument member => Argument.same_refl (ofArguments argument member),
        sameList_refl fun directive member => Directive.same_refl (ofDirectives directive member)⟩
  | spread ofDirectives =>
    exact samePlace_spread_iff.mpr
      ⟨rfl, sameList_refl fun directive member => Directive.same_refl (ofDirectives directive member)⟩
  | inline ofDirectives _ =>
    exact samePlace_inline_iff.mpr
      ⟨rfl, sameList_refl fun directive member => Directive.same_refl (ofDirectives directive member)⟩

@[simp] theorem samePlace_withSelections (first other : Selection) (inner : List Selection) :
    samePlace (first.withSelections inner) other = samePlace first other := by
  cases first <;> cases other <;> rfl

/-- Only fields and inline fragments have selections to join; spreads have none. -/
theorem selections_joined {first other : Selection} (same : samePlace first other = true) :
    (first.withSelections (first.selections ++ other.selections)).selections =
      first.selections ++ other.selections := by
  cases first with
  | field => rfl
  | spread =>
    cases other with
    | spread => rfl
    | _ => cases same
  | inline => rfl

theorem samePlace_field {alias? : Option String} {name type : String} {arguments : List Argument}
    {directives : List Directive} {inner : List Selection} {other : Selection}
    (same : samePlace (.field alias? name arguments directives type inner) other = true) :
    ∃ otherAlias? otherArguments otherDirectives otherType otherInner,
      other = .field otherAlias? name otherArguments otherDirectives otherType otherInner ∧
      responseKey alias? name = responseKey otherAlias? name ∧
      sameList Argument.same arguments otherArguments = true ∧
      sameList Directive.same directives otherDirectives = true := by
  cases other with
  | field =>
    obtain ⟨sameKey, rfl, sameArguments, sameDirectives⟩ := samePlace_field_iff.mp same
    exact ⟨_, _, _, _, _, rfl, sameKey, sameArguments, sameDirectives⟩
  | _ => cases same

theorem samePlace_spread {name : String} {directives : List Directive} {other : Selection}
    (same : samePlace (.spread name directives) other = true) :
    ∃ otherDirectives, other = .spread name otherDirectives ∧
      sameList Directive.same directives otherDirectives = true := by
  cases other with
  | spread =>
    obtain ⟨rfl, sameDirectives⟩ := samePlace_spread_iff.mp same
    exact ⟨_, rfl, sameDirectives⟩
  | _ => cases same

theorem samePlace_inline {condition? : Option String} {directives : List Directive} {inner : List Selection}
    {other : Selection} (same : samePlace (.inline condition? directives inner) other = true) :
    ∃ otherDirectives otherInner, other = .inline condition? otherDirectives otherInner ∧
      sameList Directive.same directives otherDirectives = true := by
  cases other with
  | inline =>
    obtain ⟨rfl, sameDirectives⟩ := samePlace_inline_iff.mp same
    exact ⟨_, _, rfl, sameDirectives⟩
  | _ => cases same

theorem samePlace_symm {first other : Selection} (keyed : first.Keyed) (same : samePlace first other = true) :
    samePlace other first = true := by
  cases keyed with
  | field ofArguments ofDirectives _ =>
    obtain ⟨_, _, _, _, _, rfl, sameKey, sameArguments, sameDirectives⟩ := samePlace_field same
    have backArguments :=
      sameList_symm (fun argument member _ => Argument.same_symm (ofArguments argument member)) sameArguments
    have backDirectives :=
      sameList_symm (fun directive member _ => Directive.same_symm (ofDirectives directive member)) sameDirectives
    exact samePlace_field_iff.mpr ⟨sameKey.symm, rfl, backArguments, backDirectives⟩
  | spread ofDirectives =>
    obtain ⟨_, rfl, sameDirectives⟩ := samePlace_spread same
    exact samePlace_spread_iff.mpr
      ⟨rfl, sameList_symm (fun directive member _ => Directive.same_symm (ofDirectives directive member)) sameDirectives⟩
  | inline ofDirectives _ =>
    obtain ⟨_, _, rfl, sameDirectives⟩ := samePlace_inline same
    exact samePlace_inline_iff.mpr
      ⟨rfl, sameList_symm (fun directive member _ => Directive.same_symm (ofDirectives directive member)) sameDirectives⟩

theorem Keyed.inner {selection : Selection} (keyed : selection.Keyed) :
    ∀ other ∈ selection.selections, other.Keyed := by
  cases keyed with
  | field _ _ inner => exact inner
  | spread _ => simp [selections]
  | inline _ inner => exact inner

theorem Keyed.withSelections {selection : Selection} (keyed : selection.Keyed) {inner : List Selection}
    (ofInner : ∀ other ∈ inner, other.Keyed) : (selection.withSelections inner).Keyed := by
  cases keyed with
  | field ofArguments ofDirectives _ => exact .field ofArguments ofDirectives ofInner
  | spread ofDirectives => exact .spread ofDirectives
  | inline ofDirectives _ => exact .inline ofDirectives ofInner

/-- A selection goes to the end, or to the first one that it repeats. -/
theorem join_cases (kept : List Selection) (selection : Selection) :
    join kept selection = kept ++ [selection] ∨
      ∃ before first after, kept = before ++ first :: after ∧ samePlace first selection = true ∧
        join kept selection =
          before ++ first.withSelections (first.selections ++ selection.selections) :: after := by
  induction kept with
  | nil => exact .inl rfl
  | cons first rest ih =>
    by_cases same : samePlace first selection = true
    · exact .inr ⟨[], first, rest, rfl, same, by simp [join, same]⟩
    · rcases ih with last | ⟨before, found, after, split, repeated, joined⟩
      · exact .inl (by simp [join, same, last])
      · exact .inr ⟨first :: before, found, after, by simp [split], repeated, by simp [join, same, joined]⟩

/-- `kept` stands for `all`: every selection has one that it repeats, and nothing is selected besides. -/
structure Gathers (kept all : List Selection) : Prop where
  keyed : ∀ first ∈ kept, first.Keyed
  complete : ∀ selection ∈ all, ∃ first ∈ kept, samePlace first selection = true ∧
    ∀ inner ∈ selection.selections, inner ∈ first.selections
  sound : ∀ first ∈ kept, ∃ selection ∈ all, samePlace first selection = true
  inner : ∀ first ∈ kept, ∀ inner ∈ first.selections, ∃ selection ∈ all,
    samePlace first selection = true ∧ inner ∈ selection.selections

theorem Gathers.append {kept all : List Selection} {selection : Selection} (gathers : Gathers kept all)
    (keyed : selection.Keyed) : Gathers (kept ++ [selection]) (all ++ [selection]) := by
  have itself := samePlace_refl keyed
  refine ⟨?_, ?_, ?_, ?_⟩
  · intro first member
    rcases List.mem_append.mp member with member | single
    · exact gathers.keyed first member
    · rwa [List.mem_singleton.mp single]
  · intro other member
    rcases List.mem_append.mp member with member | single
    · obtain ⟨first, inKept, same, inner⟩ := gathers.complete other member
      exact ⟨first, by simp [inKept], same, inner⟩
    · rw [List.mem_singleton.mp single]
      exact ⟨selection, by simp, itself, fun _ member => member⟩
  · intro first member
    rcases List.mem_append.mp member with member | single
    · obtain ⟨other, inAll, same⟩ := gathers.sound first member
      exact ⟨other, by simp [inAll], same⟩
    · rw [List.mem_singleton.mp single]
      exact ⟨selection, by simp, itself⟩
  · intro first member inner below
    rcases List.mem_append.mp member with member | single
    · obtain ⟨other, inAll, same, inOther⟩ := gathers.inner first member inner below
      exact ⟨other, by simp [inAll], same, inOther⟩
    · rw [List.mem_singleton.mp single] at below ⊢
      exact ⟨selection, by simp, itself, below⟩

theorem Gathers.replace {before after all : List Selection} {first selection : Selection}
    (gathers : Gathers (before ++ first :: after) all) (keyed : selection.Keyed)
    (repeated : samePlace first selection = true) :
    Gathers (before ++ first.withSelections (first.selections ++ selection.selections) :: after)
      (all ++ [selection]) := by
  have below := selections_joined repeated
  have keyedFirst := gathers.keyed first (by simp)
  have stays {other : Selection} (member : other ∈ before ++ first :: after) (different : other ≠ first) :
      other ∈ before ++ first.withSelections (first.selections ++ selection.selections) :: after := by
    simp only [List.mem_append, List.mem_cons] at member ⊢
    tauto
  have origin {other : Selection}
      (member : other ∈ before ++ first.withSelections (first.selections ++ selection.selections) :: after) :
      other = first.withSelections (first.selections ++ selection.selections) ∨
        other ∈ before ++ first :: after := by
    simp only [List.mem_append, List.mem_cons] at member ⊢
    tauto
  refine ⟨?_, ?_, ?_, ?_⟩
  · intro other member
    rcases origin member with rfl | old
    · apply keyedFirst.withSelections
      intro inner inJoined
      rcases List.mem_append.mp inJoined with inFirst | inSelection
      · exact keyedFirst.inner inner inFirst
      · exact keyed.inner inner inSelection
    · exact gathers.keyed other old
  · intro other member
    rcases List.mem_append.mp member with inAll | single
    · obtain ⟨found, inKept, same, inner⟩ := gathers.complete other inAll
      by_cases isFirst : found = first
      · subst isFirst
        exact ⟨found.withSelections (found.selections ++ selection.selections), by simp, by simpa using same,
          fun x h => by simp [below, inner x h]⟩
      · exact ⟨found, stays inKept isFirst, same, inner⟩
    · rw [List.mem_singleton.mp single]
      exact ⟨first.withSelections (first.selections ++ selection.selections), by simp,
        by simpa using repeated, fun x h => by simp [below, h]⟩
  · intro other member
    rcases origin member with rfl | old
    · exact ⟨selection, by simp, by simpa using repeated⟩
    · obtain ⟨found, inAll, same⟩ := gathers.sound other old
      exact ⟨found, by simp [inAll], same⟩
  · intro other member inner inOther
    rcases origin member with rfl | old
    · rw [below] at inOther
      rcases List.mem_append.mp inOther with inFirst | inSelection
      · obtain ⟨found, inAll, same, inFound⟩ := gathers.inner first (by simp) inner inFirst
        exact ⟨found, by simp [inAll], by simpa using same, inFound⟩
      · exact ⟨selection, by simp, by simpa using repeated, inSelection⟩
    · obtain ⟨found, inAll, same, inFound⟩ := gathers.inner other old inner inOther
      exact ⟨found, by simp [inAll], same, inFound⟩

theorem Gathers.join {kept all : List Selection} {selection : Selection} (gathers : Gathers kept all)
    (keyed : selection.Keyed) : Gathers (join kept selection) (all ++ [selection]) := by
  rcases join_cases kept selection with last | ⟨before, first, after, rfl, repeated, joined⟩
  · rw [last]
    exact gathers.append keyed
  · rw [joined]
    exact gathers.replace keyed repeated

theorem Gathers.foldl_join {kept all rest : List Selection} (gathers : Gathers kept all)
    (keyed : ∀ selection ∈ rest, selection.Keyed) : Gathers (rest.foldl Selection.join kept) (all ++ rest) := by
  induction rest generalizing kept all with
  | nil => simpa using gathers
  | cons selection rest ih =>
    rw [List.foldl_cons, List.append_cons]
    exact ih (gathers.join (keyed _ (by simp))) fun other member => keyed other (List.mem_cons_of_mem _ member)

theorem gathers_foldl_join {all : List Selection} (keyed : ∀ selection ∈ all, selection.Keyed) :
    Gathers (all.foldl join []) all := by
  have start : Gathers [] [] := ⟨by simp, by simp, by simp, by simp⟩
  simpa using start.foldl_join keyed

theorem Gathers.standIn {kept all : List Selection} {selection : Selection} (gathers : Gathers kept all)
    (member : selection ∈ all) :
    ∃ first ∈ kept, first.Keyed ∧ samePlace selection first = true ∧
      ∀ inner ∈ selection.selections, inner ∈ first.selections := by
  obtain ⟨first, inKept, same, inner⟩ := gathers.complete selection member
  have keyedFirst := gathers.keyed first inKept
  exact ⟨first, inKept, keyedFirst, samePlace_symm keyedFirst same, inner⟩

theorem mem_merge {all : List Selection} {merged : Selection} :
    merged ∈ merge all ↔
      ∃ first ∈ all.foldl join [], merged = first.withSelections (merge first.selections) := by
  rw [merge]
  simp [eq_comm]

end Selection

theorem Step.Fits.of_same {step : Step} {alias? otherAlias? : Option String} {name : String}
    {arguments otherArguments : List Argument} (fits : step.Fits alias? name arguments)
    (sameKey : Selection.responseKey alias? name = Selection.responseKey otherAlias? name)
    (same : sameList Argument.same arguments otherArguments = true) :
    step.Fits otherAlias? name otherArguments :=
  ⟨fits.1.trans sameKey, fits.2.1,
    sameList_trans (fun _ _ _ _ => Argument.same_trans) fits.2.2 same⟩

namespace Selects

open Selection

variable {Object : Type} {context : Context} {scenario : Scenario Object} {position path : List Step}
  {last : Selection}

theorem merge {selections : List Selection} (keyedContext : context.Keyed)
    (selected : Selects context scenario position selections path last) {others : List Selection}
    (keyed : ∀ selection ∈ others, selection.Keyed)
    (included : ∀ selection ∈ selections, selection ∈ others) :
    ∃ field, Selects context.merge scenario position (Selection.merge others) path field := by
  induction selected generalizing others with
  | field member permitted fits =>
    obtain ⟨first, inKept, keyedFirst, same, -⟩ := (gathers_foldl_join keyed).standIn (included _ member)
    obtain ⟨_, _, _, _, _, rfl, sameKey, sameArguments, sameDirectives⟩ := samePlace_field same
    have permittedFirst :=
      scenario.permits_of_same (keyed _ (included _ member)).directives keyedFirst.directives sameDirectives permitted
    exact ⟨_, .field (mem_merge.mpr ⟨_, inKept, rfl⟩) permittedFirst (fits.of_same sameKey sameArguments)⟩
  | within member permitted fits _ ih =>
    obtain ⟨first, inKept, keyedFirst, same, inner⟩ := (gathers_foldl_join keyed).standIn (included _ member)
    obtain ⟨_, _, _, _, _, rfl, sameKey, sameArguments, sameDirectives⟩ := samePlace_field same
    have permittedFirst :=
      scenario.permits_of_same (keyed _ (included _ member)).directives keyedFirst.directives sameDirectives permitted
    obtain ⟨field, onward⟩ := ih keyedFirst.inner inner
    exact ⟨field, .within (mem_merge.mpr ⟨_, inKept, rfl⟩) permittedFirst
      (fits.of_same sameKey sameArguments) onward⟩
  | inline member permitted met _ ih =>
    obtain ⟨first, inKept, keyedFirst, same, inner⟩ := (gathers_foldl_join keyed).standIn (included _ member)
    obtain ⟨_, _, rfl, sameDirectives⟩ := samePlace_inline same
    have permittedFirst :=
      scenario.permits_of_same (keyed _ (included _ member)).directives keyedFirst.directives sameDirectives permitted
    obtain ⟨field, onward⟩ := ih keyedFirst.inner inner
    exact ⟨field, .inline (mem_merge.mpr ⟨_, inKept, rfl⟩) permittedFirst met onward⟩
  | @spread _ _ _ name _ _ fragment member permitted found met _ ih =>
    obtain ⟨first, inKept, keyedFirst, same, -⟩ := (gathers_foldl_join keyed).standIn (included _ member)
    obtain ⟨_, rfl, sameDirectives⟩ := samePlace_spread same
    have permittedFirst :=
      scenario.permits_of_same (keyed _ (included _ member)).directives keyedFirst.directives sameDirectives permitted
    obtain ⟨field, onward⟩ := ih (keyedContext.fragment found) fun _ inFragment => inFragment
    have merged := context.fragment?_merge name ▸ congrArg (Option.map _) found
    exact ⟨field, .spread (mem_merge.mpr ⟨_, inKept, rfl⟩) permittedFirst merged met onward⟩

/-- What leads on below a kept selection leads on below one of those that it stands for. -/
theorem of_inner {kept all : List Selection} {first : Selection} (gathers : Gathers kept all)
    (member : first ∈ kept) (selected : Selects context scenario position first.selections path last) :
    ∃ selection ∈ all, samePlace first selection = true ∧
      Selects context scenario position selection.selections path last := by
  obtain ⟨inner, inFirst, alone⟩ := selected.single
  obtain ⟨selection, inAll, same, inSelection⟩ := gathers.inner first member inner inFirst
  exact ⟨selection, inAll, same, alone.mono fun other single => (List.mem_singleton.mp single) ▸ inSelection⟩

theorem of_merge {merged : List Selection} (keyedContext : context.Keyed)
    (selected : Selects context.merge scenario position merged path last) {selections : List Selection}
    (keyed : ∀ selection ∈ selections, selection.Keyed) (origin : merged = Selection.merge selections) :
    ∃ field, Selects context scenario position selections path field := by
  induction selected generalizing selections with
  | field member permitted fits =>
    have gathers := gathers_foldl_join keyed
    obtain ⟨first, inKept, shape⟩ := mem_merge.mp (origin ▸ member)
    obtain ⟨selection, inAll, same⟩ := gathers.sound first inKept
    have keyedFirst := gathers.keyed first inKept
    cases first with
    | field =>
      cases shape
      obtain ⟨_, _, _, _, _, rfl, sameKey, sameArguments, sameDirectives⟩ := samePlace_field same
      have permittedHere :=
        scenario.permits_of_same keyedFirst.directives (keyed _ inAll).directives sameDirectives permitted
      exact ⟨_, .field inAll permittedHere (fits.of_same sameKey sameArguments)⟩
    | _ => cases shape
  | within member permitted fits _ ih =>
    have gathers := gathers_foldl_join keyed
    obtain ⟨first, inKept, shape⟩ := mem_merge.mp (origin ▸ member)
    have keyedFirst := gathers.keyed first inKept
    cases first with
    | field =>
      cases shape
      obtain ⟨field, below⟩ := ih keyedFirst.inner rfl
      obtain ⟨selection, inAll, same, onward⟩ := of_inner gathers inKept below
      obtain ⟨_, _, _, _, _, rfl, sameKey, sameArguments, sameDirectives⟩ := samePlace_field same
      have permittedHere :=
        scenario.permits_of_same keyedFirst.directives (keyed _ inAll).directives sameDirectives permitted
      exact ⟨field, .within inAll permittedHere (fits.of_same sameKey sameArguments) onward⟩
    | _ => cases shape
  | inline member permitted met _ ih =>
    have gathers := gathers_foldl_join keyed
    obtain ⟨first, inKept, shape⟩ := mem_merge.mp (origin ▸ member)
    have keyedFirst := gathers.keyed first inKept
    cases first with
    | inline =>
      cases shape
      obtain ⟨field, below⟩ := ih keyedFirst.inner rfl
      obtain ⟨selection, inAll, same, onward⟩ := of_inner gathers inKept below
      obtain ⟨_, _, rfl, sameDirectives⟩ := samePlace_inline same
      have permittedHere :=
        scenario.permits_of_same keyedFirst.directives (keyed _ inAll).directives sameDirectives permitted
      exact ⟨field, .inline inAll permittedHere met onward⟩
    | _ => cases shape
  | spread member permitted found met _ ih =>
    have gathers := gathers_foldl_join keyed
    obtain ⟨first, inKept, shape⟩ := mem_merge.mp (origin ▸ member)
    obtain ⟨selection, inAll, same⟩ := gathers.sound first inKept
    have keyedFirst := gathers.keyed first inKept
    cases first with
    | spread =>
      cases shape
      rw [context.fragment?_merge, Option.map_eq_some_iff] at found
      obtain ⟨fragment, foundBefore, rfl⟩ := found
      obtain ⟨field, onward⟩ := ih (keyedContext.fragment foundBefore) rfl
      obtain ⟨_, rfl, sameDirectives⟩ := samePlace_spread same
      have permittedHere :=
        scenario.permits_of_same keyedFirst.directives (keyed _ inAll).directives sameDirectives permitted
      exact ⟨field, .spread inAll permittedHere foundBefore met onward⟩
    | _ => cases shape

end Selects

namespace Context

theorem get?_merge_root {context : Context} {name : String} {root : Root}
    (found : context.get? name = some (.root root)) :
    context.merge.get? name = some (.root { root with selections := Selection.merge root.selections }) := by
  rw [merge, get?_map (by simp), found]
  rfl

theorem requests_merge_iff {Object : Type} {context : Context} {scenario : Scenario Object} {root : Root}
    {name : String} {path : List Step} (keyed : context.Keyed) (found : context.get? name = some (.root root)) :
    context.merge.Requests scenario name path ↔ context.Requests scenario name path := by
  have keyedRoot : ∀ selection ∈ root.selections, selection.Keyed := keyed _ (mem_of_get? found).1
  constructor
  · rintro ⟨merged, last, foundMerged, selected⟩
    rw [get?_merge_root found] at foundMerged
    cases foundMerged
    obtain ⟨field, before⟩ := selected.of_merge keyed keyedRoot rfl
    exact ⟨root, field, found, before⟩
  · rintro ⟨other, last, foundOther, selected⟩
    rw [found] at foundOther
    cases foundOther
    obtain ⟨field, after⟩ := selected.merge keyed keyedRoot fun _ member => member
    exact ⟨_, field, get?_merge_root found, after⟩

end Context

end SiteQuery.Graphql
