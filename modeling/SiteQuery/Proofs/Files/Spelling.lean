import Mathlib.Data.List.Basic
import Mathlib.Data.List.DropRight
import SiteQuery.Path

/-!
How paths are spelled: pieces between separators.

A path that ends in a name has a parent, and what is joined to that parent has the pieces that lead there, but for
padding before the name: `Path.exists_parent`.
-/

namespace SiteQuery.Path

/-- The pieces between separators. -/
def parts (path : Path) : List (List Char) := path.text.toList.splitOn '/'

/-- A name that a directory can have for an entry. -/
structure IsFileName (name : String) : Prop where
  isWhole : '/' ∉ name.toList
  isComponent : componentOf name.toList = some (.name name)

instance (name : String) : Decidable (IsFileName name) :=
  decidable_of_iff ('/' ∉ name.toList ∧ componentOf name.toList = some (.name name))
    ⟨fun ⟨isWhole, isComponent⟩ => ⟨isWhole, isComponent⟩, fun isFileName => ⟨isFileName.isWhole, isFileName.isComponent⟩⟩

def isPadding (piece : List Char) : Bool := (componentOf piece).isNone

variable {path base : Path} {name child directory : String} {before : List (List Char)}

theorem pieces_eq_splitOn (text : List Char) : pieces [] text = text.splitOn '/' := by
  have ofCurrent (current : List Char) : pieces current text = List.splitOnPPrepend (· == '/') text current := by
    induction text generalizing current with
    | nil => rfl
    | cons c rest ih =>
      rw [pieces, List.splitOnPPrepend_cons_eq_if, ih, ih]
      by_cases isSeparator : c = '/' <;> simp [isSeparator]
  exact ofCurrent []

theorem pieces_eq_parts (path : Path) : pieces [] path.text.toList = path.parts := pieces_eq_splitOn _

theorem not_mem_of_mem_splitOn {text piece : List Char} (member : piece ∈ text.splitOn '/') : '/' ∉ piece := by
  induction text generalizing piece with
  | nil =>
    obtain rfl : piece = [] := by simpa using member
    exact List.not_mem_nil
  | cons c rest ih =>
    rw [List.splitOn_cons_eq_if_modifyHead] at member
    by_cases isSeparator : (c == '/') = true
    · rw [if_pos isSeparator] at member
      rcases List.mem_cons.mp member with rfl | inRest
      · exact List.not_mem_nil
      · exact ih inRest
    · rw [if_neg isSeparator] at member
      obtain ⟨first, others, split⟩ := List.exists_cons_of_ne_nil (List.splitOn_ne_nil '/' rest)
      rw [split, List.modifyHead_cons] at member
      rcases List.mem_cons.mp member with rfl | inOthers
      · have apart : '/' ≠ c := fun same => isSeparator (beq_iff_eq.mpr same.symm)
        exact List.not_mem_cons_of_ne_of_not_mem apart (ih (split ▸ List.mem_cons_self))
      · exact ih (split ▸ List.mem_cons_of_mem _ inOthers)

theorem not_mem_of_mem_parts {piece : List Char} (member : piece ∈ path.parts) : '/' ∉ piece :=
  not_mem_of_mem_splitOn member

theorem parts_separated {pieces : List (List Char)} (notEmpty : pieces ≠ []) (whole : ∀ piece ∈ pieces, '/' ∉ piece) :
    (⟨separated pieces⟩ : Path).parts = pieces := by
  rw [parts, separated, String.toList_ofList]
  exact List.splitOn_intercalate '/' whole notEmpty

theorem isAbsolute_iff : path.isAbsolute = true ↔ path.parts.head? = some [] ∧ path.parts ≠ [[]] := by
  rw [isAbsolute, parts]
  cases path.text.toList with
  | nil => simp
  | cons c rest =>
    obtain ⟨first, others, split⟩ := List.exists_cons_of_ne_nil (List.splitOn_ne_nil '/' rest)
    rw [List.splitOn_cons_eq_if_modifyHead, split]
    by_cases isSeparator : c = '/' <;> simp [isSeparator]

theorem notAbsolute_of_isFileName (isFileName : IsFileName child) : isAbsolute ⟨child⟩ = false := by
  rw [isAbsolute, beq_eq_false_iff_ne]
  intro isSeparator
  exact isFileName.isWhole (List.mem_of_mem_head? isSeparator)

/-- A path without a separator at its end gets one before what is joined to it. -/
theorem parts_join (isFileName : IsFileName child) (ends : base.parts.getLast? ≠ some []) :
    (base.join ⟨child⟩).parts = base.parts ++ [child.toList] := by
  have notEmpty : base.text.isEmpty = false := by
    rw [Bool.eq_false_iff]
    intro isEmpty
    rw [String.isEmpty_iff] at isEmpty
    simp [parts, isEmpty] at ends
  have notSeparated : (base.text.toList.getLast? == some '/') = false := by
    rw [beq_eq_false_iff_ne]
    intro isSeparator
    obtain ⟨start, text⟩ := List.getLast?_eq_some_iff.mp isSeparator
    rw [parts, text, List.splitOn_append_cons_self, List.splitOn_nil] at ends
    simp at ends
  rw [join, notAbsolute_of_isFileName isFileName, notEmpty, notSeparated]
  simp [parts, List.splitOn_append_cons_self, List.splitOn_eq_singleton isFileName.isWhole]

theorem parts_join_root (isFileName : IsFileName child) : ((⟨"/"⟩ : Path).join ⟨child⟩).parts = [[], child.toList] := by
  have afterRoot := List.splitOn_append_cons_self (a := '/') [] child.toList
  rw [join, notAbsolute_of_isFileName isFileName]
  simpa [parts, List.splitOn_eq_singleton isFileName.isWhole] using afterRoot

theorem IsFileName.ne_nil (isFileName : IsFileName name) : name.toList ≠ [] := by
  intro isEmpty
  have isComponent := isFileName.isComponent
  simp [isEmpty, componentOf] at isComponent

theorem text_ne_empty (parts : path.parts = before ++ [name.toList]) (isFileName : IsFileName name) :
    path.text.isEmpty = false := by
  rw [Bool.eq_false_iff]
  intro isEmpty
  rw [String.isEmpty_iff] at isEmpty
  rw [Path.parts, isEmpty, String.toList_empty, List.splitOn_nil, List.singleton_eq_append_iff] at parts
  rcases parts with ⟨-, isName⟩ | ⟨-, impossible⟩
  · exact isFileName.ne_nil (List.singleton_injective isName)
  · exact absurd impossible (List.cons_ne_nil _ _)

theorem padding_cases {piece : List Char} (padding : isPadding piece = true) : piece = [] ∨ piece = ['.'] := by
  unfold isPadding componentOf at padding
  split at padding
  · rename_i isEmpty
    rcases Bool.or_eq_true_iff.mp isEmpty with isNil | isCurrent
    · exact .inl (List.isEmpty_iff.mp isNil)
    · exact .inr (beq_iff_eq.mp isCurrent)
  · split at padding <;> cases padding

theorem exists_of_componentOf {piece : List Char} {component : Component}
    (isComponent : componentOf piece = some component) :
    component = .parent ∨ ∃ name, component = .name name := by
  unfold componentOf at isComponent
  split at isComponent
  · cases isComponent
  · split at isComponent <;> cases isComponent
    · exact .inl rfl
    · exact .inr ⟨_, rfl⟩

theorem componentOf_of_length {piece : List Char} (long : 2 < piece.length) :
    componentOf piece = some (.name (String.ofList piece)) := by
  rcases piece with _ | ⟨a, _ | ⟨b, _ | ⟨c, rest⟩⟩⟩
  · exact absurd long (by decide)
  · simp at long
  · simp at long
  · simp [componentOf]

theorem toList_of_componentOf {piece : List Char} (isName : componentOf piece = some (.name name)) :
    name.toList = piece := by
  unfold componentOf at isName
  split at isName
  · cases isName
  · split at isName
    · cases isName
    · simp only [Option.some.injEq, Component.name.injEq] at isName
      rw [← isName, String.toList_ofList]

/-- The components that a path has before its pieces. -/
def startOf (path : Path) : List Component :=
  if path.isAbsolute then [.root] else if path.parts.head? == some ['.'] then [.current] else []

theorem components_eq (path : Path) : path.components = path.startOf ++ path.parts.filterMap componentOf := by
  rw [components, pieces_eq_parts]
  rfl

theorem mem_components {piece : List Char} {component : Component} (member : piece ∈ path.parts)
    (isComponent : componentOf piece = some component) : component ∈ path.components := by
  rw [components_eq]
  exact List.mem_append_right _ (List.mem_filterMap.mpr ⟨piece, member, isComponent⟩)

/-- How the parent is spelled, by the components before the last one. -/
def parentText : List Component → String → String
  | [], _ => ""
  | [.root], _ => "/"
  | [.current], _ => "."
  | _, text => text

theorem parent?_of_components {start : List Component} (ends : path.components = start ++ [.name name]) :
    path.parent? = some ⟨parentText start
      (separated (((path.parts.reverse.dropWhile isPadding).drop 1).dropWhile isPadding).reverse)⟩ := by
  unfold parent?
  rw [ends, List.dropLast_concat, List.getLast?_concat, pieces_eq_parts]
  rcases start with _ | ⟨first, _ | ⟨second, rest⟩⟩
  · rfl
  · cases first <;> rfl
  · cases first <;> rfl

/-- The parent of a path is spelled as the path is, without padding at the end. -/
theorem parent?_of_parts (parts : path.parts = before ++ [name.toList]) (isFileName : IsFileName name) :
    path.parent? = some ⟨parentText (path.startOf ++ before.filterMap componentOf)
      (separated (before.rdropWhile isPadding))⟩ := by
  have notPadding : ¬ isPadding name.toList = true := by simp [isPadding, isFileName.isComponent]
  have ends : path.components = path.startOf ++ before.filterMap componentOf ++ [.name name] := by
    rw [components_eq, parts, List.filterMap_append, List.filterMap_cons_some isFileName.isComponent, List.filterMap_nil,
      List.append_assoc]
  rw [parent?_of_components ends, parts, List.reverse_append, List.reverse_singleton, List.singleton_append,
    List.dropWhile_cons_of_neg notPadding]
  rfl

theorem parentText_of_mem {components : List Component} {component : Component} (member : component ∈ components)
    (leads : component ≠ .root ∧ component ≠ .current) (text : String) : parentText components text = text := by
  rcases components with _ | ⟨first, _ | ⟨second, rest⟩⟩
  · cases member
  · obtain rfl := List.mem_singleton.mp member
    cases component with
    | root => exact absurd rfl leads.1
    | current => exact absurd rfl leads.2
    | parent => rfl
    | name => rfl
  · cases first <;> rfl

theorem parentText_of_leads {start : List Component} (leads : before.rdropWhile isPadding ≠ []) (text : String) :
    parentText (start ++ before.filterMap componentOf) text = text := by
  obtain ⟨piece, member, isComponent⟩ : ∃ piece ∈ before, ¬ isPadding piece = true := by
    by_contra nothing
    push Not at nothing
    exact leads (List.rdropWhile_eq_nil_iff.mpr nothing)
  obtain ⟨component, found⟩ : ∃ component, componentOf piece = some component := by
    cases found : componentOf piece with
    | none => simp [isPadding, found] at isComponent
    | some component => exact ⟨component, rfl⟩
  refine parentText_of_mem (List.mem_append_right _ (List.mem_filterMap.mpr ⟨piece, member, found⟩)) ?_ text
  rcases exists_of_componentOf found with rfl | ⟨_, rfl⟩ <;> exact ⟨nofun, nofun⟩

theorem startOf_nil (parts : path.parts = [name.toList]) (isFileName : IsFileName name) : path.startOf = [] := by
  have notAbsolute : ¬ path.isAbsolute = true := by
    simp [isAbsolute_iff, parts, isFileName.ne_nil]
  have notCurrent : name.toList ≠ ['.'] := by
    intro isCurrent
    have isComponent := isFileName.isComponent
    simp [isCurrent, componentOf] at isComponent
  simp [startOf, notAbsolute, parts, notCurrent]

theorem startOf_cons {piece : List Char} {rest : List (List Char)} (parts : path.parts = piece :: rest)
    (notEmpty : rest ≠ []) (padding : isPadding piece = true) :
    piece = [] ∧ path.startOf = [.root] ∨ piece = ['.'] ∧ path.startOf = [.current] := by
  rcases padding_cases padding with rfl | rfl
  · have absolute : path.isAbsolute = true := isAbsolute_iff.mpr ⟨by rw [parts]; rfl, by simp [parts, notEmpty]⟩
    exact .inl ⟨rfl, by rw [startOf, if_pos absolute]⟩
  · have notAbsolute : ¬ path.isAbsolute = true := by simp [isAbsolute_iff, parts]
    exact .inr ⟨rfl, by rw [startOf, if_neg notAbsolute, parts]; rfl⟩

/-- A path to a name has a parent, and what is joined to it is spelled as the path is before its name. -/
theorem exists_parent (parts : path.parts = before ++ [name.toList]) (isFileName : IsFileName name) :
    ∃ parent start padding, path.parent? = some parent ∧ before = start ++ padding ∧
      (∀ piece ∈ padding, componentOf piece = none) ∧
      ∀ child, IsFileName child → (parent.join ⟨child⟩).parts = start ++ [child.toList] := by
  have isParent := parent?_of_parts parts isFileName
  have noComponent {piece : List Char} (padding : isPadding piece = true) : componentOf piece = none :=
    Option.isNone_iff_eq_none.mp padding
  by_cases leads : before.rdropWhile isPadding = []
  · -- Nothing but padding: the parent is spelled anew.
    have padding := List.rdropWhile_eq_nil_iff.mp leads
    have noComponents : before.filterMap componentOf = [] :=
      List.filterMap_eq_nil_iff.mpr fun piece member => noComponent (padding piece member)
    rw [noComponents, List.append_nil] at isParent
    cases before with
    | nil =>
      rw [startOf_nil parts isFileName] at isParent
      refine ⟨_, [], [], isParent, rfl, nofun, fun child isChild => ?_⟩
      simp [parentText, join, Path.parts, List.splitOn_eq_singleton isChild.isWhole]
    | cons piece rest =>
      refine ⟨_, [piece], rest, isParent, rfl, fun other member => noComponent (padding other (.tail _ member)), ?_⟩
      intro child isChild
      rcases startOf_cons parts (by simp) (padding piece List.mem_cons_self) with ⟨rfl, start⟩ | ⟨rfl, start⟩
      · rw [start]
        exact parts_join_root isChild
      · rw [start]
        have ofCurrent : (⟨"."⟩ : Path).parts = [['.']] := by decide
        have ends : (⟨"."⟩ : Path).parts.getLast? ≠ some [] := by simp [ofCurrent]
        exact (parts_join isChild ends).trans (congrArg (· ++ [child.toList]) ofCurrent)
  · rw [parentText_of_leads leads] at isParent
    have spelled : (⟨separated (before.rdropWhile isPadding)⟩ : Path).parts = before.rdropWhile isPadding := by
      refine parts_separated leads fun piece member => ?_
      have inBefore : piece ∈ before := (List.rdropWhile_prefix isPadding (l := before)).subset member
      have inPath : piece ∈ path.parts := parts ▸ List.mem_append_left _ inBefore
      exact not_mem_of_mem_parts inPath
    refine ⟨_, before.rdropWhile isPadding, before.rtakeWhile isPadding, isParent, ?_, ?_, fun child isChild => ?_⟩
    · exact (List.rdropWhile_append_rtakeWhile ..).symm
    · exact fun piece member => noComponent (List.mem_rtakeWhile_imp member)
    · have ends : (⟨separated (before.rdropWhile isPadding)⟩ : Path).parts.getLast? ≠ some [] := by
        rw [spelled, List.getLast?_eq_some_getLast leads]
        intro isEmpty
        have notPadding := List.rdropWhile_last_not isPadding before leads
        rw [Option.some.inj isEmpty] at notPadding
        exact notPadding rfl
      rw [parts_join isChild ends, spelled]

/-- The parent of what is in a directory is spelled as far as the directory. -/
theorem parent?_of_names (parts : path.parts = before ++ [directory.toList, name.toList])
    (isDirectory : IsFileName directory) (isFileName : IsFileName name) :
    ∃ parent, path.parent? = some parent ∧ parent.parts = before ++ [directory.toList] := by
  have upToName : path.parts = (before ++ [directory.toList]) ++ [name.toList] := by rw [parts, List.append_cons]
  have notPadding : ¬ isPadding directory.toList = true := by simp [isPadding, isDirectory.isComponent]
  have whole := List.rdropWhile_concat_neg isPadding before directory.toList notPadding
  have leads : (before ++ [directory.toList]).rdropWhile isPadding ≠ [] := by simp [whole]
  refine ⟨_, parent?_of_parts upToName isFileName, ?_⟩
  rw [parentText_of_leads leads, whole]
  refine parts_separated (by simp) fun piece member => ?_
  have inPath : piece ∈ path.parts := upToName ▸ List.mem_append_left _ member
  exact not_mem_of_mem_parts inPath

/-- What is joined to a path comes after all that the path is spelled with, but for a separator at its end. -/
theorem exists_parts_join (notEmpty : base.text ≠ "") :
    ∃ start padding, base.parts = start ++ padding ∧ start ≠ [] ∧ (∀ piece ∈ padding, componentOf piece = none) ∧
      ∀ path : Path, path.isAbsolute = false → (base.join path).parts = start ++ path.parts := by
  by_cases ends : base.text.toList.getLast? = some '/'
  · obtain ⟨start, text⟩ := List.getLast?_eq_some_iff.mp ends
    refine ⟨start.splitOn '/', [[]], ?_, List.splitOn_ne_nil _ _, by simp [componentOf], fun path relative => ?_⟩
    · rw [parts, text, List.splitOn_append_cons_self, List.splitOn_nil]
    · have joined : (base.join path).text.toList = base.text.toList ++ path.text.toList := by simp [join, relative, ends]
      rw [parts, joined, text, List.append_assoc, List.singleton_append, List.splitOn_append_cons_self, parts]
  · refine ⟨base.parts, [], (List.append_nil _).symm, List.splitOn_ne_nil _ _, nofun, fun path relative => ?_⟩
    have joined : (base.join path).text.toList = base.text.toList ++ '/' :: path.text.toList := by
      simp [join, relative, notEmpty, ends]
    rw [parts, joined, List.splitOn_append_cons_self, parts, parts]

theorem components_join (notEmpty : base.text ≠ "") (relative : path.isAbsolute = false) :
    (base.join path).components = base.components ++ path.parts.filterMap componentOf := by
  obtain ⟨start, padding, baseParts, leads, arePadding, joined⟩ := exists_parts_join notEmpty
  have notNothing : base.parts ≠ [[]] := by
    intro isEmpty
    have whole : ['/'].intercalate base.parts = base.text.toList := List.intercalate_splitOn '/'
    rw [isEmpty] at whole
    exact notEmpty (String.toList_eq_nil_iff.mp whole.symm)
  have longer : start ++ path.parts ≠ [[]] := by
    intro single
    have lengths := congrArg List.length single
    have ofStart := List.length_pos_of_ne_nil leads
    have ofPath : 0 < path.parts.length := List.length_pos_of_ne_nil (List.splitOn_ne_nil _ _)
    rw [List.length_append, List.length_singleton] at lengths
    omega
  have absolute : (base.join path).isAbsolute = base.isAbsolute := by
    rw [Bool.eq_iff_iff, isAbsolute_iff, isAbsolute_iff, joined path relative]
    rw [baseParts] at notNothing
    simp [longer, notNothing, baseParts, leads]
  have sameStart : (base.join path).startOf = base.startOf := by
    rw [startOf, startOf, absolute, joined path relative, baseParts]
    simp [leads]
  have noComponents : padding.filterMap componentOf = [] := List.filterMap_eq_nil_iff.mpr arePadding
  rw [components_eq, components_eq, sameStart, joined path relative, baseParts, List.filterMap_append,
    List.filterMap_append, noComponents, List.append_nil, List.append_assoc]

theorem parts_fileName (isFileName : IsFileName name) : (⟨name⟩ : Path).parts = [name.toList] :=
  List.splitOn_eq_singleton isFileName.isWhole

theorem components_join_fileName (base : Path) (isFileName : IsFileName name) :
    (base.join ⟨name⟩).components = base.components ++ [.name name] := by
  have isName : (⟨name⟩ : Path).parts.filterMap componentOf = [.name name] := by
    rw [parts_fileName isFileName, List.filterMap_cons_some isFileName.isComponent, List.filterMap_nil]
  have relative := notAbsolute_of_isFileName isFileName
  by_cases isEmpty : base.text = ""
  · have joined : base.join ⟨name⟩ = ⟨name⟩ := by simp [join, relative, isEmpty]
    have nothing : base.components = [] := by
      obtain ⟨text⟩ := base
      subst isEmpty
      decide
    rw [joined, nothing, components_eq, isName, startOf_nil (parts_fileName isFileName) isFileName]
  · rw [components_join isEmpty relative, isName]

end SiteQuery.Path
