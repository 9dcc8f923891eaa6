import SiteQuery.Proofs.Grammar.Coverage
import SiteQuery.Script.Tag

/-!
How the tree of a module is walked, beside the places in the text where its parts stand.

`Outlined` has a case for each way in which a node is walked. `Walks` joins these cases to the places that the trees
cover, for all parts at any depth; it holds of every module that is read: `walks_of_parse?`. From it `Stands` says where
in the text a template that is found stands.
-/

namespace SiteQuery.Script

open Grammar

namespace Outline

variable {tag : String} {binding? : Option String} {isExported : Bool} {found : TagMatch}

theorem tagsIn_cons (tag : String) (binding? : Option String) (isExported : Bool) (part : Outline) (rest : List Outline) :
    tagsIn tag binding? isExported (part :: rest) =
      tags tag binding? isExported part ++ tagsIn tag binding? isExported rest := by
  rw [tagsIn]

theorem tagsIn_append (tag : String) (binding? : Option String) (isExported : Bool) (parts more : List Outline) :
    tagsIn tag binding? isExported (parts ++ more) =
      tagsIn tag binding? isExported parts ++ tagsIn tag binding? isExported more := by
  induction parts with
  | nil => rw [tagsIn, List.nil_append, List.nil_append]
  | cons part rest ih => rw [List.cons_append, tagsIn_cons, tagsIn_cons, ih, List.append_assoc]

theorem tags_tagged (tag : String) (binding? : Option String) (isExported : Bool) (name : String) (start stop : Nat)
    (texts : List String) (parts : List Outline) :
    tags tag binding? isExported (.tagged name start stop texts parts) =
      (if name = tag then [⟨binding?, isExported, start, stop, readTemplate texts⟩] else []) ++
        tagsIn tag binding? isExported parts := by
  rw [tags]
  split <;> rfl

end Outline

namespace Module

theorem withoutMark_suffix (text : List Char) : withoutMark text <:+ text := by
  unfold withoutMark
  split
  · exact List.suffix_cons _ _
  · exact List.suffix_refl _

/-- The number of bytes that a text takes. -/
def byteCount : List Char → Nat
  | [] => 0
  | c :: rest => c.utf8Size + byteCount rest

theorem byteCount_append (text more : List Char) : byteCount (text ++ more) = byteCount text + byteCount more := by
  induction text with
  | nil => simp [byteCount]
  | cons c rest ih => simp [byteCount, ih, Nat.add_assoc]

theorem byteCount_pos {text : List Char} (notEmpty : text ≠ []) : 0 < byteCount text := by
  cases text with
  | nil => exact absurd rfl notEmpty
  | cons c rest =>
    have positive := c.utf8Size_pos
    rw [byteCount]
    omega

theorem getElem?_byteTable (before rest : List Char) (count : Nat) :
    (byteTable count (before ++ rest))[before.length]? = some (count + byteCount before) := by
  induction before generalizing count with
  | nil => cases rest <;> rfl
  | cons c before ih => simp [byteTable, ih, byteCount, Nat.add_assoc]

theorem offsets_append (before rest : List Char) : offsets (before ++ rest) rest.length = byteCount before := by
  have found := getElem?_byteTable before rest 0
  simp [offsets, Array.getD_eq_getD_getElem?, found]

section Offsets

variable {text place next : List Char}

theorem offsets_le (isPlace : place <:+ text) (later : next <:+ place) :
    offsets text place.length ≤ offsets text next.length := by
  obtain ⟨before, rfl⟩ := isPlace
  obtain ⟨between, rfl⟩ := later
  rw [offsets_append, ← List.append_assoc, offsets_append, byteCount_append]
  exact Nat.le_add_right _ _

theorem offsets_lt {name : List Char} (isPlace : place <:+ text) (isName : place = name ++ next) (notEmpty : name ≠ []) :
    offsets text place.length < offsets text next.length := by
  subst isName
  obtain ⟨before, rfl⟩ := isPlace
  have positive := byteCount_pos notEmpty
  rw [offsets_append, ← List.append_assoc, offsets_append, byteCount_append]
  omega

end Offsets

/-- The ways to walk a tree. -/
inductive Outlined (offsets : Offsets) : SyntaxTree → List Outline → Prop
  | token {rule left text} : Outlined offsets (.token rule left text) []
  | exported {left leftAfter parts} :
      Outlined offsets (.branch .exportedDeclaration left leftAfter parts) [.exported (outlines offsets parts)]
  | declarator {allowIn left leftAfter parts} :
      Outlined offsets (.branch (.declarator allowIn) left leftAfter parts)
        [.declarator (bindingOf parts) (outlines offsets parts)]
  | template {rule left leftAfter start name opening after inner rest} :
      Outlined offsets
        (.branch rule left leftAfter (.token .identifier start name :: .branch .template opening after inner :: rest))
        (.tagged (nameOf name) (offsets start) (offsets after) (textsOf inner) (outlines offsets inner)
          :: outlines offsets rest)
  | typedTemplate {rule left leftAfter start name typesLeft types opening after inner rest} :
      Outlined offsets
        (.branch rule left leftAfter (.token .identifier start name :: .token .typeArguments typesLeft types
          :: .branch .template opening after inner :: rest))
        (.tagged (nameOf name) (offsets start) (offsets after) (textsOf inner) (outlines offsets inner)
          :: outlines offsets rest)
  | loop {left leftAfter bodyRule bodyLeft bodyAfter body testRule testLeft testAfter test} :
      Outlined offsets
        (.branch .doWhile left leftAfter
          [.branch bodyRule bodyLeft bodyAfter body, .branch testRule testLeft testAfter test])
        (outlines offsets test ++ outlines offsets body)
  | classTail {left leftAfter heritageLeft heritageAfter inherited rest} :
      Outlined offsets (.branch .classTail left leftAfter (.branch .heritage heritageLeft heritageAfter inherited :: rest))
        (outlines offsets rest ++ outlines offsets inherited)
  | parts {rule left leftAfter parts} : Outlined offsets (.branch rule left leftAfter parts) (outlines offsets parts)

theorem outlined (offsets : Offsets) (tree : SyntaxTree) : Outlined offsets tree (outline offsets tree) := by
  unfold outline
  split
  · exact .token
  · exact .exported
  · exact .declarator
  · exact .template
  · exact .typedTemplate
  · exact .loop
  · exact .classTail
  · exact .parts

/-- Trees that cover a text from one place to another, and the outline of what is walked. -/
inductive Walks (text : List Char) : List Char → List SyntaxTree → List Outline → List Char → Prop
  | nil {input rest} (later : rest <:+ input) : Walks text input [] [] rest
  | token {input place next rest rule name trees others} (later : place <:+ input) (after : next <:+ place)
      (more : Walks text next trees others rest) : Walks text input (.token rule place.length name :: trees) others rest
  | exported {input place next rest parts inner trees others} (later : place <:+ input)
      (within : Walks text place parts inner next) (more : Walks text next trees others rest) :
      Walks text input (.branch .exportedDeclaration place.length next.length parts :: trees)
        (.exported inner :: others) rest
  | declarator {input place next rest allowIn parts inner trees others} (later : place <:+ input)
      (within : Walks text place parts inner next) (more : Walks text next trees others rest) :
      Walks text input (.branch (.declarator allowIn) place.length next.length parts :: trees)
        (.declarator (bindingOf parts) inner :: others) rest
  | template {input place tagPlace name afterName opening stop next rest rule parts inner siblings following trees others}
      (between : List SyntaxTree) (later : place <:+ input) (isTag : tagPlace <:+ place)
      (isName : tagPlace = name ++ afterName) (filled : name ≠ []) (opens : opening <:+ afterName)
      (within : Walks text opening parts inner stop) (behind : Walks text stop siblings following next)
      (more : Walks text next trees others rest) :
      Walks text input
        (.branch rule place.length next.length
          (.token .identifier tagPlace.length name ::
            (between ++ .branch .template opening.length stop.length parts :: siblings))
          :: trees)
        (.tagged (nameOf name) (offsets text tagPlace.length) (offsets text stop.length) (textsOf parts) inner
          :: (following ++ others)) rest
  | loop {input place bodyPlace bodyEnd testPlace testEnd next rest bodyRule testRule body fromBody test fromTest}
      {trees others} (later : place <:+ input) (isBody : bodyPlace <:+ place)
      (ofBody : Walks text bodyPlace body fromBody bodyEnd) (isTest : testPlace <:+ bodyEnd)
      (ofTest : Walks text testPlace test fromTest testEnd) (after : next <:+ testEnd)
      (more : Walks text next trees others rest) :
      Walks text input
        (.branch .doWhile place.length next.length [.branch bodyRule bodyPlace.length bodyEnd.length body,
          .branch testRule testPlace.length testEnd.length test] :: trees)
        (fromTest ++ fromBody ++ others) rest
  | classTail {input place heritagePlace heritageEnd next rest inherited fromInherited siblings fromSiblings trees others}
      (later : place <:+ input) (isHeritage : heritagePlace <:+ place)
      (ofInherited : Walks text heritagePlace inherited fromInherited heritageEnd)
      (ofSiblings : Walks text heritageEnd siblings fromSiblings next) (more : Walks text next trees others rest) :
      Walks text input
        (.branch .classTail place.length next.length
          (.branch .heritage heritagePlace.length heritageEnd.length inherited :: siblings) :: trees)
        (fromSiblings ++ fromInherited ++ others) rest
  | parts {input place next rest rule parts inner trees others} (later : place <:+ input)
      (within : Walks text place parts inner next) (more : Walks text next trees others rest) :
      Walks text input (.branch rule place.length next.length parts :: trees) (inner ++ others) rest

theorem outlines_cons (offsets : Offsets) (tree : SyntaxTree) (trees : List SyntaxTree) :
    outlines offsets (tree :: trees) = outline offsets tree ++ outlines offsets trees := by rw [outlines]

theorem walks_of_covers {dialect : Dialect} {text input rest : List Char} {trees : List SyntaxTree}
    (covers : (grammar dialect).Covers input trees rest) : Walks text input trees (outlines (offsets text) trees) rest := by
  -- a node may be taken apart two levels deep, so the induction is on the size of the trees
  induction size : sizeOf trees using Nat.strongRecOn generalizing input rest trees with
  | ind size ih =>
    subst size
    cases covers with
    | nil later =>
      rw [outlines]
      exact .nil later
    | @token _ place next _ rule name trees later isText _ more =>
      rw [outlines_cons, outline, List.nil_append]
      exact .token later (isText ▸ List.suffix_append _ _) (ih _ (by simp only [List.cons.sizeOf_spec]; omega) more rfl)
    | @branch _ place next _ rule parts trees later inner more =>
      have walked := ih _ (by simp only [List.cons.sizeOf_spec]; omega) more rfl
      have way := outlined (offsets text) (.branch rule place.length next.length parts)
      rw [outlines_cons]
      generalize outline (offsets text) (.branch rule place.length next.length parts) = others at way
      cases way with
      | exported => exact .exported later (ih _ (by simp; omega) inner rfl) walked
      | declarator => exact .declarator later (ih _ (by simp; omega) inner rfl) walked
      | parts => exact .parts later (ih _ (by simp; omega) inner rfl) walked
      | template =>
        cases inner with
        | token isTag isName filled more =>
          cases more with
          | branch opens within behind =>
            exact .template [] later isTag isName (filled rfl) opens
              (ih _ (by simp; omega) within rfl) (ih _ (by simp; omega) behind rfl) walked
      | typedTemplate =>
        cases inner with
        | token isTag isName filled more =>
          cases more with
          | token typesLater isTypes _ more =>
            cases more with
            | branch opens within behind =>
              have afterName := opens.trans ((isTypes ▸ List.suffix_append _ _).trans typesLater)
              exact .template [.token .typeArguments _ _] later isTag isName (filled rfl) afterName
                (ih _ (by simp; omega) within rfl) (ih _ (by simp; omega) behind rfl) walked
      | loop =>
        cases inner with
        | branch isBody ofBody more =>
          cases more with
          | branch isTest ofTest more =>
            exact .loop later isBody (ih _ (by simp; omega) ofBody rfl) isTest (ih _ (by simp; omega) ofTest rfl)
              more.suffix walked
      | classTail =>
        cases inner with
        | branch isHeritage ofInherited more =>
          exact .classTail later isHeritage (ih _ (by simp; omega) ofInherited rfl) (ih _ (by simp; omega) more rfl) walked

theorem trees_of_parse? {dialect : Dialect} {text : String} {source : Module}
    (isModule : parse? dialect text = some source) :
    ∃ trees, (grammar dialect).parse .module (withoutMark text.toList) = .ok trees ∧
      source = ⟨outlines (offsets (withoutMark text.toList)) trees⟩ := by
  simp only [parse?] at isModule
  cases parsed : (grammar dialect).parse .module (withoutMark text.toList) with
  | error => simp [parsed] at isModule
  | ok trees =>
    simp only [parsed, Option.ite_none_right_eq_some] at isModule
    exact ⟨trees, rfl, (Option.some.inj isModule.2).symm⟩

/-- The outline of a module comes from trees over its text. -/
theorem walks_of_parse? {dialect : Dialect} {text : String} {source : Module}
    (isModule : parse? dialect text = some source) :
    ∃ trees rest, (grammar dialect).parse .module (withoutMark text.toList) = .ok trees ∧
      Walks (withoutMark text.toList) (withoutMark text.toList) trees source.parts rest := by
  obtain ⟨trees, parsed, rfl⟩ := trees_of_parse? isModule
  obtain ⟨rest, covers⟩ := Grammar.covers_of_parse parsed
  exact ⟨trees, rest, parsed, walks_of_covers covers⟩

section Stands

variable {text input middle rest place : List Char} {tag : String} {found other : TagMatch}

theorem Walks.suffix {trees : List SyntaxTree} {parts : List Outline} (walks : Walks text input trees parts rest) :
    rest <:+ input := by
  induction walks with
  | nil later => exact later
  | token later after _ ih => exact (ih.trans after).trans later
  | exported later _ _ ihWithin ih | declarator later _ _ ihWithin ih | parts later _ _ ihWithin ih =>
    exact (ih.trans ihWithin).trans later
  | template _ later isTag isName _ opens _ _ _ ihWithin ihBehind ih =>
    have afterName : _ <:+ _ := isName ▸ List.suffix_append _ _
    exact (ih.trans (ihBehind.trans (ihWithin.trans (opens.trans (afterName.trans isTag))))).trans later
  | loop later isBody _ isTest _ after _ ihBody ihTest ih =>
    exact (ih.trans (after.trans (ihTest.trans (isTest.trans (ihBody.trans isBody))))).trans later
  | classTail later isHeritage _ _ _ ihInherited ihSiblings ih =>
    exact (ih.trans (ihSiblings.trans (ihInherited.trans isHeritage))).trans later

/-- A template that is found stands between two places: there is its tag, in some spelling, and then the template. -/
def Stands (text : List Char) (tag : String) (input : List Char) (found : TagMatch) (rest : List Char) : Prop :=
  ∃ tagPlace name afterName stop, tagPlace <:+ input ∧ tagPlace = name ++ afterName ∧ name ≠ [] ∧ nameOf name = tag ∧
    stop <:+ afterName ∧ rest <:+ stop ∧ found.start = offsets text tagPlace.length ∧ found.stop = offsets text stop.length

namespace Stands

theorem mono (stands : Stands text tag input found rest) (later : input <:+ place) (sooner : middle <:+ rest) :
    Stands text tag place found middle := by
  obtain ⟨tagPlace, name, afterName, stop, isTag, isName, filled, same, isStop, isRest, atStart, atStop⟩ := stands
  exact ⟨tagPlace, name, afterName, stop, isTag.trans later, isName, filled, same, isStop, sooner.trans isRest,
    atStart, atStop⟩

theorem offsets_le_start (stands : Stands text tag input found rest) (isPlace : input <:+ text) :
    offsets text input.length ≤ found.start := by
  obtain ⟨tagPlace, _, _, _, isTag, _, _, _, _, _, atStart, _⟩ := stands
  rw [atStart]
  exact offsets_le isPlace isTag

theorem stop_le_offsets (stands : Stands text tag input found rest) (isPlace : input <:+ text) :
    found.stop ≤ offsets text rest.length := by
  obtain ⟨tagPlace, name, afterName, stop, isTag, isName, _, _, isStop, isRest, _, atStop⟩ := stands
  have afterTag : afterName <:+ tagPlace := isName ▸ List.suffix_append _ _
  rw [atStop]
  exact offsets_le (isStop.trans (afterTag.trans (isTag.trans isPlace))) isRest

theorem start_lt_stop (stands : Stands text tag input found rest) (isPlace : input <:+ text) :
    found.start < found.stop := by
  obtain ⟨tagPlace, name, afterName, stop, isTag, isName, filled, _, isStop, _, atStart, atStop⟩ := stands
  have afterTag : afterName <:+ tagPlace := isName ▸ List.suffix_append _ _
  have isAfter := offsets_lt (isTag.trans isPlace) isName filled
  have isLater := offsets_le (afterTag.trans (isTag.trans isPlace)) isStop
  omega

theorem start_lt_start (first : Stands text tag input found middle) (second : Stands text tag middle other rest)
    (isPlace : input <:+ text) (isMiddle : middle <:+ text) : found.start < other.start := by
  have := first.start_lt_stop isPlace
  have := first.stop_le_offsets isPlace
  have := second.offsets_le_start isMiddle
  omega

/-- The tag is written at the start of the template. -/
theorem spelled (stands : Stands text tag input found rest) (isPlace : input <:+ text) :
    ∃ before name after, text = before ++ (name ++ after) ∧ byteCount before = found.start ∧ nameOf name = tag := by
  obtain ⟨tagPlace, name, afterName, _, isTag, isName, _, same, _, _, atStart, _⟩ := stands
  obtain ⟨before, isText⟩ := isTag.trans isPlace
  refine ⟨before, name, afterName, by rw [← isName, isText], ?_, same⟩
  rw [atStart, ← isText, offsets_append]

end Stands

theorem stands_of_mem {trees : List SyntaxTree} {parts : List Outline} (walks : Walks text input trees parts rest)
    {binding? : Option String} {isExported : Bool} (member : found ∈ Outline.tagsIn tag binding? isExported parts) :
    Stands text tag input found rest := by
  induction walks generalizing binding? isExported with
  | nil =>
    rw [Outline.tagsIn] at member
    cases member
  | token later after _ ih => exact (ih member).mono (after.trans later) (List.suffix_refl _)
  | exported later within more ihWithin ih | declarator later within more ihWithin ih =>
    rw [Outline.tagsIn_cons, Outline.tags] at member
    rcases List.mem_append.mp member with inside | behind
    · exact (ihWithin inside).mono later more.suffix
    · exact (ih behind).mono (within.suffix.trans later) (List.suffix_refl _)
  | parts later within more ihWithin ih =>
    rw [Outline.tagsIn_append] at member
    rcases List.mem_append.mp member with inside | behind
    · exact (ihWithin inside).mono later more.suffix
    · exact (ih behind).mono (within.suffix.trans later) (List.suffix_refl _)
  | @template input place tagPlace name afterName opening stop _ _ _ _ _ _ _ _ _ _ later isTag isName filled opens within
      siblings more ihWithin ihSiblings ih =>
    have afterTag : afterName <:+ tagPlace := isName ▸ List.suffix_append _ _
    have toOpening := opens.trans (afterTag.trans (isTag.trans later))
    have isStop := within.suffix.trans opens
    rw [Outline.tagsIn_cons, Outline.tags_tagged, Outline.tagsIn_append] at member
    simp only [List.mem_append] at member
    rcases member with (isSelf | inside) | inSiblings | behind
    · split at isSelf
      · rename_i same
        rw [List.mem_singleton.mp isSelf]
        exact ⟨tagPlace, name, afterName, stop, isTag.trans later, isName, filled, same, isStop,
          more.suffix.trans siblings.suffix, rfl, rfl⟩
      · cases isSelf
    · exact (ihWithin inside).mono toOpening (more.suffix.trans siblings.suffix)
    · exact (ihSiblings inSiblings).mono (within.suffix.trans toOpening) more.suffix
    · exact (ih behind).mono (siblings.suffix.trans (within.suffix.trans toOpening)) (List.suffix_refl _)
  | loop later isBody ofBody isTest ofTest after more ihBody ihTest ih =>
    have toTest := isTest.trans (ofBody.suffix.trans (isBody.trans later))
    rw [Outline.tagsIn_append, Outline.tagsIn_append] at member
    simp only [List.mem_append] at member
    rcases member with (inTest | inBody) | behind
    · exact (ihTest inTest).mono toTest (more.suffix.trans after)
    · exact (ihBody inBody).mono (isBody.trans later) (more.suffix.trans (after.trans (ofTest.suffix.trans isTest)))
    · exact (ih behind).mono (after.trans (ofTest.suffix.trans toTest)) (List.suffix_refl _)
  | classTail later isHeritage ofInherited ofSiblings more ihInherited ihSiblings ih =>
    have toSiblings := ofInherited.suffix.trans (isHeritage.trans later)
    rw [Outline.tagsIn_append, Outline.tagsIn_append] at member
    simp only [List.mem_append] at member
    rcases member with (inSiblings | inInherited) | behind
    · exact (ihSiblings inSiblings).mono toSiblings more.suffix
    · exact (ihInherited inInherited).mono (isHeritage.trans later) (more.suffix.trans ofSiblings.suffix)
    · exact (ih behind).mono (ofSiblings.suffix.trans toSiblings) (List.suffix_refl _)

end Stands

end Module

end SiteQuery.Script
