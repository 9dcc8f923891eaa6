import SiteQuery.Proofs.Script.Walk

/-!
The order in which the templates of a module are found.

That is the order of the text, but for two kinds of pairs (`Overtakes`): a template in the condition of a `do` loop comes
before those in the body, and a template in the body of a class before those in what the class extends.
-/

namespace SiteQuery.Script

open Grammar

/-- A template that may stand for its module: exported, and bound to a name. -/
def TagMatch.isExportedBinding (found : TagMatch) : Bool := found.exported && found.binding?.isSome

namespace Module

/-- A tree stands among others, at any depth. -/
inductive Inside (tree : SyntaxTree) : List SyntaxTree → Prop
  | here {trees} (member : tree ∈ trees) : Inside tree trees
  | deeper {rule left leftAfter parts trees} (member : .branch rule left leftAfter parts ∈ trees)
      (inner : Inside tree parts) : Inside tree trees

namespace Inside

variable {tree first : SyntaxTree} {trees parts : List SyntaxTree} {rule : Rule} {left leftAfter : Nat}

theorem mono (inside : Inside tree trees) (included : trees ⊆ parts) : Inside tree parts := by
  cases inside with
  | here member => exact .here (included member)
  | deeper member inner => exact .deeper (included member) inner

theorem tail (inside : Inside tree trees) : Inside tree (first :: trees) := inside.mono (List.subset_cons_self _ _)

theorem head (inside : Inside tree parts) : Inside tree (.branch rule left leftAfter parts :: trees) :=
  .deeper List.mem_cons_self inside

end Inside

/-- A template stands within a tree. -/
def Encloses (offsets : Offsets) (tree : SyntaxTree) (found : TagMatch) : Prop :=
  offsets tree.left ≤ found.start ∧ found.stop ≤ offsets tree.leftAfter

theorem Stands.encloses {text input rest : List Char} {tag : String} {found : TagMatch} {rule : Rule}
    {parts : List SyntaxTree} (stands : Stands text tag input found rest) (isPlace : input <:+ text) :
    Encloses (offsets text) (.branch rule input.length rest.length parts) found :=
  ⟨stands.offsets_le_start isPlace, stands.stop_le_offsets isPlace⟩

/-- The first template is found before the second, which stands before it in the text. -/
inductive Overtakes (offsets : Offsets) (trees : List SyntaxTree) (first second : TagMatch) : Prop
  /-- In the condition and in the body of a loop. -/
  | loop {left leftAfter body test} (inside : Inside (.branch .doWhile left leftAfter [body, test]) trees)
      (inTest : Encloses offsets test first) (inBody : Encloses offsets body second)
  /-- In the body of a class and in what it extends. -/
  | classTail {left leftAfter heritage siblings}
      (inside : Inside (.branch .classTail left leftAfter (heritage :: siblings)) trees)
      (isHeritage : heritage.rule = .heritage)
      (inClass : Encloses offsets (.branch .classTail left leftAfter siblings) first)
      (behind : offsets heritage.leftAfter ≤ first.start) (inHeritage : Encloses offsets heritage second)

namespace Overtakes

variable {offsets : Offsets} {trees others : List SyntaxTree} {first second : TagMatch}

theorem mono (overtakes : Overtakes offsets trees first second)
    (included : ∀ tree, Inside tree trees → Inside tree others) : Overtakes offsets others first second := by
  cases overtakes with
  | loop inside inTest inBody => exact .loop (included _ inside) inTest inBody
  | classTail inside isHeritage inClass behind inHeritage =>
    exact .classTail (included _ inside) isHeritage inClass behind inHeritage

end Overtakes

/-- In the order of the text, or one overtakes the other. -/
def InOrder (offsets : Offsets) (trees : List SyntaxTree) (first second : TagMatch) : Prop :=
  first.start < second.start ∨ Overtakes offsets trees first second

section Pairs

open Outline (tagsIn tagsIn_cons tagsIn_append tags_tagged)

variable {text input place next rest : List Char} {tag : String} {binding? : Option String} {isExported : Bool}
  {trees parts siblings : List SyntaxTree} {found : List TagMatch} {inner following others : List Outline}

theorem pairwise_mono (ordered : found.Pairwise (InOrder (offsets text) trees))
    (included : ∀ tree, Inside tree trees → Inside tree parts) : found.Pairwise (InOrder (offsets text) parts) :=
  ordered.imp fun isOrdered => isOrdered.imp_right fun overtakes => overtakes.mono included

theorem pairwise_append {all : List SyntaxTree} (isPlace : place <:+ text) (first : Walks text place parts inner next)
    (ofFirst : (tagsIn tag binding? isExported inner).Pairwise (InOrder (offsets text) all))
    (second : Walks text next siblings following rest)
    (ofSecond : (tagsIn tag binding? isExported following).Pairwise (InOrder (offsets text) all)) :
    (tagsIn tag binding? isExported (inner ++ following)).Pairwise (InOrder (offsets text) all) := by
  rw [tagsIn_append]
  refine List.pairwise_append.mpr ⟨ofFirst, ofSecond, fun a inFirst b inSecond => .inl ?_⟩
  exact (stands_of_mem first inFirst).start_lt_start (stands_of_mem second inSecond) isPlace (first.suffix.trans isPlace)

theorem pairwise_node {node : SyntaxTree} (isPlace : place <:+ text) (alone : Walks text place [node] inner next)
    (ofNode : (tagsIn tag binding? isExported inner).Pairwise (InOrder (offsets text) [node]))
    (more : Walks text next trees others rest)
    (ofMore : (tagsIn tag binding? isExported others).Pairwise (InOrder (offsets text) trees)) :
    (tagsIn tag binding? isExported (inner ++ others)).Pairwise (InOrder (offsets text) (node :: trees)) := by
  refine pairwise_append isPlace alone (pairwise_mono ofNode fun _ inside => inside.mono ?_) more
    (pairwise_mono ofMore fun _ inside => inside.tail)
  exact List.cons_subset_cons _ (List.nil_subset _)

/-- A template, and then those in it and behind it. -/
theorem pairwise_template {rule : Rule} {left leftAfter : Nat} {name afterName opening stop : List Char}
    (between : List SyntaxTree) (isPlace : place <:+ text) (isName : place = name ++ afterName) (filled : name ≠ [])
    (opens : opening <:+ afterName) (within : Walks text opening parts inner stop)
    (ofWithin : (tagsIn tag binding? isExported inner).Pairwise (InOrder (offsets text) parts))
    (behind : Walks text stop siblings following next)
    (ofBehind : (tagsIn tag binding? isExported following).Pairwise (InOrder (offsets text) siblings)) :
    (tagsIn tag binding? isExported (.tagged (nameOf name) (offsets text place.length) (offsets text stop.length)
      (textsOf parts) inner :: following)).Pairwise (InOrder (offsets text) [.branch rule left leftAfter
        (.token .identifier place.length name ::
          (between ++ .branch .template opening.length stop.length parts :: siblings))]) := by
  have atName : afterName <:+ text := (isName ▸ List.suffix_append _ _).trans isPlace
  have atOpening := opens.trans atName
  have ordered : (tagsIn tag binding? isExported (inner ++ following)).Pairwise (InOrder (offsets text) [.branch rule left
      leftAfter (.token .identifier place.length name ::
        (between ++ .branch .template opening.length stop.length parts :: siblings))]) := by
    have isTemplate : .branch .template opening.length stop.length parts ∈ .token .identifier place.length name ::
        (between ++ .branch .template opening.length stop.length parts :: siblings) := by simp
    refine pairwise_append atOpening within (pairwise_mono ofWithin fun _ inside => ?_) behind
      (pairwise_mono ofBehind fun _ inside => ?_)
    · exact .head (.deeper isTemplate inside)
    · exact .head (inside.mono fun tree member => by simp [member])
  rw [tagsIn_append] at ordered
  rw [tagsIn_cons, tags_tagged, List.append_assoc]
  split
  · rw [List.singleton_append]
    refine List.pairwise_cons.mpr ⟨fun item member => .inl ?_, ordered⟩
    have atLeast : offsets text opening.length ≤ item.start := by
      rcases List.mem_append.mp member with inInner | inFollowing
      · exact (stands_of_mem within inInner).offsets_le_start atOpening
      · have stands := (stands_of_mem behind inFollowing).mono within.suffix (List.suffix_refl _)
        exact stands.offsets_le_start atOpening
    have afterTag := offsets_lt isPlace isName filled
    have toOpening := offsets_le atName opens
    exact Nat.lt_of_lt_of_le afterTag (Nat.le_trans toOpening atLeast)
  · exact ordered

/-- The templates in the condition of a loop, and then those in its body, which they overtake. -/
theorem pairwise_loop {left leftAfter : Nat} {bodyRule testRule : Rule} {bodyEnd testPlace testEnd : List Char}
    {body test : List SyntaxTree} {fromBody fromTest : List Outline} (isPlace : place <:+ text)
    (ofBody : Walks text place body fromBody bodyEnd)
    (inBody : (tagsIn tag binding? isExported fromBody).Pairwise (InOrder (offsets text) body))
    (isTest : testPlace <:+ bodyEnd) (ofTest : Walks text testPlace test fromTest testEnd)
    (inTest : (tagsIn tag binding? isExported fromTest).Pairwise (InOrder (offsets text) test)) :
    (tagsIn tag binding? isExported (fromTest ++ fromBody)).Pairwise (InOrder (offsets text)
      [.branch .doWhile left leftAfter
        [.branch bodyRule place.length bodyEnd.length body, .branch testRule testPlace.length testEnd.length test]]) := by
  have atTest := isTest.trans (ofBody.suffix.trans isPlace)
  rw [tagsIn_append]
  refine List.pairwise_append.mpr ⟨?_, ?_, fun first isFirst second isSecond => .inr ?_⟩
  · exact pairwise_mono inTest fun _ inside => .head (.tail inside.head)
  · exact pairwise_mono inBody fun _ inside => inside.head.head
  · exact .loop (.here List.mem_cons_self) ((stands_of_mem ofTest isFirst).encloses atTest)
      ((stands_of_mem ofBody isSecond).encloses isPlace)

/-- The templates in the body of a class, and then those in what it extends, which they overtake. -/
theorem pairwise_classTail {heritagePlace heritageEnd : List Char} {inherited : List SyntaxTree}
    {fromInherited fromSiblings : List Outline} (isPlace : place <:+ text) (isHeritage : heritagePlace <:+ place)
    (ofInherited : Walks text heritagePlace inherited fromInherited heritageEnd)
    (inInherited : (tagsIn tag binding? isExported fromInherited).Pairwise (InOrder (offsets text) inherited))
    (ofSiblings : Walks text heritageEnd siblings fromSiblings next)
    (inSiblings : (tagsIn tag binding? isExported fromSiblings).Pairwise (InOrder (offsets text) siblings)) :
    (tagsIn tag binding? isExported (fromSiblings ++ fromInherited)).Pairwise (InOrder (offsets text)
      [.branch .classTail place.length next.length
        (.branch .heritage heritagePlace.length heritageEnd.length inherited :: siblings)]) := by
  have atHeritage := isHeritage.trans isPlace
  have atSiblings := ofInherited.suffix.trans atHeritage
  rw [tagsIn_append]
  refine List.pairwise_append.mpr ⟨?_, ?_, fun first isFirst second isSecond => .inr ?_⟩
  · exact pairwise_mono inSiblings fun _ inside => inside.tail.head
  · exact pairwise_mono inInherited fun _ inside => inside.head.head
  · have stands := stands_of_mem ofSiblings isFirst
    have inClass : Encloses (offsets text) (.branch .classTail place.length next.length siblings) first :=
      (stands.mono (ofInherited.suffix.trans isHeritage) (List.suffix_refl _)).encloses isPlace
    exact .classTail (.here List.mem_cons_self) rfl inClass (stands.offsets_le_start atSiblings)
      ((stands_of_mem ofInherited isSecond).encloses atHeritage)

theorem inOrder_of_walks {parts : List Outline} (walks : Walks text input trees parts rest) (isPlace : input <:+ text)
    (binding? : Option String) (isExported : Bool) :
    (tagsIn tag binding? isExported parts).Pairwise (InOrder (offsets text) trees) := by
  have refl (place : List Char) : place <:+ place := List.suffix_refl place
  -- each tree is taken alone first: what is found in it is before all that is found behind it
  induction walks generalizing binding? isExported with
  | nil =>
    rw [tagsIn]
    exact .nil
  | token later after _ ih =>
    exact pairwise_mono (ih (after.trans (later.trans isPlace)) binding? isExported) fun _ inside => inside.tail
  | exported later within more ihWithin ih =>
    have here := later.trans isPlace
    refine pairwise_node here (.exported (refl _) within (.nil (refl _))) ?_ more
      (ih (within.suffix.trans here) binding? isExported)
    rw [tagsIn_cons, Outline.tags, tagsIn, List.append_nil]
    exact pairwise_mono (ihWithin here binding? true) fun _ inside => inside.head
  | declarator later within more ihWithin ih =>
    have here := later.trans isPlace
    refine pairwise_node here (.declarator (refl _) within (.nil (refl _))) ?_ more
      (ih (within.suffix.trans here) binding? isExported)
    rw [tagsIn_cons, Outline.tags, tagsIn, List.append_nil]
    exact pairwise_mono (ihWithin here _ isExported) fun _ inside => inside.head
  | parts later within more ihWithin ih =>
    have here := later.trans isPlace
    refine pairwise_node here ?_ (pairwise_mono (ihWithin here binding? isExported) fun _ inside => inside.head) more
      (ih (within.suffix.trans here) binding? isExported)
    simpa using Walks.parts (refl _) within (.nil (refl _))
  | template between later isTag isName filled opens within behind more ihWithin ihBehind ih =>
    have here := later.trans isPlace
    have atOpening := opens.trans ((isName ▸ List.suffix_append _ _ : _ <:+ _).trans (isTag.trans here))
    have atStop := within.suffix.trans atOpening
    refine pairwise_node here ?_ (pairwise_template between (isTag.trans here) isName filled opens within
      (ihWithin atOpening binding? isExported) behind (ihBehind atStop binding? isExported)) more
      (ih (behind.suffix.trans atStop) binding? isExported)
    simpa using Walks.template between (refl _) isTag isName filled opens within behind (.nil (refl _))
  | loop later isBody ofBody isTest ofTest after more ihBody ihTest ih =>
    have here := later.trans isPlace
    have atBody := isBody.trans here
    have atTest := isTest.trans (ofBody.suffix.trans atBody)
    refine pairwise_node here ?_ (pairwise_loop atBody ofBody (ihBody atBody binding? isExported) isTest ofTest
      (ihTest atTest binding? isExported)) more (ih (after.trans (ofTest.suffix.trans atTest)) binding? isExported)
    simpa using Walks.loop (refl _) isBody ofBody isTest ofTest after (.nil (refl _))
  | classTail later isHeritage ofInherited ofSiblings more ihInherited ihSiblings ih =>
    have here := later.trans isPlace
    have atHeritage := isHeritage.trans here
    have atSiblings := ofInherited.suffix.trans atHeritage
    have ofNode := pairwise_classTail here isHeritage ofInherited (ihInherited atHeritage binding? isExported) ofSiblings
      (ihSiblings atSiblings binding? isExported)
    refine pairwise_node here ?_ ofNode more (ih (ofSiblings.suffix.trans atSiblings) binding? isExported)
    simpa using Walks.classTail (refl _) isHeritage ofInherited ofSiblings (.nil (refl _))

end Pairs

section Reversed

variable {dialect : Dialect} {text rest : List Char} {trees : List SyntaxTree} {first second : TagMatch}

theorem covers_of_inside {rule : Rule} {left leftAfter : Nat} {parts : List SyntaxTree} {input : List Char}
    (covers : (grammar dialect).Covers input trees rest) (inside : Inside (.branch rule left leftAfter parts) trees) :
    ∃ place next, place <:+ input ∧ (grammar dialect).Covers place parts next := by
  induction inside generalizing input rest with
  | here member => exact covers.of_mem member
  | deeper member _ ih =>
    obtain ⟨place, next, isPlace, inner⟩ := covers.of_mem member
    obtain ⟨deep, last, isDeep, innermost⟩ := ih inner
    exact ⟨deep, last, isDeep.trans isPlace, innermost⟩

/-- What is overtaken stands before in the text. -/
theorem Overtakes.start_lt_start (overtakes : Overtakes (offsets text) trees first second)
    (covers : (grammar dialect).Covers text trees rest) (positive : second.start < second.stop) :
    second.start < first.start := by
  cases overtakes with
  | loop inside inTest inBody =>
    obtain ⟨place, next, isPlace, inner⟩ := covers_of_inside covers inside
    obtain ⟨bodyPlace, bodyEnd, isBody, isEnd, -, bodyAfter, behindBody⟩ := inner.uncons
    obtain ⟨testPlace, testEnd, isTest, -, testLeft, -, -⟩ := behindBody.uncons
    have atEnd := isEnd.trans (isBody.trans isPlace)
    have ends := inBody.2
    have starts := inTest.1
    have between := offsets_le atEnd isTest
    rw [bodyAfter] at ends
    rw [testLeft] at starts
    omega
  | classTail inside isHeritage inClass behind inHeritage =>
    exact Nat.lt_of_lt_of_le positive (Nat.le_trans inHeritage.2 behind)

end Reversed

section Primary

variable {source : Module} {tag : String}

theorem split_of_primaryTag? {found : TagMatch} {others : Nat} (primary : source.primaryTag? tag = some (found, others)) :
    ∃ before behind, source.tags tag = before ++ found :: behind ∧ found.isExportedBinding = true ∧
      ∀ item ∈ before, item.isExportedBinding = false := by
  obtain ⟨item, isFound, same⟩ := Option.map_eq_some_iff.mp primary
  obtain ⟨rfl, -⟩ := Prod.mk.inj same
  obtain ⟨suits, before, behind, isList, unsuited⟩ := List.find?_eq_some_iff_append.mp isFound
  exact ⟨before, behind, isList, suits, fun other member => (Bool.not_eq_true' _).mp (unsuited other member)⟩

theorem primaryTag?_eq_none :
    source.primaryTag? tag = none ↔ ∀ item ∈ source.tags tag, item.isExportedBinding = false := by
  simp [primaryTag?, TagMatch.isExportedBinding]

end Primary

/-- The templates found in a text with these trees, and the one among them that stands for the module. -/
structure FoundInOrder (offsets : Offsets) (trees : List SyntaxTree) (source : Module) (tag : String) : Prop where
  /-- All but those that overtake another are found in the order of the text. -/
  ordered : (source.tags tag).Pairwise fun first second =>
    (¬ Overtakes offsets trees first second → first.start < second.start) ∧
      (Overtakes offsets trees first second → second.start < first.start)
  /-- No other starts before it that is not overtaken by it. -/
  primary : ∀ found others, source.primaryTag? tag = some (found, others) →
    found ∈ source.tags tag ∧ found.isExportedBinding = true ∧ ∀ other ∈ source.tags tag, other.isExportedBinding = true →
      found.start ≤ other.start ∨ Overtakes offsets trees found other
  none : source.primaryTag? tag = none → ∀ other ∈ source.tags tag, other.isExportedBinding = false

/-- Two exported templates, of which the second is in a loop without one in its condition. -/
def loopPage : String := "export let a=[graphql\x60\x7ba\x7d\x60,()=>\x7bdo graphql\x60\x7bb\x7d\x60;while(c)\x7d]"

def overtakenInLoop : String :=
  "export let a=()=>\x7bdo\x7bgraphql\x60query A\x7ba\x7d\x60\x7dwhile(graphql\x60query B\x7bb\x7d\x60)\x7d"

def overtakenInClass : String :=
  "export let a=class extends b(graphql\x60query A\x7ba\x7d\x60)\x7bc=graphql\x60query B\x7bb\x7d\x60\x7d"

end Module

end SiteQuery.Script
