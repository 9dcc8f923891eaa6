import SiteQuery.Script.Replacement

/-!
Finding the templates of a module, and replacing them.

Both go by the places of the module (`Module.places`), each a part with the parts around it. All places of a template
with the tag are found, and the outermost of them are what is checked and replaced: `Module.replacesTags`.
-/

namespace SiteQuery.Script

/-- A part of a module, and the parts around it from the inside. -/
structure Place where
  part : Outline
  around : List Outline

namespace Outline

mutual

/-- The places in a part, in the order in which it is walked. -/
def places (around : List Outline) : Outline → List Place
  | part@(tagged _ _ _ _ parts) => ⟨part, around⟩ :: placesIn (part :: around) parts
  | part@(declarator _ parts) => ⟨part, around⟩ :: placesIn (part :: around) parts
  | part@(exported parts) => ⟨part, around⟩ :: placesIn (part :: around) parts
  | part@(placeholder _) => [⟨part, around⟩]

def placesIn (around : List Outline) : List Outline → List Place
  | [] => []
  | part :: rest => places around part ++ placesIn around rest

end

mutual

/-- The outermost parts that are selected give way to another. -/
def substitute (selects : Outline → Bool) (replacement : Outline) : Outline → Outline
  | part@(tagged name start stop texts parts) =>
    if selects part then replacement else tagged name start stop texts (substituteIn selects replacement parts)
  | part@(declarator binding? parts) =>
    if selects part then replacement else declarator binding? (substituteIn selects replacement parts)
  | part@(exported parts) => if selects part then replacement else exported (substituteIn selects replacement parts)
  | part@(placeholder text) => if selects part then replacement else placeholder text

def substituteIn (selects : Outline → Bool) (replacement : Outline) : List Outline → List Outline
  | [] => []
  | part :: rest => substitute selects replacement part :: substituteIn selects replacement rest

end

def isQuery (tag : String) : Outline → Bool
  | tagged name _ _ _ _ => name = tag
  | _ => false

def isExport : Outline → Bool
  | exported _ => true
  | _ => false

/-- What the innermost declarator binds. -/
def bindingWithin : List Outline → Option String
  | [] => none
  | declarator binding? _ :: _ => binding?
  | _ :: rest => bindingWithin rest

end Outline

namespace Place

def isQuery (tag : String) (place : Place) : Bool := place.part.isQuery tag

def isNested (tag : String) (place : Place) : Bool := place.around.any (Outline.isQuery tag)

def isOutermost (tag : String) (place : Place) : Bool := place.isQuery tag && !place.isNested tag

/-- What is found of a template at its place. -/
def found? (place : Place) : Option TagMatch :=
  match place.part with
  | .tagged _ start stop texts _ =>
    some ⟨Outline.bindingWithin place.around, place.around.any Outline.isExport, start, stop, readTemplate texts⟩
  | _ => none

def foundAt (selects : Place → Bool) (places : List Place) : List TagMatch := (places.filter selects).filterMap found?

variable {selects : Place → Bool}

theorem foundAt_append (places more : List Place) :
    foundAt selects (places ++ more) = foundAt selects places ++ foundAt selects more := by
  simp [foundAt]

theorem foundAt_cons_of_pos {place : Place} {found : TagMatch} (selected : selects place = true)
    (isFound : place.found? = some found) (places : List Place) :
    foundAt selects (place :: places) = found :: foundAt selects places := by
  simp [foundAt, selected, isFound]

theorem foundAt_cons_of_neg {place : Place} (notSelected : selects place = false) (places : List Place) :
    foundAt selects (place :: places) = foundAt selects places := by
  simp [foundAt, notSelected]

theorem foundAt_sublist {other : Place → Bool} (narrower : ∀ place, selects place = true → other place = true)
    (places : List Place) : (foundAt selects places).Sublist (foundAt other places) := by
  have both : places.filter selects = (places.filter other).filter selects := by
    rw [List.filter_filter]
    exact List.filter_congr fun place _ => by simpa using narrower place
  rw [foundAt, foundAt, both]
  exact List.filter_sublist.filterMap found?

end Place

namespace Outline

open Place

variable {tag : String} {around : List Outline} {place : Place}

mutual

/-- What is found is found at the places of the templates with the tag. -/
theorem tags_eq_foundAt (tag : String) (around : List Outline) : ∀ part : Outline,
    tags tag (bindingWithin around) (around.any isExport) part = foundAt (Place.isQuery tag) (places around part)
  | tagged name start stop texts parts => by
    have inner : tagsIn tag (bindingWithin around) (around.any isExport) parts = foundAt _ _ :=
      tagsIn_eq_foundAt tag (tagged name start stop texts parts :: around) parts
    rw [tags, places, inner]
    by_cases isTag : name = tag
    · rw [if_pos isTag, foundAt_cons_of_pos (decide_eq_true isTag) rfl]
    · rw [if_neg isTag, foundAt_cons_of_neg (decide_eq_false isTag)]
  | declarator binding? parts => by
    have inner : tagsIn tag binding? (around.any isExport) parts = foundAt _ _ :=
      tagsIn_eq_foundAt tag (declarator binding? parts :: around) parts
    rw [tags, places, inner, foundAt_cons_of_neg rfl]
  | exported parts => by
    have inner : tagsIn tag (bindingWithin around) true parts = foundAt _ _ :=
      tagsIn_eq_foundAt tag (exported parts :: around) parts
    rw [tags, places, inner, foundAt_cons_of_neg rfl]
  | placeholder _ => by
    rw [tags, places]
    rfl

theorem tagsIn_eq_foundAt (tag : String) (around : List Outline) : ∀ parts : List Outline,
    tagsIn tag (bindingWithin around) (around.any isExport) parts = foundAt (Place.isQuery tag) (placesIn around parts)
  | [] => by
    rw [tagsIn, placesIn]
    rfl
  | part :: rest => by
    rw [tagsIn, placesIn, foundAt_append, tags_eq_foundAt tag around part, tagsIn_eq_foundAt tag around rest]

end

mutual

theorem around_suffix : ∀ {around : List Outline} (part : Outline), place ∈ places around part →
    around <:+ place.around
  | around, tagged _ _ _ _ parts, member | around, declarator _ parts, member | around, exported parts, member => by
    rw [places] at member
    rcases List.mem_cons.mp member with rfl | inParts
    · exact List.suffix_refl _
    · exact (List.suffix_cons _ _).trans (around_suffix_in parts inParts)
  | around, placeholder _, member => by
    rw [places] at member
    obtain rfl := List.mem_singleton.mp member
    exact List.suffix_refl _

theorem around_suffix_in : ∀ {around : List Outline} (parts : List Outline), place ∈ placesIn around parts →
    around <:+ place.around
  | _, [], member => by
    rw [placesIn] at member
    cases member
  | _, part :: rest, member => by
    rw [placesIn] at member
    rcases List.mem_append.mp member with inPart | inRest
    · exact around_suffix part inPart
    · exact around_suffix_in rest inRest

end

theorem isNested_of_mem (within : around.any (isQuery tag) = true) {parts : List Outline}
    (member : place ∈ placesIn around parts) : place.isNested tag = true := by
  obtain ⟨part, inAround, isQuery⟩ := List.any_eq_true.mp within
  exact List.any_eq_true.mpr ⟨part, (around_suffix_in parts member).subset inAround, isQuery⟩

theorem foundAt_isOutermost_of_nested (within : around.any (isQuery tag) = true) (parts : List Outline) :
    foundAt (isOutermost tag) (placesIn around parts) = [] := by
  have noneLeft : (placesIn around parts).filter (isOutermost tag) = [] := by
    refine List.filter_eq_nil_iff.mpr fun place member => ?_
    simp [isOutermost, isNested_of_mem within member]
  rw [foundAt, noneLeft, List.filterMap_nil]

section Substitute

variable {text : String}

theorem substitute_tagged (tag : String) (replacement : Outline) (name : String) (start stop : Nat) (texts : List String)
    (parts : List Outline) : substitute (isQuery tag) replacement (tagged name start stop texts parts) =
      if name = tag then replacement else tagged name start stop texts (substituteIn (isQuery tag) replacement parts) := by
  simp [substitute, isQuery]

mutual

theorem tags_substitute (tag text : String) (binding? : Option String) (isExported : Bool) : ∀ part : Outline,
    tags tag binding? isExported (substitute (isQuery tag) (placeholder text) part) = []
  | tagged name start stop texts parts => by
    rw [substitute_tagged]
    by_cases isTag : name = tag
    · rw [if_pos isTag, tags]
    · rw [if_neg isTag, tags, if_neg isTag, tagsIn_substituteIn tag text _ _ parts]
  | declarator _ parts | exported parts => by
    rw [substitute, if_neg nofun, tags, tagsIn_substituteIn tag text _ _ parts]
  | placeholder _ => by rw [substitute, if_neg nofun, tags]

theorem tagsIn_substituteIn (tag text : String) (binding? : Option String) (isExported : Bool) : ∀ parts : List Outline,
    tagsIn tag binding? isExported (substituteIn (isQuery tag) (placeholder text) parts) = []
  | [] => by rw [substituteIn, tagsIn]
  | part :: rest => by
    rw [substituteIn, tagsIn, tags_substitute tag text _ _ part, tagsIn_substituteIn tag text _ _ rest, List.append_nil]

end

/-- What of the places remains where nested ones go and the templates with the tag give way. -/
def remaining (tag text : String) (places : List Place) : List Outline :=
  (places.filter fun place => !place.isNested tag).map fun place => substitute (isQuery tag) (placeholder text) place.part

theorem remaining_append (tag text : String) (places more : List Place) :
    remaining tag text (places ++ more) = remaining tag text places ++ remaining tag text more := by
  simp [remaining]

theorem remaining_cons (notNested : around.any (isQuery tag) = false) (part : Outline) (places : List Place) :
    remaining tag text (⟨part, around⟩ :: places) =
      substitute (isQuery tag) (placeholder text) part :: remaining tag text places := by
  simp [remaining, isNested, notNested]

theorem remaining_of_nested (within : around.any (isQuery tag) = true) (parts : List Outline) :
    remaining tag text (placesIn around parts) = [] := by
  rw [remaining, List.map_eq_nil_iff, List.filter_eq_nil_iff]
  intro place member
  simp [isNested_of_mem within member]

mutual

theorem parts_substitute (others : List Outline) : ∀ (around : List Outline) (part : Outline),
    around.any (isQuery tag) = false →
      (places others (substitute (isQuery tag) (placeholder text) part)).map (·.part) =
        remaining tag text (places around part)
  | around, tagged name start stop texts parts, notNested => by
    rw [places, remaining_cons notNested, substitute_tagged]
    by_cases isTag : name = tag
    · have within : (tagged name start stop texts parts :: around).any (isQuery tag) = true := by simp [isQuery, isTag]
      -- nothing is left of its parts
      rw [if_pos isTag, places, remaining_of_nested within]
      rfl
    · have outside : (tagged name start stop texts parts :: around).any (isQuery tag) = false := by
        simp [isQuery, isTag, notNested]
      rw [if_neg isTag, places, List.map_cons, parts_substituteIn _ _ parts outside]
  | around, declarator binding? parts, notNested => by
    rw [places, remaining_cons notNested, substitute, if_neg nofun, places, List.map_cons,
      parts_substituteIn _ (declarator binding? parts :: around) parts notNested]
  | around, exported parts, notNested => by
    rw [places, remaining_cons notNested, substitute, if_neg nofun, places, List.map_cons,
      parts_substituteIn _ (exported parts :: around) parts notNested]
  | around, placeholder _, notNested => by
    rw [places, remaining_cons notNested, substitute, if_neg nofun, places]
    rfl

theorem parts_substituteIn (others : List Outline) : ∀ (around : List Outline) (parts : List Outline),
    around.any (isQuery tag) = false →
      (placesIn others (substituteIn (isQuery tag) (placeholder text) parts)).map (·.part) =
        remaining tag text (placesIn around parts)
  | _, [], _ => by
    rw [substituteIn, placesIn, placesIn]
    rfl
  | _, part :: rest, notNested => by
    rw [substituteIn, placesIn, placesIn, List.map_append, remaining_append, parts_substitute others _ part notNested,
      parts_substituteIn others _ rest notNested]

end

end Substitute

end Outline

/-- What speaks against replacing a template. -/
def TagMatch.refusal? (found : TagMatch) : Option TagError :=
  match checkTagDocument found.document with
  | .error error => some error
  | .ok _ => none

/-- The first refusal, or else the result and how many templates there were. -/
def unlessRefused {Result : Type} (found : List TagMatch) (result : Result) : Except TagError (Replaced Result) :=
  match found.findSome? TagMatch.refusal? with
  | some error => .error error
  | none => .ok ⟨result, found.length⟩

section Refusal

variable {Result Other Whole : Type} {tag : String} {found more : List TagMatch}

theorem unlessRefused_map (result : Result) (wrap : Result → Other) :
    (do let inner ← unlessRefused found result; return ⟨wrap inner.result, inner.count⟩) =
      unlessRefused found (wrap result) := by
  unfold unlessRefused
  cases found.findSome? TagMatch.refusal? <;> rfl

theorem unlessRefused_append (result : Result) (other : Other) (join : Result → Other → Whole) :
    (do let first ← unlessRefused found result
        let others ← unlessRefused more other
        return ⟨join first.result others.result, first.count + others.count⟩) =
      unlessRefused (found ++ more) (join result other) := by
  unfold unlessRefused
  rw [List.findSome?_append, List.length_append]
  cases found.findSome? TagMatch.refusal? <;> cases more.findSome? TagMatch.refusal? <;> rfl

theorem TagMatch.refusal?_eq_none {item : TagMatch} : item.refusal? = none ↔ checkTagDocument item.document = .ok () := by
  unfold TagMatch.refusal?
  cases checkTagDocument item.document <;> simp

theorem TagMatch.refusal?_eq_some {item : TagMatch} {error : TagError} :
    item.refusal? = some error ↔ checkTagDocument item.document = .error error := by
  unfold TagMatch.refusal?
  cases checkTagDocument item.document <;> simp

theorem unlessRefused_eq_ok {result : Result} {replaced : Replaced Result} :
    unlessRefused found result = .ok replaced ↔
      (∀ item ∈ found, checkTagDocument item.document = .ok ()) ∧ replaced = ⟨result, found.length⟩ := by
  simp only [← TagMatch.refusal?_eq_none, ← List.findSome?_eq_none_iff]
  unfold unlessRefused
  cases found.findSome? TagMatch.refusal? <;> simp [eq_comm]

theorem unlessRefused_eq_error {result : Result} {error : TagError} :
    unlessRefused found result = .error error ↔ ∃ before item behind, found = before ++ item :: behind ∧
      (∀ earlier ∈ before, checkTagDocument earlier.document = .ok ()) ∧
        checkTagDocument item.document = .error error := by
  have first : unlessRefused found result = .error error ↔ found.findSome? TagMatch.refusal? = some error := by
    unfold unlessRefused
    cases found.findSome? TagMatch.refusal? <;> simp
  simp only [first, List.findSome?_eq_some_iff, TagMatch.refusal?_eq_none, TagMatch.refusal?_eq_some, and_comm]

end Refusal

namespace Outline

open Place

variable {tag : String}

mutual

/-- Replacing checks the outermost templates in turn. -/
theorem replace_eq : ∀ (around : List Outline) (part : Outline), around.any (isQuery tag) = false →
    replace tag part = unlessRefused (foundAt (isOutermost tag) (places around part))
      (substitute (isQuery tag) (placeholder extractedPlaceholder) part)
  | around, tagged name start stop texts parts, notNested => by
    rw [replace, places, substitute_tagged]
    by_cases isTag : name = tag
    -- its parts are nested, so that it counts alone
    · have within : (tagged name start stop texts parts :: around).any (isQuery tag) = true := by simp [isQuery, isTag]
      have selected : isOutermost tag ⟨tagged name start stop texts parts, around⟩ = true := by
        simp [isOutermost, Place.isQuery, isQuery, isNested, isTag, notNested]
      rw [if_pos isTag, if_pos isTag, foundAt_cons_of_pos selected rfl, foundAt_isOutermost_of_nested within]
      simp only [unlessRefused, List.findSome?_cons, TagMatch.refusal?]
      cases checkTagDocument (readTemplate texts) <;> rfl
    · have outside : (tagged name start stop texts parts :: around).any (isQuery tag) = false := by
        simp [isQuery, isTag, notNested]
      have notSelected : isOutermost tag ⟨tagged name start stop texts parts, around⟩ = false := by
        simp [isOutermost, Place.isQuery, isQuery, isTag]
      rw [if_neg isTag, if_neg isTag, foundAt_cons_of_neg notSelected, replaceAll_eq _ parts outside,
        unlessRefused_map _ (tagged name start stop texts)]
  | around, declarator binding? parts, notNested => by
    rw [replace, places, substitute, if_neg nofun, foundAt_cons_of_neg rfl,
      replaceAll_eq (declarator binding? parts :: around) parts notNested, unlessRefused_map _ (declarator binding?)]
  | around, exported parts, notNested => by
    rw [replace, places, substitute, if_neg nofun, foundAt_cons_of_neg rfl,
      replaceAll_eq (exported parts :: around) parts notNested, unlessRefused_map _ exported]
  | around, placeholder _, _ => by
    rw [replace, places, substitute, if_neg nofun]
    rfl

theorem replaceAll_eq : ∀ (around : List Outline) (parts : List Outline), around.any (isQuery tag) = false →
    replaceAll tag parts = unlessRefused (foundAt (isOutermost tag) (placesIn around parts))
      (substituteIn (isQuery tag) (placeholder extractedPlaceholder) parts)
  | _, [], _ => by
    rw [replaceAll, placesIn, substituteIn]
    rfl
  | _, part :: rest, notNested => by
    rw [replaceAll, placesIn, substituteIn, foundAt_append, replace_eq _ part notNested, replaceAll_eq _ rest notNested,
      unlessRefused_append _ _ List.cons]

end

end Outline

namespace Module

variable (source : Module) (tag : String)

def places : List Place := Outline.placesIn [] source.parts

/-- The templates with the tag that are within no other. -/
def outermostTags : List TagMatch := Place.foundAt (Place.isOutermost tag) source.places

/-- The module with each of these templates replaced by the placeholder. -/
def withPlaceholders : Module :=
  ⟨Outline.substituteIn (Outline.isQuery tag) (.placeholder extractedPlaceholder) source.parts⟩

theorem replaceTags_eq :
    source.replaceTags tag = unlessRefused (source.outermostTags tag) (source.withPlaceholders tag) := by
  rw [replaceTags, Outline.replaceAll_eq [] source.parts rfl, unlessRefused_map _ Module.mk]
  rfl

/-- How the templates that are found and those that are replaced belong together. -/
structure ReplacesTags (source : Module) (tag : String) : Prop where
  /-- All templates with the tag are found, in the order of the places. -/
  found : source.tags tag = Place.foundAt (Place.isQuery tag) source.places
  outermost : (source.outermostTags tag).Sublist (source.tags tag)
  replaced : ∀ replaced, source.replaceTags tag = .ok replaced ↔
    (∀ item ∈ source.outermostTags tag, checkTagDocument item.document = .ok ()) ∧
      replaced = ⟨source.withPlaceholders tag, (source.outermostTags tag).length⟩
  /-- The first one that is not fit is reported. -/
  refused : ∀ error, source.replaceTags tag = .error error ↔ ∃ before item behind,
    source.outermostTags tag = before ++ item :: behind ∧
      (∀ earlier ∈ before, checkTagDocument earlier.document = .ok ()) ∧ checkTagDocument item.document = .error error
  clean : (source.withPlaceholders tag).tags tag = []
  /-- The parts that are left are those within no template with the tag, in their order. -/
  remaining : (source.withPlaceholders tag).places.map (·.part) = Outline.remaining tag extractedPlaceholder source.places

theorem replacesTags : ReplacesTags source tag := by
  have found : source.tags tag = Place.foundAt (Place.isQuery tag) source.places :=
    Outline.tagsIn_eq_foundAt tag [] source.parts
  refine ⟨found, ?_, fun replaced => ?_, fun error => ?_, ?_, ?_⟩
  · rw [found]
    exact Place.foundAt_sublist (fun place isOutermost => (Bool.and_eq_true_iff.mp isOutermost).1) _
  · rw [replaceTags_eq, unlessRefused_eq_ok]
  · rw [replaceTags_eq, unlessRefused_eq_error]
  · exact Outline.tagsIn_substituteIn tag _ none false source.parts
  · exact Outline.parts_substituteIn [] [] source.parts rfl

end Module

end SiteQuery.Script
