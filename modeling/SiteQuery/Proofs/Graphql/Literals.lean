import Mathlib.Data.List.Forall2
import SiteQuery.Graphql.Document.Reader
import SiteQuery.Proofs.Graphql.Numerals
import SiteQuery.Proofs.Graphql.Printable
import SiteQuery.Proofs.Graphql.Quotation

/-!
The texts of types and of values are read back.
-/

namespace SiteQuery.Graphql

open Grammar

/-- A character that ends every name, number and string. -/
def isDelimiter (c : Char) : Bool := " ,\n()[]\x7b\x7d:!".toList.contains c

def Delimited (rest : List Char) : Prop := ∀ c ∈ rest.head?, isDelimiter c = true

/-- The text begins with a character that is no blank. -/
def StartsSolid (text : List Char) : Prop := ∃ c others, text = c :: others ∧ Rule.isBlank c = false ∧ c ≠ '#'

section Delimiters

variable {c : Char} {text rest : List Char}

theorem delimiter_cases (isDelimited : isDelimiter c = true) : c = ' ' ∨ c = ',' ∨ c = '\n' ∨ c = '(' ∨ c = ')' ∨
    c = '[' ∨ c = ']' ∨ c = '\x7b' ∨ c = '\x7d' ∨ c = ':' ∨ c = '!' := by
  have member : c ∈ [' ', ',', '\n', '(', ')', '[', ']', '\x7b', '\x7d', ':', '!'] := by
    simpa [isDelimiter] using isDelimited
  simpa using member

theorem Delimited.cons (isDelimited : isDelimiter c = true) : Delimited (c :: rest) := by
  intro d isHead
  cases isHead
  exact isDelimited

theorem Delimited.nameEnds (delimited : Delimited rest) : NameEnds rest := by
  intro c isHead
  rcases delimiter_cases (delimited c isHead) with rfl | rfl | rfl | rfl | rfl | rfl | rfl | rfl | rfl | rfl | rfl <;> rfl

theorem Delimited.numberEnds (delimited : Delimited rest) : NumberEnds rest := by
  refine ⟨delimited.nameEnds, fun c isHead => ?_⟩
  rintro rfl
  exact absurd (delimited _ isHead) (by decide)

theorem Delimited.noQuote (delimited : Delimited rest) : ∀ c ∈ rest.head?, c ≠ '"' := by
  rintro c isHead rfl
  exact absurd (delimited _ isHead) (by decide)

theorem StartsSolid.solid (starts : StartsSolid text) (rest : List Char) : Solid (text ++ rest) := by
  obtain ⟨c, others, rfl, notBlank, noComment⟩ := starts
  intro d isHead
  cases isHead
  exact ⟨notBlank, noComment⟩

theorem solid_of_isNameRest (isRest : Rule.isNameRest c = true) : Rule.isBlank c = false ∧ c ≠ '#' := by
  constructor
  · cases isBlank : Rule.isBlank c with
    | false => rfl
    | true =>
      simp only [Rule.isBlank, Rule.isLineEnd, Bool.or_eq_true, beq_iff_eq] at isBlank
      rcases isBlank with (((rfl | rfl) | rfl) | rfl) | rfl | rfl <;> exact absurd isRest (by decide)
  · rintro rfl
    exact absurd isRest (by decide)

theorem IsName.startsSolid (isName : IsName text) : StartsSolid text := by
  cases text with
  | nil => exact isName.elim
  | cons c text => exact ⟨c, text, rfl, solid_of_isNameRest (by simp [Rule.isNameRest, isName.1])⟩

end Delimiters

namespace TypeReference

variable {rest : List Char}

/-- The text of a type with all that wraps its name. -/
def IsTypeText (text : List Char) (reference : TypeReference) : Prop :=
  ∃ depth name suffix, text = List.replicate depth '[' ++ name ++ suffix ∧ IsName name ∧
    (∀ c ∈ suffix, c = ']' ∨ c = '!') ∧ suffix.foldl wrap (.named (String.ofList name)) = reference

theorem IsTypeText.named {text : List Char} (isName : IsName text) : IsTypeText text (.named (String.ofList text)) :=
  ⟨0, text, [], by simp, isName, nofun, rfl⟩

theorem IsTypeText.list {text : List Char} {reference : TypeReference} (isType : IsTypeText text reference) :
    IsTypeText ('[' :: (text ++ [']'])) (.list reference) := by
  obtain ⟨depth, name, suffix, rfl, isName, closing, wrapped⟩ := isType
  refine ⟨depth + 1, name, suffix ++ [']'], by simp [List.replicate_succ], isName, ?_, ?_⟩
  · intro c member
    rcases List.mem_append.mp member with inSuffix | isLast
    · exact closing c inSuffix
    · exact .inl (List.mem_singleton.mp isLast)
  · rw [List.foldl_append, wrapped]
    rfl

theorem IsTypeText.nonNull {text : List Char} {reference : TypeReference} (isType : IsTypeText text reference) :
    IsTypeText (text ++ ['!']) (.nonNull reference) := by
  obtain ⟨depth, name, suffix, rfl, isName, closing, wrapped⟩ := isType
  refine ⟨depth, name, suffix ++ ['!'], by simp, isName, ?_, ?_⟩
  · intro c member
    rcases List.mem_append.mp member with inSuffix | isLast
    · exact closing c inSuffix
    · exact .inr (List.mem_singleton.mp isLast)
  · rw [List.foldl_append, wrapped]
    rfl

theorem Printable.isTypeText {reference : TypeReference} (printable : reference.Printable) :
    IsTypeText reference.text.toList reference := by
  induction reference with
  | named name => simpa [text] using IsTypeText.named printable
  | list item ih => simpa [text] using (ih printable).list
  | nonNull inner ih => simpa [text] using (ih printable.1).nonNull

theorem Printable.startsSolid {reference : TypeReference} (printable : reference.Printable) :
    StartsSolid reference.text.toList := by
  obtain ⟨depth, name, suffix, isText, isName, _, _⟩ := printable.isTypeText
  rw [isText]
  cases depth with
  | zero =>
    obtain ⟨c, others, rfl, solid⟩ := isName.startsSolid
    exact ⟨c, others ++ suffix, rfl, solid⟩
  | succ depth => exact ⟨'[', List.replicate depth '[' ++ name ++ suffix, rfl, rfl, by decide⟩

theorem IsTypeText.ofText_eq {text : List Char} {reference : TypeReference} (isType : IsTypeText text reference) :
    ofText text = reference := by
  obtain ⟨depth, name, suffix, isText, isName, closing, wrapped⟩ := isType
  have opened : (List.replicate depth '[' ++ (name ++ suffix)).dropWhile (· == '[') = name ++ suffix := by
    rw [List.dropWhile_append_of_pos (fun c member => by simp [List.eq_of_mem_replicate member])]
    cases name with
    | nil => exact isName.elim
    | cons c name =>
      have notOpen : (c == '[') = false := by
        rw [beq_eq_false_iff_ne]
        rintro rfl
        exact absurd isName.1 (by decide)
      simp [notOpen]
  have isRest (c : Char) (member : c ∈ name) : (c != ']' && c != '!') = true := by
    have nameChar : Rule.isNameRest c = true := by
      cases name with
      | nil => exact isName.elim
      | cons d name =>
        rcases List.mem_cons.mp member with rfl | inName
        · simp [Rule.isNameRest, isName.1]
        · exact isName.2 c inName
    simp only [Bool.and_eq_true, bne_iff_ne]
    constructor
    · rintro rfl
      exact absurd nameChar (by decide)
    · rintro rfl
      exact absurd nameChar (by decide)
  have isSuffix : suffix.takeWhile (fun c => c != ']' && c != '!') = [] := by
    cases suffix with
    | nil => rfl
    | cons c suffix => rcases closing c List.mem_cons_self with rfl | rfl <;> rfl
  have named : (name ++ suffix).takeWhile (fun c => c != ']' && c != '!') = name := by
    rw [List.takeWhile_append_of_pos isRest, isSuffix, List.append_nil]
  simp only [ofText, isText, List.append_assoc, opened, named, List.drop_left, wrapped]

/-- Nothing of a type goes on here. -/
def Ends (rest : List Char) : Prop := NameEnds rest ∧ ∀ c ∈ rest.head?, c ≠ '!'

theorem accepts_unmarked (rest : List Char) (noMark : ∀ c ∈ rest.head?, c ≠ '!') :
    Accepts (.option (Rule.word "!")) rest [] rest :=
  .right (.word_head noMark) rfl

/-- The text of a type is one token, and that of a type that may be null can be marked as non-null. -/
theorem accepts_text {reference : TypeReference} (printable : reference.Printable) :
    (reference.isNonNull = false → ∀ rest, NameEnds rest → ∃ trees,
      Accepts (.either (.call .name) (.sequence [Rule.word "[", .call .typeText, Rule.word "]"]))
        (reference.text.toList ++ rest) trees rest) ∧
    ∀ rest, Ends rest → Accepts (.call .typeText) (reference.text.toList ++ rest)
      [.token .typeText (reference.text.toList.length + rest.length) reference.text.toList] rest := by
  induction reference with
  | named name =>
    have open_ (rest : List Char) (ends : NameEnds rest) : ∃ trees,
        Accepts (.either (.call .name) (.sequence [Rule.word "[", .call .typeText, Rule.word "]"]))
          (name.toList ++ rest) trees rest := ⟨_, .left (accepts_name printable ends)⟩
    refine ⟨fun _ => open_, fun rest ends => ?_⟩
    obtain ⟨trees, accepted⟩ := open_ rest ends.1
    exact accepts_token rfl (accepted.both (accepts_unmarked rest ends.2))
  | list item ih =>
    have isText (rest : List Char) : (list item).text.toList ++ rest = ['['] ++ (item.text.toList ++ ([']'] ++ rest)) := by
      simp [text]
    have open_ (rest : List Char) : ∃ trees,
        Accepts (.either (.call .name) (.sequence [Rule.word "[", .call .typeText, Rule.word "]"]))
          ((list item).text.toList ++ rest) trees rest := by
      have closing : Ends ([']'] ++ rest) := by
        constructor
        · intro c isHead
          cases isHead
          rfl
        · intro c isHead
          cases isHead
          decide
      have inner := (ih printable).2 _ closing
      have noName : Refuses (.call .name) (['['] ++ (item.text.toList ++ ([']'] ++ rest))) := by
        refine refuses_name fun c isHead => ?_
        cases isHead
        rfl
      rw [isText]
      exact ⟨_, .right noName (.both (.word ['['] _) (inner.both (.word [']'] rest)))⟩
    refine ⟨fun _ rest _ => open_ rest, fun rest ends => ?_⟩
    obtain ⟨trees, accepted⟩ := open_ rest
    exact accepts_token rfl (accepted.both (accepts_unmarked rest ends.2))
  | nonNull inner ih =>
    refine ⟨nofun, fun rest ends => ?_⟩
    have marked : NameEnds (['!'] ++ rest) := by
      intro c isHead
      cases isHead
      rfl
    obtain ⟨trees, accepted⟩ := (ih printable.1).1 printable.2 _ marked
    have isText : (nonNull inner).text.toList ++ rest = inner.text.toList ++ (['!'] ++ rest) := by simp [text]
    have body : Accepts (Rule.body .typeText) ((nonNull inner).text.toList ++ rest) (trees ++ []) rest := by
      rw [isText]
      exact accepted.both (.left (.word ['!'] rest))
    exact accepts_token rfl body

end TypeReference

section Lists

variable {Item : Type} {part : Rule.Part} {write : Item → String} {reads : Item → SyntaxTree → Prop}
  {follows : List Char → Prop} {items : List Item}

/-- Items with commas between them are read one after another, up to where no further item begins. -/
theorem exists_chain {stop : List Char} (starts : ∀ item ∈ items, StartsSolid (write item).toList)
    (accepts : ∀ item ∈ items, ∀ rest, follows rest →
      ∃ tree, Reaches part ((write item).toList ++ rest) [tree] rest ∧ reads item tree)
    (following : ∀ item ∈ items, ∀ rest, follows (',' :: ' ' :: ((write item).toList ++ rest)))
    (solid : Solid stop) (follow : follows stop) (refused : Refuses part stop) :
    ∃ trees, Expression.Chain grammar.match? part Rule.blank
      ((", ".intercalate (items.map write)).toList ++ stop) trees stop ∧ List.Forall₂ reads items trees := by
  induction items with
  | nil =>
    refine ⟨[], ?_, .nil⟩
    rw [List.map_nil, String.intercalate_nil, String.toList_empty, List.nil_append]
    exact .nil (by rwa [afterBlank_of_solid solid])
  | cons item others ih =>
    have startsItem := starts item List.mem_cons_self
    obtain ⟨trees, chain, areRead⟩ := ih (fun other member => starts other (List.mem_cons_of_mem _ member))
      (fun other member => accepts other (List.mem_cons_of_mem _ member))
      (fun other member => following other (List.mem_cons_of_mem _ member))
    cases others with
    | nil =>
      obtain ⟨tree, reaches, isRead⟩ := accepts item List.mem_cons_self stop follow
      cases areRead
      have isFirst : Reaches part (Rule.blank.after grammar.match? ((write item).toList ++ stop)) [tree] stop := by
        rwa [afterBlank_of_solid (startsItem.solid stop)]
      rw [List.map_singleton, String.intercalate_singleton]
      exact ⟨[tree] ++ [], .cons isFirst chain, .cons isRead .nil⟩
    | cons next more =>
      have notEmpty : trees ≠ [] := by
        rintro rfl
        cases areRead
      obtain ⟨after, isAfter⟩ : ∃ after,
          (", ".intercalate ((next :: more).map write)).toList ++ stop = (write next).toList ++ after := by
        cases more with
        | nil => exact ⟨stop, by simp⟩
        | cons third more =>
          refine ⟨(", " ++ ", ".intercalate ((third :: more).map write)).toList ++ stop, ?_⟩
          simp [String.intercalate_cons_cons]
      have separated : (", ".intercalate ((item :: next :: more).map write)).toList ++ stop =
          (write item).toList ++ (',' :: ' ' :: ((", ".intercalate ((next :: more).map write)).toList ++ stop)) := by
        simp [String.intercalate_cons_cons]
      have follow := following next (List.mem_cons_of_mem _ List.mem_cons_self) after
      rw [← isAfter] at follow
      obtain ⟨tree, reaches, isRead⟩ := accepts item List.mem_cons_self _ follow
      have atNext (following : List Char) : Rule.blank.after grammar.match? (',' :: ' ' :: following) =
          Rule.blank.after grammar.match? following := (afterBlank_cons rfl).trans (afterBlank_cons rfl)
      rw [← afterBlank_of_solid (startsItem.solid _)] at reaches
      rw [separated]
      exact ⟨[tree] ++ trees, .cons reaches (chain.of_after notEmpty (atNext _)), .cons isRead areRead⟩

theorem reaches_brackets (opening : String) {closing : String} {inner : Rule.Part} {close : Char} {text rest : List Char}
    {trees : List SyntaxTree} (isClosing : closing.toList = [close]) (solid : Rule.isBlank close = false ∧ close ≠ '#')
    (reaches : Reaches inner (Rule.blank.after grammar.match? (text ++ close :: rest)) trees (close :: rest)) :
    Reaches (Rule.within opening inner closing) (opening.toList ++ (text ++ close :: rest)) trees rest := by
  have closes : Reaches (Rule.word closing) ([close] ++ rest) [] rest := by
    rw [← isClosing]
    exact reaches_word _ _
  have stopSolid : Solid (close :: rest) := by
    intro c isHead
    cases isHead
    exact solid
  have closed : Reaches (Rule.spaced [inner, Rule.word closing])
      (Rule.blank.after grammar.match? (text ++ close :: rest)) (trees ++ []) rest := by
    refine reaches.spaced_cons isBlank_blank ?_
    rwa [afterBlank_of_solid stopSolid]
  rw [List.append_nil] at closed
  exact (reaches_word opening.toList _).spaced_cons isBlank_blank closed

/-- Brackets around items with commas between them; the text between them may be required not to be empty. -/
theorem reaches_within (needed : Bool) (opening closing : String) {close : Char} (isClosing : closing.toList = [close])
    (solid : Rule.isBlank close = false ∧ close ≠ '#') (strict : part.IsStrict grammar.match?)
    (starts : ∀ item ∈ items, StartsSolid (write item).toList)
    (accepts : ∀ item ∈ items, ∀ rest, follows rest →
      ∃ tree, Reaches part ((write item).toList ++ rest) [tree] rest ∧ reads item tree)
    (following : ∀ item ∈ items, ∀ rest, follows (',' :: ' ' :: ((write item).toList ++ rest)))
    (follow : ∀ rest, follows (close :: rest)) (refused : ∀ rest, Refuses part (close :: rest))
    (notEmpty : needed = true → items ≠ []) (rest : List Char) :
    ∃ trees, Reaches
      (Rule.within opening (if needed then Rule.someSpaced part else Rule.manySpaced part) closing)
      ((opening ++ ", ".intercalate (items.map write) ++ closing).toList ++ rest) trees rest ∧
      List.Forall₂ reads items trees := by
  have stopSolid : Solid (close :: rest) := by
    intro c isHead
    cases isHead
    exact solid
  obtain ⟨trees, chain, areRead⟩ := exists_chain starts accepts following stopSolid (follow rest) (refused rest)
  have isText : (opening ++ ", ".intercalate (items.map write) ++ closing).toList ++ rest =
      opening.toList ++ ((", ".intercalate (items.map write)).toList ++ close :: rest) := by simp [isClosing]
  rw [isText]
  refine ⟨trees, reaches_brackets opening isClosing solid ?_, areRead⟩
  cases needed with
  | true =>
    refine chain.someSpaced isBlank_blank strict ?_
    rintro rfl
    cases areRead
    exact notEmpty rfl rfl
  | false => exact chain.manySpaced isBlank_blank strict

end Lists

end SiteQuery.Graphql
