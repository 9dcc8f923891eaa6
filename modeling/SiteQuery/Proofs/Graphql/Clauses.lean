import SiteQuery.Graphql.Node.Text
import SiteQuery.Proofs.Graphql.Values

/-!
The texts of arguments, directives and variable definitions are read back.
-/

namespace SiteQuery.Graphql

open Grammar

/-- What comes after blanks begins with none of these characters. -/
def Avoids (characters rest : List Char) : Prop :=
  ∀ c ∈ (Rule.blank.after grammar.match? rest).head?, c ∉ characters

section Avoiding

variable {characters fewer rest : List Char} {c : Char}

theorem Avoids.cons (solid : Rule.isBlank c = false ∧ c ≠ '#') (differs : c ∉ characters) :
    Avoids characters (c :: rest) := by
  intro d isHead
  rw [afterBlank_of_solid (forall_head solid)] at isHead
  cases isHead
  exact differs

theorem Avoids.blank (isBlank : Rule.isBlank c = true) (avoids : Avoids characters rest) :
    Avoids characters (c :: rest) := by
  intro d isHead
  rw [afterBlank_cons isBlank] at isHead
  exact avoids d isHead

theorem Avoids.mono (avoids : Avoids characters rest) (included : fewer ⊆ characters) : Avoids fewer rest :=
  fun d isHead member => avoids d isHead (included member)

theorem Avoids.ne (avoids : Avoids characters rest) (member : c ∈ characters) :
    ∀ d ∈ (Rule.blank.after grammar.match? rest).head?, d ≠ c := by
  rintro d isHead rfl
  exact avoids d isHead member

end Avoiding

def Directive.rounded (directive : Directive) : List Decimal.Binary64 :=
  directive.arguments.flatMap (·.value.rounded)

/-- All of these numbers are read back. -/
def AllReadBack (numbers : List Decimal.Binary64) : Prop := ∀ number ∈ numbers, (Number.binary number).ReadsBack

instance (numbers : List Decimal.Binary64) : Decidable (AllReadBack numbers) :=
  inferInstanceAs (Decidable (∀ number ∈ numbers, (Number.binary number).ReadsBack))

theorem strict_call (rule : Rule) (notEmpty : rule.isOptional = false) :
    (Expression.call rule).IsStrict grammar.match? :=
  isStrict_of_mayBeEmpty notEmpty

section Parenthesized

variable {Item : Type} {write : Item → String} {items : List Item} {rest : List Char}

theorem parenthesized_cases (write : Item → String) (items : List Item) :
    (items = [] ∧ parenthesized (items.map write) = "") ∨ (items ≠ [] ∧
      parenthesized (items.map write) = "(" ++ ", ".intercalate (items.map write) ++ ")") := by
  cases items with
  | nil => exact .inl ⟨rfl, rfl⟩
  | cons => exact .inr ⟨List.cons_ne_nil _ _, rfl⟩

theorem delimited_parenthesized (write : Item → String) (items : List Item) (delimited : Delimited rest) :
    Delimited ((parenthesized (items.map write)).toList ++ rest) := by
  rcases parenthesized_cases write items with ⟨_, isText⟩ | ⟨_, isText⟩
  · rwa [isText]
  · simp only [isText, String.append_assoc, String.toList_append]
    exact Delimited.cons rfl

/-- Items between parentheses, and nothing at all for no items. -/
theorem reaches_parenthesized {reads : Item → SyntaxTree → Prop} {follows : List Char → Prop} (needed : Bool)
    (rule inner : Rule) (isSpliced : Rule.kind rule = .spliced)
    (isBody : Rule.body rule = Rule.within "("
      (if needed then Rule.someSpaced (.call inner) else Rule.manySpaced (.call inner)) ")")
    (notOptional : inner.isOptional = false) (starts : ∀ item ∈ items, StartsSolid (write item).toList)
    (accepts : ∀ item ∈ items, ∀ rest, follows rest →
      ∃ tree, Reaches (.call inner) ((write item).toList ++ rest) [tree] rest ∧ reads item tree)
    (following : ∀ item ∈ items, ∀ rest, follows (',' :: ' ' :: ((write item).toList ++ rest)))
    (follow : ∀ rest, follows (')' :: rest)) (refused : ∀ rest, Refuses (.call inner) (')' :: rest))
    (avoids : Avoids ['('] rest) :
    ∃ trees, Reaches (.option (.call rule))
      (Rule.blank.after grammar.match? ((parenthesized (items.map write)).toList ++ rest)) trees rest ∧
      List.Forall₂ reads items trees := by
  rcases parenthesized_cases write items with ⟨rfl, isText⟩ | ⟨notEmpty, isText⟩
  · have refusedRule : Refuses (.call rule) (Rule.blank.after grammar.match? rest) := by
      refine refuses_call ?_
      rw [isBody]
      exact .spaced_head (.word_head (avoids.ne List.mem_cons_self))
    rw [isText]
    exact ⟨[], (Expression.Reaches.option_none refusedRule).congr (isBlank_blank.after_after rest), .nil⟩
  · obtain ⟨trees, within, areRead⟩ := reaches_within needed "(" ")" rfl ⟨rfl, by decide⟩ (strict_call inner notOptional)
      starts accepts following follow refused (fun _ => notEmpty) rest
    rw [← isText, ← isBody] at within
    have solid : Solid ((parenthesized (items.map write)).toList ++ rest) := by
      simp only [isText, String.append_assoc, String.toList_append]
      exact forall_head ⟨rfl, by decide⟩
    rw [afterBlank_of_solid solid]
    exact ⟨trees, .option (reaches_spliced isSpliced within), areRead⟩

end Parenthesized

section Arguments

variable {arguments : List Argument} {rest : List Char}

def ReadsArgument (argument : Argument) (tree : SyntaxTree) : Prop :=
  ∃ left leftAfter leftName item,
    tree = .branch .argument left leftAfter [.token .name leftName argument.name.toList, item] ∧
      ReadsValue false argument.value item

theorem reaches_argument {argument : Argument} (printable : argument.written.Printable)
    (readBack : AllReadBack argument.value.rounded) (delimited : Delimited rest) :
    ∃ tree, Reaches (.call .argument) (argument.text.toList ++ rest) [tree] rest ∧ ReadsArgument argument tree := by
  have restored : argument.value.Restored false := printable.value.restored readBack
  obtain ⟨left, leftAfter, leftName, item, reaches, isRead⟩ :=
    reaches_pair .argument rfl rfl printable.name restored delimited
  exact ⟨_, reaches, left, leftAfter, leftName, item, rfl, isRead⟩

theorem reaches_arguments (printable : ∀ argument ∈ arguments, argument.written.Printable)
    (readBack : ∀ argument ∈ arguments, AllReadBack argument.value.rounded) (avoids : Avoids ['('] rest) :
    ∃ trees, Reaches (.option (.call .arguments))
      (Rule.blank.after grammar.match? ((Argument.listText arguments).toList ++ rest)) trees rest ∧
      List.Forall₂ ReadsArgument arguments trees := by
  have starts (argument : Argument) (member : argument ∈ arguments) : StartsSolid argument.text.toList := by
    obtain ⟨c, others, isCons, solid⟩ := (printable argument member).name.startsSolid
    have isName : argument.name.toList = c :: others := isCons
    exact ⟨c, others ++ (": " ++ argument.value.text).toList, by simp [Argument.text, isName], solid⟩
  have refused (rest : List Char) : Refuses (.call .argument) (')' :: rest) :=
    refuses_call (.spaced_head (refuses_name (forall_head (by decide))))
  exact reaches_parenthesized true .arguments .argument rfl rfl rfl starts
    (fun argument member rest => reaches_argument (printable argument member) (readBack argument member))
    (fun _ _ _ => Delimited.cons rfl) (fun _ => Delimited.cons rfl) refused avoids

/-- What the trees of arguments are read as. -/
theorem readArguments_eq {trees : List SyntaxTree} (areRead : List.Forall₂ ReadsArgument arguments trees)
    (places : Places) : ∃ read, Document.readArguments places trees = .ok read ∧
      read.map Document.Argument.unplaced = arguments.map Argument.written := by
  induction areRead with
  | nil => exact ⟨[], rfl, rfl⟩
  | cons isRead _ ih =>
    obtain ⟨left, leftAfter, leftName, item, rfl, isValue⟩ := isRead
    obtain ⟨others, readOthers, same⟩ := ih
    simp only [Document.readArguments, isValue.read places, readOthers]
    refine ⟨_, rfl, ?_⟩
    simp [same, Document.Argument.unplaced, Argument.written, nameOf_token]

end Arguments

section Directives

variable {directives : List Directive} {rest : List Char}

def ReadsDirective (directive : Directive) (tree : SyntaxTree) : Prop :=
  ∃ left leftAfter leftName trees,
    tree = .branch .directive left leftAfter (.token .name leftName directive.name.toList :: trees) ∧
      List.Forall₂ ReadsArgument directive.arguments trees

theorem text_directive (directive : Directive) (rest : List Char) : directive.text.toList ++ rest =
    ' ' :: (['@'] ++ (directive.name.toList ++ ((Argument.listText directive.arguments).toList ++ rest))) := by
  simp [Directive.text]

theorem reaches_directive {directive : Directive} (printable : directive.written.Printable)
    (readBack : AllReadBack directive.rounded) (delimited : Delimited rest) (avoids : Avoids ['('] rest) :
    ∃ tree, Reaches (.call .directive) (Rule.blank.after grammar.match? (directive.text.toList ++ rest)) [tree] rest ∧
      ReadsDirective directive tree := by
  have ofArguments (argument : Argument) (member : argument ∈ directive.arguments) : argument.written.Printable :=
    printable.arguments argument.written (List.mem_map_of_mem member)
  have ofNumbers (argument : Argument) (member : argument ∈ directive.arguments) : AllReadBack argument.value.rounded :=
    fun number inValue => readBack number (List.mem_flatMap.mpr ⟨argument, member, inValue⟩)
  obtain ⟨trees, reaches, areRead⟩ := reaches_arguments ofArguments ofNumbers avoids
  have isName : IsName directive.name.toList := printable.name
  obtain ⟨leftName, named⟩ := reaches_name isName (delimited_parenthesized Argument.text directive.arguments delimited).nameEnds
  have start : Solid (['@'] ++ (directive.name.toList ++ ((Argument.listText directive.arguments).toList ++ rest))) :=
    forall_head ⟨rfl, by decide⟩
  have body : Reaches (Rule.body .directive)
      (['@'] ++ (directive.name.toList ++ ((Argument.listText directive.arguments).toList ++ rest)))
      ([] ++ ([.token .name leftName directive.name.toList] ++ trees)) rest := by
    refine (reaches_word ['@'] _).spaced_cons isBlank_blank ?_
    rw [afterBlank_of_solid (isName.startsSolid.solid _)]
    exact named.spaced_cons isBlank_blank reaches
  obtain ⟨leftAfter, branch⟩ := reaches_branch .directive rfl body
  rw [text_directive, afterBlank_cons rfl, afterBlank_of_solid start]
  exact ⟨_, branch, _, leftAfter, leftName, trees, rfl, areRead⟩

theorem listText_cons (directive : Directive) (directives : List Directive) (rest : List Char) :
    (Directive.listText (directive :: directives)).toList ++ rest =
      directive.text.toList ++ ((Directive.listText directives).toList ++ rest) := by
  simp [Directive.listText]

theorem delimited_directives (directives : List Directive) (delimited : Delimited rest) :
    Delimited ((Directive.listText directives).toList ++ rest) := by
  cases directives with
  | nil => exact delimited
  | cons directive others =>
    rw [listText_cons, text_directive]
    exact Delimited.cons rfl

theorem avoids_directives {characters : List Char} (directives : List Directive) (noSign : '@' ∉ characters)
    (avoids : Avoids characters rest) : Avoids characters ((Directive.listText directives).toList ++ rest) := by
  cases directives with
  | nil => exact avoids
  | cons directive others =>
    rw [listText_cons, text_directive]
    exact .blank rfl (.cons ⟨rfl, by decide⟩ noSign)

theorem refuses_directive {input : List Char} (noSign : ∀ c ∈ input.head?, c ≠ '@') : Refuses (.call .directive) input :=
  refuses_call (.spaced_head (.word_head noSign))

theorem chain_directives (printable : ∀ directive ∈ directives, directive.written.Printable)
    (readBack : ∀ directive ∈ directives, AllReadBack directive.rounded) (delimited : Delimited rest)
    (avoids : Avoids ['(', '@'] rest) :
    ∃ trees, Expression.Chain grammar.match? (.call .directive) Rule.blank
      ((Directive.listText directives).toList ++ rest) trees rest ∧ List.Forall₂ ReadsDirective directives trees := by
  induction directives with
  | nil => exact ⟨[], .nil (refuses_directive (avoids.ne (by simp))), .nil⟩
  | cons directive others ih =>
    obtain ⟨trees, chain, areRead⟩ := ih (fun other member => printable other (List.mem_cons_of_mem _ member))
      (fun other member => readBack other (List.mem_cons_of_mem _ member))
    obtain ⟨tree, reaches, isRead⟩ := reaches_directive (printable directive List.mem_cons_self)
      (readBack directive List.mem_cons_self) (delimited_directives others delimited)
      (avoids_directives others (by decide) (avoids.mono (by simp)))
    rw [listText_cons]
    exact ⟨[tree] ++ trees, .cons reaches chain, .cons isRead areRead⟩

theorem reaches_directives (printable : ∀ directive ∈ directives, directive.written.Printable)
    (readBack : ∀ directive ∈ directives, AllReadBack directive.rounded) (delimited : Delimited rest)
    (avoids : Avoids ['(', '@'] rest) :
    ∃ trees, Reaches (.option (.call .directives))
      (Rule.blank.after grammar.match? ((Directive.listText directives).toList ++ rest)) trees rest ∧
      List.Forall₂ ReadsDirective directives trees := by
  obtain ⟨trees, chain, areRead⟩ := chain_directives printable readBack delimited avoids
  refine ⟨trees, ?_, areRead⟩
  by_cases isEmpty : trees = []
  · subst isEmpty
    cases areRead
    have refused : Refuses (.call .directives) (Rule.blank.after grammar.match? rest) :=
      refuses_call (.spaced_head (refuses_directive (avoids.ne (by simp))))
    exact (Expression.Reaches.option_none refused).congr (isBlank_blank.after_after rest)
  · exact .option (reaches_spliced rfl (chain.someSpaced isBlank_blank (strict_call .directive rfl) isEmpty))

/-- What the tree of a directive is read as. -/
theorem ReadsDirective.read {directive : Directive} {tree : SyntaxTree} (isRead : ReadsDirective directive tree)
    (places : Places) : ∃ left leftAfter parts read, tree = .branch .directive left leftAfter parts ∧
      Document.readDirective places parts = .ok read ∧ read.unplaced = directive.written := by
  obtain ⟨left, leftAfter, leftName, trees, rfl, areRead⟩ := isRead
  obtain ⟨arguments, readArguments, same⟩ := readArguments_eq areRead places
  refine ⟨left, leftAfter, _, ⟨directive.name, arguments⟩, rfl, ?_, ?_⟩
  · rw [Document.readDirective, readArguments, nameOf_token]
    rfl
  · rw [Document.Directive.unplaced, same]
    rfl

end Directives

section Variables

variable {definition : Variable} {definitions : List Variable} {rest : List Char}

/-- A default value is printed before directives, where the grammar has directives first. -/
def Variable.Readable (definition : Variable) : Prop := definition.default? = none ∨ definition.directives = []

instance (definition : Variable) : Decidable definition.Readable :=
  inferInstanceAs (Decidable (definition.default? = none ∨ definition.directives = []))

def Variable.rounded (definition : Variable) : List Decimal.Binary64 :=
  definition.default?.toList.flatMap Value.rounded ++ definition.directives.flatMap Directive.rounded

/-- What follows a variable definition. -/
structure VariableEnds (rest : List Char) : Prop where
  delimited : Delimited rest
  noMark : ∀ c ∈ rest.head?, c ≠ '!'
  avoids : Avoids ['(', '@', '='] rest

def ReadsVariable (definition : Variable) (tree : SyntaxTree) : Prop :=
  ∃ left leftAfter parts, tree = .branch .variableDefinition left leftAfter parts ∧
    ∀ places, ∃ read, Document.readVariable places ⟨"", .named "", .start, none, []⟩ parts = .ok read ∧
      read.unplaced = definition.written

def Variable.defaultText (definition : Variable) : List Char :=
  match definition.default? with
  | some value => (" = " ++ value.text).toList
  | none => []

theorem Variable.Readable.text (readable : definition.Readable) (rest : List Char) :
    definition.text.toList ++ rest =
      ['$'] ++ (definition.name.toList ++ ([':'] ++ (' ' :: (definition.type.text.toList ++
        ((Directive.listText definition.directives).toList ++ (definition.defaultText ++ rest)))))) := by
  obtain ⟨name, type, default?, directives⟩ := definition
  rcases readable with noDefault | noDirectives
  · simp only at noDefault
    simp [Variable.text, Variable.defaultText, noDefault]
  · simp only at noDirectives
    cases default? <;> simp [Variable.text, Variable.defaultText, noDirectives, Directive.listText]

theorem readVariable_cons_literal {tree : SyntaxTree} (literal : tree.rule.isLiteral = true) (places : Places)
    (done : Document.Variable) (rest : List SyntaxTree) :
    Document.readVariable places done (tree :: rest) = (do
      let value ← Document.readValue places tree
      Document.readVariable places { done with default? := some ⟨value, places tree.left⟩ } rest) := by
  cases tree with
  | token rule left text =>
    apply Document.readVariable.eq_5
    · rintro _ _ _ same
      cases same
    · rintro _ _ same
      cases same
      cases literal
    · rintro _ _ _ same
      cases same
  | branch rule left leftAfter parts =>
    apply Document.readVariable.eq_5
    · rintro _ _ _ same
      cases same
      cases literal
    · rintro _ _ same
      cases same
    · rintro _ _ _ same
      cases same
      cases literal

theorem readVariable_literal {tree : SyntaxTree} {value : Value} {places : Places} {done : Document.Variable}
    (literal : tree.rule.isLiteral = true) (read : Document.readValue places tree = .ok value) :
    Document.readVariable places done [tree] = .ok { done with default? := some ⟨value, places tree.left⟩ } := by
  rw [readVariable_cons_literal literal, read]
  rfl

/-- What a definition read so far becomes with directives. -/
theorem readVariable_directives {directives : List Directive} {trees : List SyntaxTree}
    (areRead : List.Forall₂ ReadsDirective directives trees) (places : Places) :
    ∃ read : List Document.Directive, read.map Document.Directive.unplaced = directives.map Directive.written ∧
      ∀ done more, Document.readVariable places done (trees ++ more) =
        Document.readVariable places { done with directives := done.directives ++ read } more := by
  induction areRead with
  | nil => exact ⟨[], rfl, fun done more => by simp⟩
  | cons isRead _ ih =>
    obtain ⟨left, leftAfter, parts, directive, rfl, read, same⟩ := isRead.read places
    obtain ⟨others, sameOthers, readOthers⟩ := ih
    refine ⟨directive :: others, by simp [same, sameOthers], fun done more => ?_⟩
    rw [List.cons_append, Document.readVariable, read]
    exact (readOthers _ more).trans (by simp)

theorem reaches_default (printable : definition.written.Printable) (readBack : AllReadBack definition.rounded)
    (ends : VariableEnds rest) :
    ∃ trees, Reaches (.option (.call .defaultValue)) (Rule.blank.after grammar.match? (definition.defaultText ++ rest))
      trees rest ∧ List.Forall₂ (ReadsValue true) definition.default?.toList trees := by
  obtain ⟨name, type, default?, directives⟩ := definition
  cases default? with
  | none =>
    have refused : Refuses (.call .defaultValue) (Rule.blank.after grammar.match? rest) :=
      refuses_call (.spaced_head (.word_head (ends.avoids.ne (by decide))))
    exact ⟨[], (Expression.Reaches.option_none refused).congr (isBlank_blank.after_after rest), .nil⟩
  | some value =>
    have ofValue : value.Printable true := printable.default ⟨value, .start⟩ rfl
    have restored : value.Restored true := ofValue.restored fun number member => readBack number (by simp [Variable.rounded, member])
    obtain ⟨tree, reaches, isRead⟩ := restored.reaches rest ends.delimited
    have isText : (⟨name, type, some value, directives⟩ : Variable).defaultText ++ rest =
        ' ' :: (['='] ++ (' ' :: (value.text.toList ++ rest))) := by simp [Variable.defaultText]
    have body : Reaches (Rule.body .defaultValue) (['='] ++ (' ' :: (value.text.toList ++ rest))) ([] ++ [tree]) rest := by
      refine (reaches_word ['='] _).spaced_cons isBlank_blank ?_
      rwa [afterBlank_cons rfl, afterBlank_of_solid (restored.starts.solid rest)]
    have start : Solid (['='] ++ (' ' :: (value.text.toList ++ rest))) := forall_head ⟨rfl, by decide⟩
    rw [isText, afterBlank_cons rfl, afterBlank_of_solid start]
    exact ⟨[tree], .option (reaches_spliced rfl body), .cons isRead .nil⟩

theorem VariableEnds.afterDefault (ends : VariableEnds rest) (definition : Variable) :
    Delimited (definition.defaultText ++ rest) ∧ Avoids ['(', '@'] (definition.defaultText ++ rest) ∧
      ∀ c ∈ (definition.defaultText ++ rest).head?, c ≠ '!' := by
  obtain ⟨name, type, default?, directives⟩ := definition
  cases default? with
  | none => exact ⟨ends.delimited, ends.avoids.mono (by simp), ends.noMark⟩
  | some value =>
    have isText : (⟨name, type, some value, directives⟩ : Variable).defaultText ++ rest =
        ' ' :: '=' :: ' ' :: (value.text.toList ++ rest) := by simp [Variable.defaultText]
    rw [isText]
    exact ⟨Delimited.cons rfl, .blank rfl (.cons ⟨rfl, by decide⟩ (by decide)), forall_head (by decide)⟩

theorem noMark_directives {rest : List Char} (directives : List Directive) (noMark : ∀ c ∈ rest.head?, c ≠ '!') :
    ∀ c ∈ ((Directive.listText directives).toList ++ rest).head?, c ≠ '!' := by
  cases directives with
  | nil => exact noMark
  | cons directive others =>
    rw [listText_cons, text_directive]
    exact forall_head (by decide)

theorem reaches_variable (printable : definition.written.Printable) (readable : definition.Readable)
    (readBack : AllReadBack definition.rounded) (ends : VariableEnds rest) :
    ∃ tree, Reaches (.call .variableDefinition) (definition.text.toList ++ rest) [tree] rest ∧
      ReadsVariable definition tree := by
  obtain ⟨delimited, avoids, noMark⟩ := ends.afterDefault definition
  have ofDirectives (directive : Directive) (member : directive ∈ definition.directives) : directive.written.Printable :=
    printable.directives directive.written (List.mem_map_of_mem member)
  have ofNumbers (directive : Directive) (member : directive ∈ definition.directives) : AllReadBack directive.rounded := by
    intro number inDirective
    exact readBack number (List.mem_append_right _ (List.mem_flatMap.mpr ⟨directive, member, inDirective⟩))
  obtain ⟨defaults, reachesDefault, areValues⟩ := reaches_default printable readBack ends
  obtain ⟨trees, reachesDirectives, areRead⟩ := reaches_directives ofDirectives ofNumbers delimited avoids
  have typeEnds : TypeReference.Ends ((Directive.listText definition.directives).toList ++ (definition.defaultText ++ rest)) :=
    ⟨(delimited_directives _ delimited).nameEnds, noMark_directives _ noMark⟩
  have ofType : definition.type.Printable := printable.type
  obtain ⟨leftType, isType⟩ : ∃ left, Accepts (.call .typeText) (definition.type.text.toList ++
      ((Directive.listText definition.directives).toList ++ (definition.defaultText ++ rest)))
      [.token .typeText left definition.type.text.toList]
      ((Directive.listText definition.directives).toList ++ (definition.defaultText ++ rest)) :=
    ⟨_, (TypeReference.accepts_text ofType).2 _ typeEnds⟩
  have isName : IsName definition.name.toList := printable.name
  have colonEnds (after : List Char) : NameEnds ([':'] ++ after) := forall_head rfl
  have colonSolid (after : List Char) : Solid ([':'] ++ after) := forall_head ⟨rfl, by decide⟩
  obtain ⟨left, leftAfter, leftName, named⟩ := reaches_variableName isName (colonEnds (' ' :: (definition.type.text.toList ++
    ((Directive.listText definition.directives).toList ++ (definition.defaultText ++ rest)))))
  have body : Reaches (Rule.body .variableDefinition) (definition.text.toList ++ rest)
      ([.branch .variableName left leftAfter [.token .name leftName definition.name.toList]] ++ ([] ++
        ([.token .typeText leftType definition.type.text.toList] ++ (trees ++ defaults)))) rest := by
    rw [readable.text]
    refine named.spaced_cons isBlank_blank ?_
    rw [afterBlank_of_solid (colonSolid _)]
    refine (reaches_word [':'] _).spaced_cons isBlank_blank ?_
    rw [afterBlank_cons rfl, afterBlank_of_solid (ofType.startsSolid.solid _)]
    refine isType.reaches.spaced_cons isBlank_blank ?_
    exact reachesDirectives.spaced_cons isBlank_blank reachesDefault
  obtain ⟨endsAfter, branch⟩ := reaches_branch .variableDefinition rfl body
  refine ⟨_, branch, _, endsAfter, _, rfl, fun places => ?_⟩
  obtain ⟨read, sameDirectives, readDirectives⟩ := readVariable_directives areRead places
  have isDefault (done : Document.Variable) (noDefault : done.default? = none) :
      ∃ read, Document.readVariable places done defaults = .ok read ∧
        read.unplaced = { done.unplaced with default? := definition.written.default? } := by
    cases given : definition.default? with
    | none =>
      rw [given] at areValues
      cases areValues
      refine ⟨done, rfl, ?_⟩
      simp [Document.Variable.unplaced, Variable.written, noDefault, given]
    | some value =>
      rw [given] at areValues
      obtain ⟨tree, isRead, rfl⟩ : ∃ tree, ReadsValue true value tree ∧ defaults = [tree] := by
        cases areValues with
        | cons isRead more =>
          cases more
          exact ⟨_, isRead, rfl⟩
      refine ⟨_, readVariable_literal (isRead.literal rfl) (isRead.read places), ?_⟩
      simp [Document.Variable.unplaced, Variable.written, given]
  obtain ⟨done, isDone, same⟩ :=
    isDefault ⟨definition.name, definition.type, places leftType, none, read⟩ rfl
  refine ⟨done, ?_, same.trans ?_⟩
  · simp only [List.singleton_append, List.nil_append, Document.readVariable, nameOf_token,
      ofType.isTypeText.ofText_eq, readDirectives]
    exact isDone
  · simp [Document.Variable.unplaced, Variable.written, sameDirectives]

theorem reaches_variables (printable : ∀ definition ∈ definitions, definition.written.Printable)
    (readable : ∀ definition ∈ definitions, definition.Readable)
    (readBack : ∀ definition ∈ definitions, AllReadBack definition.rounded) (avoids : Avoids ['('] rest) :
    ∃ trees, Reaches (.option (.call .variableDefinitions))
      (Rule.blank.after grammar.match? ((parenthesized (definitions.map Variable.text)).toList ++ rest)) trees rest ∧
      List.Forall₂ ReadsVariable definitions trees := by
  have startsWith (definition : Variable) : ∃ others, definition.text.toList = '$' :: others :=
    ⟨_, by simp only [Variable.text, String.append_assoc, String.toList_append]; rfl⟩
  have starts (definition : Variable) (_ : definition ∈ definitions) : StartsSolid definition.text.toList := by
    obtain ⟨others, isText⟩ := startsWith definition
    exact ⟨'$', others, isText, rfl, by decide⟩
  have following (definition : Variable) (_ : definition ∈ definitions) (rest : List Char) :
      VariableEnds (',' :: ' ' :: (definition.text.toList ++ rest)) := by
    obtain ⟨others, isText⟩ := startsWith definition
    rw [isText]
    exact ⟨Delimited.cons rfl, forall_head (by decide), .blank rfl (.blank rfl (.cons ⟨rfl, by decide⟩ (by decide)))⟩
  have follow (rest : List Char) : VariableEnds (')' :: rest) :=
    ⟨Delimited.cons rfl, forall_head (by decide), .cons ⟨rfl, by decide⟩ (by decide)⟩
  have refused (rest : List Char) : Refuses (.call .variableDefinition) (')' :: rest) :=
    refuses_call (.spaced_head (refuses_variableName (forall_head (by decide))))
  exact reaches_parenthesized false .variableDefinitions .variableDefinition rfl rfl rfl starts
    (fun definition member rest =>
      reaches_variable (printable definition member) (readable definition member) (readBack definition member))
    following follow refused avoids

end Variables

end SiteQuery.Graphql
