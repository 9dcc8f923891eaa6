import SiteQuery.Proofs.Grammar.Trees

/-!
Where the trees of a match stand in the text.

`Grammar.Covers` says that trees lie one after another between two places, each token over its own text and each node
over what its parts cover. Every match leaves such trees: `Grammar.covers_of_match?`.
-/

namespace SiteQuery.Grammar

variable {Rule : Type}

namespace Grammar

/-- The rule takes something, even if none of the rules that it calls does. -/
def alwaysTakes (grammar : Grammar Rule) (rule : Rule) : Bool := !(grammar.body rule).mayBeEmpty fun _ => true

/-- The trees lie one after another from the place where `input` is left to the place where `rest` is left. -/
inductive Covers (grammar : Grammar Rule) : List Char → List (SyntaxTree Rule) → List Char → Prop
  | nil {input rest} (later : rest <:+ input) : Covers grammar input [] rest
  | token {input place next rest rule text trees} (later : place <:+ input) (isText : place = text ++ next)
      (filled : grammar.alwaysTakes rule = true → text ≠ []) (more : Covers grammar next trees rest) :
      Covers grammar input (.token rule place.length text :: trees) rest
  | branch {input place next rest rule parts trees} (later : place <:+ input) (inner : Covers grammar place parts next)
      (more : Covers grammar next trees rest) :
      Covers grammar input (.branch rule place.length next.length parts :: trees) rest

namespace Covers

variable {grammar : Grammar Rule} {rule : Rule} {input middle rest before : List Char}
  {trees others : List (SyntaxTree Rule)}

theorem suffix (covers : grammar.Covers input trees rest) : rest <:+ input := by
  induction covers with
  | nil later => exact later
  | token later isText _ _ ih => exact (ih.trans (isText ▸ List.suffix_append _ _)).trans later
  | branch later _ _ ihInner ih => exact (ih.trans ihInner).trans later

theorem of_suffix (covers : grammar.Covers input trees rest) (later : input <:+ before) :
    grammar.Covers before trees rest := by
  cases covers with
  | nil isRest => exact .nil (isRest.trans later)
  | token isPlace isText filled more => exact .token (isPlace.trans later) isText filled more
  | branch isPlace inner more => exact .branch (isPlace.trans later) inner more

theorem append (first : grammar.Covers input trees middle) (second : grammar.Covers middle others rest) :
    grammar.Covers input (trees ++ others) rest := by
  induction first with
  | nil later => exact second.of_suffix later
  | token later isText filled _ ih => exact .token later isText filled (ih second)
  | branch later inner _ _ ih => exact .branch later inner (ih second)

theorem of_repeatedMatch {step : List Char → Match Rule}
    (each : ∀ input trees rest, step input = some (trees, rest) → grammar.Covers input trees rest)
    (found : repeatedMatch step input = some (trees, rest)) : grammar.Covers input trees rest :=
  repeatedMatch_rec (motive := fun place trees => grammar.Covers place trees rest) (fun _ => .nil (List.suffix_refl _))
    (fun place trees single _ => each place trees rest single)
    (fun place before middle _ first _ ih => (each place before middle first).append ih) found

theorem of_matches {call : Rule → List Char → Match Rule} {item : Expression Rule}
    (called : ∀ rule input trees rest, call rule input = some (trees, rest) → grammar.Covers input trees rest)
    (isMatch : item.Matches call input trees rest) : grammar.Covers input trees rest := by
  induction item generalizing input trees rest with
  | empty =>
    obtain ⟨rfl, rfl⟩ := Prod.mk.inj (Option.some.inj isMatch)
    exact .nil (List.suffix_refl _)
  | ending | absent =>
    simp only [Expression.Matches, Expression.match?_ending, Expression.match?_absent, Option.ite_none_right_eq_some] at isMatch
    obtain ⟨rfl, rfl⟩ := Prod.mk.inj (Option.some.inj isMatch.2)
    exact .nil (List.suffix_refl _)
  | word text =>
    simp only [Expression.Matches, Expression.match?_word, Option.ite_none_right_eq_some] at isMatch
    obtain ⟨rfl, rfl⟩ := Prod.mk.inj (Option.some.inj isMatch.2)
    exact .nil (List.drop_suffix _ _)
  | one accepts =>
    cases input with
    | nil => cases isMatch
    | cons c others =>
      simp only [Expression.Matches, Expression.match?_one_cons, Option.ite_none_right_eq_some] at isMatch
      obtain ⟨rfl, rfl⟩ := Prod.mk.inj (Option.some.inj isMatch.2)
      exact .nil (List.suffix_cons _ _)
  | call rule => exact called rule input trees rest isMatch
  | both first second ihFirst ihSecond =>
    obtain ⟨before, middle, others, isFirst, isSecond, rfl⟩ := Match.next_eq_some.mp isMatch
    exact (ihFirst isFirst).append (ihSecond isSecond)
  | either first second ihFirst ihSecond =>
    rcases Option.or_eq_some_iff.mp isMatch with isFirst | ⟨_, isSecond⟩
    · exact ihFirst isFirst
    · exact ihSecond isSecond
  | many item ih => exact of_repeatedMatch (fun _ _ _ found => ih found) isMatch

/-- The first tree stands between its own ends. -/
theorem uncons {tree : SyntaxTree Rule} (covers : grammar.Covers input (tree :: trees) rest) :
    ∃ place next, place <:+ input ∧ next <:+ place ∧ tree.left = place.length ∧ tree.leftAfter = next.length ∧
      grammar.Covers next trees rest := by
  cases covers with
  | @token _ place next _ rule text _ later isText _ more =>
    refine ⟨place, next, later, isText ▸ List.suffix_append _ _, rfl, ?_, more⟩
    simp [SyntaxTree.leftAfter, isText]
  | @branch _ place next _ rule parts _ later inner more => exact ⟨place, next, later, inner.suffix, rfl, rfl, more⟩

theorem of_mem {left leftAfter : Nat} {parts : List (SyntaxTree Rule)} (covers : grammar.Covers input trees rest)
    (member : .branch rule left leftAfter parts ∈ trees) :
    ∃ place next, place <:+ input ∧ grammar.Covers place parts next := by
  induction covers with
  | nil => cases member
  | token later isText _ _ ih =>
    obtain ⟨place, next, isPlace, inner⟩ := ih (by simpa using member)
    exact ⟨place, next, isPlace.trans ((isText ▸ List.suffix_append _ _).trans later), inner⟩
  | branch later inner _ _ ih =>
    rcases List.mem_cons.mp member with isHead | behind
    · cases isHead
      exact ⟨_, _, later, inner⟩
    · obtain ⟨place, next, isPlace, within⟩ := ih behind
      exact ⟨place, next, isPlace.trans (inner.suffix.trans later), within⟩

end Covers

variable {grammar : Grammar Rule} {rule : Rule} {input rest : List Char} {trees : List (SyntaxTree Rule)}

/-- The trees of a match lie between its two ends. -/
theorem covers_of_match? (isMatch : grammar.match? rule input = some (trees, rest)) : grammar.Covers input trees rest := by
  refine match?_induction (motive := fun _ input trees rest => grammar.Covers input trees rest)
    (fun rule input parts rest isBody called => ?_) isMatch
  have ofParts : grammar.Covers input parts rest := .of_matches called isBody
  cases kind : grammar.kind rule with
  | token =>
    have suffixed (other : Rule) (place : List Char) (inner : List (SyntaxTree Rule)) (after : List Char)
        (found : grammar.matchWithin? rule input other place = some (inner, after)) : Takes true place after :=
      ⟨(called other place inner after found).suffix, fun isFalse => absurd isFalse (by decide)⟩
    have taken : Takes ((grammar.body rule).mayBeEmpty fun _ => true) input rest :=
      Expression.takes_of_match? suffixed isBody
    obtain ⟨text, rfl⟩ := taken.1
    have isText : (text ++ rest).take ((text ++ rest).length - rest.length) = text := by simp
    have filled (always : grammar.alwaysTakes rule = true) : text ≠ [] := by
      rintro rfl
      have shorter := taken.2 (by simpa [alwaysTakes] using always)
      exact absurd shorter (Nat.lt_irrefl _)
    simp only [leaves, isText]
    exact .token (List.suffix_refl _) rfl filled (.nil (List.suffix_refl _))
  | branch => exact .branch (List.suffix_refl _) ofParts (.nil (List.suffix_refl _))
  | spliced => exact ofParts

theorem covers_of_parse {text : List Char} (parsed : grammar.parse rule text = .ok trees) :
    ∃ rest, grammar.Covers text trees rest := by
  obtain ⟨rest, isMatch⟩ := parse_eq_ok.mp parsed
  exact ⟨rest, covers_of_match? isMatch⟩

end Grammar

end SiteQuery.Grammar
