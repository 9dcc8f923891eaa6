import SiteQuery.Proofs.Graphql.Tokens
import SiteQuery.Text.Escaped
import SiteQuery.Text.Quoted

/-!
Quoted text is a string of the grammar, and stands for the text that was quoted.
-/

namespace SiteQuery.Quoted

open Escaped

theorem ofNat_toNat (c : Char) : Char.ofNat c.toNat = c := by
  simp

/-- How a character is written: as an escape with one letter, as four hexadecimal digits, or as it is. -/
theorem escape_cases (c : Char) :
    (∃ letter, escape c = ['\\', letter] ∧ "\"\\/bfnrt".toList.contains letter = true ∧ simple letter = c) ∨
    (c.toNat < 32 ∧ escape c = ['\\', 'u', '0', '0', hexDigit (c.toNat / 16), hexDigit (c.toNat % 16)]) ∨
    (escape c = [c] ∧ c ≠ '"' ∧ c ≠ '\\' ∧ c ≠ '\n' ∧ c ≠ '\r') := by
  unfold escape
  by_cases isQuote : c = '"'
  · subst isQuote
    exact .inl ⟨'"', by decide, by decide, by decide⟩
  by_cases isSlash : c = '\\'
  · subst isSlash
    exact .inl ⟨'\\', by decide, by decide, by decide⟩
  by_cases isFeed : c = '\n'
  · subst isFeed
    exact .inl ⟨'n', by decide, by decide, by decide⟩
  by_cases isReturn : c = '\r'
  · subst isReturn
    exact .inl ⟨'r', by decide, by decide, by decide⟩
  by_cases isTab : c = '\t'
  · subst isTab
    exact .inl ⟨'t', by decide, by decide, by decide⟩
  by_cases isBack : c.toNat = 8
  · obtain rfl : '\x08' = c := by rw [← ofNat_toNat c, isBack]
    exact .inl ⟨'b', by decide, by decide, by decide⟩
  by_cases isForm : c.toNat = 12
  · obtain rfl : '\x0c' = c := by rw [← ofNat_toNat c, isForm]
    exact .inl ⟨'f', by decide, by decide, by decide⟩
  simp only [isQuote, isSlash, isFeed, isReturn, isTab, isBack, isForm, if_false]
  by_cases control : c.toNat < 32
  · rw [if_pos control]
    exact .inr (.inl ⟨control, rfl⟩)
  · rw [if_neg control]
    exact .inr (.inr ⟨rfl, isQuote, isSlash, isFeed, isReturn⟩)

theorem ofHex_hexDigit {n : Nat} (small : n < 32) :
    ofHex ['0', '0', hexDigit (n / 16), hexDigit (n % 16)] = Char.ofNat n := by
  revert n
  decide

theorem decode_escape (c : Char) (rest : List Char) : decode (escape c ++ rest) = c :: decode rest := by
  rcases escape_cases c with ⟨letter, written, isLetter, stands⟩ | ⟨control, written⟩ | ⟨written, _, notSlash, _, _⟩
  · rw [written]
    have notHex : letter ≠ 'u' := by
      rintro rfl
      exact absurd isLetter (by decide)
    simp [decode, notHex, stands]
  · rw [written]
    simp only [List.cons_append, List.nil_append, decode, ofHex_hexDigit control, ofNat_toNat]
  · rw [written]
    simp [decode, notSlash]

theorem decode_flatMap_escape (text : List Char) : decode (text.flatMap escape) = text := by
  induction text with
  | nil => rfl
  | cons c text ih => rw [List.flatMap_cons, decode_escape, ih]

end SiteQuery.Quoted

namespace SiteQuery.Graphql

open Grammar Quoted

variable {text rest : List Char}

theorem isHexDigit_hexDigit {n : Nat} (small : n < 16) : Rule.isHexDigit (hexDigit n) = true := by
  revert n
  decide

theorem accepts_hexScalar {a b : Char} (rest : List Char) (isA : Rule.isHexDigit a = true) (isB : Rule.isHexDigit b = true) :
    ∃ trees, Accepts (.call .hexScalar) ('0' :: '0' :: a :: b :: rest) trees rest := by
  have noSurrogate : Refuses (.both (.one fun c => c == 'd' || c == 'D')
      (.one fun c => ('8' ≤ c && c ≤ '9') || ('a' ≤ c && c ≤ 'f') || ('A' ≤ c && c ≤ 'F')))
      ('0' :: '0' :: a :: b :: rest) := by
    refine .both_left (.one fun c isHead => ?_)
    cases isHead
    rfl
  exact ⟨_, accepts_call.mpr ⟨_, (Expression.Matches.absent noSurrogate).both
    (.both (.one rfl) (.both (.one rfl) (.both (.one isA) (.one isB)))), rfl⟩⟩

/-- A character as it is written is one character of a string. -/
theorem accepts_stringCharacter (c : Char) (rest : List Char) :
    ∃ trees, Accepts (.call .stringCharacter) (escape c ++ rest) trees rest := by
  have noPlain (others : List Char) : Refuses (.one fun c => c != '"' && c != '\\' && !Rule.isLineEnd c)
      ('\\' :: others) := by
    refine .one fun c isHead => ?_
    cases isHead
    rfl
  rcases escape_cases c with ⟨letter, written, isLetter, _⟩ | ⟨control, written⟩ |
    ⟨written, notQuote, notSlash, notFeed, notReturn⟩
  · rw [written]
    have escaped : Accepts (.both (Rule.word "\\") (.one "\"\\/bfnrt".toList.contains)) ('\\' :: letter :: rest) ([] ++ []) rest :=
      (Expression.Matches.word ['\\'] (letter :: rest)).both (.one isLetter)
    exact ⟨_, accepts_call.mpr ⟨_, .right (noPlain _) (.left escaped), rfl⟩⟩
  · rw [written]
    obtain ⟨trees, isHex⟩ := accepts_hexScalar rest (isHexDigit_hexDigit (n := c.toNat / 16) (by omega))
      (isHexDigit_hexDigit (n := c.toNat % 16) (by omega))
    have noLetter : Refuses (.both (Rule.word "\\") (.one "\"\\/bfnrt".toList.contains))
        ('\\' :: 'u' :: '0' :: '0' :: hexDigit (c.toNat / 16) :: hexDigit (c.toNat % 16) :: rest) := by
      refine .both_right (.word ['\\'] _) (.one fun d isHead => ?_)
      cases isHead
      rfl
    have escaped : Accepts (.both (Rule.word "\\u") (.call .hexScalar))
        ('\\' :: 'u' :: '0' :: '0' :: hexDigit (c.toNat / 16) :: hexDigit (c.toNat % 16) :: rest) ([] ++ trees) rest :=
      (Expression.Matches.word ['\\', 'u'] _).both isHex
    exact ⟨_, accepts_call.mpr ⟨_, .right (noPlain _) (.right noLetter escaped), rfl⟩⟩
  · rw [written]
    have plain : (c != '"' && c != '\\' && !Rule.isLineEnd c) = true := by
      simp [Rule.isLineEnd, notQuote, notSlash, notFeed, notReturn]
    exact ⟨_, accepts_call.mpr ⟨_, .left (.one plain), rfl⟩⟩

theorem refuses_stringCharacter : Refuses (.call .stringCharacter) ('"' :: rest) := by
  refine refuses_call (.either (.one fun c isHead => ?_) (.either ?_ ?_))
  · cases isHead
    rfl
  · refine .both_left (.word_head fun c isHead => ?_)
    cases isHead
    decide
  · refine .both_left (.word_head fun c isHead => ?_)
    cases isHead
    decide

theorem accepts_stringCharacters (text rest : List Char) :
    ∃ trees, Accepts (.many (.call .stringCharacter)) (text.flatMap escape ++ '"' :: rest) trees ('"' :: rest) := by
  have strict : (Expression.call Rule.stringCharacter).IsStrict grammar.match? := isStrict_of_mayBeEmpty rfl
  induction text with
  | nil => exact ⟨[], .many_nil refuses_stringCharacter⟩
  | cons c text ih =>
    obtain ⟨others, more⟩ := ih
    obtain ⟨trees, first⟩ := accepts_stringCharacter c (text.flatMap escape ++ '"' :: rest)
    rw [List.flatMap_cons, List.append_assoc]
    exact ⟨trees ++ others, .many_cons first (strict _ _ _ first) more⟩

/-- Quoted text does not begin with three quotes. -/
theorem refuses_quotes (noQuote : ∀ c ∈ rest.head?, c ≠ '"') : Refuses Rule.quotes (encode text ++ rest) := by
  refine .word fun isPrefix => ?_
  obtain ⟨others, same⟩ := isPrefix
  cases text with
  | nil =>
    cases rest with
    | nil => cases same
    | cons c rest =>
      injection same with _ same
      injection same with _ same
      injection same with isQuote _
      exact noQuote c rfl isQuote.symm
  | cons c text =>
    simp only [encode, List.flatMap_cons] at same
    rcases escape_cases c with ⟨letter, written, _, _⟩ | ⟨_, written⟩ | ⟨written, notQuote, _⟩
    · rw [written] at same
      injection same with _ same
      injection same with isQuote _
      cases isQuote
    · rw [written] at same
      injection same with _ same
      injection same with isQuote _
      cases isQuote
    · rw [written] at same
      injection same with _ same
      injection same with isQuote _
      exact notQuote isQuote.symm

theorem accepts_string (text : List Char) (noQuote : ∀ c ∈ rest.head?, c ≠ '"') :
    ∃ left, Accepts (.call .string) (encode text ++ rest) [.branch .string (encode text ++ rest).length rest.length
      [.token .stringContent left (text.flatMap escape)]] rest := by
  obtain ⟨trees, characters⟩ := accepts_stringCharacters text rest
  obtain ⟨left, content⟩ : ∃ left, Accepts (.call .stringContent) (text.flatMap escape ++ '"' :: rest)
      [.token .stringContent left (text.flatMap escape)] ('"' :: rest) := ⟨_, accepts_token rfl characters⟩
  have isQuoted : encode text ++ rest = ['"'] ++ (text.flatMap escape ++ '"' :: rest) := by simp [encode]
  have inner : Accepts (.sequence [Rule.word "\"", .call .stringContent, Rule.word "\""]) (encode text ++ rest)
      ([] ++ ([.token .stringContent left (text.flatMap escape)] ++ [])) rest := by
    rw [isQuoted]
    exact .both (.word ['"'] _) (.both content (.word ['"'] rest))
  exact ⟨left, accepts_call.mpr ⟨_, .right (.both_left (refuses_quotes noQuote)) inner, rfl⟩⟩

end SiteQuery.Graphql
