import Mathlib.Data.List.TakeWhile
import SiteQuery.Graphql.Value
import SiteQuery.Proofs.Graphql.Tokens

/-!
The texts of numbers are numerals of the grammar, and those of integers are read back.
-/

namespace SiteQuery.Graphql

open Grammar Decimal

def AreDigits (text : List Char) : Prop := ∀ c ∈ text, Rule.isDigit c = true

/-- A zero, or digits that do not begin with one. -/
def IsWhole (text : List Char) : Prop :=
  text = ['0'] ∨ ∃ c digits, text = c :: digits ∧ ('1' ≤ c && c ≤ '9') = true ∧ AreDigits digits

structure IsNumeral (sign whole fraction exponent : List Char) : Prop where
  sign : sign = [] ∨ sign = ['-']
  whole : IsWhole whole
  fraction : fraction = [] ∨ ∃ c digits, fraction = '.' :: c :: digits ∧ AreDigits (c :: digits)
  exponent : exponent = [] ∨
    ∃ sign c digits, exponent = 'e' :: sign :: c :: digits ∧ (sign == '+' || sign == '-') = true ∧ AreDigits (c :: digits)

theorem exists_head_of_isWhole {whole : List Char} (isWhole : IsWhole whole) :
    ∃ c digits, whole = c :: digits ∧ Rule.isDigit c = true := by
  rcases isWhole with rfl | ⟨c, digits, rfl, first, _⟩
  · exact ⟨'0', [], rfl, rfl⟩
  · refine ⟨c, digits, rfl, ?_⟩
    simp only [Bool.and_eq_true, decide_eq_true_eq, Rule.isDigit] at first ⊢
    exact ⟨Char.le_trans (by decide) first.1, first.2⟩

theorem IsNumeral.exists_head {sign whole fraction exponent : List Char}
    (numeral : IsNumeral sign whole fraction exponent) :
    ∃ c others, sign ++ whole ++ fraction ++ exponent = c :: others ∧ (Rule.isDigit c = true ∨ c = '-') := by
  rcases numeral.sign with rfl | rfl
  · obtain ⟨c, digits, rfl, isDigit⟩ := exists_head_of_isWhole numeral.whole
    exact ⟨c, _, rfl, .inl isDigit⟩
  · exact ⟨'-', _, rfl, .inr rfl⟩

section Grammar

variable {text rest sign whole fraction exponent : List Char}

def DigitsEnd (rest : List Char) : Prop := ∀ c ∈ rest.head?, Rule.isDigit c = false

theorem accepts_digits (digits : AreDigits text) (ends : DigitsEnd rest) :
    Accepts (.many (.one Rule.isDigit)) (text ++ rest) [] rest :=
  .many_one digits ends

theorem accepts_someDigits {c : Char} (digits : AreDigits (c :: text)) (ends : DigitsEnd rest) :
    Accepts (.oneOrMore (.one Rule.isDigit)) (c :: text ++ rest) ([] ++ []) rest := by
  refine .both (.one (digits c List.mem_cons_self)) (accepts_digits ?_ ends)
  exact fun d member => digits d (List.mem_cons_of_mem _ member)

theorem accepts_integer (isSign : sign = [] ∨ sign = ['-']) (isWhole : IsWhole whole) (ends : DigitsEnd rest) :
    ∃ trees, Accepts (.call .integer) (sign ++ whole ++ rest) trees rest := by
  have accepted : Accepts (.either (Rule.word "0") (.both (.one fun c => '1' ≤ c && c ≤ '9') (.many (.one Rule.isDigit))))
      (whole ++ rest) [] rest := by
    rcases isWhole with rfl | ⟨c, digits, rfl, first, others⟩
    · exact .left (.word ['0'] rest)
    · have accepted : Accepts (.both (.one fun c => '1' ≤ c && c ≤ '9') (.many (.one Rule.isDigit)))
          (c :: (digits ++ rest)) ([] ++ []) rest := .both (.one first) (accepts_digits others ends)
      refine .right (.word_head fun d isHead => ?_) accepted
      cases isHead
      rintro rfl
      exact absurd first (by decide)
  have optional : Accepts (.option (Rule.word "-")) (sign ++ whole ++ rest) [] (whole ++ rest) := by
    rcases isSign with rfl | rfl
    · refine .right (.word_head fun c isHead => ?_) rfl
      obtain ⟨first, others, rfl, isDigit⟩ := exists_head_of_isWhole isWhole
      cases isHead
      rintro rfl
      exact absurd isDigit (by decide)
    · exact .left (.word ['-'] (whole ++ rest))
  exact ⟨_, accepts_call.mpr ⟨_, optional.both accepted, rfl⟩⟩

/-- Nothing of a number goes on here. -/
structure NumberEnds (rest : List Char) : Prop where
  noName : NameEnds rest
  noPoint : ∀ c ∈ rest.head?, c ≠ '.'

theorem digitsEnd_of_nameEnds (ends : NameEnds rest) : DigitsEnd rest := by
  intro c isHead
  have noName := ends c isHead
  simp only [Rule.isNameRest, Bool.or_eq_false_iff] at noName
  exact noName.2

theorem refuses_exponent (ends : NameEnds rest) : Refuses (.call .exponent) rest := by
  refine refuses_call (.both_left (.one fun c isHead => ?_))
  have noName := ends c isHead
  cases isE : (c == 'E' || c == 'e') with
  | false => rfl
  | true =>
    simp only [Bool.or_eq_true, beq_iff_eq] at isE
    rcases isE with rfl | rfl <;> exact absurd noName (by decide)

theorem refuses_fraction (noPoint : ∀ c ∈ rest.head?, c ≠ '.') : Refuses (.call .fraction) rest :=
  refuses_call (.both_left (.word_head noPoint))

theorem accepts_fraction {c : Char} (digits : AreDigits (c :: text)) (ends : DigitsEnd rest) :
    ∃ trees, Accepts (.call .fraction) ('.' :: c :: text ++ rest) trees rest :=
  ⟨_, accepts_call.mpr ⟨_, (Expression.Matches.word ['.'] (c :: text ++ rest)).both (accepts_someDigits digits ends), rfl⟩⟩

theorem accepts_exponent {c e s : Char} (isE : (e == 'E' || e == 'e') = true) (isSign : (s == '+' || s == '-') = true)
    (digits : AreDigits (c :: text)) (ends : DigitsEnd rest) :
    ∃ trees, Accepts (.call .exponent) (e :: s :: c :: text ++ rest) trees rest := by
  have body : Accepts (Rule.body .exponent) (e :: s :: c :: text ++ rest) ([] ++ ([] ++ ([] ++ []))) rest :=
    .both (.one isE) (.both (.left (.one isSign)) (accepts_someDigits digits ends))
  exact ⟨_, accepts_call.mpr ⟨_, body, rfl⟩⟩

/-- What follows the whole part of a numeral with a fraction or an exponent. -/
theorem accepts_places (numeral : IsNumeral sign whole fraction exponent) (ends : NumberEnds rest)
    (notWhole : fraction ++ exponent ≠ []) :
    ∃ trees, Accepts (.choice [.both (.call .fraction) (.call .exponent), .call .fraction, .call .exponent])
      (fraction ++ (exponent ++ rest)) trees rest := by
  have digitsEnd := digitsEnd_of_nameEnds ends.noName
  rcases numeral.fraction with rfl | ⟨c, digits, rfl, areDigits⟩
  · rcases numeral.exponent with rfl | ⟨s, d, others, rfl, isSign, exponentDigits⟩
    · exact absurd rfl notWhole
    · obtain ⟨trees, accepted⟩ := accepts_exponent (e := 'e') rfl isSign exponentDigits digitsEnd
      have noFraction : Refuses (.call .fraction) ('e' :: s :: d :: others ++ rest) := by
        refine refuses_fraction fun c isHead => ?_
        cases isHead
        decide
      exact ⟨trees, .right noFraction.both_left (.right noFraction accepted)⟩
  · rcases numeral.exponent with rfl | ⟨s, d, others, rfl, isSign, exponentDigits⟩
    · obtain ⟨trees, accepted⟩ := accepts_fraction areDigits digitsEnd
      exact ⟨trees, .right (.both_right accepted (refuses_exponent ends.noName)) (.left accepted)⟩
    · have atExponent : DigitsEnd ('e' :: s :: d :: others ++ rest) := by
        intro c isHead
        cases isHead
        rfl
      obtain ⟨trees, accepted⟩ := accepts_fraction areDigits atExponent
      obtain ⟨more, isExponent⟩ := accepts_exponent (e := 'e') rfl isSign exponentDigits digitsEnd
      exact ⟨trees ++ more, .left (accepted.both isExponent)⟩

theorem digitsEnd_places (numeral : IsNumeral sign whole fraction exponent) (ends : NumberEnds rest) :
    DigitsEnd (fraction ++ (exponent ++ rest)) := by
  rcases numeral.fraction with rfl | ⟨c, digits, rfl, _⟩
  · rcases numeral.exponent with rfl | ⟨s, d, others, rfl, _⟩
    · exact digitsEnd_of_nameEnds ends.noName
    · intro c isHead
      cases isHead
      rfl
  · intro c isHead
    cases isHead
    rfl

theorem accepts_number (numeral : IsNumeral sign whole fraction exponent) (ends : NumberEnds rest) :
    Accepts (.call .number) (sign ++ whole ++ fraction ++ exponent ++ rest)
      [.token .number ((sign ++ whole ++ fraction ++ exponent).length + rest.length)
        (sign ++ whole ++ fraction ++ exponent)] rest := by
  have noStart : Accepts (.absent (.call .nameStart)) rest [] rest := by
    refine .absent (refuses_call (.one fun c isHead => ?_))
    have noName := ends.noName c isHead
    simp only [Rule.isNameRest, Bool.or_eq_false_iff] at noName
    exact noName.1
  obtain ⟨trees, isInteger⟩ := accepts_integer numeral.sign numeral.whole (digitsEnd_places numeral ends)
  have accepted : ∃ trees, Accepts (.either (.call .float) (.call .integer))
      (sign ++ whole ++ (fraction ++ (exponent ++ rest))) trees rest := by
    by_cases isWhole : fraction ++ exponent = []
    · obtain ⟨rfl, rfl⟩ := List.append_eq_nil_iff.mp isWhole
      have noFraction := refuses_fraction ends.noPoint
      have noPlaces : Refuses (.choice [.both (.call .fraction) (.call .exponent), .call .fraction, .call .exponent])
          rest := .either noFraction.both_left (.either noFraction (refuses_exponent ends.noName))
      exact ⟨trees, .right (refuses_call (.both_right isInteger noPlaces)) isInteger⟩
    · obtain ⟨more, places⟩ := accepts_places numeral ends isWhole
      exact ⟨_, .left (accepts_call.mpr ⟨_, isInteger.both places, rfl⟩)⟩
  obtain ⟨more, accepted⟩ := accepted
  rw [← List.append_assoc, ← List.append_assoc] at accepted
  exact accepts_token rfl (accepted.both noStart)

end Grammar

/-! The digits of natural numbers. -/

section Digits

theorem isDigit_of_mem_toDigits {c : Char} {n : Nat} (member : c ∈ Nat.toDigits 10 n) : Rule.isDigit c = true := by
  have isDigit := Nat.isDigit_of_mem_toDigits (by decide) (by decide) member
  simp only [Char.isDigit, Bool.and_eq_true, decide_eq_true_eq] at isDigit
  simp only [Rule.isDigit, Bool.and_eq_true, decide_eq_true_eq]
  exact isDigit

theorem isWhole_toDigits (n : Nat) : IsWhole (Nat.toDigits 10 n) := by
  induction n using Nat.strongRecOn with
  | ind n ih =>
    by_cases small : n < 10
    · rw [Nat.toDigits_of_lt_base small]
      have cases : n = 0 ∨ n = 1 ∨ n = 2 ∨ n = 3 ∨ n = 4 ∨ n = 5 ∨ n = 6 ∨ n = 7 ∨ n = 8 ∨ n = 9 := by omega
      rcases cases with rfl | positive
      · exact .inl rfl
      · refine .inr ⟨n.digitChar, [], rfl, ?_, nofun⟩
        rcases positive with rfl | rfl | rfl | rfl | rfl | rfl | rfl | rfl | rfl <;> decide
    · rw [Nat.toDigits_of_base_le (by decide) (by omega)]
      right
      rcases ih (n / 10) (by omega) with isZero | ⟨c, digits, isCons, first, others⟩
      · have back := Nat.ofDigitChars_ten_toDigits (n := n / 10)
        rw [isZero] at back
        have : n / 10 = 0 := back.symm
        omega
      · rw [isCons]
        refine ⟨c, _, List.cons_append, first, ?_⟩
        intro d member
        rcases List.mem_append.mp member with inDigits | isLast
        · exact others d inDigits
        · refine isDigit_of_mem_toDigits (n := n % 10) ?_
          rwa [Nat.toDigits_of_lt_base (Nat.mod_lt _ (by decide))]

theorem areDigits_toDigits (n : Nat) : AreDigits (Nat.toDigits 10 n) := fun _ => isDigit_of_mem_toDigits

theorem exists_first_digit {n : Nat} (positive : n ≠ 0) :
    ∃ c digits, Nat.toDigits 10 n = c :: digits ∧ ('1' ≤ c && c ≤ '9') = true ∧ AreDigits digits := by
  rcases isWhole_toDigits n with isZero | first
  · have back := Nat.ofDigitChars_ten_toDigits (n := n)
    rw [isZero] at back
    exact absurd back.symm positive
  · exact first

theorem toList_toString (n : Nat) : (toString n).toList = Nat.toDigits 10 n := Nat.toList_repr

theorem toList_negSucc (n : Nat) : (toString (Int.negSucc n)).toList = '-' :: Nat.toDigits 10 (n + 1) := by
  have same : toString (Int.negSucc n) = "-" ++ toString (n + 1) := rfl
  rw [same, String.toList_append, toList_toString]
  rfl

theorem areDigits_zeros (count : Nat) : AreDigits (zeros count).toList := by
  intro c member
  rw [zeros, String.toList_ofList] at member
  rw [List.eq_of_mem_replicate member]
  rfl

theorem AreDigits.append {left right : List Char} (isLeft : AreDigits left) (isRight : AreDigits right) :
    AreDigits (left ++ right) := by
  intro c member
  rcases List.mem_append.mp member with inLeft | inRight
  · exact isLeft c inLeft
  · exact isRight c inRight

/-- A text that begins with a digit other than zero, cut after its first character at the earliest. -/
theorem isWhole_take {c : Char} {digits : List Char} (first : ('1' ≤ c && c ≤ '9') = true) (others : AreDigits digits)
    {count : Nat} (positive : 0 < count) : IsWhole ((c :: digits).take count) := by
  obtain ⟨fewer, rfl⟩ : ∃ fewer, count = fewer + 1 := ⟨count - 1, by omega⟩
  exact .inr ⟨c, digits.take fewer, rfl, first, fun d member => others d (List.mem_of_mem_take member)⟩

theorem areDigits_of_first {c : Char} {digits : List Char} (first : ('1' ≤ c && c ≤ '9') = true)
    (others : AreDigits digits) : AreDigits (c :: digits) := by
  intro d member
  rcases List.mem_cons.mp member with rfl | inDigits
  · simp only [Bool.and_eq_true, decide_eq_true_eq, Rule.isDigit] at first ⊢
    exact ⟨Char.le_trans (by decide) first.1, first.2⟩
  · exact others d inDigits

theorem exists_fraction {text : List Char} (digits : AreDigits text) (notEmpty : text ≠ []) :
    '.' :: text = [] ∨ ∃ c digits, '.' :: text = '.' :: c :: digits ∧ AreDigits (c :: digits) := by
  cases text with
  | nil => exact absurd rfl notEmpty
  | cons c others => exact .inr ⟨c, others, rfl, digits⟩

/-- A numeral apart from its sign. -/
def IsUnsigned (text : List Char) : Prop := ∃ whole fraction exponent,
  (∀ sign, sign = [] ∨ sign = ['-'] → IsNumeral sign whole fraction exponent) ∧ text = whole ++ fraction ++ exponent

theorem isUnsigned_point {whole places : List Char} (isWhole : IsWhole whole) (digits : AreDigits places)
    (notEmpty : places ≠ []) : IsUnsigned (whole ++ '.' :: places) :=
  ⟨whole, '.' :: places, [], fun _ isSign => ⟨isSign, isWhole, exists_fraction digits notEmpty, .inl rfl⟩, by simp⟩

theorem isUnsigned_exponent {c sign : Char} {places digits : List Char} (first : ('1' ≤ c && c ≤ '9') = true)
    (isPlaces : AreDigits places) (isSign : (sign == '+' || sign == '-') = true) (isDigits : AreDigits digits)
    (notEmpty : digits ≠ []) :
    IsUnsigned (c :: (if places = [] then [] else '.' :: places) ++ 'e' :: sign :: digits) := by
  refine ⟨[c], if places = [] then [] else '.' :: places, 'e' :: sign :: digits, fun _ outer => ?_, rfl⟩
  refine ⟨outer, .inr ⟨c, [], rfl, first, nofun⟩, ?_, ?_⟩
  · by_cases isEmpty : places = []
    · rw [if_pos isEmpty]
      exact .inl rfl
    · rw [if_neg isEmpty]
      exact exists_fraction isPlaces isEmpty
  · obtain ⟨d, others, rfl⟩ := List.exists_cons_of_ne_nil notEmpty
    exact .inr ⟨sign, d, others, rfl, isSign, isDigits⟩

theorem isUnsigned_scientific (decimal : Scientific) : IsUnsigned decimal.text.toList := by
  unfold Scientific.text
  by_cases isZero : decimal.digits = 0
  · rw [if_pos isZero]
    have zero : AreDigits ['0'] := by simp [AreDigits, Rule.isDigit]
    exact isUnsigned_point (.inl rfl) zero (List.cons_ne_nil _ _)
  · rw [if_neg isZero]
    obtain ⟨c, digits, isCons, first, others⟩ := exists_first_digit isZero
    have allDigits := areDigits_of_first first others
    have widthEq : width decimal.digits = digits.length + 1 := by rw [width, isCons, List.length_cons]
    simp only [toList_toString, isCons, widthEq]
    by_cases positional : (-5 ≤ decimal.exponent + ↑(digits.length + 1) - 1 &&
        decimal.exponent + ↑(digits.length + 1) - 1 ≤ 15) = true
    · rw [if_pos positional]
      by_cases isWhole : 0 ≤ decimal.exponent
      · rw [if_pos isWhole]
        have zero : AreDigits ['0'] := by simp [AreDigits, Rule.isDigit]
        have whole : IsWhole (c :: (digits ++ (zeros decimal.exponent.toNat).toList)) :=
          .inr ⟨c, _, rfl, first, others.append (areDigits_zeros _)⟩
        simpa [toList_toString, isCons] using isUnsigned_point whole zero (List.cons_ne_nil _ _)
      · rw [if_neg isWhole]
        by_cases isFirst : 0 ≤ decimal.exponent + ↑(digits.length + 1) - 1
        · rw [if_pos isFirst]
          generalize isCount : (decimal.exponent + ↑(digits.length + 1) - 1 + 1).toNat = count
          have inside : count < (c :: digits).length := by
            simp only [List.length_cons]
            omega
          have notEmpty : (c :: digits).drop count ≠ [] := by
            rw [ne_eq, List.drop_eq_nil_iff]
            omega
          have dropped : AreDigits ((c :: digits).drop count) := fun d member => allDigits d (List.mem_of_mem_drop member)
          simpa using isUnsigned_point (isWhole_take first others (by omega)) dropped notEmpty
        · rw [if_neg isFirst]
          have places := (areDigits_zeros (-(decimal.exponent + ↑(digits.length + 1) - 1) - 1).toNat).append allDigits
          simpa [toList_toString, isCons] using isUnsigned_point (.inl rfl) places (by simp)
    · rw [if_neg positional]
      generalize decimal.exponent + ↑(digits.length + 1) - 1 = place
      have isSign : ((if place < 0 then '-' else '+') == '+' || (if place < 0 then '-' else '+') == '-') = true := by
        split <;> rfl
      have numeral := isUnsigned_exponent first others isSign (areDigits_toDigits place.natAbs) Nat.toDigits_ne_nil
      by_cases isEmpty : digits = [] <;> by_cases negative : place < 0 <;>
        simpa [toList_toString, isEmpty, negative] using numeral

/-- The text of every number is a numeral. -/
theorem isNumeral_text (number : Number) : ∃ sign whole fraction exponent,
    IsNumeral sign whole fraction exponent ∧ number.text.toList = sign ++ whole ++ fraction ++ exponent := by
  cases number with
  | integer value =>
    cases value with
    | ofNat n =>
      refine ⟨[], Nat.toDigits 10 n, [], [], ⟨.inl rfl, isWhole_toDigits n, .inl rfl, .inl rfl⟩, ?_⟩
      simp only [List.nil_append, List.append_nil]
      exact toList_toString n
    | negSucc n =>
      refine ⟨['-'], Nat.toDigits 10 (n + 1), [], [], ⟨.inr rfl, isWhole_toDigits _, .inl rfl, .inl rfl⟩, ?_⟩
      simp only [List.append_nil]
      exact toList_negSucc n
  | binary value =>
    obtain ⟨whole, fraction, exponent, numeral, isText⟩ := isUnsigned_scientific (Binary64.shortest value.magnitude)
    by_cases negative : value.negative = true
    · refine ⟨['-'], whole, fraction, exponent, numeral _ (.inr rfl), ?_⟩
      simp [Number.text, Binary64.text, negative, isText]
    · refine ⟨[], whole, fraction, exponent, numeral _ (.inl rfl), ?_⟩
      simp [Number.text, Binary64.text, negative, isText]

end Digits

namespace Number

theorem digitsToNat_toDigits (n : Nat) : digitsToNat (Nat.toDigits 10 n) = n := by
  have back := Nat.ofDigitChars_ten_toDigits (n := n)
  rw [Nat.ofDigitChars_eq_foldl] at back
  have same : (fun total (c : Char) => total * 10 + (c.toNat - 48)) =
      fun sofar (c : Char) => 10 * sofar + (c.toNat - '0'.toNat) := by
    funext total c
    rw [Nat.mul_comm]
    rfl
  rw [digitsToNat, same, back]

theorem fits_of_ofLiteral? {text : List Char} {value : Int} (read : ofLiteral? text = some (.integer value)) :
    fits value = true := by
  unfold ofLiteral? at read
  extract_lets negative body whole rest found at read
  split at read
  · rename_i isInteger
    obtain rfl : found = value := by simpa using read
    simp only [Bool.and_eq_true] at isInteger
    exact isInteger.1.2
  · obtain ⟨_, _, isBinary⟩ := Option.map_eq_some_iff.mp read
    cases isBinary

theorem ofLiteral?_digits {digits : List Char} (areDigits : AreDigits digits) (notEmpty : digits ≠ [])
    (fitting : fits (digitsToNat digits) = true) :
    ofLiteral? digits = some (.integer (digitsToNat digits)) := by
  obtain ⟨c, others, rfl⟩ := List.exists_cons_of_ne_nil notEmpty
  have noSign : c ≠ '-' := by
    rintro rfl
    exact absurd (areDigits _ List.mem_cons_self) (by decide)
  have whole : (c :: others).takeWhile isDigit = c :: others := List.takeWhile_eq_self_iff.mpr areDigits
  have positive : ((c :: others).head? == some '-') = false := by simpa using noSign
  unfold ofLiteral?
  simp only [positive, Bool.false_eq_true, if_false, whole, List.drop_length, List.isEmpty_nil, fitting, Bool.false_and,
    Bool.not_false, Bool.and_self, if_true]

theorem ofLiteral?_minus {digits : List Char} (areDigits : AreDigits digits) (positive : digitsToNat digits ≠ 0)
    (fitting : fits (-(digitsToNat digits : Int)) = true) :
    ofLiteral? ('-' :: digits) = some (.integer (-(digitsToNat digits : Int))) := by
  have whole : digits.takeWhile isDigit = digits := List.takeWhile_eq_self_iff.mpr areDigits
  have notZero : (-(digitsToNat digits : Int) == 0) = false := by
    rw [beq_eq_false_iff_ne]
    omega
  unfold ofLiteral?
  simp only [List.head?_cons, BEq.rfl, if_true, List.drop_succ_cons, List.drop_zero, whole, List.drop_length,
    List.isEmpty_nil, fitting, notZero, Bool.and_false, Bool.not_false, Bool.and_self]

/-- The text of an integer that 64 bits hold is read back. -/
theorem ofLiteral?_text {value : Int} (fitting : fits value = true) :
    ofLiteral? (integer value).text.toList = some (.integer value) := by
  cases value with
  | ofNat n =>
    have read := ofLiteral?_digits (areDigits_toDigits n) Nat.toDigits_ne_nil (by rwa [digitsToNat_toDigits])
    rw [digitsToNat_toDigits] at read
    rwa [← toList_toString] at read
  | negSucc n =>
    have same : -((n + 1 : Nat) : Int) = Int.negSucc n := rfl
    have positive : digitsToNat (Nat.toDigits 10 (n + 1)) ≠ 0 := by
      rw [digitsToNat_toDigits]
      exact Nat.succ_ne_zero n
    have fittingDigits : fits (-(digitsToNat (Nat.toDigits 10 (n + 1)) : Int)) = true := by
      rw [digitsToNat_toDigits, same]
      exact fitting
    have read := ofLiteral?_minus (areDigits_toDigits (n + 1)) positive fittingDigits
    rw [digitsToNat_toDigits, same] at read
    rwa [← toList_negSucc] at read

/-- The text of the number is read as an equal number. -/
def ReadsBack (number : Number) : Prop :=
  ∃ other, ofLiteral? number.text.toList = some other ∧ other.same number = true

instance (number : Number) : Decidable number.ReadsBack :=
  decidable_of_iff ((ofLiteral? number.text.toList).any (·.same number) = true) (Option.any_eq_true _ _)

theorem negative_of_ofScientific? {negative : Bool} {decimal : Scientific} {value : Binary64}
    (read : Binary64.ofScientific? negative decimal = some value) : value.negative = negative := by
  unfold Binary64.ofScientific? at read
  extract_lets digits magnitude at read
  by_cases scaled : 0 ≤ decimal.exponent
  · rw [if_pos scaled] at read
    by_cases isZero : digits = 0
    · rw [if_pos isZero] at read
      cases read
      rfl
    · simp only [isZero, if_false, Option.ite_none_left_eq_some, Option.ite_none_right_eq_some] at read
      cases read.2.2
      rfl
  · rw [if_neg scaled] at read
    cases read
    rfl

theorem negative_of_ofLiteral? {text : List Char} {value : Binary64} (read : ofLiteral? text = some (.binary value)) :
    value.negative = (text.head? == some '-') := by
  unfold ofLiteral? at read
  extract_lets negative body whole rest found fraction tail at read
  split at read
  · cases read
  · obtain ⟨other, isBinary, same⟩ := Option.map_eq_some_iff.mp read
    cases same
    exact negative_of_ofScientific? isBinary

theorem head?_text_binary (value : Binary64) : ((binary value).text.toList.head? == some '-') = value.negative := by
  obtain ⟨whole, fraction, exponent, numeral, isText⟩ := isUnsigned_scientific (Binary64.shortest value.magnitude)
  obtain ⟨c, digits, isCons, isDigit⟩ := exists_head_of_isWhole (numeral [] (.inl rfl)).whole
  cases negative : value.negative with
  | true => simp [text, Binary64.text, negative]
  | false =>
    have noSign : c ≠ '-' := by
      rintro rfl
      exact absurd isDigit (by decide)
    simp [text, Binary64.text, negative, isText, isCons, noSign]

/-- The sign of a zero is kept, so an equal number is the same number. -/
theorem ReadsBack.exact {number : Number} (readsBack : number.ReadsBack) :
    ofLiteral? number.text.toList = some number := by
  obtain ⟨other, read, same⟩ := readsBack
  rw [read]
  cases number with
  | integer value =>
    cases other with
    | integer found => rw [beq_iff_eq.mp same]
    | binary => cases same
  | binary value =>
    cases other with
    | integer => cases same
    | binary found =>
      have sign := negative_of_ofLiteral? read
      rw [head?_text_binary] at sign
      simp only [Number.same, Binary64.same, Bool.or_eq_true, beq_iff_eq, Bool.and_eq_true] at same
      rcases same with rfl | ⟨foundZero, isZero⟩
      · rfl
      · obtain ⟨negative, magnitude⟩ := value
        obtain ⟨foundNegative, foundMagnitude⟩ := found
        simp_all

end Number

end SiteQuery.Graphql
