/-!
Finite binary floating point values of 64 bits, by exact arithmetic on natural numbers.

A magnitude is the exponent field over the 52 fraction bits, so magnitudes are ordered as the values that
they stand for. `Binary64.nearestMagnitude` rounds a fraction to the nearest value, ties to the even one, and
`Binary64.ofScientific?` reads a decimal with one rounding for each of its two parts. `Binary64.shortest`
gives the decimal with the fewest digits that is nearer to the value than to any other.
-/

namespace SiteQuery.Decimal

/-- The number `digits * 10 ^ exponent`. -/
structure Scientific where
  digits : Nat
  exponent : Int
deriving DecidableEq, Repr

structure Binary64 where
  negative : Bool
  magnitude : Nat
deriving DecidableEq, Repr

/-- Nearest natural number to `numerator / denominator`, ties to the even one. -/
def roundHalfEven (numerator denominator : Nat) : Nat :=
  let quotient := numerator / denominator
  let rest := numerator % denominator
  if denominator < 2 * rest || (denominator == 2 * rest && quotient % 2 == 1) then quotient + 1 else quotient

/-- The count of decimal digits; one for zero. -/
def width (n : Nat) : Nat := (Nat.toDigits 10 n).length

namespace Binary64

/-- Magnitudes from here on are not finite. -/
def limit : Nat := 2047 * Nat.pow 2 52

/-- The magnitude nearest to `numerator / denominator`. -/
def nearestMagnitude (numerator denominator : Nat) : Nat :=
  let estimate : Int := (numerator.log2 : Int) - denominator.log2
  let binade : Int :=
    if numerator * Nat.pow 2 (-estimate).toNat < denominator * Nat.pow 2 estimate.toNat then estimate - 1
    else estimate
  let step := (binade + 1022).toNat
  let scale : Int := (step : Int) - 1074
  if numerator = 0 then 0
  else
    step * Nat.pow 2 52
      + roundHalfEven (numerator * Nat.pow 2 (-scale).toNat) (denominator * Nat.pow 2 scale.toNat)

/-- A magnitude as `significand * 2 ^ scale`. -/
def significand (magnitude : Nat) : Nat :=
  if magnitude < Nat.pow 2 52 then magnitude else Nat.pow 2 52 + magnitude % Nat.pow 2 52

def scale (magnitude : Nat) : Int :=
  if magnitude < Nat.pow 2 52 then -1074 else (magnitude / Nat.pow 2 52 : Nat) - 1075

def numerator (magnitude : Nat) : Nat := significand magnitude * Nat.pow 2 (scale magnitude).toNat

def denominator (magnitude : Nat) : Nat := Nat.pow 2 (-scale magnitude).toNat

def product (a b : Nat) : Nat :=
  nearestMagnitude (numerator a * numerator b) (denominator a * denominator b)

def quotient (a b : Nat) : Nat :=
  nearestMagnitude (numerator a * denominator b) (denominator a * numerator b)

/-- The magnitude of a power of ten, for an exponent of at most 308. -/
def powerOfTen (exponent : Nat) : Nat := nearestMagnitude (Nat.pow 10 exponent) 1

def downscale : Nat → Nat → Nat → Nat
  | 0, magnitude, _ => magnitude
  | fuel + 1, magnitude, exponent =>
    if exponent ≤ 308 then quotient magnitude (powerOfTen exponent)
    else if magnitude = 0 then 0
    else downscale fuel (quotient magnitude (powerOfTen 308)) (exponent - 308)

/-- The digits are rounded first and the power of ten next, and their product or quotient last. Digits below
`2 ^ 64` vanish in two steps of 308 places, so three steps down reach every value. -/
def ofScientific? (negative : Bool) (decimal : Scientific) : Option Binary64 :=
  let digits := nearestMagnitude decimal.digits 1
  if 0 ≤ decimal.exponent then
    if digits = 0 then some ⟨negative, 0⟩
    else if 308 < decimal.exponent then none
    else
      let magnitude := product digits (powerOfTen decimal.exponent.toNat)
      if magnitude < limit then some ⟨negative, magnitude⟩ else none
  else some ⟨negative, downscale 4 digits (-decimal.exponent).toNat⟩

/-- The value below is half as far away as the value above. -/
def narrowBelow (magnitude : Nat) : Bool :=
  magnitude % Nat.pow 2 52 == 0 && 1 < magnitude / Nat.pow 2 52

/-- Order of `digits * 10 ^ exponent` and `n * 2 ^ power`. -/
def compareScaled (decimal : Scientific) (n : Nat) (power : Int) : Ordering :=
  compare (decimal.digits * Nat.pow 10 decimal.exponent.toNat * Nat.pow 2 (-power).toNat)
    (n * Nat.pow 2 power.toNat * Nat.pow 10 (-decimal.exponent).toNat)

/-- The decimal lies among the reals that are rounded to this magnitude. -/
def readsBack (magnitude : Nat) (decimal : Scientific) : Bool :=
  let m := significand magnitude
  let power := scale magnitude - 2
  let closed := m % 2 == 0
  let low := compareScaled decimal (if narrowBelow magnitude then 4 * m - 1 else 4 * m - 2) power
  let high := compareScaled decimal (4 * m + 2) power
  (low == .gt || (closed && low == .eq)) && (high == .lt || (closed && high == .eq))

/-- The least `k` with the value below `10 ^ k`, for a value that is not zero. -/
def decade (numerator denominator : Nat) : Int :=
  if denominator ≤ numerator then width (numerator / denominator) else 1 - (width (denominator / numerator) : Int)

/-- Of the neighbours of the value on the grid of `10 ^ exponent` the nearest one that reads back. -/
def onGrid (magnitude numerator denominator : Nat) (exponent : Int) : Option Scientific :=
  let scaled := numerator * Nat.pow 10 (-exponent).toNat
  let unit := denominator * Nat.pow 10 exponent.toNat
  let below : Scientific := ⟨scaled / unit, exponent⟩
  let above : Scientific := ⟨scaled / unit + 1, exponent⟩
  match readsBack magnitude below, readsBack magnitude above with
  | false, false => none
  | true, false => some below
  | false, true => some above
  | true, true => some ⟨roundHalfEven scaled unit, exponent⟩

def search (magnitude numerator denominator : Nat) (top : Int) : Nat → Nat → Option Scientific
  | 0, _ => none
  | attempts + 1, digits =>
    match onGrid magnitude numerator denominator (top - digits) with
    | some found => some found
    | none => search magnitude numerator denominator top attempts (digits + 1)

/-- Trailing zeros of the digits go into the exponent. -/
def strip : Nat → Scientific → Scientific
  | 0, decimal => decimal
  | fuel + 1, decimal =>
    if decimal.digits ≠ 0 ∧ decimal.digits % 10 = 0 then strip fuel ⟨decimal.digits / 10, decimal.exponent + 1⟩
    else decimal

/-- The fewest digits that read back as this magnitude. -/
def shortest (magnitude : Nat) : Scientific :=
  if magnitude = 0 then ⟨0, 0⟩
  else
    let n := numerator magnitude
    let d := denominator magnitude
    let found := (search magnitude n d (decade n d) 17 1).getD
      ⟨n * Nat.pow 5 (-scale magnitude).toNat, -((-scale magnitude).toNat : Int)⟩
    strip (width found.digits) found

end Binary64

def zeros (count : Nat) : String := String.ofList (List.replicate count '0')

/-- Positional with at least one place after the point while the first digit stands for `10 ^ -5` to
`10 ^ 15`, otherwise with an exponent that always has a sign. -/
def Scientific.text (decimal : Scientific) : String :=
  if decimal.digits = 0 then "0.0"
  else
    let digits := toString decimal.digits
    let count := width decimal.digits
    let first : Int := decimal.exponent + count - 1
    if -5 ≤ first && first ≤ 15 then
      if 0 ≤ decimal.exponent then digits ++ zeros decimal.exponent.toNat ++ ".0"
      else if 0 ≤ first then
        let whole := (first + 1).toNat
        String.ofList (digits.toList.take whole) ++ "." ++ String.ofList (digits.toList.drop whole)
      else "0." ++ zeros (-first - 1).toNat ++ digits
    else
      let fraction := String.ofList (digits.toList.drop 1)
      let mantissa := String.ofList (digits.toList.take 1) ++ (if fraction.isEmpty then "" else "." ++ fraction)
      mantissa ++ "e" ++ (if first < 0 then "-" else "+") ++ toString first.natAbs

def Binary64.text (value : Binary64) : String :=
  (if value.negative then "-" else "") ++ (Binary64.shortest value.magnitude).text

/-- Values are equal as numbers: both zeros are one. -/
def Binary64.same (left right : Binary64) : Bool :=
  left == right || (left.magnitude == 0 && right.magnitude == 0)

end SiteQuery.Decimal
