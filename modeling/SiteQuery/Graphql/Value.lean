import SiteQuery.Decimal.Binary64
import SiteQuery.Text.Quoted
import SiteQuery.Text.Utf8

/-!
Literal values: their equality (`Value.same`) and their text (`Value.text`).
-/

namespace SiteQuery.Graphql

open Decimal

inductive Number where
  | integer (value : Int)
  | binary (value : Binary64)
deriving DecidableEq, Repr

namespace Number

def isDigit (c : Char) : Bool := '0' ≤ c && c ≤ '9'

def digitsToNat (digits : List Char) : Nat :=
  digits.foldl (fun total c => total * 10 + (c.toNat - 48)) 0

def fits (value : Int) : Bool := -9223372036854775808 ≤ value && value ≤ 18446744073709551615

def readExponent : List Char → Int
  | [] => 0
  | '-' :: digits => -(digitsToNat digits : Int)
  | '+' :: digits => digitsToNat digits
  | digits => digitsToNat digits

/-- Digits are taken while 64 bits hold the number; the rest come back. -/
def takeDigits : Nat → List Char → Nat × List Char
  | total, [] => (total, [])
  | total, c :: rest =>
    let next := total * 10 + (c.toNat - 48)
    if next ≤ 18446744073709551615 then takeDigits next rest else (total, c :: rest)

/-- A whole part, a fraction and an exponent; digits that 64 bits do not hold only count as places. -/
def scientific (whole fraction exponent : List Char) : Scientific :=
  let (digits, dropped) := takeDigits 0 whole
  let (digits, ignored) := takeDigits digits fraction
  ⟨digits, readExponent exponent + dropped.length - (fraction.length - ignored.length : Nat)⟩

/-- Integers that 64 bits hold stay exact; all others are rounded, unless they are too large for that. -/
def ofLiteral? (text : List Char) : Option Number :=
  let negative := text.head? == some '-'
  let body := if negative then text.drop 1 else text
  let whole := body.takeWhile isDigit
  let rest := body.drop whole.length
  let value : Int := if negative then -(digitsToNat whole : Int) else digitsToNat whole
  if rest.isEmpty && fits value && !(negative && value == 0) then some (.integer value)
  else
    let fraction := if rest.head? == some '.' then (rest.drop 1).takeWhile isDigit else []
    let tail := if rest.head? == some '.' then rest.drop (fraction.length + 1) else rest
    (Binary64.ofScientific? negative (scientific whole fraction (tail.drop 1))).map .binary

def text : Number → String
  | integer value => toString value
  | binary value => value.text

/-- An integer never equals a rounded number. -/
def same : Number → Number → Bool
  | integer a, integer b => a == b
  | binary a, binary b => a.same b
  | _, _ => false

end Number

inductive Value where
  | reference (name : String)
  | null
  | number (number : Number)
  | string (text : String)
  | boolean (flag : Bool)
  | binary (bytes : List UInt8)
  | enum (name : String)
  | list (items : List Value)
  | object (fields : List (String × Value))
deriving Repr, Inhabited

namespace Value

/-- A repeated key keeps its first place and takes the last value. -/
def insertField (key : String) (value : Value) : List (String × Value) → List (String × Value)
  | [] => [(key, value)]
  | (other, old) :: rest =>
    if other = key then (key, value) :: rest else (other, old) :: insertField key value rest

def field? (key : String) : List (String × Value) → Option Value
  | [] => none
  | (other, value) :: rest => if other = key then some value else field? key rest

mutual

/-- Equality of values, where the order of an object's fields does not count. -/
def same : Value → Value → Bool
  | reference a, reference b => a == b
  | null, null => true
  | number a, number b => a.same b
  | string a, string b => a == b
  | boolean a, boolean b => a == b
  | binary a, binary b => a == b
  | enum a, enum b => a == b
  | list xs, list ys => sameItems xs ys
  | object xs, object ys => xs.length == ys.length && sameFields xs ys
  | _, _ => false

def sameItems : List Value → List Value → Bool
  | [], [] => true
  | x :: xs, y :: ys => same x y && sameItems xs ys
  | _, _ => false

/-- Every field has an equal one under its key. -/
def sameFields : List (String × Value) → List (String × Value) → Bool
  | [], _ => true
  | (key, value) :: rest, others =>
    (match field? key others with
      | some other => same value other
      | none => false) && sameFields rest others

end

mutual

def text : Value → String
  | reference name => "$" ++ name
  | null => "null"
  | number n => n.text
  | string s => quoted s
  | boolean true => "true"
  | boolean false => "false"
  | binary bytes => quoted (String.ofList (Utf8.lossy bytes))
  | enum name => name
  | list items => "[" ++ ", ".intercalate (textItems items) ++ "]"
  | object fields => "\x7b" ++ ", ".intercalate (textFields fields) ++ "\x7d"

def textItems : List Value → List String
  | [] => []
  | item :: rest => text item :: textItems rest

def textFields : List (String × Value) → List String
  | [] => []
  | (key, value) :: rest => (key ++ ": " ++ text value) :: textFields rest

end

end Value

end SiteQuery.Graphql
