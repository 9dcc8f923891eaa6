/-!
Bytes as text: strict and lossy decoding of UTF-8.

`Utf8.next` takes one character or one maximal invalid part from the front: a lead byte with as many of the
following bytes as could still belong to a character.
-/

namespace SiteQuery.Utf8

def continuation (byte : UInt8) : Bool := 0x80 ≤ byte && byte ≤ 0xBF

/-- How many bytes follow a lead byte, and between which bounds the first of them lies. -/
def shape? (lead : UInt8) : Option (Nat × UInt8 × UInt8) :=
  if 0xC2 ≤ lead && lead ≤ 0xDF then some (1, 0x80, 0xBF)
  else if lead = 0xE0 then some (2, 0xA0, 0xBF)
  else if lead = 0xED then some (2, 0x80, 0x9F)
  else if 0xE1 ≤ lead && lead ≤ 0xEF then some (2, 0x80, 0xBF)
  else if lead = 0xF0 then some (3, 0x90, 0xBF)
  else if 0xF1 ≤ lead && lead ≤ 0xF3 then some (3, 0x80, 0xBF)
  else if lead = 0xF4 then some (3, 0x80, 0x8F)
  else none

def leadBits (lead : UInt8) : Nat :=
  if lead ≤ 0xDF then lead.toNat % 32 else if lead ≤ 0xEF then lead.toNat % 16 else lead.toNat % 8

/-- The continuation bytes of one character, at most `count`. -/
def followers : Nat → UInt8 → UInt8 → List UInt8 → List UInt8
  | 0, _, _, _ => []
  | _, _, _, [] => []
  | count + 1, low, high, byte :: rest =>
    if low ≤ byte && byte ≤ high then byte :: followers count 0x80 0xBF rest else []

/-- A character, or none for an invalid part; with the number of bytes after the first that it takes. -/
def next (lead : UInt8) (rest : List UInt8) : Option Char × Nat :=
  if lead < 0x80 then (some (Char.ofNat lead.toNat), 0)
  else
    match shape? lead with
    | none => (none, 0)
    | some (count, low, high) =>
      let taken := followers count low high rest
      if taken.length = count then
        (some (Char.ofNat (taken.foldl (fun code byte => code * 64 + byte.toNat % 64) (leadBits lead))), count)
      else (none, taken.length)

/-- Invalid parts become the replacement character. -/
def lossy : List UInt8 → List Char
  | [] => []
  | lead :: rest =>
    let (found, count) := next lead rest
    found.getD '\ufffd' :: lossy (rest.drop count)
termination_by bytes => bytes.length
decreasing_by simp only [List.length_drop, List.length_cons]; omega

def decode? : List UInt8 → Option (List Char)
  | [] => some []
  | lead :: rest =>
    let (found, count) := next lead rest
    match found with
    | none => none
    | some c => (decode? (rest.drop count)).map (c :: ·)
termination_by bytes => bytes.length
decreasing_by simp only [List.length_drop, List.length_cons]; omega

end SiteQuery.Utf8
