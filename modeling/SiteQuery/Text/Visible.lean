import SiteQuery.Text.Blank
import SiteQuery.Text.Quoted

/-!
Text shown between quotes, so that every character can be seen: quotes and backslashes are escaped, and so is
what leaves no ink of its own.
-/

namespace SiteQuery.Visible

/-- Ranges of controls, formats, joining marks and private characters. -/
def inklessRanges : List (Nat × Nat) :=
  [(0x00, 0x1F), (0x7F, 0x9F), (0xAD, 0xAD), (0x300, 0x36F), (0x483, 0x489), (0x591, 0x5BD), (0x600, 0x605),
    (0x610, 0x61C), (0x64B, 0x65F), (0x6DD, 0x6DD), (0x70F, 0x70F), (0x180B, 0x180F), (0x200B, 0x200F),
    (0x202A, 0x202E), (0x2060, 0x206F), (0x20D0, 0x20F0), (0x302A, 0x302F), (0x3099, 0x309A), (0xE000, 0xF8FF),
    (0xFE00, 0xFE0F), (0xFE20, 0xFE2F), (0xFEFF, 0xFEFF), (0xFFF0, 0xFFFB), (0xFFFE, 0xFFFF),
    (0xE0000, 0x10FFFF)]

def isInkless (c : Char) : Bool :=
  c != ' ' && (isBlank c || inklessRanges.any fun (low, high) => low ≤ c.toNat && c.toNat ≤ high)

def hexDigits (n : Nat) : List Char := (Nat.toDigits 16 n)

def escape (c : Char) : List Char :=
  if c = '"' then ['\\', '"']
  else if c = '\\' then ['\\', '\\']
  else if c = '\n' then ['\\', 'n']
  else if c = '\r' then ['\\', 'r']
  else if c = '\t' then ['\\', 't']
  else if c.toNat = 0 then ['\\', '0']
  else if isInkless c then ['\\', 'u', '\x7b'] ++ hexDigits c.toNat ++ ['\x7d']
  else [c]

end SiteQuery.Visible

namespace SiteQuery

/-- The text between quotes, with all of it to be seen. -/
def visible (text : String) : String := String.ofList ('"' :: (text.toList.flatMap Visible.escape ++ ['"']))

end SiteQuery
