/-!
Quoted text: a quote and a backslash are escaped, control characters get a short escape or four hexadecimal
digits, and all else stands as it is.
-/

namespace SiteQuery.Quoted

def hexDigit (n : Nat) : Char :=
  if n < 10 then Char.ofNat (48 + n) else Char.ofNat (87 + n)

def escape (c : Char) : List Char :=
  if c = '"' then ['\\', '"']
  else if c = '\\' then ['\\', '\\']
  else if c = '\n' then ['\\', 'n']
  else if c = '\r' then ['\\', 'r']
  else if c = '\t' then ['\\', 't']
  else if c.toNat = 8 then ['\\', 'b']
  else if c.toNat = 12 then ['\\', 'f']
  else if c.toNat < 32 then ['\\', 'u', '0', '0', hexDigit (c.toNat / 16), hexDigit (c.toNat % 16)]
  else [c]

def encode (text : List Char) : List Char := '"' :: (text.flatMap escape ++ ['"'])

end SiteQuery.Quoted

namespace SiteQuery

def quoted (text : String) : String := String.ofList (Quoted.encode text.toList)

end SiteQuery
