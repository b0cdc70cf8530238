/-!
# Quoted text

A text between double quotes, in which a quote, a backslash and every control character below the blank are escaped and
nothing else is.
-/

namespace LazyQuery.Quoted

/-- The digit of a number below sixteen, in lower case. -/
def hexDigit (n : Nat) : Char :=
  Nat.digitChar n

/-- The written form of one character. -/
def escape (c : Char) : List Char :=
  if c = '"' then ['\\', '"']
  else if c = '\\' then ['\\', '\\']
  else if 0x20 ≤ c.toNat then [c]
  else if c.toNat = 0x08 then ['\\', 'b']
  else if c.toNat = 0x09 then ['\\', 't']
  else if c.toNat = 0x0A then ['\\', 'n']
  else if c.toNat = 0x0C then ['\\', 'f']
  else if c.toNat = 0x0D then ['\\', 'r']
  else ['\\', 'u', '0', '0', hexDigit (c.toNat / 16), hexDigit (c.toNat % 16)]

/-- The written form of a text. -/
def encode (text : List Char) : List Char :=
  '"' :: text.flatMap escape ++ ['"']

end LazyQuery.Quoted

namespace LazyQuery

def quote (text : String) : String :=
  String.ofList (Quoted.encode text.toList)

end LazyQuery
