/-!
# Reading quoted text

The characters between two double quotes, with their escapes resolved.  A text is at fault either because it ends early
or because of a character that may not stand where it stands; the first fault from the left counts.
-/

namespace LazyQuery

/-- What is wrong with a text that is read from left to right. -/
inductive TextFault where
  | endsEarly
  | illFormed
  deriving DecidableEq, Repr

namespace Unquote

/-- What is left of a text after at least one character of it has been read. -/
abbrev Shorter (text : List Char) := { rest : List Char // rest.length < text.length }

def hexValue? (c : Char) : Option Nat :=
  if c.isDigit then some (c.toNat - '0'.toNat)
  else if 'a' ≤ c ∧ c ≤ 'f' then some (c.toNat - 'a'.toNat + 10)
  else if 'A' ≤ c ∧ c ≤ 'F' then some (c.toNat - 'A'.toNat + 10)
  else none

/-- How many bytes the characters take. -/
def byteCount (text : List Char) : Nat :=
  text.foldl (fun count c => count + c.utf8Size) 0

/-- Four hexadecimal digits.  Fewer than four bytes are a text that ends early. -/
def readHex4 : (text : List Char) → Except TextFault (Nat × Shorter text)
  | a :: b :: c :: d :: rest =>
    match hexValue? a, hexValue? b, hexValue? c, hexValue? d with
    | some a, some b, some c, some d =>
      .ok (((a * 16 + b) * 16 + c) * 16 + d, ⟨rest, by simp only [List.length_cons]; omega⟩)
    | _, _, _, _ => .error .illFormed
  | text => .error (if byteCount text < 4 then .endsEarly else .illFormed)

def isHighSurrogate (unit : Nat) : Bool :=
  0xD800 ≤ unit && unit ≤ 0xDBFF

def isLowSurrogate (unit : Nat) : Bool :=
  0xDC00 ≤ unit && unit ≤ 0xDFFF

/-- The second half of a surrogate pair, as an escape of its own. -/
def readLowSurrogate : (text : List Char) → Except TextFault (Nat × Shorter text)
  | [] => .error .endsEarly
  | ['\\'] => .error .endsEarly
  | '\\' :: 'u' :: rest => do
    let (unit, ⟨rest, h⟩) ← readHex4 rest
    if isLowSurrogate unit then
      return (unit, ⟨rest, by simp only [List.length_cons]; omega⟩)
    else throw .illFormed
  | _ => .error .illFormed

/-- A character by its number, after `\u`. -/
def readNumbered (text : List Char) : Except TextFault (Char × Shorter text) := do
  let (unit, ⟨rest, h⟩) ← readHex4 text
  if isLowSurrogate unit then throw .illFormed
  else if isHighSurrogate unit then
    let (low, ⟨rest, h'⟩) ← readLowSurrogate rest
    return (Char.ofNat (0x10000 + (unit - 0xD800) * 0x400 + (low - 0xDC00)), ⟨rest, by omega⟩)
  else return (Char.ofNat unit, ⟨rest, h⟩)

/-- The character that a letter after a backslash stands for. -/
def named? : Char → Option Char
  | '"' => some '"'
  | '\\' => some '\\'
  | '/' => some '/'
  | 'b' => some '\x08'
  | 'f' => some '\x0c'
  | 'n' => some '\n'
  | 'r' => some '\r'
  | 't' => some '\t'
  | _ => none

/-- An escape, after its backslash. -/
def readEscape : (text : List Char) → Except TextFault (Char × Shorter text)
  | [] => .error .endsEarly
  | 'u' :: rest => do
    let (c, ⟨rest, h⟩) ← readNumbered rest
    return (c, ⟨rest, by simp only [List.length_cons]; omega⟩)
  | letter :: rest =>
    match named? letter with
    | some c => .ok (c, ⟨rest, by simp⟩)
    | none => .error .illFormed

/-- The characters up to the closing quote, and what follows it. -/
def readRest (text : List Char) : Except TextFault (List Char × List Char) :=
  match text with
  | [] => .error .endsEarly
  | '"' :: rest => .ok ([], rest)
  | '\\' :: rest => do
    let (c, ⟨rest', _h⟩) ← readEscape rest
    let (cs, after) ← readRest rest'
    return (c :: cs, after)
  | c :: rest =>
    if c.toNat < 0x20 then .error .illFormed
    else do
      let (cs, after) ← readRest rest
      return (c :: cs, after)
termination_by text.length
decreasing_by
  all_goals simp only [List.length_cons]; omega

end Unquote

end LazyQuery
