import LazyQuery.Engine.Config
import LazyQuery.Number.Arithmetic
import LazyQuery.Number.Rounding
import LazyQuery.Text.Unquote

/-!
# Reading a configuration

A configuration is a JSON document: an object with the optional fields `log_level` and `trace_dispatch`, or an array with
their values in this order.  A level is a string, or an object whose only key is the level and whose value is null.

The document is read from left to right and the first fault counts: the text ends early, it is ill-formed, or what stands
there is unsuitable for a configuration.  An unknown or repeated field is noticed as soon as its name has been read.

* `Config.ofJson` — the configuration of a document.
-/

namespace LazyQuery.Config

inductive Fault where
  | endsEarly
  | illFormed
  | unsuitable
  deriving DecidableEq, Repr

def Fault.ofText : TextFault → Fault
  | .endsEarly => .endsEarly
  | .illFormed => .illFormed

/-- Reading from the front of a text. -/
abbrev Reader := StateT (List Char) (Except Fault)

namespace Reader

/-- The blanks of JSON. -/
def isJsonBlank (c : Char) : Bool :=
  c == ' ' || c == '\n' || c == '\t' || c == '\r'

/-- The next character that is no blank, which stays where it is. -/
def peek? : Reader (Option Char) := do
  let rest := (← get).dropWhile isJsonBlank
  set rest
  return rest.head?

/-- The same where the text must not end. -/
def peek : Reader Char := do
  match ← peek? with
  | some c => return c
  | none => throw .endsEarly

/-- Passes over the character at the front. -/
def pass : Reader Unit :=
  modify fun text => text.drop 1

/-- Passes over the next character, which must be the given one. -/
def expect (wanted : Char) : Reader Unit := do
  if (← peek) = wanted then pass else throw .illFormed

/-- The rest of a word whose first letter has been read. -/
def restOfWord : List Char → Reader Unit
  | [] => return ()
  | wanted :: word => do
    match (← get).head? with
    | none => throw .endsEarly
    | some c => if c = wanted then do pass; restOfWord word else throw .illFormed

/-- A string, from its opening quote on. -/
def string : Reader String := do
  match Unquote.readRest ((← get).drop 1) with
  | .ok (cs, rest) =>
    set rest
    return String.ofList cs
  | .error fault => throw (.ofText fault)

/-! ## Values of the wrong kind -/

/-- What is wrong with text that must start with a digit and does not. -/
def digitFault : List Char → Fault
  | [] => .endsEarly
  | _ :: _ => .illFormed

/-- The digits at the front, of which there must be at least one. -/
def digits (text : List Char) : Except Fault (List Char × List Char) :=
  let found := text.takeWhile Char.isDigit
  if found.isEmpty then .error (digitFault text) else .ok (found, text.dropWhile Char.isDigit)

/-- The digits before the point: a zero stands alone. -/
def wholeDigits (text : List Char) : Except Fault (List Char × List Char) :=
  match text with
  | '0' :: c :: rest => if c.isDigit then .error .illFormed else .ok (['0'], c :: rest)
  | text => digits text

def fractionDigits : List Char → Except Fault (List Char × List Char)
  | '.' :: rest => digits rest
  | rest => .ok ([], rest)

def powerOfTen : List Char → Except Fault Int
  | c :: rest =>
    if c = 'e' ∨ c = 'E' then
      let (negative, rest) : Bool × List Char :=
        match rest with
        | '-' :: rest => (true, rest)
        | '+' :: rest => (false, rest)
        | rest => (false, rest)
      do
        let (found, _) ← digits rest
        let power := Nat.ofDigitChars 10 found 0
        return if negative then -(power : Int) else power
    else .ok 0
  | [] => .ok 0

/-- Appends digits to a significand as long as it has no more than 64 bits; also gives the digits left over. -/
def extend (significand : Nat) : List Char → Nat × List Char
  | [] => (significand, [])
  | c :: rest =>
    let extended := 10 * significand + (c.toNat - '0'.toNat)
    if extended < 0x10000000000000000 then extend extended rest else (significand, c :: rest)

/-- The significand of a number, and the power of ten that its digits ask for.  Digits of the whole part that find no
room in the significand count as places, those of the fraction are dropped. -/
def significand (whole fraction : List Char) : Nat × Int :=
  let (head, beyond) := extend 0 whole
  let (significand, dropped) := extend head fraction
  (significand, (beyond.length : Int) - (fraction.length - dropped.length : Nat))

/-- Is the number too large?  The significand and the power of ten are rounded each, and so is their product, which must
be finite.  A power below one never makes a number too large. -/
def isTooLarge (significand : Nat) (power : Int) : Bool :=
  significand != 0 && 0 ≤ power && !(Number.ofNat significand * Number.ofDecimal false 1 power).isFinite

/-- Passes judgement on a number without its sign: it must be well-formed and not too large. -/
def checkNumber (text : List Char) : Except Fault Unit := do
  let (whole, rest) ← wholeDigits text
  let (fraction, rest) ← fractionDigits rest
  let power ← powerOfTen rest
  let (significand, places) := significand whole fraction
  if isTooLarge significand (places + power) then throw .illFormed

/-- Refuses a value of the wrong kind.  A scalar is read first and may be at fault itself. -/
def wrongKind {α : Type} : Reader α := do
  match ← get with
  | 'n' :: _ => do pass; restOfWord ['u', 'l', 'l']; throw .unsuitable
  | 't' :: _ => do pass; restOfWord ['r', 'u', 'e']; throw .unsuitable
  | 'f' :: _ => do pass; restOfWord ['a', 'l', 's', 'e']; throw .unsuitable
  | '"' :: _ => do let _ ← string; throw .unsuitable
  | '[' :: _ => throw .unsuitable
  | '\x7b' :: _ => throw .unsuitable
  | '-' :: rest => do checkNumber rest; throw .unsuitable
  | text =>
    if (text.head?.map Char.isDigit).getD false then do checkNumber text; throw .unsuitable
    else throw .illFormed

/-! ## The values of the fields -/

def bool : Reader Bool := do
  match ← peek with
  | 't' => do pass; restOfWord ['r', 'u', 'e']; return true
  | 'f' => do pass; restOfWord ['a', 'l', 's', 'e']; return false
  | _ => wrongKind

def null : Reader Unit := do
  match ← peek with
  | 'n' => do pass; restOfWord ['u', 'l', 'l']
  | _ => wrongKind

/-- The name of a level, in quotes. -/
def levelName : Reader Log.Severity := do
  match ← peek with
  | '"' => do
    match Log.Severity.ofName? (← string) with
    | some level => return level
    | none => throw .unsuitable
  | _ => throw .illFormed

/-- A level: its name, or an object with the name as its only key. -/
def level : Reader Log.Severity := do
  match ← peek with
  | '\x7b' => do
    pass
    let level ← levelName
    expect ':'
    null
    expect '\x7d'
    return level
  | _ => levelName

/-! ## Documents -/

inductive Field where
  | logLevel
  | traceDispatch
  deriving DecidableEq

def Field.ofName? : String → Option Field
  | "log_level" => some .logLevel
  | "trace_dispatch" => some .traceDispatch
  | _ => none

def Field.value (config : Config) : Field → Reader Config
  | .logLevel => do return { config with logLevel := ← level }
  | .traceDispatch => do return { config with traceDispatch := ← bool }

def fieldName : Reader Field := do
  match Field.ofName? (← string) with
  | some field => return field
  | none => throw .unsuitable

/-- The name of the next field, or nothing at the end of the object. -/
def nextField? (first : Bool) : Reader (Option Field) := do
  match ← peek with
  | '\x7d' => return none
  | '"' => if first then return some (← fieldName) else throw .illFormed
  | ',' =>
    if first then throw .illFormed
    else do
      pass
      match ← peek with
      | '"' => return some (← fieldName)
      | _ => throw .illFormed
  | _ => throw .illFormed

/-- The fields of an object up to its end.  There are two, so a third one repeats one of them. -/
def fields : Reader Config := do
  match ← nextField? true with
  | none => return {}
  | some field => do
    expect ':'
    let config ← field.value {}
    match ← nextField? false with
    | none => return config
    | some other => do
      if other = field then throw .unsuitable
      expect ':'
      let config ← other.value config
      match ← nextField? false with
      | none => return config
      | some _ => throw .unsuitable

/-- Is there another element before the end of the array? -/
def nextElement (first : Bool) : Reader Bool := do
  match ← peek with
  | ']' => return false
  | c =>
    if first then return true
    else if c = ',' then do
      pass
      if (← peek) = ']' then throw .illFormed else return true
    else throw .illFormed

/-- The elements of an array: the level, then whether parts are logged. -/
def elements : Reader Config := do
  if ← nextElement true then
    let logLevel ← level
    if ← nextElement false then return ⟨logLevel, ← bool⟩ else return { logLevel }
  else return {}

/-- A whole document. -/
def document : Reader Config := do
  let config ← match ← peek with
    | '\x7b' => do
      pass
      let config ← fields
      expect '\x7d'
      pure config
    | '[' => do
      pass
      let config ← elements
      expect ']'
      pure config
    | _ => wrongKind
  match ← peek? with
  | none => return config
  | some _ => throw .illFormed

end Reader

def ofJson (text : String) : Except Fault Config := do
  let (config, _) ← Reader.document.run text.toList
  return config

end LazyQuery.Config
