import MulticastMesh.Json.Basic
/-!
# Reading JSON text

Each reader takes what it recognises from the front of the text and returns the rest.  It refuses
what breaks the grammar; what keeps the grammar and has no value is read as unsupported.
-/

namespace MulticastMesh.Json

def isSpace (c : Char) : Bool := c == ' ' || c == '\n' || c == '\t' || c == '\r'

def skipSpace (cs : List Char) : List Char := cs.dropWhile isSpace

def hexDigit? (c : Char) : Option Nat :=
  if '0' ≤ c ∧ c ≤ '9' then some (c.toNat - '0'.toNat)
  else if 'a' ≤ c ∧ c ≤ 'f' then some (c.toNat - 'a'.toNat + 10)
  else if 'A' ≤ c ∧ c ≤ 'F' then some (c.toNat - 'A'.toNat + 10)
  else none

/-- Four hexadecimal digits. -/
def readUnit : List Char → Option (Nat × List Char)
  | a :: b :: c :: d :: rest => do
    let a ← hexDigit? a
    let b ← hexDigit? b
    let c ← hexDigit? c
    let d ← hexDigit? d
    return (a * 4096 + b * 256 + c * 16 + d, rest)
  | _ => none

/-- The character of a surrogate pair, from its first half and the text behind it. -/
def readPair (first : Nat) : List Char → Option (Char × List Char)
  | '\\' :: 'u' :: rest => do
    let (second, rest) ← readUnit rest
    if first < 0xDC00 ∧ 0xDC00 ≤ second ∧ second < 0xE000 then
      return (Char.ofNat (0x10000 + (first - 0xD800) * 0x400 + (second - 0xDC00)), rest)
    else
      none
  | _ => none

/-- The character that a `u` escape stands for, none if it is half of a surrogate pair. -/
def readUnicode (cs : List Char) : Option (Option Char × List Char) := do
  let (first, rest) ← readUnit cs
  if first < 0xD800 ∨ 0xE000 ≤ first then
    return (some (Char.ofNat first), rest)
  else
    match readPair first rest with
    | some (c, rest) => return (some c, rest)
    | none => return (none, rest)

/-- The character that an escape stands for, if there is one, after the backslash. -/
def readEscape : List Char → Option (Option Char × List Char)
  | '"' :: rest => some (some '"', rest)
  | '\\' :: rest => some (some '\\', rest)
  | '/' :: rest => some (some '/', rest)
  | 'b' :: rest => some (some '\x08', rest)
  | 'f' :: rest => some (some '\x0C', rest)
  | 'n' :: rest => some (some '\n', rest)
  | 'r' :: rest => some (some '\r', rest)
  | 't' :: rest => some (some '\t', rest)
  | 'u' :: rest => readUnicode rest
  | _ => none

/-- The rest of a string literal, after its first quote; `sofar` is reversed.  The string is none
if a character of it is. -/
def readString : (fuel : Nat) → (sofar : List (Option Char)) → List Char →
    Option (Option String × List Char)
  | 0, _, _ => none
  | _, _, [] => none
  | fuel + 1, sofar, c :: rest =>
    if c = '"' then some ((sofar.reverse.mapM id).map String.ofList, rest)
    else if c = '\\' then do
      let (escaped, rest) ← readEscape rest
      readString fuel (escaped :: sofar) rest
    else if c.toNat < 0x20 then none
    else readString fuel (some c :: sofar) rest

def digitsOf (cs : List Char) : List Char × List Char :=
  (cs.takeWhile Char.isDigit, cs.dropWhile Char.isDigit)

def valueOf (digits : List Char) : Nat :=
  digits.foldl (fun n c => n * 10 + (c.toNat - '0'.toNat)) 0

/-- Digits in front of the point; a zero stands alone. -/
def readInteger (cs : List Char) : Option (List Char × List Char) :=
  match digitsOf cs with
  | ([], _) => none
  | ('0' :: _ :: _, _) => none
  | (digits, rest) => some (digits, rest)

/-- Digits behind the point, none if there is no point. -/
def readFraction : List Char → Option (List Char × List Char)
  | '.' :: cs =>
    match digitsOf cs with
    | ([], _) => none
    | (digits, rest) => some (digits, rest)
  | cs => some ([], cs)

def readExponentDigits (negative : Bool) (cs : List Char) :
    Option (Option Int × List Char) :=
  match digitsOf cs with
  | ([], _) => none
  | (digits, rest) =>
    let n : Int := valueOf digits
    some (some (if negative then -n else n), rest)

def readSignedExponent : List Char → Option (Option Int × List Char)
  | '+' :: cs => readExponentDigits false cs
  | '-' :: cs => readExponentDigits true cs
  | cs => readExponentDigits false cs

def readExponent : List Char → Option (Option Int × List Char)
  | 'e' :: cs => readSignedExponent cs
  | 'E' :: cs => readSignedExponent cs
  | cs => some (none, cs)

/-- A number literal without its sign.  A negative zero is no integer. -/
def readUnsigned (negative : Bool) (cs : List Char) : Option (Json × List Char) := do
  let (whole, rest) ← readInteger cs
  let (fraction, rest) ← readFraction rest
  let (exponent?, rest) ← readExponent rest
  let mantissa := valueOf (whole ++ fraction)
  let integral := fraction.isEmpty && exponent?.isNone && !(negative && mantissa == 0)
  let d : Decimal := {
    negative, mantissa, integral
    exponent := exponent?.getD 0 - fraction.length }
  return (if d.inRange then .number d else .unsupported, rest)

/-- Arrays and objects that may stand inside one another, the outermost one included. -/
def maxNesting : Nat := 127

/-- An array or object with room for so many more levels, itself included. -/
def within (room : Nat) (j : Json) : Json := if room = 0 then .unsupported else j

/-- An object, if all its names are strings. -/
def ofNamed (fields : List (Option String × Json)) : Json :=
  match fields.mapM fun (name?, value) => name?.map (·, value) with
  | some fields => .object fields
  | none => .unsupported

mutual

def readValue : (fuel room : Nat) → List Char → Option (Json × List Char)
  | 0, _, _ => none
  | fuel + 1, room, cs =>
    match skipSpace cs with
    | 'n' :: 'u' :: 'l' :: 'l' :: rest => some (.null, rest)
    | 't' :: 'r' :: 'u' :: 'e' :: rest => some (.bool true, rest)
    | 'f' :: 'a' :: 'l' :: 's' :: 'e' :: rest => some (.bool false, rest)
    | '"' :: rest => do
      let (s?, rest) ← readString (rest.length + 1) [] rest
      return (s?.elim .unsupported .string, rest)
    | '[' :: rest =>
      match skipSpace rest with
      | ']' :: rest => some (within room (.array []), rest)
      | rest => do
        let (items, rest) ← readItems fuel (room - 1) rest
        return (within room (.array items), rest)
    | '\x7b' :: rest =>
      match skipSpace rest with
      | '\x7d' :: rest => some (within room (.object []), rest)
      | rest => do
        let (fields, rest) ← readFields fuel (room - 1) rest
        return (within room (ofNamed fields), rest)
    | '-' :: rest => readUnsigned true rest
    | rest => readUnsigned false rest

def readItems : (fuel room : Nat) → List Char → Option (List Json × List Char)
  | 0, _, _ => none
  | fuel + 1, room, cs => do
    let (item, rest) ← readValue fuel room cs
    match skipSpace rest with
    | ',' :: rest =>
      let (items, rest) ← readItems fuel room rest
      return (item :: items, rest)
    | ']' :: rest => return ([item], rest)
    | _ => none

def readFields : (fuel room : Nat) → List Char →
    Option (List (Option String × Json) × List Char)
  | 0, _, _ => none
  | fuel + 1, room, cs =>
    match skipSpace cs with
    | '"' :: rest => do
      let (name?, rest) ← readString (rest.length + 1) [] rest
      match skipSpace rest with
      | ':' :: rest =>
        let (value, rest) ← readValue fuel room rest
        match skipSpace rest with
        | ',' :: rest =>
          let (fields, rest) ← readFields fuel room rest
          return ((name?, value) :: fields, rest)
        | '\x7d' :: rest => return ([(name?, value)], rest)
        | _ => none
      | _ => none
    | _ => none

end

/-- The value that a text stands for; nothing but blanks may follow it. -/
def ofChars? (cs : List Char) : Option Json := do
  let (value, rest) ← readValue (2 * cs.length + 2) maxNesting cs
  if (skipSpace rest).isEmpty then some value else none

def ofText? (s : String) : Option Json := ofChars? s.toList

end MulticastMesh.Json
