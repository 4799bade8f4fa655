/-!
# Reading unsigned numerals

A numeral is an optional plus sign and at least one ASCII digit, and its value must not pass a
given limit.  The fault that comes first from the left is the one reported.
-/

namespace MulticastMesh.Text

inductive NumeralError where
  | empty
  | invalidDigit
  | tooLarge
  deriving DecidableEq, Repr

def NumeralError.message : NumeralError → String
  | .empty => "cannot parse integer from empty string"
  | .invalidDigit => "invalid digit found in string"
  | .tooLarge => "number too large to fit in target type"

/-- Code points of the blanks that surround a numeral (the property `White_Space`). -/
def isBlank (c : Char) : Bool :=
  let n := c.toNat
  (9 ≤ n && n ≤ 13) || n == 0x20 || n == 0x85 || n == 0xA0 || n == 0x1680 ||
    (0x2000 ≤ n && n ≤ 0x200A) || n == 0x2028 || n == 0x2029 || n == 0x202F || n == 0x205F ||
    n == 0x3000

def trimBlanks (cs : List Char) : List Char :=
  ((cs.dropWhile isBlank).reverse.dropWhile isBlank).reverse

private def digit? (c : Char) : Option Nat :=
  if '0' ≤ c ∧ c ≤ '9' then some (c.toNat - '0'.toNat) else none

def readDigits (limit : Nat) (sofar : Nat) : List Char → Except NumeralError Nat
  | [] => .ok sofar
  | c :: rest =>
    match digit? c with
    | none => .error .invalidDigit
    | some d =>
      if sofar * 10 + d ≤ limit then readDigits limit (sofar * 10 + d) rest
      else .error .tooLarge

def readNumeral (limit : Nat) : List Char → Except NumeralError Nat
  | [] => .error .empty
  | ['+'] => .error .invalidDigit
  | '+' :: digits => readDigits limit 0 digits
  | digits => readDigits limit 0 digits

end MulticastMesh.Text
