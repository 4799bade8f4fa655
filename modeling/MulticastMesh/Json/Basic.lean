/-!
# JSON values

Fields of an object keep their order and may repeat.  A number keeps the decimal that was written.
A text may follow the grammar and still have parts that stand for no value; such a part is
unsupported, and can only be skipped.
-/

namespace MulticastMesh

/-- A decimal `± mantissa * 10 ^ exponent`. -/
structure Decimal where
  negative : Bool
  mantissa : Nat
  exponent : Int
  /-- Whether it was written without a fraction and without an exponent. -/
  integral : Bool
  deriving DecidableEq, Repr, Inhabited

namespace Decimal

def ofNat (n : Nat) : Decimal := ⟨false, n, 0, true⟩

def ofInt (n : Int) : Decimal := ⟨decide (n < 0), n.natAbs, 0, true⟩

/-- The number, if it was written as an unsigned integer. -/
def toNat? (d : Decimal) : Option Nat :=
  if d.integral ∧ d.negative = false then some d.mantissa else none

/-- Drops digits at the end until 64 bits hold the mantissa. -/
private def shorten : (fuel : Nat) → (mantissa : Nat) → (exponent : Int) → Nat × Int
  | 0, mantissa, exponent => (mantissa, exponent)
  | fuel + 1, mantissa, exponent =>
    if mantissa < UInt64.size then (mantissa, exponent)
    else shorten fuel (mantissa / 10) (exponent + 1)

private def powerOfTen (n : Nat) : Float := Float.ofScientific 1 false n

/-- Divides by a power of ten, at most the 308th at a time. -/
private def divideDown : (fuel : Nat) → Float → (places : Nat) → Float
  | 0, f, _ => f
  | fuel + 1, f, places =>
    if places ≤ 308 then f / powerOfTen places
    else if f == 0.0 then f
    else divideDown fuel (f / powerOfTen 308) (places - 308)

/-- The number in binary, if it is in range: the mantissa is rounded once, and so is each product
or quotient with a power of ten. -/
def toFloat? (d : Decimal) : Option Float :=
  let (mantissa, exponent) := shorten d.mantissa.log2 d.mantissa d.exponent
  let f := Float.ofNat mantissa
  let f :=
    if exponent < 0 then divideDown (exponent.natAbs / 308 + 1) f exponent.natAbs
    else if f == 0.0 then f
    else f * powerOfTen (min exponent.toNat 400)
  if f.isInf then none
  else some (if d.negative then -f else f)

/-- Whether the number has a value: an integer of 64 bits, or a number in range in binary. -/
def inRange (d : Decimal) : Bool :=
  (d.integral && d.mantissa < UInt64.size) || d.toFloat?.isSome

end Decimal

inductive Json where
  | null
  | bool (b : Bool)
  | number (d : Decimal)
  | string (s : String)
  | array (items : List Json)
  | object (fields : List (String × Json))
  /-- A string or a name with half of a surrogate pair, a number out of range, or an array or an
  object too deep inside others. -/
  | unsupported
  deriving Repr, Inhabited

namespace Json

mutual

/-- Whether no part of a value is unsupported. -/
def isSupported : Json → Bool
  | unsupported => false
  | array items => itemsSupported items
  | object fields => fieldsSupported fields
  | _ => true

def itemsSupported : List Json → Bool
  | [] => true
  | item :: items => isSupported item && itemsSupported items

def fieldsSupported : List (String × Json) → Bool
  | [] => true
  | (_, value) :: fields => isSupported value && fieldsSupported fields

end

def nat (n : Nat) : Json := .number (.ofNat n)

def int (n : Int) : Json := .number (.ofInt n)

def list {α : Type} (encode : α → Json) (items : List α) : Json := .array (items.map encode)

def option {α : Type} (encode : α → Json) : Option α → Json
  | none => .null
  | some a => encode a

end Json

end MulticastMesh
