import MulticastMesh.Json.Basic
/-!
# Writing JSON text

The shortest form: no blanks, and only those characters escaped that have to be.
-/

namespace MulticastMesh.Json

def escapedChar (c : Char) : List Char :=
  match c with
  | '"' => ['\\', '"']
  | '\\' => ['\\', '\\']
  | '\x08' => ['\\', 'b']
  | '\x0C' => ['\\', 'f']
  | '\n' => ['\\', 'n']
  | '\r' => ['\\', 'r']
  | '\t' => ['\\', 't']
  | c =>
    if c.toNat < 0x20 then
      ['\\', 'u', '0', '0'] ++
        [Nat.digitChar (c.toNat / 16), Nat.digitChar (c.toNat % 16)]
    else
      [c]

def stringText (s : String) : List Char := '"' :: s.toList.flatMap escapedChar ++ ['"']

def numberText (d : Decimal) : List Char :=
  let sign := if d.negative then ['-'] else []
  let exponent := if d.integral then [] else ("e" ++ toString d.exponent).toList
  sign ++ Nat.toDigits 10 d.mantissa ++ exponent

mutual

/-- The text of a value; an unsupported part is left blank as a null. -/
def chars : Json → List Char
  | null | unsupported => "null".toList
  | bool true => "true".toList
  | bool false => "false".toList
  | number d => numberText d
  | string s => stringText s
  | array items => '[' :: itemChars items ++ [']']
  | object fields => '\x7b' :: fieldChars fields ++ ['\x7d']

def itemChars : List Json → List Char
  | [] => []
  | [item] => chars item
  | item :: next :: rest => chars item ++ ',' :: itemChars (next :: rest)

def fieldChars : List (String × Json) → List Char
  | [] => []
  | [(name, value)] => stringText name ++ ':' :: chars value
  | (name, value) :: next :: rest =>
    stringText name ++ ':' :: chars value ++ ',' :: fieldChars (next :: rest)

end

def text (j : Json) : String := String.ofList j.chars

end MulticastMesh.Json
