import MulticastMesh.Json.Basic
/-!
# Records in JSON

A record is an object, or an array of its fields in their order.  Unknown fields of an object are
skipped; a known one may not occur twice.
-/

namespace MulticastMesh.Json

structure Fields where
  /-- Whether the record was written as an array. -/
  positional : Bool
  present : List (String × Json)

def fields? (names : List String) : Json → Option Fields
  | object fields =>
    let known := fields.filter fun (name, _) => names.contains name
    if (known.map Prod.fst).eraseDups.length = known.length then some ⟨false, known⟩ else none
  | array items =>
    if items.length ≤ names.length then some ⟨true, names.zip items⟩ else none
  | _ => none

namespace Fields

variable {α : Type}

def find? (f : Fields) (name : String) : Option Json := f.present.lookup name

def required (f : Fields) (name : String) (decode : Json → Option α) : Option α :=
  (f.find? name).bind decode

def defaulted (f : Fields) (name : String) (decode : Json → Option α) (default : α) :
    Option α :=
  match f.find? name with
  | none => some default
  | some j => decode j

/-- The value of a field that may be null. -/
def nullable (decode : Json → Option α) : Json → Option (Option α)
  | null => some none
  | j => (decode j).map some

/-- A field that may be null, and may be missing from an object. -/
def optional (f : Fields) (name : String) (decode : Json → Option α) : Option (Option α) :=
  match f.find? name with
  | none => if f.positional then none else some none
  | some j => nullable decode j

/-- A field that may be null or missing. -/
def maybe (f : Fields) (name : String) (decode : Json → Option α) : Option (Option α) :=
  f.defaulted name (nullable decode) none

end Fields

def natBelow? (bound : Nat) : Json → Option Nat
  | number d => d.toNat?.filter fun n => n < bound
  | _ => none

def nat8? : Json → Option Nat := natBelow? UInt8.size

def nat32? : Json → Option Nat := natBelow? UInt32.size

def nat64? : Json → Option Nat := natBelow? UInt64.size

def word? (j : Json) : Option (BitVec 32) := (nat32? j).map (BitVec.ofNat 32)

def bool? : Json → Option Bool
  | bool b => some b
  | _ => none

def string? : Json → Option String
  | string s => some s
  | _ => none

def list? {α : Type} (decode : Json → Option α) : Json → Option (List α)
  | array items => items.mapM decode
  | _ => none

def pair? {α β : Type} (first : Json → Option α) (second : Json → Option β) :
    Json → Option (α × β)
  | array [a, b] => do return (← first a, ← second b)
  | _ => none

def name? : Json → Option String
  | string s => some s
  | object [(s, null)] => some s
  | _ => none

/-- The kind of a record and what is left of it. -/
def splitTag : Json → Option (String × Json)
  | object fields =>
    match fields.filter fun (name, _) => name == "type" with
    | [(_, string tag)] => some (tag, object (fields.filter fun (name, _) => name != "type"))
    | _ => none
  | array (string tag :: items) => some (tag, array items)
  | _ => none

/-- A record that names its kind in the field `type`, or in the first place of an array, with
what is left of it.  Here the fields that are skipped have to be supported too. -/
def tagged? (j : Json) : Option (String × Json) :=
  if j.isSupported then splitTag j else none

end MulticastMesh.Json
