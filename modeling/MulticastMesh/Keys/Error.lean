import MulticastMesh.Keys.Pattern
import MulticastMesh.Text.Quoted
/-!
# What can go wrong with keys
-/

namespace MulticastMesh.Keys

open Text

/-- Why a key and mask can not be used. -/
inductive BadPattern where
  | keyOutsideMask
  | tooFewFreeBits (label : String) (needed : Nat)
  deriving DecidableEq, Repr

inductive KeyError where
  | spaceExhausted (label identifier : String) (bits : Nat)
  | fixedConflict (label identifier : String) (otherLabel otherIdentifier : String)
  | badPattern (pattern : Pattern) (reason : BadPattern)
  deriving DecidableEq, Repr

def BadPattern.message : BadPattern → String
  | .keyOutsideMask => "key has bits set outside the mask"
  | .tooFewFreeBits label needed =>
    s!"{label} needs the bottom {needed} bits of the mask clear"

def KeyError.message : KeyError → String
  | .spaceExhausted label identifier bits =>
    s!"no space left for the {bits}-bit key block of partition {quoted identifier} of {label}"
  | .fixedConflict label identifier otherLabel otherIdentifier =>
    s!"fixed keys of partition {quoted identifier} of {label} overlap those of " ++
      s!"partition {quoted otherIdentifier} of {otherLabel}"
  | .badPattern pattern reason =>
    s!"invalid key {hexWord pattern.key} mask {hexWord pattern.mask}: {reason.message}"

end MulticastMesh.Keys
