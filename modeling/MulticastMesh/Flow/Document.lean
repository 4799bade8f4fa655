import MulticastMesh.Format.Design
import MulticastMesh.Json.Reader
import MulticastMesh.Json.Writer
import MulticastMesh.Text.Path
/-!
# Problems and placed designs as files
-/

namespace MulticastMesh.Flow

def parseDocument {α : Type} (decode : Json → Option α) (path contents : String) : Outcome α :=
  match (Json.ofText? contents).bind decode with
  | some value => .ok value
  | none => .error ⟨[.parsing path], .malformed⟩

def parseProblem : (path contents : String) → Outcome Problem :=
  parseDocument Problem.ofJson?

def parsePlacedDesign : (path contents : String) → Outcome PlacedDesign :=
  parseDocument PlacedDesign.ofJson?

def openFailed (path reason : String) : Failure := ⟨[.opening path], .noAccess reason⟩

def createFailed (path reason : String) : Failure := ⟨[.creating path], .noAccess reason⟩

/-- The contents of a file of the current directory, given the names and contents of all files
there.  A directory can be opened too, and there is nothing to read in it. -/
def contentsAt (files : List (String × String)) (path : String) : Outcome String :=
  if Text.isDirectory path then .ok ""
  else
    match (Text.fileHere? path).bind fun name => files.lookup name with
    | some contents => .ok contents
    | none => .error (openFailed path "no such file")

/-- Reads a value from a file of the current directory, and gives the text that is written when
the value is saved to another one. -/
def resave {α : Type} (decode : Json → Option α) (encode : α → Json)
    (files : List (String × String)) (source target : String) : Outcome String := do
  let value ← parseDocument decode source (← contentsAt files source)
  match Text.fileHere? target with
  | some _ => return (encode value).text
  | none => throw (createFailed target "no such directory")

end MulticastMesh.Flow
