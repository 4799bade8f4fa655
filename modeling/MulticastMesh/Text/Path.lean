/-!
# Paths of files

Names between slashes.  An empty name and a dot stay where they are, so one place has many
spellings, and messages keep the one that was given.
-/

namespace MulticastMesh.Text

/-- A file in a directory; the empty directory is the current one. -/
def pathIn (directory file : String) : String :=
  if directory.isEmpty || directory.endsWith "/" then directory ++ file
  else directory ++ "/" ++ file

def pathLimit : Nat := 4095

def nameLimit : Nat := 255

/-- A name that leads nowhere. -/
private def stays (name : String) : Bool := name.isEmpty || name == "."

/-- The names of a path, if it is one that can be followed at all. -/
private def names? (path : String) : Option (List String) :=
  if path.isEmpty || pathLimit < path.utf8ByteSize then none else some (path.splitOn "/")

def isDirectory (path : String) : Bool :=
  (names? path).any (·.all fun name => stays name || name == "..")

private def isFileName (name : String) : Bool :=
  !stays name && name != ".." && name.utf8ByteSize ≤ nameLimit && !name.contains '\x00'

/-- The name of the file that a path leads to, if it is in the current directory. -/
def fileHere? (path : String) : Option String := do
  let names ← names? path
  let name ← names.getLast?
  if !path.startsWith "/" && names.dropLast.all stays && isFileName name then some name else none

end MulticastMesh.Text
