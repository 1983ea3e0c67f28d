import StaticSite.Disk.Basic

namespace StaticSite

namespace Path

-- The steps by which a disk follows a path. Unlike in the components, every dot counts:
-- it can only be followed in a directory.
def steps (path : Path) : List String :=
  (segments path.text).filter (· ≠ "")

def endsInSlash (path : Path) : Bool :=
  path.text.toList.getLast? = some '/'

-- No disk follows a longer path.
def longest : Nat := 4095

def isTooLong (path : Path) : Bool :=
  longest < path.text.utf8ByteSize

-- Paths that no disk follows.
def check (path : Path) : Except Fault Unit :=
  if Char.ofNat 0 ∈ path.text.toList then .error .nulInPath
  else if path.text = "" then .error .notFound
  else if path.isTooLong then .error .nameTooLong
  else .ok ()

end Path

-- The directories that lead to a place, the innermost first, each with what it holds.
abbrev Trail := List (String × Folder)

-- What a path leads to. A working directory that has been removed can still be reached, and so
-- can those `above` it that have been removed with it, but there is nothing in them.
inductive Spot where
  | directory (trail : Trail)
  | file (trail : Trail) (name : String) (content : ByteArray)
  | removed (above : Nat)
deriving DecidableEq

namespace Trail

def location (trail : Trail) : Location :=
  trail.map (·.1)

-- What the last directory of a trail holds.
def inside (disk : Disk) : Trail → Folder
  | [] => disk.root
  | (_, folder) :: _ => folder

end Trail

namespace Spot

def entry (disk : Disk) : Spot → Entry
  | .directory trail => .directory (trail.inside disk)
  | .file _ _ content => .file content
  | .removed _ => .directory .empty

end Spot

namespace Disk

-- The way to a directory, as far as there are directories.
def trail (disk : Disk) (location : Location) : Trail :=
  location.foldr (fun name trail =>
    match (trail.inside disk).find? name with
    | some (.directory inside) => (name, inside) :: trail
    | _ => trail) []

-- Where a path starts.
def origin (disk : Disk) (path : Path) : Spot :=
  if path.isAbsolute then .directory []
  else match disk.adrift with
    | 0 => .directory (disk.trail disk.workDir)
    | above + 1 => .removed above

-- No directory has a longer name.
def longestName : Nat := 255

-- Why a name is not found in a directory.
def missing (name : String) : Fault :=
  if longestName < name.utf8ByteSize then .nameTooLong else .notFound

-- One step from a place, which has to be a directory. A parent of the root is the root.
def enter (disk : Disk) (spot : Spot) (step : String) : Except Fault Spot :=
  match spot with
  | .file _ _ _ => .error .notADirectory
  | .removed above =>
    if step = "." then .ok (.removed above)
    else if step = ".." then
      match above with
      | 0 => .ok (.directory (disk.trail (disk.workDir.drop disk.adrift)))
      | above + 1 => .ok (.removed above)
    else .error .notFound
  | .directory trail =>
    if step = "." then .ok (.directory trail)
    else if step = ".." then .ok (.directory trail.tail)
    else match (trail.inside disk).find? step with
      | some (.directory inside) => .ok (.directory ((step, inside) :: trail))
      | some (.file content) => .ok (.file trail step content)
      | none => .error (missing step)

-- The place that a path leads to. A slash at its end asks for a directory.
def find (disk : Disk) (path : Path) : Except Fault Spot := do
  path.check
  let spot ← path.steps.foldlM disk.enter (disk.origin path)
  if path.endsInSlash && !(spot.entry disk).isDirectory then throw .notADirectory
  return spot

def entry? (disk : Disk) (path : Path) : Option Entry :=
  match disk.find path with
  | .ok spot => some (spot.entry disk)
  | .error _ => none

def has (disk : Disk) (path : Path) : Bool :=
  (disk.entry? path).isSome

def isDirectory (disk : Disk) (path : Path) : Bool :=
  (disk.entry? path).any Entry.isDirectory

def isFile (disk : Disk) (path : Path) : Bool :=
  (disk.entry? path).any fun entry => !entry.isDirectory

-- What the directory at the end of a path holds. Elsewhere there is nothing.
def inside (disk : Disk) (path : Path) : Folder :=
  ((disk.entry? path).map Entry.inside).getD .empty

def read (disk : Disk) (path : Path) : Except Fault ByteArray := do
  match (← disk.find path).entry disk with
  | .directory _ => throw .isADirectory
  | .file content => return content

def readText (disk : Disk) (path : Path) : Except Fault String := do
  match String.fromUTF8? (← disk.read path) with
  | some text => return text
  | none => throw .notText

end Disk

end StaticSite
