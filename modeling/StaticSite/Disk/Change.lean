import StaticSite.Disk.Lookup

namespace StaticSite.Disk

-- How a path ends, as seen from the directory before its last step. Nothing has to be there yet.
inductive Ending where
  | root
  | here
  | up
  | name (parent : Location) (text : String)
deriving DecidableEq, Repr

-- Nothing can be made in a directory that has been removed.
def ending (disk : Disk) (path : Path) : Except Fault Ending := do
  path.check
  match path.steps.reverse with
  | [] => return .root
  | last :: before =>
    let spot ← before.reverse.foldlM disk.enter (disk.origin path)
    if !(spot.entry disk).isDirectory then throw .notADirectory
    if last = "." then return .here
    if last = ".." then return .up
    match spot with
    | .directory trail => return .name trail.location last
    | _ => throw .notFound

def makeDirectory (disk : Disk) (path : Path) : Except Fault Disk := do
  match ← disk.ending path with
  | .name parent name =>
    if (disk.get? (name :: parent)).isSome then throw .alreadyExists
    if longestName < name.utf8ByteSize then throw .nameTooLong
    return disk.putDirectory name parent
  | _ => throw .alreadyExists

-- Make a directory and those above it. The whole path is tried first, and the way to it is
-- made only if it is missing. What has been made stays if a later step fails.
-- The path is given by its segments, the last one first.
def makeWay (disk : Disk) : List String → Except Fault Unit × Disk
  | [] => (.ok (), disk)
  | segment :: above =>
    if (segment = "" ∨ segment = ".") ∧ above ≠ [] then disk.makeWay above
    else
      let path := Path.ofSegments (segment :: above).reverse
      match disk.makeDirectory path with
      | .ok disk => (.ok (), disk)
      | .error .notFound =>
        match disk.makeWay above with
        | (.error fault, disk) => (.error fault, disk)
        | (.ok (), disk) =>
          match disk.makeDirectory path with
          | .ok disk => (.ok (), disk)
          | .error fault => (if disk.isDirectory path then .ok () else .error fault, disk)
      | .error fault => (if disk.isDirectory path then .ok () else .error fault, disk)

def makeDirectories (disk : Disk) (path : Path) : Except Fault Unit × Disk :=
  if path.text = "" then (.ok (), disk) else disk.makeWay (Path.segments path.text).reverse

-- Put `content` into a file, which is made if it is missing.
def write (disk : Disk) (path : Path) (content : ByteArray) : Except Fault Disk := do
  match ← disk.ending path with
  | .name parent name =>
    if path.endsInSlash then throw .isADirectory
    match disk.get? (name :: parent) with
    | some (.directory _) => throw .isADirectory
    | some (.file _) => return disk.putFile name parent content
    | none =>
      if longestName < name.utf8ByteSize then throw .nameTooLong
      return disk.putFile name parent content
  | _ => throw .isADirectory

-- The target is emptied before the source is read: a file copied onto itself ends up empty.
def copy (disk : Disk) (source target : Path) : Except Fault Disk := do
  let _ ← disk.read source
  let disk ← disk.write target ByteArray.empty
  disk.write target (← disk.read source)

def removeFile (disk : Disk) (path : Path) : Except Fault Disk := do
  match ← disk.ending path with
  | .name parent name =>
    match disk.get? (name :: parent) with
    | none => throw (missing name)
    | some (.directory _) => throw .isADirectory
    | some (.file _) =>
      if path.endsInSlash then throw .notADirectory
      return disk.erase (name :: parent)
  | _ => throw .isADirectory

-- Remove what is in a directory.
def emptyDirectory (disk : Disk) (path : Path) : Except Fault Disk := do
  match ← disk.find path with
  | .directory trail => return disk.eraseBelow trail.location
  | .file _ _ _ => throw .notADirectory
  | .removed _ => return disk

-- Remove a directory that has been emptied.
def removeEmptied (disk : Disk) (path : Path) : Except Fault Disk := do
  match ← disk.ending path with
  | .root => throw .busy
  | .here => throw .invalidArgument
  | .up => throw .notEmpty
  | .name parent name =>
    if (disk.get? (name :: parent)).isNone then throw (missing name)
    return disk.erase (name :: parent)

-- Remove a directory with all that is in it, the inside first. The inside stays removed if
-- the directory itself cannot be.
def removeDirectory (disk : Disk) (path : Path) : Except Fault Unit × Disk :=
  match disk.emptyDirectory path with
  | .error fault => (.error fault, disk)
  | .ok disk =>
    match disk.removeEmptied path with
    | .ok disk => (.ok (), disk)
    | .error fault => (.error fault, disk)

-- Give a file or a directory another place. A file may replace a file, and a directory
-- an empty directory.
def rename (disk : Disk) (source target : Path) : Except Fault Disk := do
  match ← disk.ending source, ← disk.ending target with
  | .name parent old, .name place new =>
    match disk.get? (old :: parent), disk.get? (new :: place) with
    | none, _ => throw (missing old)
    | some (.file _), none =>
      if source.endsInSlash || target.endsInSlash then throw .notADirectory
      if longestName < new.utf8ByteSize then throw .nameTooLong
      return disk.move (old :: parent) new place
    | some (.file _), some (.file _) =>
      if source.endsInSlash || target.endsInSlash then throw .notADirectory
      if old :: parent = new :: place then return disk
      return (disk.erase (new :: place)).move (old :: parent) new place
    | some (.file _), some (.directory _) => throw .isADirectory
    | some (.directory _), some (.file _) => throw .notADirectory
    | some (.directory _), taken =>
      if old :: parent = new :: place then return disk
      if within (old :: parent) place then throw .invalidArgument
      if (taken.map Entry.inside).any (· ≠ .empty) then throw .notEmpty
      if longestName < new.utf8ByteSize then throw .nameTooLong
      let disk := if taken.isSome then disk.erase (new :: place) else disk
      return disk.move (old :: parent) new place
  | _, _ => throw .busy

end StaticSite.Disk
