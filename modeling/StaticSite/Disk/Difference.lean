import StaticSite.Disk.Basic

namespace StaticSite

-- All entries at and below a directory that lies at `above`.
def Folder.entries (above : Location) : Folder → List (Location × Entry)
  | .empty => []
  | .file name content rest => (name :: above, .file content) :: rest.entries above
  | .directory name inside rest =>
    (name :: above, .directory inside) :: inside.entries (name :: above) ++ rest.entries above

-- Whether two entries differ, not counting what directories hold.
def Entry.differs : Entry → Entry → Bool
  | .directory _, .directory _ => false
  | .file left, .file right => left ≠ right
  | _, _ => true

namespace Disk

-- The entries of `before` that are gone in `after`. A file is gone where there is a directory.
def lost (before after : Disk) : List (Location × Entry) :=
  (before.root.entries []).filter fun (location, entry) =>
    (after.get? location).map Entry.isDirectory ≠ some entry.isDirectory

-- The entries of `after` that are new there, and the files with other content.
def gained (before after : Disk) : List (Location × Entry) :=
  (after.root.entries []).filter fun (location, entry) =>
    (before.get? location).all entry.differs

end Disk

end StaticSite
