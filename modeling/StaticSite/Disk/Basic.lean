import StaticSite.Disk.Folder
import StaticSite.Fault
import StaticSite.Path.Normal

namespace StaticSite

namespace Folder

-- How many of the directories that lead to a place are not there, the innermost first.
def missing (root : Folder) : Location → Nat
  | [] => 0
  | name :: parent =>
    if (root.get? (name :: parent).reverse).any Entry.isDirectory then 0 else root.missing parent + 1

theorem isDirectory_drop_missing (root : Folder) (location : Location) :
    (root.get? (location.drop (root.missing location)).reverse).any Entry.isDirectory := by
  induction location with
  | nil => rfl
  | cons name parent ih =>
    rw [missing]
    split
    · next h => exact h
    · exact ih

end Folder

-- What the root directory holds, and the directory that relative paths start from. That
-- directory can be removed, with those above it, and ones of their names can be made again:
-- `adrift` says how many of the directories that led there, the innermost first, no longer stand
-- at their places.
structure Disk where
  root : Folder
  workDir : Location
  adrift : Nat
  ordered : root.Ordered
  grounded : (root.get? (workDir.drop adrift).reverse).any Entry.isDirectory

namespace Disk

-- A disk with nothing on it but the root.
def blank : Disk where
  root := .empty
  workDir := []
  adrift := 0
  ordered := trivial
  grounded := rfl

-- The root is a directory.
def get? (disk : Disk) (location : Location) : Option Entry :=
  disk.root.get? location.reverse

-- Where relative paths start from, as long as it is there.
def base? (disk : Disk) : Option Location :=
  if disk.adrift = 0 then some disk.workDir else none

-- The disk with another content. The working directory is found at `workDir`, as far as the
-- directories that lead there have not been removed before and are there now.
def become (disk : Disk) (root : Folder) (workDir : Location) (ordered : root.Ordered) : Disk where
  root := root
  workDir := workDir
  adrift := disk.adrift + root.missing (workDir.drop disk.adrift)
  ordered := ordered
  grounded := by
    rw [← List.drop_drop]
    exact root.isDirectory_drop_missing _

-- Start relative paths from `location`, if that is a directory.
def workIn (disk : Disk) (location : Location) : Disk :=
  if h : (disk.root.get? location.reverse).any Entry.isDirectory then
    { disk with workDir := location, adrift := 0, grounded := h }
  else disk

-- The disk with another entry under a name in the directory `parent`, if there is that directory.
def install (disk : Disk) (name : String) (parent : Location) (entry : Entry) (hname : IsName name)
    (hentry : entry.inside.Ordered) : Disk :=
  disk.become (disk.root.update (·.put name entry) parent.reverse) disk.workDir
    (Folder.ordered_update (fun _ => Folder.ordered_put hname hentry) disk.ordered)

-- Put a file with this content under a name in the directory `parent`.
def putFile (disk : Disk) (name : String) (parent : Location) (content : ByteArray) : Disk :=
  if h : IsName name then disk.install name parent (.file content) h trivial else disk

-- Put an empty directory under a name in the directory `parent`.
def putDirectory (disk : Disk) (name : String) (parent : Location) : Disk :=
  if h : IsName name then disk.install name parent (.directory .empty) h trivial else disk

-- The disk without the entry at `location` and what lies below it. The root stays.
def erase (disk : Disk) : Location → Disk
  | [] => disk
  | name :: parent =>
    disk.become (disk.root.update (·.erase name) parent.reverse) disk.workDir
      (Folder.ordered_update (fun _ => Folder.ordered_erase) disk.ordered)

-- The disk without what lies below `location`.
def eraseBelow (disk : Disk) (location : Location) : Disk :=
  disk.become (disk.root.update (fun _ => .empty) location.reverse) disk.workDir
    (Folder.ordered_update (fun _ _ => trivial) disk.ordered)

-- Whether `location` lies at or below the directory `top`.
def within (top location : Location) : Bool :=
  top.isSuffixOf location

-- Where a place is after everything at and below `source` has become `target`.
def relocate (source target location : Location) : Location :=
  if within source location then location.take (location.length - source.length) ++ target
  else location

-- The disk with the entry at `source`, and what lies below it, under a name in the directory
-- `parent`, which has to lie outside of what moves. What has been removed does not move.
def move (disk : Disk) (source : Location) (name : String) (parent : Location) : Disk :=
  match source, h : disk.get? source with
  | old :: place, some entry =>
    if hname : IsName name then
      disk.become
        ((disk.root.update (·.erase old) place.reverse).update (·.put name entry) parent.reverse)
        (disk.workDir.take disk.adrift ++
          relocate source (name :: parent) (disk.workDir.drop disk.adrift))
        (Folder.ordered_update
          (fun _ => Folder.ordered_put hname (Folder.ordered_of_get? disk.ordered h))
          (Folder.ordered_update (fun _ => Folder.ordered_erase) disk.ordered))
    else disk
  | _, _ => disk

end Disk

end StaticSite
