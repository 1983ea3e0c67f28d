import StaticSite.Disk.Lookup

namespace StaticSite

inductive Change where
  | add
  | change
  | unlink
deriving DecidableEq, Repr

-- A file or directory that has changed.
structure Event where
  kind : Change
  path : Path
deriving DecidableEq, Repr

-- What a platform says has happened to some paths. A rename is reported as a whole, by
-- its halves, or without a word about which path is which half.
inductive Notice where
  | created
  | removed
  | modified
  | metadata
  | renamedFrom
  | renamedTo
  | renamedBoth
  | renamed
  | accessed
  | unknown
deriving DecidableEq, Repr

namespace Event

-- Two names of one path are the same place.
def samePlace (left right : Event) : Bool :=
  left.path.same right.path

-- The events that a notice stands for. A rename is the removal of the old path and the
-- addition of the new one. Of an unknown half, the disk says whether it is still there.
def ofNotice (disk : Disk) (notice : Notice) (paths : List Path) : List Event :=
  match notice with
  | .created | .renamedTo => paths.map (⟨.add, ·⟩)
  | .removed | .renamedFrom => paths.map (⟨.unlink, ·⟩)
  | .renamedBoth =>
    match paths with
    | [old, new] => [⟨.unlink, old⟩, ⟨.add, new⟩]
    | _ => []
  | .renamed => paths.map fun path => ⟨if disk.has path then .add else .unlink, path⟩
  | .modified => paths.map (⟨.change, ·⟩)
  | .metadata | .accessed | .unknown => []

end Event

end StaticSite
