import StaticSite.Path.Normal

namespace StaticSite

-- A file found below a root directory. The relative path, with slashes between its names,
-- identifies the file. The absolute path is where it is read.
structure FoundFile where
  relative : String
  absolute : Path
deriving DecidableEq, Repr

-- An asset, copied as it is.
structure StaticFile where
  relative : String
  absolute : Path
  deleted : Bool
deriving DecidableEq, Repr

def StaticFile.ofFound (file : FoundFile) : StaticFile :=
  ⟨file.relative, file.absolute, false⟩

-- A page or a layout. The dependencies are the places, in the tree the file belongs to,
-- of the layouts that wrap the file, outermost first.
structure ContentFile where
  relative : String
  absolute : Path
  deleted : Bool
  dependencies : List Nat
deriving DecidableEq, Repr

-- The last name of a path written with slashes.
def baseName (relative : String) : String :=
  (Path.segments relative).getLast?.getD relative

namespace ContentFile

def ofFound (file : FoundFile) : ContentFile :=
  ⟨file.relative, file.absolute, false, []⟩

-- Files whose name starts with a tilde are kept out of the output.
def isHidden (file : ContentFile) : Bool :=
  "~".toList.isPrefixOf (baseName file.relative).toList

def isPublic (file : ContentFile) : Bool :=
  !file.isHidden

-- A layout wraps the other files of its directory and of the directories below.
def isLayout (file : ContentFile) : Bool :=
  "~layout".toList.isPrefixOf (baseName file.relative).toList

-- The path up to the last slash, empty at the root.
def directory (file : ContentFile) : Path :=
  ⟨"/".intercalate (Path.segments file.relative).dropLast⟩

-- How many directories there are between the root and the file.
def depth (file : ContentFile) : Nat :=
  (Path.segments file.relative).length - 1

-- The way from the directory of `layout` to `file` never goes up.
def contains (layout file : ContentFile) : Bool :=
  !(layout.directory.relativeTo ⟨file.relative⟩).hasParentSegment

end ContentFile

end StaticSite
