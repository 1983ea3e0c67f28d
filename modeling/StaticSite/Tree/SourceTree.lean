import StaticSite.Tree.Files

namespace StaticSite

-- The pages and layouts of one scan, each with its dependencies.
structure SourceTree where
  files : List ContentFile
deriving DecidableEq, Repr

namespace SourceTree

-- The places of the layouts, those near the root first. Layouts of one depth keep
-- the order of the list.
def layoutOrder (files : List ContentFile) : List Nat :=
  let depth (index : Nat) := (files[index]?.map ContentFile.depth).getD 0
  ((List.range files.length).filter fun index => files[index]?.any ContentFile.isLayout).mergeSort
    fun i j => depth i ≤ depth j

-- Every file depends on the other layouts whose directory contains it.
def link (files : List ContentFile) : List ContentFile :=
  let layouts := layoutOrder files
  files.mapIdx fun index file =>
    { file with dependencies := layouts.filter fun layout =>
        layout != index && files[layout]?.any (·.contains file) }

def ofFound (found : List FoundFile) : SourceTree :=
  ⟨link (found.map ContentFile.ofFound)⟩

def size (tree : SourceTree) : Nat :=
  tree.files.length

def isEmpty (tree : SourceTree) : Bool :=
  tree.files.isEmpty

def findAbsolute? (tree : SourceTree) (path : Path) : Option Nat :=
  tree.files.findIdx? (·.absolute.same path)

-- The files a page is composed of, the outermost layout first and the page itself last.
def chain (tree : SourceTree) (file : ContentFile) : List ContentFile :=
  file.dependencies.filterMap (tree.files[·]?) ++ [file]

-- The places of the files that depend on the file at `index`.
def dependents (tree : SourceTree) (index : Nat) : List Nat :=
  (List.range tree.size).filter fun other =>
    other != index && tree.files[other]?.any (·.dependencies.contains index)

-- The names of the files that depend on the file at `path`. Places do not outlive
-- a scan, names do.
def dependentPaths (tree : SourceTree) (path : Path) : List String :=
  match tree.findAbsolute? path with
  | none => []
  | some index => (tree.dependents index).filterMap fun other =>
      tree.files[other]?.map ContentFile.relative

-- The tree with the file at `index` marked as deleted.
def markDeleted (tree : SourceTree) (index : Nat) : SourceTree :=
  ⟨tree.files.modify index fun file => { file with deleted := true }⟩

end SourceTree

end StaticSite
