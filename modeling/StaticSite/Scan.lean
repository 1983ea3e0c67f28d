import StaticSite.Glob.Search
import StaticSite.Path.Normal
import StaticSite.Tree.SourceTree

namespace StaticSite

-- Why a directory cannot be scanned.
inductive ScanError where
  | escape (path root : Path)
  | pattern (error : Glob.PatternError)
  | unreadable (path : Path) (fault : Fault)
  | disk (fault : Fault)
deriving DecidableEq, Repr

def ScanError.message : ScanError → String
  | .escape path root => "Path " ++ path.text ++ " is not contained in " ++ root.text
  | .pattern error => "Invalid glob pattern: " ++ error.message
  | .unreadable path fault => "Could not read directory entry: attempting to read `" ++ path.text ++
      "` resulted in an error: " ++ fault.message
  | .disk fault => "IO error: " ++ fault.message

namespace Disk

def sourcePattern : String := "**/*.html"

def assetPattern : String := "**/*"

-- The pattern for what matches `pattern` below the directory `root`. The name of the
-- directory matches itself only: it is a text, and stands in the pattern as it is.
def patternBelow (root : Path) (pattern : String) : String :=
  let escaped := (Glob.escape root.text).toList.reverse.dropWhile fun c => c = '/' ∨ c = '\\'
  String.ofList escaped.reverse ++ "/" ++ pattern

-- A match is known by the names that lead to it from the root directory. There has to be
-- such a way, and it never goes up.
def placeBelow (start : Option Location) (root path : Path) : Except ScanError FoundFile := do
  let outside := ScanError.escape path root
  match path.normalize.under? root with
  | none => throw outside
  | some names =>
    if names = [] ∨ .up ∈ names then throw outside
    let absolute ← (path.absolute start).mapError .disk
    return ⟨(Path.ofComponents names).toSlash, absolute⟩

-- The files below the directory `root` that match `pattern`, in the order of the search.
-- The empty path is the working directory. One file outside of `root` makes the scan fail.
def scan (disk : Disk) (root : Path) (pattern : String) : Except ScanError (List FoundFile) := do
  let root := if root.text = "" then ⟨"."⟩ else root
  let paths ← (Glob.find disk (patternBelow root pattern)).mapError .pattern
  (paths.filter disk.isFile).mapM (placeBelow disk.base? root.normalize)

def scanSource (disk : Disk) (root : Path) : Except ScanError SourceTree :=
  SourceTree.ofFound <$> disk.scan root sourcePattern

def scanAssets (disk : Disk) (root : Path) : Except ScanError (List StaticFile) :=
  List.map StaticFile.ofFound <$> disk.scan root assetPattern

end Disk

end StaticSite
