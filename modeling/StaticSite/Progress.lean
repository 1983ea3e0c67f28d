import StaticSite.Build.Outcome

namespace StaticSite

-- The two trees that a site is built from.
inductive Tree where
  | source
  | static
deriving DecidableEq, Repr

def Tree.name : Tree → String
  | .source => "source"
  | .static => "static"

-- A step that is announced before it is taken. Files are named by their relative path.
inductive Activity where
  | building
  | updatingSource (file : String)
  | updatingDependent (file : String)
  | deletingSource (file : String)
  | updatingStatic (file : String)
  | deletingStatic (file : String)
deriving DecidableEq, Repr

inductive Severity where
  | debug
  | warn
  | error
deriving DecidableEq, Repr

def Severity.name : Severity → String
  | .debug => "DEBUG"
  | .warn => "WARN"
  | .error => "ERROR"

-- What is worth noting but is no result.
inductive Note where
  | unreadable (path : Path) (fault : Fault)
  | inaccessible (path : Path)
  | notWritten (path : Path) (fault : Fault)
  | notCopied (path : Path) (fault : Fault)
  | notRemoved (path : Path) (fault : Fault)
  | notBuilt (file : String) (error : BuildError)
  | rescanning (root : Path)
  | vanished (path : Path)
  | untracked (path : Path)
  | notHandled (tree : Tree) (path : Path) (error : ScanError)
  | notWatched (tree : Tree) (root : Path)
  | defaults (path : Path)
deriving DecidableEq, Repr

namespace Note

def severity : Note → Severity
  | .rescanning _ | .vanished _ | .untracked _ => .debug
  | .notBuilt _ _ | .notHandled _ _ _ => .error
  | _ => .warn

def message : Note → String
  | .unreadable path fault => "Could not read " ++ path.text ++ ": " ++ fault.message
  | .inaccessible path => "Static file " ++ path.text ++ " is no longer accessible"
  | .notWritten path fault => "Could not update file " ++ path.text ++ ": " ++ fault.message
  | .notCopied path fault => "Could not copy file " ++ path.text ++ ": " ++ fault.message
  | .notRemoved path fault => "Could not delete file " ++ path.text ++ ": " ++ fault.message
  | .notBuilt file error => "Could not update file " ++ file ++ ": " ++ error.message
  | .rescanning root => "Rescanning " ++ root.text
  | .vanished path => path.text ++ " vanished before it could be built"
  | .untracked path => "Ignoring unlink of untracked " ++ path.text
  | .notHandled tree path error =>
    "Could not handle " ++ tree.name ++ " change " ++ path.text ++ ": " ++ error.message
  | .notWatched tree root =>
    tree.name ++ " directory " ++ root.text ++ " does not exist, not watching it"
  | .defaults path => path.text ++ " not found, using default directories"

end Note

-- How far a run has come: the disk as it is now, and the activities and notes so far,
-- the oldest first.
structure Progress where
  disk : Disk
  activities : List Activity
  notes : List Note

namespace Progress

def start (disk : Disk) : Progress := ⟨disk, [], []⟩

def announce (progress : Progress) (activity : Activity) : Progress :=
  { progress with activities := progress.activities ++ [activity] }

-- A step on a file announced, if `activity` says how.
def announceAs (progress : Progress) (activity : Option (String → Activity)) (file : String) :
    Progress :=
  match activity with
  | some activity => progress.announce (activity file)
  | none => progress

def note (progress : Progress) (note : Note) : Progress :=
  { progress with notes := progress.notes ++ [note] }

def onDisk (progress : Progress) (disk : Disk) : Progress :=
  { progress with disk := disk }

end Progress

end StaticSite
