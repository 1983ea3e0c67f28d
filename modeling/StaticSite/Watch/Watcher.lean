import StaticSite.Build.Batch
import StaticSite.Watch.Event

namespace StaticSite

-- Why an event cannot be handled, or a session cannot start.
inductive WatchError where
  | scan (error : ScanError)
  | untracked (tree : Tree) (path : Path)
  | notify (reason : String)
  | build (error : BuildError)
  | disk (fault : Fault)
deriving DecidableEq, Repr

def WatchError.message : WatchError → String
  | .scan error => error.message
  | .untracked tree path => "Could not find the " ++ tree.name ++ " file " ++ path.text
  | .notify reason => "File watcher error: " ++ reason
  | .build error => error.message
  | .disk fault => "IO error: " ++ fault.message

inductive RebuildReason where
  | changed
  | dependent
  | deleted
deriving DecidableEq, Repr

-- A file that was built for an event.
structure Rebuild where
  file : String
  reason : RebuildReason
  outcome : Outcome
deriving DecidableEq, Repr

-- The watcher after an event, how far the run has come, and the files that were built.
-- A failure keeps what had been done before it.
structure Reaction (ω : Type) where
  watcher : ω
  progress : Progress
  result : Except WatchError (List Rebuild)

-- What takes in events of one tree.
class Handler (ω : Type) where
  tree : ω → Tree
  handle : ω → Event → Progress → Reaction ω

-- What keeps the output of one tree in step with it.
class Watcher (ω : Type) where
  tree : ω → Tree
  root : ω → Path
  -- Whether an added or changed path can be a file of the tree.
  accepts : ω → Path → Bool
  -- The absolute paths of the known files at or below a path.
  knownUnder : ω → Path → List Path
  update : ω → Path → Progress → Reaction ω
  -- Build every file below a directory that has come into the tree.
  addDirectory : ω → Path → Progress → Reaction ω
  -- Remove the outputs of known files.
  unlink : ω → List Path → Progress → Reaction ω

namespace Watcher

-- A directory that is moved in is reported once, and not for each of its files.
-- A directory that is removed takes the known files below it along.
def handle [Watcher ω] (watcher : ω) (event : Event) (progress : Progress) : Reaction ω :=
  let path := event.path.normalize
  let directory := progress.disk.isDirectory path && path.startsWith (root watcher)
  match event.kind with
  | .unlink =>
    match knownUnder watcher path with
    | [] => ⟨watcher, progress.note (.untracked path), .ok []⟩
    | known => unlink watcher known progress
  | kind =>
    if kind = .add && directory then addDirectory watcher path progress
    else if !accepts watcher path then ⟨watcher, progress, .ok []⟩
    else if !progress.disk.isFile path then ⟨watcher, progress.note (.vanished path), .ok []⟩
    else update watcher path progress

end Watcher

instance [Watcher ω] : Handler ω where
  tree := Watcher.tree
  handle := Watcher.handle

end StaticSite
