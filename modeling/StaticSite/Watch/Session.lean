import StaticSite.Watch.Queue
import StaticSite.Watch.Source
import StaticSite.Watch.Static

namespace StaticSite

-- The two watchers of a project.
structure Session where
  source : SourceWatcher
  assets : StaticWatcher
deriving DecidableEq, Repr

-- Where the events of a directory come from.
def Disk.watchRoot (disk : Disk) (path : Path) : Except WatchError Path :=
  (path.absolute disk.base?).mapError .disk

-- The source, static and output directories as a session sees them.
def Disk.watchRoots (disk : Disk) (config : Config) : Except WatchError (Path × Path × Path) := do
  return (← disk.watchRoot config.source, ← disk.watchRoot config.assets,
    ← disk.watchRoot config.out)

namespace Session

def clear (progress : Progress) (config : Config) (out : Path) :
    Except WatchError Unit × Progress :=
  if config.clear then
    let (result, progress) := progress.clearOutput out
    (result.mapError .build, progress)
  else (.ok (), progress)

def open? (disk : Disk) (source assets out : Path) : Except WatchError Session := do
  return ⟨← SourceWatcher.open? disk source out, ← StaticWatcher.open? disk assets out⟩

-- Build both trees in full.
def build (session : Session) (progress : Progress) : Except WatchError Session × Progress :=
  match session.source.buildAll progress with
  | ⟨_, progress, .error error⟩ => (.error error, progress)
  | ⟨source, progress, .ok _⟩ =>
    match session.assets.buildAll progress with
    | ⟨_, progress, .error error⟩ => (.error error, progress)
    | ⟨assets, progress, .ok _⟩ => (.ok ⟨source, assets⟩, progress)

-- Clear the output if the config asks for it, then build both trees in full. Pages that do not
-- compose are noted and do not keep the session from starting.
def start (progress : Progress) (config : Config) : Except WatchError Session × Progress :=
  match progress.disk.watchRoots config with
  | .error error => (.error error, progress)
  | .ok (source, assets, out) =>
    match clear progress config out with
    | (.error error, progress) => (.error error, progress)
    | (.ok (), progress) =>
      match open? progress.disk source assets out with
      | .error error => (.error error, progress)
      | .ok session => session.build progress

-- A tree that does not exist is not followed.
def noteMissing (progress : Progress) (tree : Tree) (root : Path) : Progress :=
  if progress.disk.isDirectory root then progress else progress.note (.notWatched tree root)

-- Start a session and find out which trees can be followed.
def prepare (progress : Progress) (config : Config) : Except WatchError Session × Progress :=
  match start progress config with
  | (.error error, progress) => (.error error, progress)
  | (.ok session, progress) =>
    (.ok session, noteMissing (noteMissing progress .source session.source.root) .static
      session.assets.root)

end Session

-- Where a batch of events has led the two watchers.
structure Dispatch (σ τ : Type) where
  source : σ
  assets : τ
  progress : Progress
  result : Except WatchError Unit

-- One event, handled by the watcher of its tree. That a tree cannot be scanned ends the event
-- only, with a note.
def Handler.receive [Handler ω] (watcher : ω) (event : Event) (progress : Progress) :
    ω × Progress × Except WatchError Unit :=
  match Handler.handle watcher event progress with
  | ⟨watcher, progress, .ok _⟩ => (watcher, progress, .ok ())
  | ⟨watcher, progress, .error (.scan error)⟩ =>
    (watcher, progress.note (.notHandled (Handler.tree watcher) event.path error), .ok ())
  | ⟨watcher, progress, .error error⟩ => (watcher, progress, .error error)

-- Handle events in order, up to the first that fails.
def dispatch [Handler σ] [Handler τ] (source : σ) (assets : τ) (progress : Progress) :
    List (Tree × Event) → Dispatch σ τ
  | [] => ⟨source, assets, progress, .ok ()⟩
  | (.source, event) :: rest =>
    match Handler.receive source event progress with
    | (source, progress, .ok ()) => dispatch source assets progress rest
    | (source, progress, .error error) => ⟨source, assets, progress, .error error⟩
  | (.static, event) :: rest =>
    match Handler.receive assets event progress with
    | (assets, progress, .ok ()) => dispatch source assets progress rest
    | (assets, progress, .error error) => ⟨source, assets, progress, .error error⟩

end StaticSite
