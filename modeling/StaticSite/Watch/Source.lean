import StaticSite.Watch.Watcher

namespace StaticSite

-- Follows the source tree with the files of its last scan.
structure SourceWatcher where
  root : Path
  out : Path
  files : SourceTree
deriving DecidableEq, Repr

namespace SourceWatcher

def open? (disk : Disk) (root out : Path) : Except WatchError SourceWatcher :=
  match disk.scanSource root with
  | .ok files => .ok ⟨root, out, files⟩
  | .error error => .error (.scan error)

-- The watcher with the files as they are on the disk now.
def rescan (watcher : SourceWatcher) (progress : Progress) :
    Except WatchError SourceWatcher × Progress :=
  (SourceWatcher.open? progress.disk watcher.root watcher.out,
    progress.note (.rescanning watcher.root))

-- Build one file. That its chain does not compose is noted, and the run goes on.
def rebuild (watcher : SourceWatcher) (reason : RebuildReason) (file : ContentFile)
    (progress : Progress) : Rebuild × Progress :=
  match progress.buildContent watcher.files file watcher.out with
  | (.ok outcome, progress) => (⟨file.relative, reason, outcome⟩, progress)
  | (.error error, progress) =>
    (⟨file.relative, reason, .failed (watcher.out.join ⟨file.relative⟩) (.build error)⟩,
      progress.note (.notBuilt file.relative error))

-- Build files in order. Each is announced first, if `activity` says how.
def rebuildEach (watcher : SourceWatcher) (reason : RebuildReason)
    (activity : Option (String → Activity)) :
    List ContentFile → Progress → List Rebuild × Progress
  | [], progress => ([], progress)
  | file :: rest, progress =>
    let progress := progress.announceAs activity file.relative
    let (first, progress) := watcher.rebuild reason file progress
    let (others, progress) := watcher.rebuildEach reason activity rest progress
    (first :: others, progress)

-- Build every file, as the first step of a session.
def buildAll (watcher : SourceWatcher) (progress : Progress) : Reaction SourceWatcher :=
  match watcher.rescan (progress.announce .building) with
  | (.error error, progress) => ⟨watcher, progress, .error error⟩
  | (.ok watcher, progress) =>
    let (rebuilds, progress) := watcher.rebuildEach .changed none watcher.files.files progress
    ⟨watcher, progress, .ok rebuilds⟩

-- Only pages and layouts are files of the tree.
def accepts (watcher : SourceWatcher) (path : Path) : Bool :=
  path.startsWith watcher.root && path.extension? = some "html"

def knownUnder (watcher : SourceWatcher) (path : Path) : List Path :=
  (watcher.files.files.map (·.absolute)).filter (·.startsWith path)

-- Build the file at `path` and then the files that depend on it.
def update (watcher : SourceWatcher) (path : Path) (progress : Progress) :
    Reaction SourceWatcher :=
  match watcher.rescan progress with
  | (.error error, progress) => ⟨watcher, progress, .error error⟩
  | (.ok watcher, progress) =>
    match watcher.files.findAbsolute? path with
    | none => ⟨watcher, progress, .error (.untracked .source path)⟩
    | some index =>
      let dependents := (watcher.files.dependents index).filterMap (watcher.files.files[·]?)
      let (changed, progress) := watcher.rebuildEach .changed (some .updatingSource)
        (watcher.files.files[index]?).toList progress
      let (dependent, progress) :=
        watcher.rebuildEach .dependent (some .updatingDependent) dependents progress
      ⟨watcher, progress, .ok (changed ++ dependent)⟩

-- Layouts below a directory wrap files below it only, so the files below it hold all that
-- depend on them.
def addDirectory (watcher : SourceWatcher) (directory : Path) (progress : Progress) :
    Reaction SourceWatcher :=
  match watcher.rescan progress with
  | (.error error, progress) => ⟨watcher, progress, .error error⟩
  | (.ok watcher, progress) =>
    let added := watcher.files.files.filter (·.absolute.startsWith directory)
    let (rebuilds, progress) :=
      watcher.rebuildEach .changed (some .updatingSource) added progress
    ⟨watcher, progress, .ok rebuilds⟩

-- Remove the outputs of `paths` and remember the files that depend on them.
def removeEach (watcher : SourceWatcher) (progress : Progress) :
    List Path → Reaction SourceWatcher × List String
  | [] => (⟨watcher, progress, .ok []⟩, [])
  | path :: rest =>
    match watcher.files.findAbsolute? path with
    | none => (⟨watcher, progress, .error (.untracked .source path)⟩, [])
    | some index =>
      let watcher := { watcher with files := watcher.files.markDeleted index }
      let (removed, progress) := watcher.rebuildEach .deleted (some .deletingSource)
        (watcher.files.files[index]?).toList progress
      let (reaction, dependents) := watcher.removeEach progress rest
      ({ reaction with result := reaction.result.map (removed ++ ·) },
        watcher.files.dependentPaths path ++ dependents)

-- Who depends on a deleted file is known before the next scan only. After it, those that are
-- still there are built without that file.
def unlink (watcher : SourceWatcher) (paths : List Path) (progress : Progress) :
    Reaction SourceWatcher :=
  match watcher.removeEach progress paths with
  | (⟨watcher, progress, .error error⟩, _) => ⟨watcher, progress, .error error⟩
  | (⟨watcher, progress, .ok removed⟩, dependents) =>
    match watcher.rescan progress with
    | (.error error, progress) => ⟨watcher, progress, .error error⟩
    | (.ok watcher, progress) =>
      let left := watcher.files.files.filter fun file => dependents.contains file.relative
      let (rebuilds, progress) :=
        watcher.rebuildEach .dependent (some .updatingDependent) left progress
      ⟨watcher, progress, .ok (removed ++ rebuilds)⟩

instance : Watcher SourceWatcher where
  tree _ := .source
  root := SourceWatcher.root
  accepts := accepts
  knownUnder := knownUnder
  update := update
  addDirectory := addDirectory
  unlink := unlink

end SourceWatcher

end StaticSite
