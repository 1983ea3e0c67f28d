import StaticSite.Watch.Watcher

namespace StaticSite

-- Follows the static tree with the files of its last scan.
structure StaticWatcher where
  root : Path
  out : Path
  files : List StaticFile
deriving DecidableEq, Repr

namespace StaticWatcher

def open? (disk : Disk) (root out : Path) : Except WatchError StaticWatcher :=
  match disk.scanAssets root with
  | .ok files => .ok ⟨root, out, files⟩
  | .error error => .error (.scan error)

-- The watcher with the files as they are on the disk now.
def rescan (watcher : StaticWatcher) (progress : Progress) :
    Except WatchError StaticWatcher × Progress :=
  (StaticWatcher.open? progress.disk watcher.root watcher.out,
    progress.note (.rescanning watcher.root))

def find? (watcher : StaticWatcher) (path : Path) : Option Nat :=
  watcher.files.findIdx? (·.absolute.same path)

-- Copy files in order, or remove their copies. Each is announced first, if `activity` says how.
def rebuildEach (watcher : StaticWatcher) (reason : RebuildReason)
    (activity : Option (String → Activity)) :
    List StaticFile → Progress → List Rebuild × Progress
  | [], progress => ([], progress)
  | file :: rest, progress =>
    let progress := progress.announceAs activity file.relative
    let (outcome, progress) := progress.buildAsset file watcher.out
    let (others, progress) := watcher.rebuildEach reason activity rest progress
    (⟨file.relative, reason, outcome⟩ :: others, progress)

-- Copy every file, as the first step of a session.
def buildAll (watcher : StaticWatcher) (progress : Progress) : Reaction StaticWatcher :=
  match watcher.rescan progress with
  | (.error error, progress) => ⟨watcher, progress, .error error⟩
  | (.ok watcher, progress) =>
    let (rebuilds, progress) := watcher.rebuildEach .changed none watcher.files progress
    ⟨watcher, progress, .ok rebuilds⟩

def accepts (watcher : StaticWatcher) (path : Path) : Bool :=
  path.startsWith watcher.root

def knownUnder (watcher : StaticWatcher) (path : Path) : List Path :=
  (watcher.files.map (·.absolute)).filter (·.startsWith path)

def update (watcher : StaticWatcher) (path : Path) (progress : Progress) :
    Reaction StaticWatcher :=
  match watcher.rescan progress with
  | (.error error, progress) => ⟨watcher, progress, .error error⟩
  | (.ok watcher, progress) =>
    match watcher.find? path with
    | none => ⟨watcher, progress, .error (.untracked .static path)⟩
    | some index =>
      let (rebuilds, progress) := watcher.rebuildEach .changed (some .updatingStatic)
        (watcher.files[index]?).toList progress
      ⟨watcher, progress, .ok rebuilds⟩

def addDirectory (watcher : StaticWatcher) (directory : Path) (progress : Progress) :
    Reaction StaticWatcher :=
  match watcher.rescan progress with
  | (.error error, progress) => ⟨watcher, progress, .error error⟩
  | (.ok watcher, progress) =>
    let added := watcher.files.filter (·.absolute.startsWith directory)
    let (rebuilds, progress) :=
      watcher.rebuildEach .changed (some .updatingStatic) added progress
    ⟨watcher, progress, .ok rebuilds⟩

def markDeleted (watcher : StaticWatcher) (index : Nat) : StaticWatcher :=
  { watcher with
    files := watcher.files.modify index fun file => { file with deleted := true } }

-- Remove the copies of `paths`. The files stay in the list, marked as deleted.
def removeEach (watcher : StaticWatcher) (progress : Progress) :
    List Path → Reaction StaticWatcher
  | [] => ⟨watcher, progress, .ok []⟩
  | path :: rest =>
    match watcher.find? path with
    | none => ⟨watcher, progress, .error (.untracked .static path)⟩
    | some index =>
      let watcher := watcher.markDeleted index
      let (removed, progress) := watcher.rebuildEach .deleted (some .deletingStatic)
        (watcher.files[index]?).toList progress
      let reaction := watcher.removeEach progress rest
      { reaction with result := reaction.result.map (removed ++ ·) }

-- Nothing depends on an asset, so the list is all that has to be brought up to date.
def unlink (watcher : StaticWatcher) (paths : List Path) (progress : Progress) :
    Reaction StaticWatcher :=
  match watcher.removeEach progress paths with
  | ⟨watcher, progress, .error error⟩ => ⟨watcher, progress, .error error⟩
  | ⟨watcher, progress, .ok removed⟩ =>
    ⟨{ watcher with files := watcher.files.filter (!·.deleted) }, progress, .ok removed⟩

instance : Watcher StaticWatcher where
  tree _ := .static
  root := StaticWatcher.root
  accepts := accepts
  knownUnder := knownUnder
  update := update
  addDirectory := addDirectory
  unlink := unlink

end StaticWatcher

end StaticSite
