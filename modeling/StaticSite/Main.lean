import StaticSite.CommandLine
import StaticSite.Disk.Difference

namespace StaticSite

-- What has happened at and below `root` between two looks at the disk.
def Event.between (before after : Disk) (root : Path) : List Event :=
  let gone := (before.lost after).map fun (location, _) => Event.mk .unlink location.path
  let come := (before.gained after).map fun (location, entry) =>
    let known := (before.get? location).map Entry.isDirectory = some entry.isDirectory
    Event.mk (if known then .change else .add) location.path
  (gone ++ come).filter (·.path.startsWith root)

end StaticSite

namespace StaticSite.Program

-- The program works on a picture of the places it may touch, and what it has changed in
-- the picture is then done to the real disk.

-- Add the entry at a place to the picture, with the directories that lead to it.
partial def look (disk : Disk) : Location → IO Disk
  | [] => return disk
  | name :: parent => do
    let disk ← look disk parent
    let place := (← IO.currentDir) / (Location.path (name :: parent)).text
    if (disk.get? (name :: parent)).isSome || !(← place.pathExists) then return disk
    if ← place.isDir then return disk.putDirectory name parent
    return disk.putFile name parent (← IO.FS.readBinFile place)

-- Add a place to the picture with all that lies below it.
partial def lookBelow (disk : Disk) (location : Location) : IO Disk := do
  let disk ← look disk location
  let place := (← IO.currentDir) / location.path.text
  if !(← place.isDir) then return disk
  (← place.readDir).foldlM (fun disk entry => lookBelow disk (entry.fileName :: location)) disk

-- Add every place that a path passes through.
def lookAlong (disk : Disk) (path : Path) : IO Disk := do
  let (disk, _) ← path.components.foldlM (fun (disk, location) part => do
    let location := Location.step location part
    return (← look disk location, location)) (disk, disk.workDir)
  return disk

-- A picture of the files along some paths and of all that some directories hold.
def picture (files directories : List Path) : IO Disk := do
  let workDir := Location.walk [] ⟨(← IO.currentDir).toString⟩
  let disk := (← look .blank workDir).workIn workDir
  let disk ← (files ++ directories).foldlM lookAlong disk
  directories.foldlM (fun disk path => lookBelow disk (Location.walk workDir path)) disk

-- Do to the real disk what has been done to the picture of it.
def store (before after : Disk) : IO Unit := do
  let root ← IO.currentDir
  let deepest := (before.lost after).mergeSort fun (left, _) (right, _) => right.length ≤ left.length
  for (location, entry) in deepest do
    let place := root / location.path.text
    if entry.isDirectory then IO.FS.removeDir place else IO.FS.removeFile place
  let highest := (before.gained after).mergeSort fun (left, _) (right, _) => left.length ≤ right.length
  for (location, entry) in highest do
    let place := root / location.path.text
    match entry with
    | .directory _ => IO.FS.createDir place
    | .file content => IO.FS.writeBinFile place content

def printNotes (notes : List Note) : IO Unit := do
  for note in notes do
    if note.severity ≠ .debug then
      (← IO.getStderr).putStrLn (note.severity.name ++ " " ++ note.message)

def printFailure (message : String) : IO Unit := do
  (← IO.getStderr).putStrLn ("Error: " ++ message)

-- Look again and again, and handle what has happened once the trees are quiet.
partial def follow (colors : Bool) (directories : List Path) (disk : Disk) (session : Session)
    (queue : EventQueue) : IO UInt32 := do
  IO.sleep 50
  let seen ← picture [] directories
  let now ← IO.monoMsNow
  let events := (Event.between disk seen session.source.root).map (Tree.source, ·) ++
    (Event.between disk seen session.assets.root).map (Tree.static, ·)
  let queue := events.foldl (fun queue (tree, event) => queue.push now tree event) queue
  if !queue.isDue now EventQueue.quietPeriod then follow colors directories seen session queue
  else
    let (batch, queue) := queue.take
    let ended := dispatch session.source session.assets (Progress.start seen) batch
    store seen ended.progress.disk
    let lines := ended.progress.activities.map Activity.line
    IO.print (Run.text (.done lines ended.progress) colors)
    printNotes ended.progress.notes
    match ended.result with
    | .ok () => follow colors directories ended.progress.disk ⟨ended.source, ended.assets⟩ queue
    | .error error =>
      printFailure error.message
      return 1

-- The directories of a config, if there is one that can be used.
def directories (path : Path) : IO (List Path) := do
  match Command.load (.start (← picture [path] [])) path with
  | (.ok config, _) => return config.directories.map (·.2)
  | (.error _, _) => return []

def run (request : Request) (colors : Bool) : IO UInt32 := do
  let (files, trees) ← match request with
    | .perform (.init path) => pure ([path], [])
    | .perform (.build path) | .perform (.watch path) => pure ([path], ← directories path)
    | _ => pure ([], [])
  let disk ← picture files trees
  let (exit, run) := request.run disk
  store disk run.progress.disk
  IO.print (run.text colors)
  printNotes run.progress.notes
  if let some message := run.failure then printFailure message
  match run.session with
  | some session => follow colors trees run.progress.disk session .empty
  | none => return exit.toUInt32

end StaticSite.Program

def main (arguments : List String) : IO UInt32 := do
  let request := StaticSite.Request.ofArguments arguments
  if request = .misuse then
    (← IO.getStderr).putStr (StaticSite.Run.text (.done StaticSite.Request.usage
      (.start .blank)) false)
  StaticSite.Program.run request (← (← IO.getStdout).isTty)
