import StaticSite.Disk.Change
import StaticSite.Progress
import StaticSite.Template.Composition

namespace StaticSite

namespace Disk

-- The text of a file, as far as it can be read.
def source (disk : Disk) (file : ContentFile) : Except Template.ComposeError Template.Source :=
  match disk.readText file.absolute with
  | .ok text => .ok ⟨file.relative, text.toList⟩
  | .error fault => .error (.unreadable file.absolute fault)

-- The page made of a file and the layouts that wrap it.
def composePage (disk : Disk) (tree : SourceTree) (file : ContentFile) :
    Except Template.ComposeError (List Char) :=
  (Template.compose file.relative ((tree.chain file).map disk.source)).1

-- Make the directory that `path` lies in.
def makeParent (disk : Disk) (path : Path) : Except Fault Unit × Disk :=
  match path.parent? with
  | some parent => disk.makeDirectories parent
  | none => (.ok (), disk)

end Disk

namespace Progress

-- Make the directory of `destination`, then do what `change` does. The directory stays when
-- the change fails.
def place (progress : Progress) (destination : Path) (change : Disk → Except Fault Disk) :
    Except Fault Unit × Progress :=
  match progress.disk.makeParent destination with
  | (.error fault, disk) => (.error fault, progress.onDisk disk)
  | (.ok (), disk) =>
    match change disk with
    | .ok disk => (.ok (), progress.onDisk disk)
    | .error fault => (.error fault, progress.onDisk disk)

def writeOutput (progress : Progress) (destination : Path) (content : ByteArray) :
    Outcome × Progress :=
  match progress.place destination (·.write destination content) with
  | (.ok (), progress) => (.written destination, progress)
  | (.error fault, progress) =>
    (.failed destination (.disk fault), progress.note (.notWritten destination fault))

def copyOutput (progress : Progress) (source destination : Path) : Outcome × Progress :=
  match progress.place destination (·.copy source destination) with
  | (.ok (), progress) => (.copied destination, progress)
  | (.error fault, progress) =>
    (.failed destination (.disk fault), progress.note (.notCopied destination fault))

def removeOutput (progress : Progress) (destination : Path) : Outcome × Progress :=
  match progress.disk.removeFile destination with
  | .ok disk => (.removed destination, progress.onDisk disk)
  | .error fault =>
    (.failed destination (.disk fault), progress.note (.notRemoved destination fault))

-- Write the page of a file, or remove it if the file is deleted. A file that cannot be read
-- spoils its page only. A chain that does not compose is an error.
def buildContent (progress : Progress) (tree : SourceTree) (file : ContentFile) (out : Path) :
    Except BuildError Outcome × Progress :=
  if file.isHidden then (.ok .skipped, progress)
  else
    let destination := out.join ⟨file.relative⟩
    if file.deleted then
      let (outcome, progress) := progress.removeOutput destination
      (.ok outcome, progress)
    else
      match progress.disk.composePage tree file with
      | .ok page =>
        let (outcome, progress) := progress.writeOutput destination (String.ofList page).toUTF8
        (.ok outcome, progress)
      | .error (.unreadable path fault) =>
        (.ok (.failed destination (.disk fault)), progress.note (.unreadable path fault))
      | .error error => (.error (.compose error), progress)

-- Copy an asset, or remove its copy if the asset is deleted.
def buildAsset (progress : Progress) (file : StaticFile) (out : Path) : Outcome × Progress :=
  let destination := out.join ⟨file.relative⟩
  if file.deleted then progress.removeOutput destination
  else if progress.disk.isFile file.absolute then progress.copyOutput file.absolute destination
  else (.failed destination .inaccessible, progress.note (.inaccessible file.absolute))

end Progress

end StaticSite
