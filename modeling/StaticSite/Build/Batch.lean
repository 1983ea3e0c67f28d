import StaticSite.Build.File
import StaticSite.Config.Basic

namespace StaticSite.Progress

-- Remove the output directory. There may be none.
def clearOutput (progress : Progress) (out : Path) : Except BuildError Unit × Progress :=
  match progress.disk.removeDirectory out with
  | (.ok (), disk) => (.ok (), progress.onDisk disk)
  | (.error .notFound, disk) => (.ok (), progress.onDisk disk)
  | (.error fault, disk) => (.error (.clear out fault), progress.onDisk disk)

-- Build pages in order, up to the first that does not compose.
def buildPages (tree : SourceTree) (out : Path) :
    List ContentFile → Report → Progress → Except BuildError Report × Progress
  | [], report, progress => (.ok report, progress)
  | file :: rest, report, progress =>
    match progress.buildContent tree file out with
    | (.error error, progress) => (.error error, progress)
    | (.ok outcome, progress) => buildPages tree out rest (report.record outcome) progress

-- Copy assets in order. One that fails does not keep the others from being copied.
def buildAssets (out : Path) : List StaticFile → Report → Progress → Report × Progress
  | [], report, progress => (report, progress)
  | file :: rest, report, progress =>
    let (outcome, progress) := progress.buildAsset file out
    buildAssets out rest (report.record outcome) progress

-- Build both trees. The source tree is scanned after the output has been cleared, and
-- the static tree after the pages have been written.
def buildTrees (progress : Progress) (config : Config) : Except BuildError Report × Progress :=
  match progress.disk.scanSource config.source with
  | .error error => (.error (.scan error), progress)
  | .ok tree =>
    match buildPages tree config.out tree.files .empty progress with
    | (.error error, progress) => (.error error, progress)
    | (.ok report, progress) =>
      match progress.disk.scanAssets config.assets with
      | .error error => (.error (.scan error), progress)
      | .ok files =>
        let (report, progress) := buildAssets config.out files report progress
        (.ok report, progress)

-- Build the whole site once.
def buildAll (progress : Progress) (config : Config) : Except BuildError Report × Progress :=
  if config.clear then
    match progress.clearOutput config.out with
    | (.error error, progress) => (.error error, progress)
    | (.ok (), progress) => progress.buildTrees config
  else progress.buildTrees config

end StaticSite.Progress
