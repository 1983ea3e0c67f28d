import StaticSite.Config.Json5
import StaticSite.Config.Toml
import StaticSite.Disk.Change

namespace StaticSite.Config

def ofToml? (text : String) : Option Config := do
  ofSettings? (← Toml.settings? text.toList)

def ofJson5? (text : String) : Option Config := do
  match ← Json5.document? text.toList with
  | .object settings => ofSettings? settings
  | .list values => ofValues? values

-- A file whose name ends in `.json`, in capitals or not, holds JSON5. Every other holds TOML.
def isJson (path : Path) : Bool :=
  path.extension?.any fun extension => extension.toList.map Char.toLower = "json".toList

def parse (text : String) (path : Path) : Except ConfigError Config :=
  if isJson path then (ofJson5? text).elim (.error .json) .ok
  else (ofToml? text).elim (.error .toml) .ok

-- A config with every key, its default and what it means.
def stock : String :=
"# htmlbuild configuration
# ========================

# Path to the directory containing the HTML files.
#
# Files whose name starts with \"~\" are not copied to the output. Files whose
# name starts with \"~layout\" wrap every other HTML file in their directory and
# its subdirectories, at the position of %\x7bcontent\x7d.
source_directory = \"src\"

# Path to the directory containing static files to copy into the out directory.
# Must not be equal to the source directory.
static_directory = \"static\"

# The target directory to place the built and copied files into.
out_directory = \"dist\"

# Remove the out directory before every full build. Highly recommended, unless
# htmlbuild runs together with another build tool that clears it first.
clear_build_folder = true
"

end StaticSite.Config

namespace StaticSite.Disk

-- The config that a file holds. It has to be usable.
def loadConfig (disk : Disk) (path : Path) : Except ConfigError Config := do
  let text ← (disk.readText path).mapError .disk
  let config ← Config.parse text path
  config.validate disk.base?
  return config

-- Put the stock config where there is nothing yet.
def initConfig (disk : Disk) (path : Path) : Except ConfigError Disk :=
  if disk.has path then .error (.alreadyExists path)
  else (disk.write path Config.stock.toUTF8).mapError .disk

end StaticSite.Disk
