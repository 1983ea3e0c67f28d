import StaticSite.Path.Normal

namespace StaticSite

-- The three directories of a project, and whether the output is removed before it is built.
structure Config where
  source : Path
  assets : Path
  out : Path
  clear : Bool
deriving DecidableEq, Repr

-- The values a config is made of.
inductive Config.Field where
  | source
  | assets
  | out
  | clear
deriving DecidableEq, Repr

namespace Config

instance : Inhabited Config := ⟨⟨"src"⟩, ⟨"static"⟩, ⟨"dist"⟩, true⟩

namespace Field

-- In the order in which a list of values gives them.
def all : List Field := [.source, .assets, .out, .clear]

-- How the field is written in a config.
def key : Field → String
  | .source => "source_directory"
  | .assets => "static_directory"
  | .out => "out_directory"
  | .clear => "clear_build_folder"

-- The other spelling of the same field.
def camelKey : Field → String
  | .source => "sourceDirectory"
  | .assets => "staticDirectory"
  | .out => "outDirectory"
  | .clear => "clearBuildFolder"

def ofKey? (key : String) : Option Field :=
  all.find? fun field => field.key = key ∨ field.camelKey = key

end Field

-- What makes a config unusable.
inductive Flaw where
  | empty (field : Field)
  | sourceIsStatic
  | outIsInput
deriving DecidableEq, Repr

def Flaw.message : Flaw → String
  | .empty field => field.key ++ " must not be empty"
  | .sourceIsStatic => "source_directory and static_directory must not be equal"
  | .outIsInput => "out_directory must differ from source_directory and static_directory"

end Config

inductive ConfigError where
  | disk (fault : Fault)
  | toml
  | json
  | invalid (flaw : Config.Flaw)
  | alreadyExists (path : Path)
deriving DecidableEq, Repr

def ConfigError.message : ConfigError → String
  | .disk fault => "IO error: " ++ fault.message
  | .toml => "TOML parse error"
  | .json => "JSON5 parse error"
  | .invalid flaw => "Config validation error: " ++ flaw.message
  | .alreadyExists path => "Config file " ++ path.text ++ " already exists"

namespace Config

def directories (config : Config) : List (Field × Path) :=
  [(.source, config.source), (.assets, config.assets), (.out, config.out)]

-- The three directories have to be named and to lie in different places, as seen from
-- the directory `start`. An empty name goes before a clash.
def validate (start : Option Location) (config : Config) : Except ConfigError Unit := do
  if let some (field, _) := config.directories.find? (·.2.text = "") then
    throw (.invalid (.empty field))
  let place (path : Path) := (path.absolute start).mapError .disk
  let source ← place config.source
  let assets ← place config.assets
  let out ← place config.out
  if source.same assets then throw (.invalid .sourceIsStatic)
  if out.same source || out.same assets then throw (.invalid .outIsInput)

end Config

end StaticSite
