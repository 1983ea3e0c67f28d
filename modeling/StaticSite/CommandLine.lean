import StaticSite.Config.Text
import StaticSite.Console
import StaticSite.Watch.Session

namespace StaticSite

-- What the program does, with the path of its config.
inductive Command where
  | init (config : Path)
  | build (config : Path)
  | watch (config : Path)
deriving DecidableEq, Repr

-- What the arguments of the program ask for.
inductive Request where
  | perform (command : Command)
  | version
  | help
  | misuse
deriving DecidableEq, Repr

namespace Request

def programName : String := "htmlbuild"

def programVersion : String := "1.0.1"

-- The config that is used when none is given.
def defaultConfig : String := "htmlbuild.toml"

def command? : String → Option (Path → Command)
  | "init" => some .init
  | "build" => some .build
  | "watch" => some .watch
  | _ => none

-- Whether an argument is an option. A dash alone is a path.
def isOption (argument : String) : Bool :=
  argument.toList.head? = some '-' && argument ≠ "-"

-- The arguments of a command: one path at most, which is not empty. Two dashes end the options.
def ofOperands (make : Path → Command) (options : Bool) (path : Option String) :
    List String → Request
  | [] => .perform (make ⟨path.getD defaultConfig⟩)
  | argument :: rest =>
    if options && argument = "--" then ofOperands make false path rest
    else if options && isOption argument then
      if argument = "--help" ∨ "-h".toList.isPrefixOf argument.toList then .help else .misuse
    else if path.isSome ∨ argument = "" then .misuse
    else ofOperands make options (some argument) rest

def ofArguments : List String → Request
  | [] => .misuse
  | argument :: rest =>
    if argument = "--version" ∨ "-v".toList.isPrefixOf argument.toList then .version
    else if argument = "--help" ∨ "-h".toList.isPrefixOf argument.toList then .help
    else if argument = "help" then
      match rest with
      | [] => .help
      | [name] => if name = "help" ∨ (command? name).isSome then .help else .misuse
      | _ => .misuse
    else match command? argument with
      | some make => ofOperands make true none rest
      | none => .misuse

end Request

-- What a run of the program leaves: the lines it has printed, how it ended, how far it came,
-- and the session that goes on after a watch has started.
structure Run where
  lines : List Line
  failure : Option String
  progress : Progress
  session : Option Session

namespace Run

-- A failure of the program is told apart from a misuse.
def exit (run : Run) : Nat :=
  if run.failure.isSome then 1 else 0

def done (lines : List Line) (progress : Progress) : Run :=
  ⟨lines, none, progress, none⟩

def failed (lines : List Line) (message : String) (progress : Progress) : Run :=
  ⟨lines, some message, progress, none⟩

end Run

namespace Command

-- The default config may be missing. Then the default directories are used.
def load (progress : Progress) (path : Path) : Except ConfigError Config × Progress :=
  if path.same ⟨Request.defaultConfig⟩ && !progress.disk.has path then
    let config : Config := default
    ((config.validate progress.disk.base?).map fun _ => config, progress.note (.defaults path))
  else (progress.disk.loadConfig path, progress)

def runInit (progress : Progress) (path : Path) : Run :=
  match progress.disk.initConfig path with
  | .ok disk => .done [[⟨"Wrote " ++ path.text, none⟩]] (progress.onDisk disk)
  | .error error => .failed [] error.message progress

def runBuild (progress : Progress) (path : Path) : Run :=
  match load progress path with
  | (.error error, progress) => .failed [] error.message progress
  | (.ok config, progress) =>
    match progress.buildAll config with
    | (.error error, progress) => .failed [Activity.building.line] error.message progress
    | (.ok report, progress) => .done (Activity.building.line :: report.lines) progress

def runWatch (progress : Progress) (path : Path) : Run :=
  match load progress path with
  | (.error error, progress) => .failed [] error.message progress
  | (.ok config, progress) =>
    let header := watchHeader config.source config.assets
    match Session.prepare progress config with
    | (.error error, progress) =>
      .failed (header :: progress.activities.map Activity.line) error.message progress
    | (.ok session, progress) =>
      ⟨header :: progress.activities.map Activity.line, none, progress, some session⟩

-- What a command does on a disk. A watch is run up to where it begins to wait for events.
def run (command : Command) (disk : Disk) : Run :=
  match command with
  | .init path => runInit (.start disk) path
  | .build path => runBuild (.start disk) path
  | .watch path => runWatch (.start disk) path

end Command

namespace Request

def usage : List Line :=
  ["Assemble a static site from HTML files and layouts",
    "",
    "Usage: htmlbuild <COMMAND>",
    "",
    "Commands:",
    "  init [CONFIG]   Write a stock config file with all options documented",
    "  build [CONFIG]  Build the output directory once",
    "  watch [CONFIG]  Build, then rebuild changed files until interrupted",
    "",
    "Options:",
    "  -v, --version  Print version",
    "  -h, --help     Print help"].map fun text => [⟨text, none⟩]

-- The run of a request and its exit code. A misuse prints nothing here and changes nothing.
def run (request : Request) (disk : Disk) : Nat × Run :=
  match request with
  | .perform command =>
    let run := command.run disk
    (run.exit, run)
  | .version => (0, .done [[⟨programName ++ " " ++ programVersion, none⟩]] (.start disk))
  | .help => (0, .done usage (.start disk))
  | .misuse => (2, .done [] (.start disk))

end Request

-- The lines of a run as they are printed.
def Run.text (run : Run) (colors : Bool) : String :=
  String.join (run.lines.map fun line =>
    (if colors then Line.colored line else Line.plain line) ++ "\n")

end StaticSite
