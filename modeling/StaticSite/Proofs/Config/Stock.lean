import StaticSite.CommandLine
import StaticSite.Proofs.Config.Validation
import StaticSite.Proofs.Disk.Extending

-- The stock config: what its text says, and that it can be loaded where it has been written.
namespace StaticSite

namespace Config

-- What a config says about a field.
def setting (config : Config) : Field → Setting
  | .source => .text config.source.text
  | .assets => .text config.assets.text
  | .out => .text config.out.text
  | .clear => .flag config.clear

-- The keys of a config with what it says about them.
def settings (config : Config) : List (String × Setting) :=
  Field.all.map fun field => (field.key, config.setting field)

theorem ofKey?_key (field : Field) : Field.ofKey? field.key = some field := by
  cases field <;> decide

-- A config is what it says about its fields.
theorem ofSettings?_settings (config : Config) : ofSettings? config.settings = some config := by
  simp only [ofSettings?, settings, Field.all, List.map_cons, List.map_nil, List.mapM_cons,
    List.mapM_nil, ofKey?_key]
  rfl

-- The characters of a text, read off as it is written.
theorem toList_eq {text : String} {chars : List Char} (h : text = String.ofList chars) :
    text.toList = chars := by
  rw [h, String.toList_ofList]

set_option maxRecDepth 10000 in
-- The stock text gives every key its default. The rest of it is comments.
theorem settings?_stock : Toml.settings? stock.toList = some (default : Config).settings := by
  rw [toList_eq (rfl : stock = String.ofList _)]
  decide +kernel

set_option maxRecDepth 10000 in
-- A document in the other format does not begin with a comment of this one.
theorem document?_stock : Json5.document? stock.toList = none := by
  rw [toList_eq (rfl : stock = String.ofList _)]
  rfl

theorem parse_stock (path : Path) :
    parse stock path = if isJson path then .error .json else .ok default := by
  rw [parse, ofJson5?, ofToml?, settings?_stock, document?_stock]
  simp only [Option.bind_eq_bind, Option.bind_some, Option.bind_none, ofSettings?_settings]
  rfl

-- The default directories lie next to each other, wherever that is. But they have to lie somewhere.
theorem validate_default {start? : Option Location} (h : ∀ start ∈ start?, start.Named) :
    (default : Config).validate start? =
      if start?.isSome then .ok () else .error (.disk .notFound) := by
  cases start? with
  | none => rfl
  | some start =>
      have hsource : Location.walk start (default : Config).source = "src" :: start := rfl
      have hassets : Location.walk start (default : Config).assets = "static" :: start := rfl
      have hout : Location.walk start (default : Config).out = "dist" :: start := rfl
      rw [validate_of_named (h start rfl) (by decide) (by decide) (by decide), hsource, hassets,
        hout]
      simp

end Config

theorem fromUTF8?_toUTF8 (text : String) : String.fromUTF8? text.toUTF8 = some text := by
  rw [String.fromUTF8?, String.toUTF8_eq_toByteArray, dif_pos text.isValidUTF8]
  rfl

namespace Disk

variable {disk after : Disk} {path : Path}

theorem readText_of_read {text : String} (h : disk.read path = .ok text.toUTF8) :
    disk.readText path = .ok text := by
  rw [readText, h]
  simp only [bind, Except.bind, fromUTF8?_toUTF8]
  rfl

theorem initConfig_eq_ok (h : disk.initConfig path = .ok after) :
    disk.write path Config.stock.toUTF8 = .ok after := by
  unfold initConfig at h
  split at h
  · cases h
  · cases hwrite : disk.write path Config.stock.toUTF8 with
    | error fault =>
        rw [hwrite] at h
        cases h
    | ok next =>
        rw [hwrite] at h
        exact congrArg Except.ok (Except.ok.inj h)

-- The format is taken from the name, and the directories are looked at from where they are now.
theorem loadConfig_of_initConfig (h : disk.initConfig path = .ok after) :
    after.loadConfig path = if Config.isJson path then .error .json
      else ((default : Config).validate disk.base?).map fun _ => default := by
  have hwrite := initConfig_eq_ok h
  rw [loadConfig, readText_of_read (read_write hwrite), (sameBase_write hwrite).base?_eq]
  simp only [Except.mapError, bind, Except.bind, Config.parse_stock]
  by_cases hname : Config.isJson path
  · rw [if_pos hname, if_pos hname]
  · rw [if_neg hname, if_neg hname]
    dsimp only
    cases (default : Config).validate disk.base? <;> rfl

-- What has been written is not written again.
theorem initConfig_again (h : disk.initConfig path = .ok after) :
    after.initConfig path = .error (.alreadyExists path) := by
  have hread := read_write (initConfig_eq_ok h)
  refine if_pos ?_
  rw [has, entry?]
  cases hfind : after.find path with
  | ok spot => rfl
  | error fault =>
      rw [read, hfind] at hread
      cases hread

-- Where the stock config has been written it can be loaded, unless the name asks for the other
-- format, and it is the default one. A directory for its relative directories is needed as for
-- every config. Where it cannot be written, nothing has changed.
theorem initConfig_loads (disk : Disk) (path : Path) :
    (∀ after, disk.initConfig path = .ok after →
      ((Command.init path).run disk).progress.disk = after ∧
        (Config.isJson path = false → after.loadConfig path =
          if disk.base?.isSome then .ok default else .error (.disk .notFound))) ∧
    ∀ error, disk.initConfig path = .error error →
      ((Command.init path).run disk).failure = some error.message ∧
        ((Command.init path).run disk).progress.disk = disk := by
  refine ⟨fun after h => ⟨?_, fun hname => ?_⟩, fun error h => ?_⟩
  · simp only [Command.run, Command.runInit, Progress.start, h]
    rfl
  · rw [loadConfig_of_initConfig h, hname,
      Config.validate_default fun start hbase => (base?_eq_some hbase).2]
    cases disk.base?.isSome <;> rfl
  · simp only [Command.run, Command.runInit, Progress.start, h]
    exact ⟨rfl, rfl⟩

-- An empty directory to work in.
def fresh : Disk :=
  (Disk.blank.putDirectory "site" []).workIn ["site"]

theorem initConfig_loads_of_fresh :
    ∃ after, fresh.initConfig ⟨"htmlbuild.toml"⟩ = .ok after ∧
      Config.isJson ⟨"htmlbuild.toml"⟩ = false ∧
      after.loadConfig ⟨"htmlbuild.toml"⟩ = .ok default ∧
      after.initConfig ⟨"htmlbuild.toml"⟩ = .error (.alreadyExists ⟨"htmlbuild.toml"⟩) ∧
      ((Command.init ⟨"htmlbuild.toml"⟩).run after).progress.disk = after := by
  have hinit : fresh.initConfig ⟨"htmlbuild.toml"⟩ = .ok _ :=
    @eq_ok_getD _ _ _ .blank (by decide +kernel)
  have hagain := initConfig_again hinit
  have hload := ((initConfig_loads fresh ⟨"htmlbuild.toml"⟩).1 _ hinit).2 (by decide)
  exact ⟨_, hinit, by decide, hload.trans (if_pos (by decide +kernel)), hagain,
    ((initConfig_loads _ _).2 _ hagain).2⟩

-- The text is the same under a name that asks for the other format.
theorem loadConfig_refuses_stock :
    ¬ ∀ (disk : Disk) (path : Path) (after : Disk), disk.initConfig path = .ok after →
      after.loadConfig path = .ok default := by
  intro h
  have hinit : fresh.initConfig ⟨"htmlbuild.config.json"⟩ = .ok _ :=
    @eq_ok_getD _ _ _ .blank (by decide +kernel)
  have hload := loadConfig_of_initConfig hinit
  rw [h _ _ _ hinit, if_pos (by decide)] at hload
  cases hload

end Disk

end StaticSite
