import StaticSite.Config.Basic

namespace StaticSite.Config

-- A value in the text of a config. Of the values a config has no use for, only that
-- they are there is kept.
inductive Setting where
  | text (value : String)
  | flag (value : Bool)
  | other
deriving DecidableEq, Repr

-- Directories are texts and the last field is a flag.
def assign? (config : Config) : Field → Setting → Option Config
  | .source, .text value => some { config with source := ⟨value⟩ }
  | .assets, .text value => some { config with assets := ⟨value⟩ }
  | .out, .text value => some { config with out := ⟨value⟩ }
  | .clear, .flag value => some { config with clear := value }
  | _, _ => none

def assignAll? (config : Config) (settings : List (Field × Setting)) : Option Config :=
  settings.foldlM (fun config (field, setting) => config.assign? field setting) config

-- The config given by keys and values. Every key is one of a field, no field is given twice,
-- under one spelling or two, and the fields that are not given keep their defaults.
def ofSettings? (settings : List (String × Setting)) : Option Config := do
  let fields ← settings.mapM fun (key, setting) => return (← Field.ofKey? key, setting)
  guard (fields.map (·.1)).Nodup
  assignAll? default fields

-- The config given by values in the order of the fields. Further values are not looked at.
def ofValues? (values : List Setting) : Option Config :=
  assignAll? default (Field.all.zip values)

end StaticSite.Config
