import Mathlib.Data.List.Nodup
import StaticSite.Proofs.Config.Json5
import StaticSite.Proofs.Config.Stock
import StaticSite.Proofs.Config.Toml

-- Which keys and values make a config, and which config that is, in both formats.
namespace StaticSite.Config

variable {settings others lines members : List (String × Setting)} {fields : List (Field × Setting)}
  {config next other : Config} {field : Field} {setting : Setting} {key : String}

-- Directories are texts, and the last field is a flag.
def Field.Takes (field : Field) (setting : Setting) : Prop :=
  if field = .clear then ∃ value, setting = .flag value else ∃ value, setting = .text value

-- The setting is given for the field, under one of its spellings.
def Says (settings : List (String × Setting)) (field : Field) (setting : Setting) : Prop :=
  (field.key, setting) ∈ settings ∨ (field.camelKey, setting) ∈ settings

-- Every key is one of a field, no field is given under both spellings, and every value is one that
-- its field can have.
structure Fits (settings : List (String × Setting)) : Prop where
  known : ∀ entry ∈ settings, ∃ field : Field, entry.1 = field.key ∨ entry.1 = field.camelKey
  once : ∀ field : Field,
    ¬ (field.key ∈ settings.map Prod.fst ∧ field.camelKey ∈ settings.map Prod.fst)
  suited : ∀ field setting, Says settings field setting → field.Takes setting

-- The config has what is given for a field, and the defaults of the other fields.
def Gives (settings : List (String × Setting)) (config : Config) : Prop :=
  ∀ field : Field, (∀ setting, Says settings field setting → config.setting field = setting) ∧
    ((¬ ∃ setting, Says settings field setting) →
      config.setting field = (default : Config).setting field)

theorem ext_setting (h : ∀ field, config.setting field = other.setting field) : config = other := by
  have hsource := h .source
  have hassets := h .assets
  have hout := h .out
  have hclear := h .clear
  simp only [Config.setting, Setting.text.injEq, Setting.flag.injEq] at hsource hassets hout hclear
  obtain ⟨⟨source⟩, ⟨assets⟩, ⟨out⟩, clear⟩ := config
  obtain ⟨⟨_⟩, ⟨_⟩, ⟨_⟩, _⟩ := other
  simp_all

theorem Gives.unique (h : Gives settings config) (hother : Gives settings other) :
    other = config := by
  refine ext_setting fun field => ?_
  by_cases hsays : ∃ setting, Says settings field setting
  · obtain ⟨setting, hsays⟩ := hsays
    rw [(h field).1 setting hsays, (hother field).1 setting hsays]
  · rw [(h field).2 hsays, (hother field).2 hsays]

theorem ofKey?_eq_some_iff :
    Field.ofKey? key = some field ↔ key = field.key ∨ key = field.camelKey := by
  constructor
  · intro h
    have hfound := List.find?_some (h : Field.all.find? _ = some field)
    exact (of_decide_eq_true hfound).imp Eq.symm Eq.symm
  · rintro (rfl | rfl) <;> cases field <;> decide

theorem isSome_assign? : (config.assign? field setting).isSome ↔ field.Takes setting := by
  cases field <;> cases setting <;> simp [assign?, Field.Takes]

-- What is given for a field changes that field alone.
theorem setting_of_assign? (h : config.assign? field setting = some next) :
    next.setting = Function.update config.setting field setting := by
  cases field <;> cases setting <;> cases h
  all_goals
    funext other
    cases other <;> rfl

theorem assignAll?_cons : config.assignAll? ((field, setting) :: fields) =
    (config.assign? field setting).bind fun next => next.assignAll? fields :=
  rfl

theorem isSome_assignAll? :
    (config.assignAll? fields).isSome ↔ ∀ entry ∈ fields, entry.1.Takes entry.2 := by
  induction fields generalizing config with
  | nil => simp [assignAll?]
  | cons entry fields ih =>
      obtain ⟨field, setting⟩ := entry
      rw [assignAll?_cons, List.forall_mem_cons, ← @isSome_assign? config]
      cases config.assign? field setting with
      | none => simp
      | some next => simpa using ih

-- Given once, the setting stays.
theorem setting_of_assignAll? (h : config.assignAll? fields = some next)
    (honce : (fields.map Prod.fst).Nodup) (field : Field) :
    (∀ setting, (field, setting) ∈ fields → next.setting field = setting) ∧
      ((¬ ∃ setting, (field, setting) ∈ fields) → next.setting field = config.setting field) := by
  induction fields generalizing config with
  | nil =>
      cases h
      simp
  | cons entry fields ih =>
      obtain ⟨first, value⟩ := entry
      rw [assignAll?_cons] at h
      obtain ⟨middle, hassign, h⟩ := Option.bind_eq_some_iff.1 h
      rw [List.map_cons, List.nodup_cons] at honce
      obtain ⟨hgiven, hkept⟩ := ih h honce.2
      have hmiddle := congrFun (setting_of_assign? hassign) field
      have hnone (hfirst : field = first) : ¬ ∃ setting, (field, setting) ∈ fields := by
        rintro ⟨setting, hmem⟩
        exact honce.1 (List.mem_map.2 ⟨_, hmem, hfirst⟩)
      constructor
      · intro setting hmem
        rcases List.mem_cons.1 hmem with heq | hmem
        · obtain ⟨rfl, rfl⟩ := Prod.mk.inj heq
          rw [hkept (hnone rfl), hmiddle, Function.update_self]
        · exact hgiven setting hmem
      · intro hnot
        have hne : field ≠ first := fun heq => hnot ⟨value, heq ▸ List.mem_cons_self⟩
        rw [hkept fun ⟨setting, hmem⟩ => hnot ⟨setting, List.mem_cons_of_mem _ hmem⟩, hmiddle,
          Function.update_of_ne hne]

-- A key with its setting, as the field that it stands for.
def entryField? (entry : String × Setting) : Option (Field × Setting) := do
  return (← Field.ofKey? entry.1, entry.2)

theorem mapM_entryField? :
    settings.mapM entryField? = some fields ↔ settings.map entryField? = fields.map some := by
  induction settings generalizing fields with
  | nil =>
      cases fields with
      | nil => simp
      | cons entry fields => simp
  | cons entry settings ih =>
      rw [List.mapM_cons, List.map_cons, eq_comm (b := fields.map some), List.map_eq_cons_iff]
      simp only [Option.bind_eq_bind, Option.bind_eq_some_iff, ih]
      constructor
      · rintro ⟨field, hentry, others, hothers, heq⟩
        exact ⟨field, others, (Option.some.inj heq).symm, hentry.symm, hothers.symm⟩
      · rintro ⟨field, others, rfl, hentry, hothers⟩
        exact ⟨field, hentry.symm, others, hothers.symm, rfl⟩

theorem ofSettings?_eq_some_iff : ofSettings? settings = some config ↔
    ∃ fields : List (Field × Setting), settings.map entryField? = fields.map some ∧
      (fields.map Prod.fst).Nodup ∧ assignAll? default fields = some config := by
  have hread : ofSettings? settings = (settings.mapM entryField?).bind fun fields =>
      Option.bind (guard (fields.map Prod.fst).Nodup) fun _ => assignAll? default fields := rfl
  simp [hread, Option.bind_eq_some_iff, mapM_entryField?, guard]

theorem entryField?_eq_some_iff {entry : String × Setting} :
    entryField? entry = some (field, setting) ↔
      (entry.1 = field.key ∨ entry.1 = field.camelKey) ∧ entry.2 = setting := by
  simp [entryField?, Option.bind_eq_some_iff, ofKey?_eq_some_iff]

-- The fields are given as the keys say.
theorem mem_fields_iff (h : settings.map entryField? = fields.map some) :
    (field, setting) ∈ fields ↔ Says settings field setting := by
  rw [← List.mem_map_of_injective (Option.some_injective _), ← h]
  simp only [List.mem_map, entryField?_eq_some_iff, Says]
  constructor
  · rintro ⟨⟨key, _⟩, hmem, rfl | rfl, rfl⟩
    · exact .inl hmem
    · exact .inr hmem
  · rintro (hmem | hmem)
    · exact ⟨_, hmem, .inl rfl, rfl⟩
    · exact ⟨_, hmem, .inr rfl, rfl⟩

theorem exists_fields_iff :
    (∃ fields : List (Field × Setting), settings.map entryField? = fields.map some) ↔
      ∀ entry ∈ settings, ∃ field : Field, entry.1 = field.key ∨ entry.1 = field.camelKey := by
  constructor
  · rintro ⟨fields, h⟩ entry hmem
    obtain ⟨⟨field, setting⟩, -, hentry⟩ := List.mem_map.1 (h ▸ List.mem_map_of_mem hmem)
    exact ⟨field, (entryField?_eq_some_iff.1 hentry.symm).1⟩
  · intro h
    induction settings with
    | nil => exact ⟨[], rfl⟩
    | cons entry settings ih =>
        obtain ⟨⟨field, hfield⟩, hsettings⟩ := List.forall_mem_cons.1 h
        obtain ⟨fields, hfields⟩ := ih hsettings
        refine ⟨(field, entry.2) :: fields, ?_⟩
        rw [List.map_cons, List.map_cons, hfields, entryField?_eq_some_iff.2 ⟨hfield, rfl⟩]

-- Where no key is given twice, a field is given twice only under its two spellings.
theorem nodup_fields_iff (h : settings.map entryField? = fields.map some)
    (hkeys : (settings.map Prod.fst).Nodup) :
    (fields.map Prod.fst).Nodup ↔ ∀ field : Field,
      ¬ (field.key ∈ settings.map Prod.fst ∧ field.camelKey ∈ settings.map Prod.fst) := by
  have hfields := congrArg (List.map (Option.map Prod.fst)) h
  rw [List.map_map, List.map_map] at hfields
  have hsame : (fields.map Prod.fst).map some = (settings.map Prod.fst).map Field.ofKey? := by
    rw [List.map_map, List.map_map]
    refine hfields.symm.trans (List.map_congr_left fun entry _ => ?_)
    simp [entryField?]
  rw [← List.nodup_map_iff (Option.some_injective _), hsame, List.nodup_map_iff_inj_on hkeys]
  constructor
  · rintro hinj field ⟨hkey, hcamelKey⟩
    have heq := hinj _ hkey _ hcamelKey ((ofKey?_eq_some_iff.2 (.inl rfl)).trans
      (ofKey?_eq_some_iff.2 (.inr rfl)).symm)
    cases field <;> exact absurd heq (by decide)
  · intro honce key hkey other hother heq
    obtain ⟨entry, hmem, rfl⟩ := List.mem_map.1 hkey
    obtain ⟨field, hfield⟩ := exists_fields_iff.1 ⟨fields, h⟩ entry hmem
    have hsecond := ofKey?_eq_some_iff.1 (heq.symm.trans (ofKey?_eq_some_iff.2 hfield))
    rcases hfield with hfirst | hfirst <;> rcases hsecond with hsecond | hsecond
    · rw [hfirst, hsecond]
    · exact absurd ⟨hfirst ▸ hkey, hsecond ▸ hother⟩ (honce field)
    · exact absurd ⟨hsecond ▸ hother, hfirst ▸ hkey⟩ (honce field)
    · rw [hfirst, hsecond]

-- What the settings make, if they make a config.
theorem gives_of_ofSettings? (h : ofSettings? settings = some config) : Gives settings config := by
  obtain ⟨fields, hfields, honce, hassign⟩ := ofSettings?_eq_some_iff.1 h
  intro field
  simpa only [mem_fields_iff hfields] using setting_of_assignAll? hassign honce field

theorem exists_ofSettings?_iff (hkeys : (settings.map Prod.fst).Nodup) :
    (∃ config, ofSettings? settings = some config) ↔ Fits settings := by
  simp only [ofSettings?_eq_some_iff]
  constructor
  · rintro ⟨config, fields, hfields, honce, hassign⟩
    refine ⟨exists_fields_iff.1 ⟨fields, hfields⟩, (nodup_fields_iff hfields hkeys).1 honce,
      fun field setting hsays => ?_⟩
    exact isSome_assignAll?.1 (Option.isSome_of_mem hassign) _ ((mem_fields_iff hfields).2 hsays)
  · intro hfits
    obtain ⟨fields, hfields⟩ := exists_fields_iff.2 hfits.known
    have htakes : ∀ entry ∈ fields, entry.1.Takes entry.2 := fun entry hmem =>
      hfits.suited _ _ ((mem_fields_iff hfields).1 hmem)
    obtain ⟨config, hconfig⟩ := Option.isSome_iff_exists.1 (isSome_assignAll?.2 htakes)
    exact ⟨config, fields, hfields, (nodup_fields_iff hfields hkeys).2 hfits.once, hconfig⟩

theorem ofSettings?_eq_none (hkeys : (settings.map Prod.fst).Nodup) (h : ¬ Fits settings) :
    ofSettings? settings = none :=
  Option.eq_none_iff_forall_ne_some.2 fun config heq =>
    h ((exists_ofSettings?_iff hkeys).1 ⟨config, heq⟩)

theorem Says.perm (h : others.Perm settings) :
    Says others field setting ↔ Says settings field setting := by
  rw [Says, Says, h.mem_iff, h.mem_iff]

theorem Fits.perm (h : others.Perm settings) (hfits : Fits others) : Fits settings := by
  have hkeys (key : String) := (h.map Prod.fst).mem_iff (a := key)
  refine ⟨fun entry hmem => hfits.known entry (h.mem_iff.2 hmem), fun field => ?_,
    fun field setting hsays => hfits.suited field setting ((Says.perm h).2 hsays)⟩
  rw [← hkeys, ← hkeys]
  exact hfits.once field

theorem Gives.perm (h : others.Perm settings) (hgives : Gives others config) :
    Gives settings config := by
  simpa only [Gives, Says.perm h] using hgives

-- The order of the keys does not matter.
theorem ofSettings?_perm (hkeys : (settings.map Prod.fst).Nodup) (h : others.Perm settings) :
    ofSettings? others = ofSettings? settings := by
  have hothers := (h.map Prod.fst).nodup_iff.2 hkeys
  by_cases hfits : Fits settings
  · obtain ⟨config, hconfig⟩ := (exists_ofSettings?_iff hkeys).2 hfits
    obtain ⟨other, hother⟩ := (exists_ofSettings?_iff hothers).2 (hfits.perm h.symm)
    have hgives := (gives_of_ofSettings? hother).perm h
    rw [hconfig, hother, (gives_of_ofSettings? hconfig).unique hgives]
  · rw [ofSettings?_eq_none hkeys hfits, ofSettings?_eq_none hothers (mt (Fits.perm h) hfits)]

theorem parse_of_toml {text : String} {path : Path} (hpath : isJson path = false)
    (htext : Toml.settings? text.toList = some settings) :
    parse text path = (ofSettings? settings).elim (.error .toml) .ok := by
  simp [parse, hpath, ofToml?, htext]

theorem parse_of_json {text : String} {path : Path} (hpath : isJson path = true)
    (htext : Json5.document? text.toList = some (.object settings)) :
    parse text path = (ofSettings? settings).elim (.error .json) .ok := by
  simp [parse, hpath, ofJson5?, htext]

-- Both formats can write every list of keys with texts and flags, and read what has been written.
-- Of the same keys and values, in whatever order, they make the same config, or none.
theorem parse_formats (hkeys : (settings.map Prod.fst).Nodup)
    (hvalues : ∀ entry ∈ settings, entry.2 ≠ .other) (hlines : lines.Perm settings)
    (hmembers : members.Perm settings) :
    (∃ toml, Toml.Writes lines toml) ∧ (∃ json, Json5.Writes members json) ∧
      (∀ toml, Toml.Writes lines toml → Toml.settings? toml.toList = some lines) ∧
      (∀ json, Json5.Writes members json →
        Json5.document? json.toList = some (.object members)) ∧
      ∀ (toml json : String) (tomlPath jsonPath : Path),
        Toml.settings? toml.toList = some lines →
        Json5.document? json.toList = some (.object members) →
        isJson tomlPath = false → isJson jsonPath = true →
        (Fits settings → ∃ config, (∀ other, Gives settings other ↔ other = config) ∧
          parse toml tomlPath = .ok config ∧ parse json jsonPath = .ok config) ∧
        (¬ Fits settings →
          parse toml tomlPath = .error .toml ∧ parse json jsonPath = .error .json) := by
  refine ⟨Toml.exists_writes fun entry hmem => hvalues entry (hlines.mem_iff.1 hmem),
    Json5.exists_writes fun entry hmem => hvalues entry (hmembers.mem_iff.1 hmem),
    fun _ => Toml.settings?_of_writes, fun _ => Json5.document?_of_writes,
    fun toml json tomlPath jsonPath htoml hjson htomlPath hjsonPath => ?_⟩
  rw [parse_of_toml htomlPath htoml, parse_of_json hjsonPath hjson, ofSettings?_perm hkeys hlines,
    ofSettings?_perm hkeys hmembers]
  refine ⟨fun h => ?_, fun h => ?_⟩
  · obtain ⟨config, hconfig⟩ := (exists_ofSettings?_iff hkeys).2 h
    have hgives := gives_of_ofSettings? hconfig
    rw [hconfig]
    exact ⟨config, fun other => ⟨hgives.unique, fun heq => heq ▸ hgives⟩, rfl, rfl⟩
  · rw [ofSettings?_eq_none hkeys h]
    exact ⟨rfl, rfl⟩

-- Two fields, one under each spelling.
def mixed : List (String × Setting) :=
  [("outDirectory", .text "public"), ("clear_build_folder", .flag false)]

theorem fits_mixed : Fits mixed := by
  refine ⟨?_, fun field => by cases field <;> decide, ?_⟩
  · rintro _ (_ | ⟨_, _ | ⟨_, ⟨⟩⟩⟩)
    · exact ⟨.out, .inr rfl⟩
    · exact ⟨.clear, .inl rfl⟩
  · intro field setting hsays
    cases field <;> simp [Says, mixed, Field.key, Field.camelKey] at hsays <;>
      simp [Field.Takes, hsays]

theorem gives_mixed :
    Gives mixed { (default : Config) with out := ⟨"public"⟩, clear := false } := by
  intro field
  cases field <;> simp [Says, mixed, Field.key, Field.camelKey, Config.setting]

-- The other way round, and with other quotes.
def mixedToml : String :=
  "clear_build_folder = false # kept\n\"outDirectory\" = 'public'"

def mixedJson : String :=
  "\x7b'outDirectory': \"p\\u0075blic\", clear_build_folder: false,\x7d"

-- One field under both spellings.
def twice : List (String × Setting) :=
  [("outDirectory", .text "public"), ("out_directory", .text "public")]

theorem not_fits_twice : ¬ Fits twice :=
  fun h => h.once .out (by decide)

theorem parse_formats_of_spellings :
    (parse mixedToml ⟨"htmlbuild.toml"⟩ =
        .ok { (default : Config) with out := ⟨"public"⟩, clear := false } ∧
      parse mixedJson ⟨"c.JSON"⟩ =
        .ok { (default : Config) with out := ⟨"public"⟩, clear := false }) ∧
    ∃ toml json, Toml.Writes twice toml ∧ Json5.Writes twice json ∧
      parse toml ⟨"htmlbuild.toml"⟩ = .error .toml ∧ parse json ⟨"c.JSON"⟩ = .error .json := by
  constructor
  · obtain ⟨-, -, -, -, hread⟩ := @parse_formats mixed mixed.reverse mixed (by decide) (by decide)
      (by decide) (by decide)
    obtain ⟨config, hgives, htoml, hjson⟩ := (hread mixedToml mixedJson ⟨"htmlbuild.toml"⟩
      ⟨"c.JSON"⟩ (by decide +kernel) (by decide +kernel) (by decide) (by decide)).1 fits_mixed
    rw [(hgives _).1 gives_mixed]
    exact ⟨htoml, hjson⟩
  · obtain ⟨⟨toml, htoml⟩, ⟨json, hjson⟩, htomlRead, hjsonRead, hread⟩ :=
      @parse_formats twice twice twice (by decide) (by decide) (by decide) (by decide)
    exact ⟨toml, json, htoml, hjson, (hread toml json ⟨"htmlbuild.toml"⟩ ⟨"c.JSON"⟩
      (htomlRead toml htoml) (hjsonRead json hjson) (by decide) (by decide)).2 not_fits_twice⟩

end StaticSite.Config
