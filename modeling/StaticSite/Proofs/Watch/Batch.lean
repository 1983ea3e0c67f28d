import StaticSite.Proofs.Watch.Session

-- Batches of edits of both trees, and what their events say of the disk that the last edit leaves.
namespace StaticSite

open Disk (within Works Changed)

namespace Event

-- The event is about what lies at a place below the root, or about a directory that holds it.
def Covers (root : Location) (event : Event) (location : Location) : Prop :=
  ∃ place : Location, Location.Named (place ++ root) ∧ event.path = Location.path (place ++ root) ∧
    within place location

theorem covers_iff {root place location : Location} {event : Event}
    (hnamed : Location.Named (place ++ root)) (hpath : event.path = Location.path (place ++ root)) :
    event.Covers root location ↔ within place location := by
  constructor
  · rintro ⟨other, hother, hpath', hwithin⟩
    have heq := Location.path_injective hother hnamed (hpath'.symm.trans hpath)
    rw [List.append_cancel_right heq] at hwithin
    exact hwithin
  · exact fun hwithin => ⟨place, hnamed, hpath, hwithin⟩

end Event

-- What events of a tree say of a place: of all kinds of changes, one of the `wanted` ones.
def Told (roots : Roots) (wanted : Change → Prop) (events : List (Tree × Event)) (tree : Tree)
    (location : Location) : Prop :=
  ∃ event, (tree, event) ∈ events ∧ wanted event.kind ∧ event.Covers (roots.tree tree) location

-- Where something is gone, and where something has come.
def Withdrawn (roots : Roots) : List (Tree × Event) → Tree → Location → Prop :=
  Told roots (· = .unlink)

def Announced (roots : Roots) : List (Tree × Event) → Tree → Location → Prop :=
  Told roots (· ≠ .unlink)

namespace Told

variable {roots : Roots} {wanted : Change → Prop} {events more : List (Tree × Event)} {tree : Tree}
  {location : Location}

theorem nil_iff : Told roots wanted [] tree location ↔ False := by
  simp [Told]

theorem cons_iff {entry : Tree × Event} : Told roots wanted (entry :: events) tree location ↔
    tree = entry.1 ∧ wanted entry.2.kind ∧ entry.2.Covers (roots.tree entry.1) location ∨
      Told roots wanted events tree location := by
  simp only [Told, List.mem_cons, or_and_right, exists_or]
  refine or_congr_left ⟨?_, ?_⟩
  · rintro ⟨event, rfl, hwanted, hcovers⟩
    exact ⟨rfl, hwanted, hcovers⟩
  · rintro ⟨rfl, hwanted, hcovers⟩
    exact ⟨entry.2, rfl, hwanted, hcovers⟩

theorem append_iff : Told roots wanted (events ++ more) tree location ↔
    Told roots wanted events tree location ∨ Told roots wanted more tree location := by
  simp only [Told, List.mem_append, or_and_right, exists_or]

theorem congr (h : ∀ entry, entry ∈ events ↔ entry ∈ more) :
    Told roots wanted events tree location ↔ Told roots wanted more tree location := by
  simp only [Told, h]

-- The events of one tree say nothing of the other.
theorem map_iff {other : Tree} {events : List Event} :
    Told roots wanted (events.map (other, ·)) tree location ↔ tree = other ∧
      ∃ event ∈ events, wanted event.kind ∧ event.Covers (roots.tree other) location := by
  simp only [Told, List.mem_map, Prod.mk.injEq]
  constructor
  · rintro ⟨_, ⟨event, hmem, rfl, rfl⟩, hwanted, hcovers⟩
    exact ⟨rfl, event, hmem, hwanted, hcovers⟩
  · rintro ⟨rfl, event, hmem, hwanted, hcovers⟩
    exact ⟨event, ⟨event, hmem, rfl, rfl⟩, hwanted, hcovers⟩

end Told

-- The events of an edit say where something is gone, and where something has come.
namespace Edit

variable {edit : Edit} {root : Location} {events : List Event}

theorem places_eq (edit : Edit) : edit.places = edit.goes ++ edit.comes := by
  cases edit <;> rfl

-- The removals are reported first, and all that has come as changes of one kind.
theorem exists_reports_eq (hevents : events ∈ edit.reports root) : ∃ kind ≠ Change.unlink,
    events = edit.goes.map (fun place => ⟨.unlink, Location.path (place ++ root)⟩) ++
      edit.comes.map (fun place => ⟨kind, Location.path (place ++ root)⟩) := by
  cases edit with
  | write file content =>
      rcases List.mem_pair.1 hevents with rfl | rfl
      · exact ⟨.add, by decide, rfl⟩
      · exact ⟨.change, by decide, rfl⟩
  | removeFile place | removeDirectory place =>
      exact ⟨.add, by decide, List.mem_singleton.1 hevents⟩
  | rename old new => exact ⟨.add, by decide, List.mem_singleton.1 hevents⟩

-- Each event is of a place that goes or of one that comes.
theorem mem_reports_cases {event : Event} (hevents : events ∈ edit.reports root)
    (hmem : event ∈ events) :
    (∃ place ∈ edit.goes, event = ⟨.unlink, Location.path (place ++ root)⟩) ∨
      event.kind ≠ .unlink ∧ ∃ place ∈ edit.comes, event.path = Location.path (place ++ root) := by
  obtain ⟨kind, hkind, rfl⟩ := exists_reports_eq hevents
  rcases List.mem_append.1 hmem with hgoes | hcomes
  · obtain ⟨place, hplace, rfl⟩ := List.mem_map.1 hgoes
    exact .inl ⟨place, hplace, rfl⟩
  · obtain ⟨place, hplace, rfl⟩ := List.mem_map.1 hcomes
    exact .inr ⟨hkind, place, hplace, rfl⟩

theorem exists_place (hevents : events ∈ edit.reports root) :
    ∀ event ∈ events, ∃ place ∈ edit.places, event.path = Location.path (place ++ root) := by
  intro event hmem
  rw [places_eq]
  rcases mem_reports_cases hevents hmem with ⟨place, hgoes, rfl⟩ | ⟨-, place, hcomes, hpath⟩
  · exact ⟨place, List.mem_append_left _ hgoes, rfl⟩
  · exact ⟨place, List.mem_append_right _ hcomes, hpath⟩

section

variable (hinside : edit.Inside) (hroot : root.Named)

include hinside hroot

theorem covers_iff_within {event : Event} {place location : Location} (hplace : place ∈ edit.places)
    (hpath : event.path = Location.path (place ++ root)) :
    event.Covers root location ↔ within place location :=
  Event.covers_iff ((hinside place hplace).2.append hroot) hpath

theorem gone_iff (hevents : events ∈ edit.reports root) (location : Location) :
    (∃ event ∈ events, event.kind = .unlink ∧ event.Covers root location) ↔ edit.Gone location := by
  have hplaces {place : Location} (hgoes : place ∈ edit.goes) : place ∈ edit.places :=
    places_eq edit ▸ List.mem_append_left _ hgoes
  rw [gone_iff_goes]
  constructor
  · rintro ⟨event, hmem, hunlink, hcovers⟩
    rcases mem_reports_cases hevents hmem with ⟨place, hgoes, rfl⟩ | ⟨hkind, -⟩
    · exact ⟨place, hgoes, (covers_iff_within hinside hroot (hplaces hgoes) rfl).1 hcovers⟩
    · exact absurd hunlink hkind
  · rintro ⟨place, hgoes, hwithin⟩
    obtain ⟨kind, -, rfl⟩ := exists_reports_eq hevents
    exact ⟨_, List.mem_append_left _ (List.mem_map_of_mem hgoes), rfl,
      (covers_iff_within hinside hroot (hplaces hgoes) rfl).2 hwithin⟩

theorem come_iff (hevents : events ∈ edit.reports root) (location : Location) :
    (∃ event ∈ events, event.kind ≠ .unlink ∧ event.Covers root location) ↔ edit.Come location := by
  have hplaces {place : Location} (hcomes : place ∈ edit.comes) : place ∈ edit.places :=
    places_eq edit ▸ List.mem_append_right _ hcomes
  rw [come_iff_comes]
  constructor
  · rintro ⟨event, hmem, hkind, hcovers⟩
    rcases mem_reports_cases hevents hmem with ⟨place, -, rfl⟩ | ⟨-, place, hcomes, hpath⟩
    · exact absurd rfl hkind
    · exact ⟨place, hcomes, (covers_iff_within hinside hroot (hplaces hcomes) hpath).1 hcovers⟩
  · rintro ⟨place, hcomes, hwithin⟩
    obtain ⟨kind, hkind, rfl⟩ := exists_reports_eq hevents
    exact ⟨_, List.mem_append_right _ (List.mem_map_of_mem hcomes), hkind,
      (covers_iff_within hinside hroot (hplaces hcomes) rfl).2 hwithin⟩

end

-- An edit that takes nothing away says so, and one that puts nothing anywhere does.
theorem kind_ne_of_goes (hgoes : edit.goes = []) (hevents : events ∈ edit.reports root) :
    ∀ event ∈ events, event.kind ≠ .unlink := by
  intro event hmem
  rcases mem_reports_cases hevents hmem with ⟨place, hplace, -⟩ | ⟨hkind, -⟩
  · rw [hgoes] at hplace
    cases hplace
  · exact hkind

theorem kind_eq_of_comes (hcomes : edit.comes = []) (hevents : events ∈ edit.reports root) :
    ∀ event ∈ events, event.kind = .unlink := by
  intro event hmem
  rcases mem_reports_cases hevents hmem with ⟨-, -, rfl⟩ | ⟨-, place, hplace, -⟩
  · rfl
  · rw [hcomes] at hplace
    cases hplace

-- Of the events of an edit, only the first says that something is gone.
theorem pairwise_reports (hevents : events ∈ edit.reports root) :
    events.Pairwise fun _ later => later.kind ≠ .unlink := by
  obtain ⟨kind, hkind, rfl⟩ := exists_reports_eq hevents
  cases edit <;> simp [goes, comes, hkind]

-- What the later of two edits takes away is heeded. The watcher of the pages drops all that is
-- gone with the first report, that of the assets until something has come, and an output that the
-- other tree has got in the meantime must not be taken for that of what is gone.
def Heeded (earlier later : Tree × Edit) : Prop :=
  if earlier.1 = later.1 then later.2.goes = [] ∨ later.1 = .static ∧ earlier.2.comes = []
  else ∀ new ∈ earlier.2.comes, ∀ old ∈ later.2.goes, new.Apart old

instance (earlier later : Tree × Edit) : Decidable (Heeded earlier later) := by
  unfold Heeded; infer_instance

end Edit

theorem Roots.rootOf_config (roots : Roots) (tree : Tree) :
    roots.config.rootOf tree = roots.tree tree := by
  cases tree with
  | source => exact Location.walk_path roots.source_keeps.2.1 []
  | static => exact Location.walk_path roots.assets_keeps.2.1 []

namespace Disk

variable {roots : Roots} {disk next last : Disk} {tree : Tree} {edit : Edit}
  {edits : List (Tree × Edit)} {reports : List (Tree × Event)}

-- Edits of both trees, one after the other, and the events that are reported of them.
inductive Edits (config : Config) : Disk → List (Tree × Edit) → List (Tree × Event) → Disk → Prop
  | nil (disk : Disk) : Edits config disk [] [] disk
  | cons {disk next last : Disk} {tree : Tree} {edit : Edit} {events : List Event}
      {edits : List (Tree × Edit)} {reports : List (Tree × Event)} (hinside : edit.Inside)
      (happly : edit.apply (config.rootOf tree) disk = .ok next)
      (hevents : events ∈ edit.reports (config.rootOf tree))
      (hrest : Edits config next edits reports last) :
      Edits config disk ((tree, edit) :: edits) (events.map (tree, ·) ++ reports) last

-- One edit changes its tree where its events say.
theorem changed_of_apply {events : List Event} (hinside : edit.Inside)
    (happly : edit.apply (roots.tree tree) disk = .ok next)
    (hevents : events ∈ edit.reports (roots.tree tree)) :
    Changed roots (Withdrawn roots (events.map (tree, ·))) (Announced roots (events.map (tree, ·)))
      disk next := by
  obtain ⟨hroot, hnamed, -⟩ := roots.tree_keeps tree
  have hedited := Edit.edited hroot hnamed (roots.not_within_out_tree tree) hinside happly
  refine hedited.changed.congr (fun other place => ?_) fun other place => ?_
  · rw [← Edit.gone_iff hinside hnamed hevents, Withdrawn, Told.map_iff]
  · rw [← Edit.come_iff hinside hnamed hevents, Announced, Told.map_iff]

-- All edits together change the trees where the events say.
theorem Edits.changed (h : Edits roots.config disk edits reports last) :
    Changed roots (Withdrawn roots reports) (Announced roots reports) disk last := by
  induction h with
  | nil disk =>
      exact (Changed.refl roots disk).congr (fun _ _ => Told.nil_iff.symm)
        fun _ _ => Told.nil_iff.symm
  | cons hinside happly hevents _ ih =>
      rw [Roots.rootOf_config] at happly hevents
      exact ((changed_of_apply hinside happly hevents).trans ih).congr
        (fun _ _ => Told.append_iff.symm) fun _ _ => Told.append_iff.symm

-- The files below a root stay, and so do the directories.
structure Retains (root : Location) (before after : Disk) : Prop where
  file : ∀ place, (before.file? (place ++ root)).isSome → (after.file? (place ++ root)).isSome
  directory : ∀ place, before.kind? (place ++ root) = some .directory →
    after.kind? (place ++ root) = some .directory

namespace Retains

variable {root : Location}

theorem refl (root : Location) (disk : Disk) : Retains root disk disk :=
  ⟨fun _ h => h, fun _ h => h⟩

theorem trans (h : Retains root disk next) (h' : Retains root next last) : Retains root disk last :=
  ⟨fun place hsome => h'.file place (h.file place hsome),
    fun place hkind => h'.directory place (h.directory place hkind)⟩

end Retains

-- Builds change the output only.
theorem Works.retains {made gone : Location → Prop} (h : Works roots made gone disk next)
    (tree : Tree) : Retains (roots.tree tree) disk next := by
  refine ⟨fun place hsome => ?_, fun place hkind =>
    h.directory _ (roots.not_within_out_tree tree place) hkind⟩
  cases tree with
  | source => exact (h.agree.source place) ▸ hsome
  | static => exact (h.agree.assets place) ▸ hsome

-- An edit of the other tree changes nothing below the root.
theorem Edited.retains {gone come : Location → Prop} {other : Tree}
    (h : Edited roots (roots.tree tree) gone come disk next) (hother : other ≠ tree) :
    Retains (roots.tree other) disk next :=
  ⟨fun place hsome => h.outside _ (roots.not_within_tree hother place) ▸ hsome,
    fun place hkind => h.directory _ (roots.not_within_tree hother place) hkind⟩

-- Writing a file replaces no directory, and leaves all other files.
theorem retains_of_goes {root below : Location} (hgoes : edit.goes = [])
    (h : edit.apply root disk = .ok next) : Retains below disk next := by
  cases edit with
  | write file content =>
      rw [Edit.apply] at h
      have hgrows := disk.makeParent_grows (Location.path (file ++ root))
      split at h
      · cases h
      · next middle hmake =>
        rw [hmake] at hgrows
        have hkind := kind?_write h
        obtain ⟨name, parent, hwalk, -, -, -, hfree, -⟩ := write_eq_ok h
        rw [← hwalk] at hkind
        refine ⟨fun place hsome => ?_, fun place hdirectory => ?_⟩
        · rw [← hgrows.file?_eq] at hsome
          by_cases heq : place ++ below = name :: parent
          · simp [file?, hkind, heq]
          · rw [file?, hkind, if_neg heq]
            exact hsome
        · have hmiddle := hgrows.kind?_of_some hdirectory
          rw [hkind, if_neg]
          · exact hmiddle
          · rintro heq
            exact hfree (heq ▸ hmiddle)
  | _ => cases hgoes

end Disk

-- An event of something that is there.
structure Announces (roots : Roots) (disk : Disk) (entry : Tree × Event) (place : Location) :
    Prop where
  kind : entry.2.kind ≠ .unlink
  path : entry.2.path = Location.path (place ++ roots.tree entry.1)
  proper : place ≠ []
  followable : Location.Followable (place ++ roots.tree entry.1)
  there : (disk.file? (place ++ roots.tree entry.1)).isSome ∨ entry.2.kind = .add ∧
    disk.kind? (place ++ roots.tree entry.1) = some .directory

namespace Announces

variable {roots : Roots} {disk next : Disk} {entry : Tree × Event} {place : Location}

theorem retained (h : Announces roots disk entry place)
    (hretains : Disk.Retains (roots.tree entry.1) disk next) : Announces roots next entry place :=
  { h with there := h.there.imp (hretains.file _) (And.imp_right (hretains.directory _)) }

theorem named (h : Announces roots disk entry place) :
    Location.Named (place ++ roots.tree entry.1) := by
  rcases h.there with hfile | ⟨-, hdirectory⟩
  · obtain ⟨content, hcontent⟩ := Option.isSome_iff_exists.1 hfile
    exact Disk.named_of_kind? (Disk.file?_eq_some.1 hcontent)
  · exact Disk.named_of_kind? hdirectory

end Announces

-- What the later of two events says is gone can be told from what the earlier one says.
structure Heeds (roots : Roots) (earlier later : Tree × Event) : Prop where
  same : later.2.kind = .unlink → earlier.1 = later.1 →
    later.1 = .static ∧ earlier.2.kind = .unlink
  other : later.2.kind = .unlink → earlier.2.kind ≠ .unlink → earlier.1 ≠ later.1 →
    ∀ location, earlier.2.Covers (roots.tree earlier.1) location →
      ¬ later.2.Covers (roots.tree later.1) location

namespace Disk

variable {roots : Roots} {disk next last : Disk} {tree : Tree} {edit : Edit}
  {edits : List (Tree × Edit)} {reports : List (Tree × Event)}

-- What an edit says has come is there.
theorem exists_announces {events : List Event} (hinside : edit.Inside)
    (happly : edit.apply (roots.tree tree) disk = .ok next)
    (hevents : events ∈ edit.reports (roots.tree tree)) :
    ∀ event ∈ events, event.kind ≠ .unlink → ∃ place, Announces roots next (tree, event) place := by
  obtain ⟨-, hnamed, -⟩ := roots.tree_keeps tree
  intro event hmem hkind
  cases edit with
  | write file content =>
      obtain ⟨hne, hfile⟩ := hinside file List.mem_cons_self
      obtain ⟨hfollow, hsome⟩ := Edit.there_of_write (hfile.append hnamed) happly
      obtain ⟨kind, -, rfl⟩ := Edit.exists_reports_eq hevents
      obtain rfl := List.mem_singleton.1 hmem
      exact ⟨file, hkind, rfl, hne, hfollow, .inl hsome⟩
  | removeFile place | removeDirectory place =>
      exact absurd (Edit.kind_eq_of_comes rfl hevents event hmem) hkind
  | rename old new =>
      obtain ⟨-, hold⟩ := hinside old List.mem_cons_self
      obtain ⟨hne, hnew⟩ := hinside new (by simp [Edit.places])
      obtain ⟨hfollow, hthere⟩ :=
        Edit.there_of_rename (hold.append hnamed) (hnew.append hnamed) happly
      obtain rfl := List.mem_singleton.1 hevents
      simp only [List.mem_cons, List.not_mem_nil, or_false] at hmem
      rcases hmem with rfl | rfl
      · exact absurd rfl hkind
      · exact ⟨new, hkind, rfl, hne, hfollow, hthere.imp_right fun h => ⟨rfl, h⟩⟩

-- What an event of the later edit says is gone is heeded if what the edit takes away is.
theorem heeds_of_heeded {other : Tree} {later : Edit} {events reported : List Event}
    (h : Edit.Heeded (tree, edit) (other, later)) (hinside : edit.Inside) (hlater : later.Inside)
    (hevents : events ∈ edit.reports (roots.tree tree))
    (hreported : reported ∈ later.reports (roots.tree other)) {event report : Event}
    (hevent : event ∈ events) (hreport : report ∈ reported) :
    Heeds roots (tree, event) (other, report) := by
  refine ⟨fun hkind heq => ?_, fun hkind hcome hne location hcovers hcovers' => ?_⟩
  · have heq : tree = other := heq
    rw [Edit.Heeded, if_pos heq] at h
    rcases h with hgoes | ⟨hstatic, hcomes⟩
    · exact absurd hkind (Edit.kind_ne_of_goes hgoes hreported report hreport)
    · exact ⟨hstatic, Edit.kind_eq_of_comes hcomes hevents event hevent⟩
  · have hne : tree ≠ other := hne
    rw [Edit.Heeded, if_neg hne] at h
    obtain ⟨new, hnew, hwithin⟩ := Edit.come_iff_comes.1 <|
      (Edit.come_iff hinside (roots.tree_keeps tree).2.1 hevents location).1
        ⟨event, hevent, hcome, hcovers⟩
    obtain ⟨old, hold, hwithin'⟩ := Edit.gone_iff_goes.1 <|
      (Edit.gone_iff hlater (roots.tree_keeps other).2.1 hreported location).1
        ⟨report, hreport, hkind, hcovers'⟩
    exact (within_or_within hwithin hwithin').elim (h new hnew old hold).1 (h new hnew old hold).2

namespace Edits

-- Every event is one of those that are reported of an edit.
theorem exists_edit (h : Edits roots.config disk edits reports last) :
    ∀ entry ∈ reports, ∃ edit : Edit, (entry.1, edit) ∈ edits ∧ edit.Inside ∧
      ∃ events ∈ edit.reports (roots.tree entry.1), entry.2 ∈ events := by
  induction h with
  | nil => simp
  | cons hinside _ hevents _ ih =>
      intro entry hmem
      rw [Roots.rootOf_config] at hevents
      rcases List.mem_append.1 hmem with hmem | hmem
      · obtain ⟨event, hevent, rfl⟩ := List.mem_map.1 hmem
        exact ⟨_, List.mem_cons_self, hinside, _, hevents, hevent⟩
      · obtain ⟨edit, hedit, hrest⟩ := ih entry hmem
        exact ⟨edit, List.mem_cons_of_mem _ hedit, hrest⟩

-- It is about a place in its tree.
theorem exists_place (h : Edits roots.config disk edits reports last) :
    ∀ entry ∈ reports, ∃ place, Location.Named (place ++ roots.tree entry.1) ∧
      entry.2.path = Location.path (place ++ roots.tree entry.1) := by
  intro entry hmem
  obtain ⟨edit, -, hinside, events, hevents, hevent⟩ := h.exists_edit entry hmem
  obtain ⟨place, hplace, hpath⟩ := Edit.exists_place hevents _ hevent
  exact ⟨place, (hinside place hplace).2.append (roots.tree_keeps entry.1).2.1, hpath⟩

-- A tree keeps its files if none of its edits takes anything away.
theorem retains (h : Edits roots.config disk edits reports last) (tree : Tree)
    (hgoes : ∀ entry ∈ edits, entry.1 = tree → entry.2.goes = []) :
    Retains (roots.tree tree) disk last := by
  induction h with
  | nil disk => exact .refl _ disk
  | @cons _ _ _ other edit _ _ _ hinside happly _ _ ih =>
      rw [Roots.rootOf_config] at happly
      have hrest := ih fun entry hmem => hgoes entry (List.mem_cons_of_mem _ hmem)
      by_cases heq : other = tree
      · exact (retains_of_goes (hgoes (other, edit) List.mem_cons_self heq) happly).trans hrest
      · obtain ⟨hroot, hnamed, -⟩ := roots.tree_keeps other
        have hedited := Edit.edited hroot hnamed (roots.not_within_out_tree other) hinside happly
        exact (hedited.retains (Ne.symm heq)).trans hrest

-- What has come is still there in the end, if what is taken away is heeded.
theorem announces (h : Edits roots.config disk edits reports last)
    (hheeded : edits.Pairwise Edit.Heeded) :
    ∀ entry ∈ reports, entry.2.kind ≠ .unlink → ∃ place, Announces roots last entry place := by
  induction h with
  | nil => simp
  | @cons _ _ _ tree edit _ _ _ hinside happly hevents hrest ih =>
      intro entry hmem hkind
      rw [Roots.rootOf_config] at happly hevents
      obtain ⟨hfirst, hmore⟩ := List.pairwise_cons.1 hheeded
      rcases List.mem_append.1 hmem with hmem | hmem
      · obtain ⟨event, hevent, rfl⟩ := List.mem_map.1 hmem
        obtain ⟨place, hplace⟩ := exists_announces hinside happly hevents event hevent hkind
        refine ⟨place, hplace.retained (hrest.retains tree fun later hlater heq => ?_)⟩
        have hheed := hfirst later hlater
        rw [Edit.Heeded, if_pos heq.symm] at hheed
        refine hheed.resolve_right fun hnone => hkind ?_
        exact Edit.kind_eq_of_comes hnone.2 hevents event hevent
      · exact ih hmore entry hmem hkind

theorem heeds (h : Edits roots.config disk edits reports last)
    (hheeded : edits.Pairwise Edit.Heeded) : reports.Pairwise (Heeds roots) := by
  induction h with
  | nil => exact .nil
  | @cons _ _ _ tree edit _ _ _ hinside _ hevents hrest ih =>
      rw [Roots.rootOf_config] at hevents
      obtain ⟨hfirst, hmore⟩ := List.pairwise_cons.1 hheeded
      refine List.pairwise_append.2 ⟨?_, ih hmore, fun entry hmem later hlater => ?_⟩
      · refine List.pairwise_map.2 ((Edit.pairwise_reports hevents).imp fun hkind => ?_)
        exact ⟨fun h => absurd h hkind, fun h => absurd h hkind⟩
      · obtain ⟨event, hevent, rfl⟩ := List.mem_map.1 hmem
        obtain ⟨second, hsecond, hinside', reported, hreported, hreport⟩ :=
          hrest.exists_edit later hlater
        exact heeds_of_heeded (hfirst _ hsecond) hinside hinside' hevents hreported hevent hreport

end Edits

end Disk

end StaticSite
