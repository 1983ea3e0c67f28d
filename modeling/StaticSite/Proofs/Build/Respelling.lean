import StaticSite.Proofs.Build.Room
import StaticSite.Proofs.Config.Validation

-- A build whose directories are written in two ways: it comes to one report and leaves one disk.
namespace StaticSite

open Disk (within)

theorem Path.slot_eq {path other : Path} {start : Location}
    (hwalk : Location.walk start other = Location.walk start path) (hcheck : path.check = .ok ())
    (hother : other.check = .ok ()) : other.slot start = path.slot start := by
  simp only [Path.slot, hwalk, hcheck, hother, Path.near_of_check hcheck,
    Path.near_of_check hother]

namespace Disk

variable {disk : Disk} {path : Path} {name : String} {parent : Location}

-- The own path of a place ends in a name, as any path does that leads there by one.
theorem endsInName_path_walk (hnamed : (Location.walk disk.workDir path).Named)
    (h : path.EndsInName) : (Location.walk disk.workDir path).path.EndsInName := by
  obtain ⟨before, name, hsteps, hname⟩ := h
  rw [walk_of_endsInName hsteps hname] at hnamed ⊢
  exact ⟨_, name, by rw [steps_path hnamed, List.reverse_cons], hname⟩

-- Nothing is found by the own path of a place if something is missing on the way to it.
theorem find_path_of_missing {place : Location} (hnamed : place.Named)
    (hcheck : place.path.check = .ok ()) (hparent : disk.kind? parent = some .directory)
    (hnone : disk.kind? (name :: parent) = none) (hlength : name.utf8ByteSize ≤ longestName)
    (hwithin : within (name :: parent) place) : disk.find place.path = .error .notFound := by
  have hname : IsName name := hnamed name
    ((List.isSuffixOf_iff_suffix.1 hwithin).subset List.mem_cons_self)
  have hlead := (following_path (Location.descends_path hnamed).straight
    (.inl (Location.isAbsolute_path place))).missing _
    (by rwa [← walk_eq_foldl_steps, Location.walk_path hnamed]) hnone
    ⟨.inr ⟨hnone, hname, hlength⟩, passable_kind?_iff.1 (passable_of_directory hparent)⟩
  simp [find, hcheck, hlead, bind, Except.bind]

end Disk

namespace Progress

variable {progress other next : Progress} {out target : Path} {relative : String}
  {content : ByteArray} {ready ready' : Disk → Prop} {change change' : Disk → Except Fault Disk}

-- A file that is put at an output by two paths.
theorem place_meets (h : progress.disk.Meets out target) (hrelative : IsRelative relative)
    (hcheck : (out.join ⟨relative⟩).check = .ok ())
    (hcheck' : (target.join ⟨relative⟩).check = .ok ())
    (hstores : Disk.Stores (out.join ⟨relative⟩) content ready change)
    (hstores' : Disk.Stores (target.join ⟨relative⟩) content ready' change')
    (hready : ready progress.disk) (hready' : ready' progress.disk) (hother : other.disk = progress.disk) :
    ((other.place (target.join ⟨relative⟩) change').1 = .ok () ↔
      (progress.place (out.join ⟨relative⟩) change).1 = .ok ()) ∧
    (other.place (target.join ⟨relative⟩) change').2.disk =
      (progress.place (out.join ⟨relative⟩) change).2.disk := by
  obtain ⟨hresult, hdisk⟩ := place_of_disk_eq hother (target.join ⟨relative⟩) change'
  obtain ⟨-, hlands⟩ := Alongside.lands_output rfl hrelative h.straight.1
    (Disk.grounded_of_based (h.based out (by simp))) hstores hready
  obtain ⟨-, hlands'⟩ := Alongside.lands_output rfl hrelative h.straight.2
    (Disk.grounded_of_based (h.based target (by simp))) hstores' hready'
  obtain ⟨below, -, hnamed, rfl⟩ := hrelative
  have hwalk : Location.walk progress.disk.workDir (target.join ⟨"/".intercalate below.reverse⟩) =
      Location.walk progress.disk.workDir (out.join ⟨"/".intercalate below.reverse⟩) := by
    rw [Location.walk_join_names hnamed, Location.walk_join_names hnamed, h.walk]
  rw [Path.slot_eq hwalk hcheck hcheck'] at hlands'
  rw [hresult, hdisk]
  exact hlands.unique hlands'

-- Two outcomes that a report counts as one, on one disk.
def Tallies (left right : Outcome × Progress) : Prop :=
  (∀ report : Report, report.record right.1 = report.record left.1) ∧ right.2.disk = left.2.disk

-- The output of a file can be followed to by both paths of the output directory.
structure TwoWays (out target : Path) (relative : String) : Prop where
  isRelative : IsRelative relative
  check : ∀ way ∈ [out, target], (way.join ⟨relative⟩).check = .ok ()

theorem writeOutput_tallies (h : progress.disk.Meets out target) (hways : TwoWays out target relative)
    (hother : other.disk = progress.disk) :
    Tallies (progress.writeOutput (out.join ⟨relative⟩) content)
      (other.writeOutput (target.join ⟨relative⟩) content) := by
  obtain ⟨hiff, hdisk⟩ := place_meets h hways.isRelative (hways.check _ (by simp))
    (hways.check _ (by simp)) (Disk.stores_write _ content) (Disk.stores_write _ content) trivial
    trivial hother
  exact ⟨record_writeOutput hiff, by rw [disk_writeOutput, disk_writeOutput, hdisk]⟩

theorem copyOutput_tallies (h : progress.disk.Meets out target) (hways : TwoWays out target relative)
    (hother : other.disk = progress.disk) {source : Location} (hfollow : source.Followable)
    (hfile : progress.disk.file? source = some content)
    (hne : source ≠ Location.walk progress.disk.workDir (out.join ⟨relative⟩)) :
    Tallies (progress.copyOutput source.path (out.join ⟨relative⟩))
      (other.copyOutput source.path (target.join ⟨relative⟩)) := by
  have hne' : source ≠ Location.walk progress.disk.workDir (target.join ⟨relative⟩) := by
    obtain ⟨below, -, hnamed, rfl⟩ := hways.isRelative
    rw [Location.walk_join_names hnamed] at hne ⊢
    rwa [h.walk]
  obtain ⟨hiff, hdisk⟩ := place_meets h hways.isRelative (hways.check _ (by simp))
    (hways.check _ (by simp)) (Disk.stores_copy hfollow _ content)
    (Disk.stores_copy hfollow _ content) ⟨hfile, hne⟩ ⟨hfile, hne'⟩ hother
  exact ⟨record_copyOutput hiff, by rw [disk_copyOutput, disk_copyOutput, hdisk]⟩

theorem buildContent_tallies {tree : SourceTree} {file : ContentFile} {outcome : Outcome}
    (h : progress.disk.Meets out target) (hways : TwoWays out target file.relative)
    (hkept : file.deleted = false) (hother : other.disk = progress.disk)
    (hbuilt : progress.buildContent tree file out = (.ok outcome, next)) :
    ∃ outcome' next', other.buildContent tree file target = (.ok outcome', next') ∧
      Tallies (outcome, next) (outcome', next') := by
  unfold buildContent at hbuilt ⊢
  rw [hother]
  by_cases hhidden : file.isHidden = true
  · rw [if_pos hhidden] at hbuilt ⊢
    cases hbuilt
    exact ⟨.skipped, other, rfl, fun _ => rfl, hother⟩
  · rw [if_neg hhidden] at hbuilt ⊢
    dsimp only at hbuilt ⊢
    rw [if_neg (by simp [hkept])] at hbuilt ⊢
    cases hpage : progress.disk.composePage tree file with
    | ok page =>
        have hwrite := @writeOutput_tallies progress other out target file.relative
          (String.ofList page).toUTF8 h hways hother
        rw [hpage] at hbuilt
        dsimp only at hbuilt ⊢
        generalize progress.writeOutput _ _ = left at hbuilt hwrite
        generalize other.writeOutput _ _ = right at hwrite ⊢
        cases hbuilt
        exact ⟨_, _, rfl, hwrite⟩
    | error error =>
        rw [hpage] at hbuilt
        cases error with
        | unreadable path fault =>
            cases hbuilt
            exact ⟨_, _, rfl, fun _ => rfl, hother⟩
        | _ => cases hbuilt

theorem buildContent_extends {tree : SourceTree} {file : ContentFile} (hkept : file.deleted = false) :
    Disk.Extends progress.disk (progress.buildContent tree file out).2.disk := by
  have hwrite : ∀ content, Disk.Extends progress.disk
      (progress.writeOutput (out.join ⟨file.relative⟩) content).2.disk := fun content => by
    rw [disk_writeOutput]
    exact place_extends (Disk.stores_write _ _) trivial
  unfold buildContent
  split
  · exact .refl _
  · dsimp only
    rw [if_neg (by simp [hkept])]
    split
    · next page _ =>
      have hextends := hwrite (String.ofList page).toUTF8
      generalize progress.writeOutput _ _ = written at hextends ⊢
      exact hextends
    · exact .refl _
    · exact .refl _

-- An asset of another directory is not copied onto itself.
theorem exists_source_of_isFile {file : StaticFile} {root : Location}
    (hplace : ∃ below : Location, below ≠ [] ∧ below.Named ∧
      file.relative = "/".intercalate below.reverse ∧ file.absolute = (below ++ root).path ∧
        (below ++ root).Named)
    (hne : root ≠ Location.walk progress.disk.workDir out)
    (h : progress.disk.isFile file.absolute = true) :
    ∃ source content, file.absolute = Location.path source ∧ source.Followable ∧
      progress.disk.file? source = some content ∧
      source ≠ Location.walk progress.disk.workDir (out.join ⟨file.relative⟩) := by
  obtain ⟨below, -, hnamed, hrelative, habsolute, hsource⟩ := hplace
  rw [habsolute] at h
  obtain ⟨hfollow, hsome⟩ := (Disk.isFile_path hsource).1 h
  obtain ⟨content, hcontent⟩ := Option.isSome_iff_exists.1 hsome
  refine ⟨below ++ root, content, habsolute, hfollow, hcontent, ?_⟩
  rw [hrelative, Location.walk_join_names hnamed]
  exact fun heq => hne (List.append_cancel_left heq)

section

variable {root : Location} {file : StaticFile} {files all : List StaticFile} {report : Report}
  (hscanned : StaticFile.Scanned root all) (hne : root ≠ Location.walk progress.disk.workDir out)

include hscanned hne

theorem buildAsset_extends (hmem : file ∈ all) :
    Disk.Extends progress.disk (progress.buildAsset file out).2.disk := by
  rw [buildAsset_of_kept (hscanned.kept file hmem)]
  by_cases hfile : progress.disk.isFile file.absolute = true
  · obtain ⟨source, content, habsolute, hfollow, hcontent, hapart⟩ :=
      exists_source_of_isFile (hscanned.place file hmem) hne hfile
    rw [if_pos hfile, habsolute, disk_copyOutput]
    exact place_extends (Disk.stores_copy hfollow _ content) ⟨hcontent, hapart⟩
  · rw [if_neg hfile]
    exact .refl _

theorem buildAssets_extends (hfiles : ∀ file ∈ files, file ∈ all) :
    Disk.Extends progress.disk (buildAssets out files report progress).2.disk := by
  induction files generalizing progress report with
  | nil => exact .refl _
  | cons file rest ih =>
      have hextends := buildAsset_extends hscanned hne (hfiles file List.mem_cons_self)
      exact hextends.trans (ih (by rwa [hextends.base.workDir])
        fun other hmem => hfiles other (List.mem_cons_of_mem _ hmem))

theorem buildAsset_tallies (hmem : file ∈ all) (h : progress.disk.Meets out target)
    (hways : TwoWays out target file.relative) (hother : other.disk = progress.disk) :
    Tallies (progress.buildAsset file out) (other.buildAsset file target) := by
  have hkept := hscanned.kept file hmem
  rw [buildAsset_of_kept hkept, buildAsset_of_kept hkept, hother]
  by_cases hfile : progress.disk.isFile file.absolute = true
  · obtain ⟨source, content, habsolute, hfollow, hcontent, hapart⟩ :=
      exists_source_of_isFile (hscanned.place file hmem) hne hfile
    rw [if_pos hfile, if_pos hfile, habsolute]
    exact copyOutput_tallies h hways hother hfollow hcontent hapart
  · rw [if_neg hfile, if_neg hfile]
    exact ⟨fun _ => rfl, hother⟩

theorem buildAssets_tallies (hfiles : ∀ file ∈ files, file ∈ all)
    (h : progress.disk.Meets out target) (hways : ∀ file ∈ all, TwoWays out target file.relative)
    (hother : other.disk = progress.disk) :
    (buildAssets target files report other).1 = (buildAssets out files report progress).1 ∧
      (buildAssets target files report other).2.disk =
        (buildAssets out files report progress).2.disk := by
  induction files generalizing progress other report with
  | nil => exact ⟨rfl, hother⟩
  | cons file rest ih =>
      have hmem := hfiles file List.mem_cons_self
      have hextends := buildAsset_extends hscanned hne hmem
      obtain ⟨hrecord, hdisk⟩ :=
        buildAsset_tallies hscanned hne hmem h (hways file hmem) hother
      rw [buildAssets, buildAssets]
      dsimp only
      rw [hrecord]
      exact ih (by rwa [hextends.base.workDir])
        (fun other hmem => hfiles other (List.mem_cons_of_mem _ hmem)) (h.sameBase hextends.base)
        hdisk

end

theorem buildPages_tallies {tree : SourceTree} {files : List ContentFile} {report last : Report}
    (h : progress.disk.Meets out target) (hways : ∀ file ∈ files, TwoWays out target file.relative)
    (hkept : ∀ file ∈ files, file.deleted = false) (hother : other.disk = progress.disk)
    (hbuilt : buildPages tree out files report progress = (.ok last, next)) :
    ∃ next', buildPages tree target files report other = (.ok last, next') ∧
      next'.disk = next.disk := by
  induction files generalizing progress other report with
  | nil =>
      cases hbuilt
      exact ⟨other, rfl, hother⟩
  | cons file rest ih =>
      have hextends := @buildContent_extends progress out tree file (hkept file List.mem_cons_self)
      rw [buildPages] at hbuilt
      cases hcontent : progress.buildContent tree file out with
      | mk result middle =>
          rw [hcontent] at hbuilt hextends
          cases result with
          | error error => cases hbuilt
          | ok outcome =>
              obtain ⟨outcome', middle', hcontent', hrecord, hdisk⟩ := buildContent_tallies h
                (hways file List.mem_cons_self) (hkept file List.mem_cons_self) hother hcontent
              rw [buildPages, hcontent']
              dsimp only at hrecord hdisk ⊢
              rw [hrecord]
              exact ih (h.sameBase hextends.base)
                (fun other hmem => hways other (List.mem_cons_of_mem _ hmem))
                (fun other hmem => hkept other (List.mem_cons_of_mem _ hmem)) hdisk hbuilt

theorem buildPages_extends {tree : SourceTree} {files : List ContentFile} {report : Report}
    (hkept : ∀ file ∈ files, file.deleted = false) :
    Disk.Extends progress.disk (buildPages tree out files report progress).2.disk := by
  induction files generalizing progress report with
  | nil => exact .refl _
  | cons file rest ih =>
      have hextends := @buildContent_extends progress out tree file (hkept file List.mem_cons_self)
      rw [buildPages]
      generalize progress.buildContent tree file out = built at hextends
      obtain ⟨result, middle⟩ := built
      cases result with
      | error error => exact hextends
      | ok outcome =>
          exact hextends.trans (ih fun other hmem => hkept other (List.mem_cons_of_mem _ hmem))

-- A directory that can be cleared by one path of it, can be by its own.
theorem clearOutput_respelt (habsolute : out.absolute progress.disk.base? = .ok target)
    (hstraight : out.Straight) (hcheck : target.check = .ok ())
    (h : progress.clearOutput out = (.ok (), next)) :
    ∃ next', progress.clearOutput target = (.ok (), next') ∧ next'.disk = next.disk := by
  obtain ⟨rfl, hnamed⟩ := Disk.eq_path_of_absolute habsolute
  obtain ⟨hne, hstands⟩ := Disk.stands_origin habsolute
  have hgrounded := Disk.grounded_of_absolute habsolute
  have hstraight' := (Location.descends_path hnamed).straight
  have hgrounded' : ∀ disk : Disk, disk.Grounded
      (Location.walk progress.disk.workDir out).path := fun _ => .inl (Location.isAbsolute_path _)
  have hwalk := Location.walk_path hnamed progress.disk.workDir
  by_cases hkind : progress.disk.kind? (Location.walk progress.disk.workDir out) = some .directory
  · have hname := Disk.endsInName_of_clearOutput habsolute hstraight hkind h
    have hremove := Disk.removeDirectory_of_directory hstraight hname
      (Disk.check_of_clearOutput hne h) hgrounded
      (Disk.grounded_eraseBelow habsolute hstraight hkind) hkind
    have hremove' := Disk.removeDirectory_of_directory hstraight'
      (Disk.endsInName_path_walk hnamed hname) hcheck (hgrounded' _) (hgrounded' _) (by rwa [hwalk])
    rw [hwalk] at hremove'
    rw [clearOutput, hremove] at h
    cases h
    exact ⟨_, by rw [clearOutput, hremove'], rfl⟩
  · obtain ⟨fault, hremove, hfault⟩ :=
      Disk.removeDirectory_of_not_directory hstraight hgrounded hkind
    obtain ⟨fault', hremove', hfault'⟩ :=
      Disk.removeDirectory_of_not_directory hstraight' (hgrounded' _) (by rwa [hwalk])
    rw [clearOutput, hremove] at h
    obtain rfl : fault = .notFound := by
      cases fault <;> first | rfl | cases h
    cases h
    obtain ⟨name, parent, hparent, hnone, hlength, hwithin⟩ :=
      Disk.missing_of_find_notFound hne hstands hstraight (hfault.1 rfl)
    obtain rfl := hfault'.2
      (Disk.find_path_of_missing hnamed hcheck hparent hnone hlength hwithin)
    exact ⟨_, by rw [clearOutput, hremove'], rfl⟩

end Progress

namespace Disk

variable {disk later : Disk} {root : Path} {paths : List Path} {config other : Config}

-- Each of the paths, with the names that lead from `root` to a file, can be followed.
def Short (disk : Disk) (root : Path) (paths : List Path) : Prop :=
  ∀ below, disk.HasFile root below → ∀ path ∈ paths, Follows path below

theorem short_iff {inside : Folder}
    (hget : disk.get? (Location.walk disk.workDir root) = some (.directory inside)) :
    disk.Short root paths ↔ ∀ pair ∈ inside.entries [], pair.2.isDirectory = false →
      ∀ path ∈ paths, Follows path pair.1 := by
  have hordered : inside.Ordered := Folder.ordered_of_get? disk.ordered hget
  constructor
  · rintro h ⟨below, entry⟩ hmem hfile
    obtain ⟨hne, hentry⟩ := (Folder.mem_entries hordered).1 hmem
    cases entry with
    | directory inner => cases hfile
    | file content => exact h below ((hasFile_iff hne hget).2 ⟨content, hentry⟩)
  · intro h below hfile
    obtain ⟨content, hentry⟩ := (hasFile_iff hfile.1 hget).1 hfile
    exact h (below, .file content) ((Folder.mem_entries hordered).2 ⟨hfile.1, hentry⟩) rfl

-- There are no files below what is no directory.
theorem short_of_ne_directory
    (h : disk.kind? (Location.walk disk.workDir root) ≠ some .directory) : disk.Short root paths := by
  rintro below ⟨hne, hfile⟩
  rw [file?, kind?_below_of_ne_directory h hne] at hfile
  cases hfile

instance (disk : Disk) (root : Path) (paths : List Path) : Decidable (disk.Short root paths) :=
  match hget : disk.get? (Location.walk disk.workDir root) with
  | some (.directory _) => decidable_of_iff _ (short_iff hget).symm
  | some (.file _) | none => .isTrue (short_of_ne_directory fun hkind => by
      obtain ⟨inside, hinside⟩ := kind?_eq_directory.1 hkind
      rw [hget] at hinside
      cases hinside)

theorem Short.of_extends (h : later.Short root paths) (hextends : Extends disk later) :
    disk.Short root paths := by
  rintro below ⟨hne, hfile⟩
  obtain ⟨content, hcontent⟩ := Option.isSome_iff_exists.1 hfile
  obtain ⟨last, hlast⟩ := hextends.file _ _ (file?_eq_some.1 hcontent)
  refine h below ⟨hne, ?_⟩
  rw [hextends.base.workDir, file?_eq_some.2 hlast]
  rfl

-- Two ways to write the directories of a config, of which scans take each as it is meant.
structure Respells (disk : Disk) (config other : Config) : Prop where
  source : disk.Meets config.source other.source
  assets : disk.Meets config.assets other.assets
  out : disk.Meets config.out other.out
  searchable : ∀ root ∈ [config.source, other.source, config.assets, other.assets], root.Searchable
  apart : Location.walk disk.workDir config.assets ≠ Location.walk disk.workDir config.out

theorem Respells.sameBase (h : disk.Respells config other) (hsame : SameBase disk later) :
    later.Respells config other :=
  ⟨h.source.sameBase hsame, h.assets.sameBase hsame, h.out.sameBase hsame, h.searchable, by
    rw [hsame.workDir]
    exact h.apart⟩

-- Both find the same files.
theorem Respells.scanSource_eq (h : disk.Respells config other)
    (hshort : disk.Short config.source [config.source, other.source, config.out, other.out]) :
    disk.scanSource other.source = disk.scanSource config.source :=
  (scans_eq (h.searchable _ (by simp)) (h.searchable _ (by simp)) h.source fun below hfile =>
    ⟨hshort below hfile _ (by simp), hshort below hfile other.source (by simp)⟩).1

theorem Respells.scanAssets_eq (h : disk.Respells config other)
    (hshort : disk.Short config.assets [config.assets, other.assets, config.out, other.out]) :
    disk.scanAssets other.assets = disk.scanAssets config.assets :=
  (scans_eq (h.searchable _ (by simp)) (h.searchable _ (by simp)) h.assets fun below hfile =>
    ⟨hshort below hfile _ (by simp), hshort below hfile other.assets (by simp)⟩).2

end Disk

namespace Progress

variable {progress next : Progress} {config other : Config} {report : Report}

theorem twoWays_of_mem_scan {disk : Disk} {root out target : Path} {paths : List Path}
    {pattern : String} {files : List FoundFile} {file : FoundFile}
    (h : disk.scan root pattern = .ok files) (hmem : file ∈ files) (hshort : disk.Short root paths)
    (hways : ∀ way ∈ [out, target], way ∈ paths) : TwoWays out target file.relative := by
  obtain ⟨below, hfile, hrelative⟩ := Disk.hasFile_of_mem_scan h hmem
  refine ⟨⟨below, hfile.1, Disk.hasFile_named hfile, hrelative⟩, fun way hway => ?_⟩
  rw [hrelative]
  exact hshort below hfile way (hways way hway)

theorem twoWays_of_mem_scanSource {disk : Disk} {root out target : Path} {paths : List Path}
    {tree : SourceTree} (h : disk.scanSource root = .ok tree) (hshort : disk.Short root paths)
    (hways : ∀ way ∈ [out, target], way ∈ paths) :
    ∀ file ∈ tree.files, TwoWays out target file.relative := by
  obtain ⟨found, hfound, rfl⟩ := map_eq_ok.1 h
  exact fun file hmem =>
    twoWays_of_mem_scan hfound (SourceTree.mem_files_ofFound hmem).2 hshort hways

theorem twoWays_of_mem_scanAssets {disk : Disk} {root out target : Path} {paths : List Path}
    {files : List StaticFile} (h : disk.scanAssets root = .ok files) (hshort : disk.Short root paths)
    (hways : ∀ way ∈ [out, target], way ∈ paths) :
    ∀ file ∈ files, TwoWays out target file.relative := by
  obtain ⟨found, hfound, rfl⟩ := map_eq_ok.1 h
  intro file hmem
  obtain ⟨origin, horigin, rfl⟩ := List.mem_map.1 hmem
  exact twoWays_of_mem_scan hfound horigin hshort hways

-- What a build leaves was there when it began, or has been made by it.
theorem buildTrees_extends (hbuilt : (progress.buildTrees config).1 = .ok report)
    (hne : Location.walk progress.disk.workDir config.assets ≠
      Location.walk progress.disk.workDir config.out) :
    Disk.Extends progress.disk (progress.buildTrees config).2.disk := by
  obtain ⟨tree, pages, written, files, htree, hpages, hfiles, hcopied⟩ := buildTrees_eq_ok hbuilt
  have hwritten := @buildPages_extends progress config.out tree tree.files .empty
    (Disk.scanned_of_scanSource htree).kept
  rw [hpages] at hwritten
  have hlast := @buildAssets_extends written config.out _ files files pages
    (Disk.scanned_of_scanAssets hfiles) (by rwa [hwritten.base.workDir]) fun _ hmem => hmem
  rw [hcopied] at hlast
  exact hwritten.trans hlast

theorem buildTrees_respells (h : progress.disk.Respells config other)
    (hnext : next.disk = progress.disk)
    (hbuilt : (progress.buildTrees config).1 = .ok report)
    (hsource : (progress.buildTrees config).2.disk.Short config.source
      [config.source, other.source, config.out, other.out])
    (hassets : (progress.buildTrees config).2.disk.Short config.assets
      [config.assets, other.assets, config.out, other.out]) :
    (next.buildTrees other).1 = .ok report ∧
      (next.buildTrees other).2.disk = (progress.buildTrees config).2.disk := by
  have hall := buildTrees_extends hbuilt h.apart
  obtain ⟨tree, pages, written, files, htree, hpages, hfiles, hcopied⟩ := buildTrees_eq_ok hbuilt
  have hkept := (Disk.scanned_of_scanSource htree).kept
  have hwritten := @buildPages_extends progress config.out tree tree.files .empty hkept
  rw [hpages] at hwritten
  have hrespells := h.sameBase hwritten.base
  have hscanned := Disk.scanned_of_scanAssets hfiles
  have hlast := @buildAssets_extends written config.out _ files files pages hscanned
    hrespells.apart fun _ hmem => hmem
  rw [hcopied] at hlast
  have hsource := hsource.of_extends hall
  have hassets := hassets.of_extends hlast
  have htree' := h.scanSource_eq hsource
  have hfiles' := hrespells.scanAssets_eq hassets
  have hways : ∀ file ∈ tree.files, TwoWays config.out other.out file.relative :=
    twoWays_of_mem_scanSource htree hsource (by simp)
  have hways' : ∀ file ∈ files, TwoWays config.out other.out file.relative :=
    twoWays_of_mem_scanAssets hfiles hassets (by simp)
  obtain ⟨written', hpages', hdisk'⟩ := buildPages_tallies h.out hways hkept hnext hpages
  obtain ⟨hreport, hlast'⟩ := @buildAssets_tallies written written' config.out other.out _ files files
    pages hscanned hrespells.apart (fun _ hmem => hmem) hrespells.out hways' hdisk'
  have hbuild : next.buildTrees other =
      (.ok (buildAssets other.out files pages written').1,
        (buildAssets other.out files pages written').2) := by
    rw [buildTrees, hnext, htree', htree]
    dsimp only
    rw [hpages']
    dsimp only
    rw [hdisk', hfiles', hfiles]
  rw [hbuild]
  rw [hcopied] at hreport hlast'
  exact ⟨congrArg Except.ok hreport, hlast'⟩

end Progress

namespace Disk

variable {disk : Disk} {config : Config}

-- The directories of a usable config are found, and the output does not go to the assets.
theorem locates_of_validate (h : config.validate disk.base? = .ok ()) :
    (∀ path ∈ [config.source, config.assets, config.out],
      path.absolute disk.base? = .ok (Location.walk disk.workDir path).path ∧
        (Location.walk disk.workDir path).Named) ∧
      Location.walk disk.workDir config.assets ≠ Location.walk disk.workDir config.out := by
  obtain ⟨source, assets, out, hsource, hassets, hout, hsame⟩ := config.absolute_of_validate h
  obtain ⟨rfl, hsourceNamed⟩ := eq_path_of_absolute hsource
  obtain ⟨rfl, hassetsNamed⟩ := eq_path_of_absolute hassets
  obtain ⟨rfl, houtNamed⟩ := eq_path_of_absolute hout
  refine ⟨?_, fun heq => ?_⟩
  · rw [List.forall_mem_cons, List.forall_mem_cons, List.forall_mem_singleton]
    exact ⟨⟨hsource, hsourceNamed⟩, ⟨hassets, hassetsNamed⟩, hout, houtNamed⟩
  · rw [← heq, (Location.same_path_iff hassetsNamed hassetsNamed).2 rfl] at hsame
    cases hsame

-- The disk does not mind whether the directories of a config are given by their own paths: relative
-- paths start from a directory that stands, scans take each path as it is meant, and can follow it
-- to all files below.
structure Indifferent (disk : Disk) (config : Config) : Prop where
  valid : config.validate disk.base? = .ok ()
  searchable : ∀ root ∈ [config.source, (config.located disk.workDir).source, config.assets,
    (config.located disk.workDir).assets], root.Searchable
  pages : disk.Short config.source [config.source, (config.located disk.workDir).source, config.out,
    (config.located disk.workDir).out]
  copies : disk.Short config.assets [config.assets, (config.located disk.workDir).assets, config.out,
    (config.located disk.workDir).out]

-- On such a disk the two ways to write the directories come to the same.
theorem Indifferent.respells {earlier : Disk} (h : disk.Indifferent config)
    (hbase : SameBase earlier disk)
    (hstraight : ∀ path ∈ [config.source, config.assets, config.out], path.Straight) :
    earlier.Respells config (config.located disk.workDir) := by
  obtain ⟨hlocates, hne⟩ := locates_of_validate h.valid
  rw [hbase.workDir] at hne
  have hmeets : ∀ path ∈ [config.source, config.assets, config.out],
      earlier.Meets path (Location.walk disk.workDir path).path := by
    intro path hmem
    obtain ⟨habsolute, hnamed⟩ := hlocates path hmem
    refine ⟨⟨hstraight path hmem, (Location.descends_path hnamed).straight⟩, ?_, ?_⟩
    · rw [List.forall_mem_cons, List.forall_mem_singleton, ← hbase.adrift]
      exact ⟨based_of_absolute habsolute, .inl (Location.isAbsolute_path _)⟩
    · rw [Location.walk_path hnamed, hbase.workDir]
  exact ⟨hmeets _ (by simp), hmeets _ (by simp), hmeets _ (by simp), h.searchable, hne⟩

end Disk

namespace Progress

variable {progress : Progress} {config : Config} {report : Report}

-- A build whose directories are given by their own paths leaves what the build leaves.
theorem buildAll_located (hvalid : config.validate progress.disk.base? = .ok ())
    (hstraight : ∀ path ∈ [config.source, config.assets, config.out], path.Straight)
    (hcheck : config.clear = true → (config.located progress.disk.workDir).out.check = .ok ())
    (hfinal : (progress.buildAll config).2.disk.Indifferent config)
    (h : (progress.buildAll config).1 = .ok report) :
    (progress.buildAll (config.located progress.disk.workDir)).1 = .ok report ∧
      (progress.buildAll (config.located progress.disk.workDir)).2.disk =
        (progress.buildAll config).2.disk := by
  obtain ⟨hlocates, hne⟩ := Disk.locates_of_validate hvalid
  obtain ⟨cleared, hcleared⟩ := exists_cleared h
  -- The output directory, cleared by each of its paths.
  obtain ⟨cleared', hcleared', hdisk, hwork⟩ : ∃ cleared', (if config.clear then
      progress.clearOutput (Location.walk progress.disk.workDir config.out).path
        else (.ok (), progress)) = (.ok (), cleared') ∧ cleared'.disk = cleared.disk ∧
      cleared.disk.workDir = progress.disk.workDir := by
    split at hcleared
    · next hclear =>
      have hout := (hlocates config.out (by simp)).1
      have hout' := hstraight config.out (by simp)
      obtain ⟨cleared', hcleared', hdisk⟩ :=
        clearOutput_respelt hout hout' (hcheck hclear) hcleared
      exact ⟨cleared', by rw [if_pos hclear, hcleared'], hdisk,
        (Disk.readied_grounded hout hout' hcleared).1.clears.workDir⟩
    · next hclear =>
      cases hcleared
      exact ⟨progress, by rw [if_neg hclear], rfl, rfl⟩
  have hbuild := buildAll_of_cleared hcleared
  have hbuild' : progress.buildAll (config.located progress.disk.workDir) =
      cleared'.buildTrees (config.located progress.disk.workDir) := buildAll_of_cleared hcleared'
  rw [hbuild] at h hfinal ⊢
  rw [hbuild']
  have hbase := (buildTrees_extends h (hwork ▸ hne)).base
  have hlocated : config.located (cleared.buildTrees config).2.disk.workDir =
      config.located progress.disk.workDir := by rw [hbase.workDir, hwork]
  have hrespells := hfinal.respells hbase hstraight
  have hpages := hfinal.pages
  have hcopies := hfinal.copies
  rw [hlocated] at hrespells hpages hcopies
  exact buildTrees_respells hrespells hdisk h hpages hcopies

end Progress

end StaticSite
