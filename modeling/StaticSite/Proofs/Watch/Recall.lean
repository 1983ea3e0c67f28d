import StaticSite.Proofs.Watch.Answer
import StaticSite.Proofs.Watch.Session

-- What the watchers of a session know when it has started: files at places below its directories.
namespace StaticSite.Session

open Disk (within)

variable {progress : Progress} {config : Config} {session : Session}

-- The directories of a session are places on the disk.
theorem paths_of_watchRoots {disk : Disk} {source assets out : Path}
    (h : disk.watchRoots config = .ok (source, assets, out)) :
    ∀ path ∈ [source, assets, out], ∃ location : Location, location.Named ∧ path = location.path := by
  rw [Disk.watchRoots] at h
  obtain ⟨_, hsource, h⟩ := bind_eq_ok.1 h
  obtain ⟨_, hassets, h⟩ := bind_eq_ok.1 h
  obtain ⟨_, hout, h⟩ := bind_eq_ok.1 h
  cases h
  have hroot : ∀ {path target : Path}, disk.watchRoot path = .ok target →
      ∃ location : Location, location.Named ∧ target = location.path := by
    intro path target hwatch
    rw [Disk.watchRoot] at hwatch
    cases habsolute : path.absolute disk.base? with
    | error fault =>
        rw [habsolute] at hwatch
        cases hwatch
    | ok found =>
        rw [habsolute] at hwatch
        cases hwatch
        obtain ⟨heq, hnamed⟩ := Disk.eq_path_of_absolute habsolute
        exact ⟨_, hnamed, heq⟩
  simp only [List.mem_cons, List.not_mem_nil, or_false]
  rintro path (rfl | rfl | rfl)
  · exact hroot hsource
  · exact hroot hassets
  · exact hroot hout

-- A watcher that is opened knows what a scan finds.
theorem eq_of_open?_source {disk : Disk} {root out : Path} {watcher : SourceWatcher}
    (h : SourceWatcher.open? disk root out = .ok watcher) :
    ∃ tree, disk.scanSource root = .ok tree ∧ watcher = ⟨root, out, tree⟩ := by
  unfold SourceWatcher.open? at h
  split at h
  · next tree hscan =>
    cases h
    exact ⟨tree, hscan, rfl⟩
  · cases h

theorem eq_of_open?_assets {disk : Disk} {root out : Path} {watcher : StaticWatcher}
    (h : StaticWatcher.open? disk root out = .ok watcher) :
    ∃ files, disk.scanAssets root = .ok files ∧ watcher = ⟨root, out, files⟩ := by
  unfold StaticWatcher.open? at h
  split at h
  · next files hscan =>
    cases h
    exact ⟨files, hscan, rfl⟩
  · cases h

-- A watcher that has built all its files has been opened anew.
theorem open?_of_buildAll_source {watcher next : SourceWatcher} {later : Progress}
    {rebuilds : List Rebuild} (h : watcher.buildAll progress = ⟨next, later, .ok rebuilds⟩) :
    ∃ disk : Disk, SourceWatcher.open? disk watcher.root watcher.out = .ok next := by
  unfold SourceWatcher.buildAll at h
  split at h
  · cases h
  · next heq =>
    cases h
    exact ⟨_, (Prod.mk.inj heq).1⟩

theorem open?_of_buildAll_assets {watcher next : StaticWatcher} {later : Progress}
    {rebuilds : List Rebuild} (h : watcher.buildAll progress = ⟨next, later, .ok rebuilds⟩) :
    ∃ disk : Disk, StaticWatcher.open? disk watcher.root watcher.out = .ok next := by
  unfold StaticWatcher.buildAll at h
  split at h
  · cases h
  · next heq =>
    cases h
    exact ⟨_, (Prod.mk.inj heq).1⟩

-- A session that has started knows what scans of both trees have found, each on some disk.
theorem start_eq_ok (h : (start progress config).1 = .ok session) :
    ∃ (source assets out : Path) (tree : SourceTree) (files : List StaticFile),
      session = ⟨⟨source, out, tree⟩, ⟨assets, out, files⟩⟩ ∧
      (∀ path ∈ [source, assets, out],
        ∃ location : Location, location.Named ∧ path = location.path) ∧
      (∃ disk : Disk, disk.scanSource source = .ok tree) ∧
      ∃ disk : Disk, disk.scanAssets assets = .ok files := by
  unfold start at h
  split at h
  · cases h
  · next source assets out hroots =>
    have hpaths := paths_of_watchRoots hroots
    split at h
    · cases h
    · split at h
      · cases h
      · next opened hopen =>
        obtain ⟨_, hsource, hrest⟩ := bind_eq_ok.1 hopen
        obtain ⟨_, hassets, hlast⟩ := bind_eq_ok.1 hrest
        obtain ⟨_, -, rfl⟩ := eq_of_open?_source hsource
        obtain ⟨_, -, rfl⟩ := eq_of_open?_assets hassets
        obtain rfl := Except.ok.inj hlast
        unfold build at h
        split at h
        · cases h
        · next hbuilt =>
          split at h
          · cases h
          · next hbuilt' =>
            cases h
            obtain ⟨before, hbefore⟩ := open?_of_buildAll_source hbuilt
            obtain ⟨after, hafter⟩ := open?_of_buildAll_assets hbuilt'
            obtain ⟨tree, htree, rfl⟩ := eq_of_open?_source hbefore
            obtain ⟨files, hfiles, rfl⟩ := eq_of_open?_assets hafter
            exact ⟨source, assets, out, tree, files, rfl, hpaths, ⟨before, htree⟩, after, hfiles⟩

-- The directories of a session lie next to each other, and patterns keep the whole names of those
-- that are scanned.
structure Apart (session : Session) : Prop where
  apart : [session.source.root, session.assets.root, session.source.out].Pairwise
    fun left right => ¬ left.startsWith right ∧ ¬ right.startsWith left
  keeps : ∀ root ∈ [session.source.root, session.assets.root],
    root.text.toList.getLast? ≠ some '\\'

instance (session : Session) : Decidable session.Apart :=
  decidable_of_iff (_ ∧ _) ⟨fun h => ⟨h.1, h.2⟩, fun h => ⟨h.apart, h.keeps⟩⟩

-- The watchers of a project that know of files at some places.
def recalling (roots : Roots) (known : Tree → List Location) : Session :=
  ⟨.knowing roots (known .source), .knowing roots (known .static)⟩

-- Such a session knows of files at places below its directories.
theorem Apart.exists_recalling (hapart : session.Apart)
    (h : (start progress config).1 = .ok session) : ∃ roots known,
      session = recalling roots known ∧ ∀ tree, SourceTree.Places (known tree) := by
  obtain ⟨source, assets, out, tree, files, rfl, hpaths, ⟨before, hbefore⟩, after, hafter⟩ :=
    start_eq_ok h
  obtain ⟨hapart, hkeeps⟩ := hapart
  simp only [List.pairwise_cons, List.mem_cons, List.not_mem_nil, or_false, forall_eq_or_imp,
    forall_eq, false_imp_iff, implies_true, List.Pairwise.nil, and_true] at hapart hkeeps hpaths
  obtain ⟨⟨source, hsource, rfl⟩, ⟨assets, hassets, rfl⟩, out, hout, rfl⟩ := hpaths
  obtain ⟨⟨hpair, hsourceOut⟩, hassetsOut⟩ := hapart
  have hwithin : ∀ {left right : Location}, left.Named → right.Named →
      ¬ left.path.startsWith right.path ∧ ¬ right.path.startsWith left.path →
        ¬ within left right ∧ ¬ within right left := fun hleft hright hnot => by
    rw [Location.startsWith_path_iff hleft hright, Location.startsWith_path_iff hright hleft] at hnot
    exact hnot.symm
  have hpair := hwithin hsource hassets hpair
  have hsourceOut := hwithin hsource hout hsourceOut
  have hassetsOut := hwithin hassets hout hassetsOut
  have hne : ∀ {left right : Location}, ¬ within left right → left ≠ [] := by
    rintro left right hnot rfl
    exact hnot (Disk.within_iff.2 ⟨right, (List.append_nil right).symm⟩)
  let roots : Roots := ⟨source, assets, out, ⟨hne hpair.1, hsource, hkeeps.1⟩,
    ⟨hne hpair.2, hassets, hkeeps.2⟩, hout, hpair,
    List.forall_mem_cons.2 ⟨hsourceOut, List.forall_mem_singleton.2 hassetsOut⟩⟩
  rw [Disk.scanSource_path roots.source_keeps] at hbefore
  rw [Disk.scanAssets_path roots.assets_keeps] at hafter
  cases hbefore
  cases hafter
  refine ⟨roots, fun tree => tree.casesOn (before.pagesBelow source) (after.listed assets), rfl, ?_⟩
  rintro (_ | _)
  · exact before.places_pagesBelow source
  · exact Disk.places_present after roots .static

-- The files that a session knows of in a tree, by their relative paths.
def listed (session : Session) : Tree → List String
  | .source => session.source.files.files.map (·.relative)
  | .static => session.assets.files.map (·.relative)

-- The files that lie in a tree, by their relative paths, as a scan finds them.
def found (session : Session) (disk : Disk) : Tree → List String
  | .source => ((disk.scanSource session.source.root).toOption.map (·.files)).getD [] |>.map
      (·.relative)
  | .static => (disk.scanAssets session.assets.root).toOption.getD [] |>.map (·.relative)

-- Of two relative paths none is the other one, and none leads through the other.
def Separate (pages files : List String) : Prop :=
  ∀ page ∈ pages, ∀ file ∈ files,
    ¬ Path.startsWith ⟨page⟩ ⟨file⟩ ∧ ¬ Path.startsWith ⟨file⟩ ⟨page⟩

instance (pages files : List String) : Decidable (Separate pages files) := by
  unfold Separate; infer_instance

-- No file that is known or lies in one tree gets in the way of one of the other tree.
def Disjoint (session : Session) (disk : Disk) : Prop :=
  Separate (session.listed .source ++ session.found disk .source)
    (session.listed .static ++ session.found disk .static)

instance (session : Session) (disk : Disk) : Decidable (session.Disjoint disk) := by
  unfold Disjoint; infer_instance

section

variable {roots : Roots} {known : Tree → List Location} {disk : Disk}

theorem listed_recalling (hknown : ∀ tree, SourceTree.Places (known tree)) (tree : Tree) :
    (recalling roots known).listed tree = (known tree).map Location.relative := by
  cases tree with
  | source =>
      have hplace := SourceTree.map_place_below roots.source (hknown .source)
      have hrelative := SourceTree.map_relative_place roots.source (hknown .source)
        fun content hmem => hmem
      rw [hplace] at hrelative
      exact hrelative.symm
  | static =>
      have hfiles : (recalling roots known).assets.files =
        (known .static).map (Disk.assetAt roots.assets) := rfl
      rw [listed, hfiles, List.map_map]
      rfl

theorem found_recalling (roots : Roots) (known : Tree → List Location) (disk : Disk) (tree : Tree) :
    (recalling roots known).found disk tree = (disk.present roots tree).map Location.relative := by
  cases tree with
  | source =>
      have hscan : disk.scanSource (recalling roots known).source.root =
          .ok (.below roots.source (disk.pagesBelow roots.source)) :=
        Disk.scanSource_path roots.source_keeps
      have hlisted := @listed_recalling roots (disk.present roots) (disk.places_present roots) .source
      rw [found, hscan]
      exact hlisted
  | static =>
      have hscan : disk.scanAssets (recalling roots known).assets.root =
          .ok ((disk.listed roots.assets).map (Disk.assetAt roots.assets)) :=
        Disk.scanAssets_path roots.assets_keeps
      have hlisted := @listed_recalling roots (disk.present roots) (disk.places_present roots) .static
      rw [found, hscan]
      exact hlisted

theorem separate_iff {pages files : List Location} (hpages : ∀ page ∈ pages, page.Named)
    (hfiles : ∀ file ∈ files, file.Named) :
    Separate (pages.map Location.relative) (files.map Location.relative) ↔
      ∀ page ∈ pages, ∀ file ∈ files, page.Apart file := by
  simp only [Separate, List.forall_mem_map]
  refine forall₂_congr fun page hpage => forall₂_congr fun file hfile => ?_
  exact (and_congr (not_congr (Location.startsWith_names_iff (hpages page hpage) (hfiles file hfile)))
    (not_congr (Location.startsWith_names_iff (hfiles file hfile) (hpages page hpage)))).trans and_comm

-- The same of the places of the files.
theorem disjoint_recalling (hknown : ∀ tree, SourceTree.Places (known tree)) :
    (recalling roots known).Disjoint disk ↔
      ∀ page ∈ known .source ++ disk.present roots .source,
        ∀ file ∈ known .static ++ disk.present roots .static, page.Apart file := by
  have hnamed : ∀ tree, ∀ file ∈ known tree ++ disk.present roots tree, file.Named := by
    intro tree file hmem
    rcases List.mem_append.1 hmem with hmem | hmem
    · exact ((hknown tree).2 file hmem).2
    · exact ((disk.places_present roots tree).2 file hmem).2
  rw [Disjoint]
  simp only [listed_recalling hknown, found_recalling, ← List.map_append]
  exact separate_iff (hnamed .source) (hnamed .static)

end

-- A project whose source directory has a backslash for a name. The search for its files leaves
-- the backslash away, and goes through the output.
def trimmedSite : Config := ⟨⟨"/s/\\"⟩, ⟨"/static"⟩, ⟨"/s/dist"⟩, true⟩

def trimmedStart : Except WatchError Session × Progress :=
  start (.start (((Disk.blank.putDirectory "s" []).putDirectory "\\" ["s"]).putDirectory "static" []))
    trimmedSite

def trimmed : Session :=
  trimmedStart.1.toOption.getD opened

end StaticSite.Session
