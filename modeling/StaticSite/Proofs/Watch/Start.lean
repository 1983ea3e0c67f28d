import StaticSite.Proofs.Build.Filling
import StaticSite.Proofs.Build.Respelling
import StaticSite.Proofs.Watch.Lockstep
import StaticSite.Proofs.Watch.Session

-- The start of a session next to a build.
namespace StaticSite

open Disk (within)

namespace Session

variable {progress : Progress} {config : Config}

theorem watchRoots_of_normal (hnormal : config.Normal) (disk : Disk) :
    disk.watchRoots config = .ok (config.source, config.assets, config.out) := by
  have hroot : ∀ path ∈ [config.source, config.assets, config.out],
      disk.watchRoot path = .ok path := by
    intro path hmem
    obtain ⟨habsolute, hself⟩ := hnormal path hmem
    rw [Disk.watchRoot, Path.absolute_of_isAbsolute habsolute,
      Location.path_walk_of_normal habsolute hself]
    rfl
  rw [Disk.watchRoots, hroot _ (by simp), hroot _ (by simp), hroot _ (by simp)]
  rfl

theorem normal_located {start : Location} (hnamed : ∀ path ∈ [config.source, config.assets,
    config.out], (Location.walk start path).Named) : (config.located start).Normal := by
  have hpath : ∀ path ∈ [config.source, config.assets, config.out],
      (Location.walk start path).path.isAbsolute ∧
        (Location.walk start path).path.normalize = (Location.walk start path).path :=
    fun path hmem => ⟨Location.isAbsolute_path _, Location.normalize_path (hnamed path hmem)⟩
  simpa only [Config.Normal, Config.located, List.forall_mem_cons, List.not_mem_nil, false_imp_iff,
    implies_true] using hpath

-- A session goes by the directories' own paths, however the config gives them.
theorem start_located (h : config.validate progress.disk.base? = .ok ()) :
    start progress config = start progress (config.located progress.disk.workDir) := by
  obtain ⟨hlocates, -⟩ := Disk.locates_of_validate h
  have hroot : ∀ path ∈ [config.source, config.assets, config.out],
      progress.disk.watchRoot path = .ok (Location.walk progress.disk.workDir path).path :=
    fun path hmem => by rw [Disk.watchRoot, (hlocates path hmem).1]; rfl
  have hroots : progress.disk.watchRoots config = progress.disk.watchRoots
      (config.located progress.disk.workDir) := by
    rw [watchRoots_of_normal (normal_located fun path hmem => (hlocates path hmem).2),
      Disk.watchRoots, hroot _ (by simp), hroot _ (by simp), hroot _ (by simp)]
    rfl
  rw [start, start, hroots]
  rfl

-- The stages of a start, once the output has been cleared.
theorem start_eq {cleared : Progress} {tree : SourceTree} {files : List StaticFile}
    (hroots : progress.disk.watchRoots config = .ok (config.source, config.assets, config.out))
    (hcleared : clear progress config config.out = (.ok (), cleared))
    (htree : cleared.disk.scanSource config.source = .ok tree)
    (hfiles : cleared.disk.scanAssets config.assets = .ok files) :
    start progress config =
      build ⟨⟨config.source, config.out, tree⟩, ⟨config.assets, config.out, files⟩⟩ cleared := by
  rw [start, hroots]
  dsimp only
  rw [hcleared]
  dsimp only
  rw [open?, SourceWatcher.open?, htree, StaticWatcher.open?, hfiles]
  rfl

theorem build_eq {tree : SourceTree} {files later : List StaticFile} {source assets out : Path}
    {written : Progress}
    (htree : progress.disk.scanSource source = .ok tree)
    (hwritten : (SourceWatcher.rebuildEach ⟨source, out, tree⟩ .changed none tree.files
      ((progress.announce .building).note (.rescanning source))).2 = written)
    (hfiles : written.disk.scanAssets assets = .ok later) :
    build ⟨⟨source, out, tree⟩, ⟨assets, out, files⟩⟩ progress =
      (.ok ⟨⟨source, out, tree⟩, ⟨assets, out, later⟩⟩,
        (StaticWatcher.rebuildEach ⟨assets, out, later⟩ .changed none later
          (written.note (.rescanning assets))).2) := by
  have hrescan : SourceWatcher.rescan ⟨source, out, tree⟩ (progress.announce .building) =
      (.ok ⟨source, out, tree⟩, (progress.announce .building).note (.rescanning source)) := by
    rw [SourceWatcher.rescan, SourceWatcher.open?, Progress.disk_announce, htree]
  have hrescan' : StaticWatcher.rescan ⟨assets, out, files⟩ written =
      (.ok ⟨assets, out, later⟩, written.note (.rescanning assets)) := by
    rw [StaticWatcher.rescan, StaticWatcher.open?, hfiles]
  rw [build, SourceWatcher.buildAll, hrescan]
  dsimp only
  rw [hwritten, StaticWatcher.buildAll, hrescan']

-- Where a build comes to its end, a session starts, and leaves the same disk.
theorem start_of_buildAll {report : Report} (hnormal : config.Normal)
    (hscan : ∀ disk : Disk, ∃ files, disk.scanAssets config.assets = .ok files)
    (h : (progress.buildAll config).1 = .ok report) :
    (∃ session, (start progress config).1 = .ok session) ∧
      (start progress config).2.disk = (progress.buildAll config).2.disk := by
  obtain ⟨cleared, tree, pages, written, later, hcleared, htree, hpages, hlater, hbuilt, -⟩ :=
    Progress.buildAll_eq_ok h
  obtain ⟨files, hfiles⟩ := hscan cleared.disk
  have hclear : clear progress config config.out = (.ok (), cleared) := by
    unfold clear
    split
    · next hask =>
      rw [if_pos hask] at hcleared
      rw [hcleared]
      rfl
    · next hask =>
      rw [if_neg hask] at hcleared
      cases hcleared
      rfl
  have hwritten := SourceWatcher.rebuildEach_of_buildPages
    ⟨config.source, config.out, tree⟩ .changed (show cleared.disk =
      ((cleared.announce .building).note (.rescanning config.source)).disk from rfl) hpages
  have hlast := StaticWatcher.rebuildEach_of_buildAssets ⟨config.assets, config.out, later⟩ .changed
    later pages (show written.disk = (Progress.note _ (.rescanning config.assets)).disk from
      hwritten.symm)
  rw [hbuilt] at hlast
  rw [start_eq (watchRoots_of_normal hnormal _) hclear htree hfiles,
    build_eq htree rfl (hwritten ▸ hlater)]
  exact ⟨⟨_, rfl⟩, hlast⟩

end Session

namespace Disk

variable {before : Disk} {tree : SourceTree} {root top location : Location} {content : ByteArray}

theorem within_of_pageOutput {files : List ContentFile} (hscanned : tree.Scanned root)
    (hfiles : ∀ file ∈ files, file ∈ tree.files)
    (h : before.PageOutput tree top files location content) : within top location := by
  obtain ⟨file, hmem, -, rfl, -⟩ := h
  exact (hscanned.isRelative (hfiles file hmem)).within_walk top

theorem within_of_assetOutput {files all : List StaticFile}
    (hscanned : StaticFile.Scanned root all) (hfiles : ∀ file ∈ files, file ∈ all)
    (h : before.AssetOutput top files location content) : within top location := by
  obtain ⟨file, hmem, rfl, -⟩ := h
  exact (hscanned.isRelative (hfiles file hmem)).within_walk top

end Disk

section

variable {progress : Progress} {before : Disk} {root top : Location} {places : Location → Prop}
  {reason : RebuildReason} {activity : Option (String → Activity)}

-- A watcher that builds pages in order puts each that composes in its place.
theorem SourceWatcher.rebuildEach_fills {watcher : SourceWatcher} {files : List ContentFile}
    (hfits : Fits top places) (htop : top ≠ []) (hnamed : top.Named) (hout : watcher.out = top.path)
    (hscanned : watcher.files.Scanned root) (hfiles : ∀ file ∈ files, file ∈ watcher.files.files)
    (hplaces : ∀ file ∈ watcher.files.files, file.isPublic →
      places (Location.walk [] ⟨file.relative⟩))
    (hapart : ∀ location, within root location → ¬ within top location)
    (hsame : ∀ location, ¬ within top location →
      progress.disk.file? location = before.file? location)
    (h : progress.disk.Fills top places) :
    (watcher.rebuildEach reason activity files progress).2.disk.Fills top places ∧
      progress.disk.Publishes (before.PageOutput watcher.files top files)
        (watcher.rebuildEach reason activity files progress).2.disk := by
  induction files generalizing progress with
  | nil => exact ⟨h, ⟨fun _ _ ⟨_, hmem, _⟩ => (nomatch hmem), fun _ _ => rfl⟩⟩
  | cons file rest ih =>
      have hmem := hfiles file List.mem_cons_self
      have hrest := fun other hother => hfiles other (List.mem_cons_of_mem file hother)
      have hannounce := progress.disk_announceAs activity file.relative
      have hdisk (start : Progress) : (watcher.rebuild reason file start).2.disk =
          (start.buildContent watcher.files file watcher.out).2.disk := by
        unfold rebuild
        split
        · next heq => rw [heq]
        · next heq => rw [heq, Progress.disk_note]
      obtain ⟨hfills, hfirst⟩ := @Progress.buildContent_fills
        (progress.announceAs activity file.relative) top places before watcher.files root file hfits
        htop hnamed hscanned hmem (hplaces file hmem) hapart (by rwa [hannounce])
        (by rwa [hannounce])
      rw [← hout, ← hdisk] at hfills hfirst
      rw [hannounce] at hfirst
      have hsame' : ∀ location, ¬ within top location → (watcher.rebuild reason file
          (progress.announceAs activity file.relative)).2.disk.file? location =
          before.file? location := by
        intro location hnot
        rw [hfirst.same location fun content hput => hnot (Disk.within_of_pageOutput hscanned
          (fun other hother => List.mem_singleton.1 hother ▸ hmem) hput), hsame location hnot]
      obtain ⟨hlast, hlater⟩ := ih hrest hsame' hfills
      rw [rebuildEach]
      refine ⟨hlast, (hfirst.trans_of_agree hlater ?_).congr fun location content => ?_⟩
      · rintro location content other ⟨_, hself, hpublic, rfl, page, hpage, rfl⟩
          ⟨again, hagain, -, hplace, found, hfound, rfl⟩
        obtain rfl := List.mem_singleton.1 hself
        have := hscanned.eq_of_place hmem (hrest again hagain) hpublic hplace
        subst this
        rw [hpage] at hfound
        cases hfound
        rfl
      · simp [Disk.PageOutput]

-- And one that copies assets copies each of them.
theorem StaticWatcher.rebuildEach_fills {watcher : StaticWatcher} {files all : List StaticFile}
    (hfits : Fits top places) (htop : top ≠ []) (hnamed : top.Named) (hout : watcher.out = top.path)
    (hscanned : StaticFile.Scanned root all) (hfiles : ∀ file ∈ files, file ∈ all)
    (hplaces : ∀ file ∈ all, places (Location.walk [] ⟨file.relative⟩))
    (hread : ∀ file ∈ all, before.isFile file.absolute = true)
    (hapart : ∀ location, within root location → ¬ within top location)
    (hsame : ∀ location, ¬ within top location →
      progress.disk.file? location = before.file? location)
    (h : progress.disk.Fills top places) :
    (watcher.rebuildEach reason activity files progress).2.disk.Fills top places ∧
      progress.disk.Publishes (before.AssetOutput top files)
        (watcher.rebuildEach reason activity files progress).2.disk := by
  induction files generalizing progress with
  | nil => exact ⟨h, ⟨fun _ _ ⟨_, hmem, _⟩ => (nomatch hmem), fun _ _ => rfl⟩⟩
  | cons file rest ih =>
      have hmem := hfiles file List.mem_cons_self
      have hrest := fun other hother => hfiles other (List.mem_cons_of_mem file hother)
      have hannounce := progress.disk_announceAs activity file.relative
      have hread' : progress.disk.isFile file.absolute = true := by
        obtain ⟨below, -, -, -, habsolute, hsource⟩ := hscanned.place file hmem
        have hbefore := hread file hmem
        rw [habsolute, Disk.isFile_path hsource] at hbefore ⊢
        rwa [hsame _ (hapart _ (Disk.within_append below root))]
      obtain ⟨hfills, hfirst⟩ := @Progress.buildAsset_fills
        (progress.announceAs activity file.relative) top places before root file all hfits htop
        hnamed hscanned hmem (hplaces file hmem) (by rwa [hannounce]) hapart (by rwa [hannounce])
        (by rwa [hannounce])
      rw [← hout] at hfills hfirst
      rw [hannounce] at hfirst
      have hsame' : ∀ location, ¬ within top location →
          ((progress.announceAs activity file.relative).buildAsset file
            watcher.out).2.disk.file? location = before.file? location := by
        intro location hnot
        rw [hfirst.same location fun content hput => hnot (Disk.within_of_assetOutput hscanned
          (fun other hother => List.mem_singleton.1 hother ▸ hmem) hput), hsame location hnot]
      obtain ⟨hlast, hlater⟩ := ih hrest hsame' hfills
      rw [rebuildEach]
      refine ⟨hlast, (hfirst.trans_of_agree hlater ?_).congr fun location content => ?_⟩
      · rintro location content other ⟨_, hself, rfl, hcontent⟩ ⟨again, hagain, hplace, hother⟩
        obtain rfl := List.mem_singleton.1 hself
        have := hscanned.unique _ hmem again (hrest again hagain)
          ((hscanned.isRelative hmem).eq_of_walk (hscanned.isRelative (hrest again hagain)) hplace)
        subst this
        rw [hcontent] at hother
        exact Option.some.inj hother
      · simp [Disk.AssetOutput]

end

end StaticSite
