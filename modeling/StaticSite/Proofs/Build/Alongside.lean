import StaticSite.Proofs.Build.Exact
import StaticSite.Proofs.Build.Lasting
import StaticSite.Proofs.Scan.Same

-- Two builds side by side, on disks with the same inputs. They take the same steps, so whatever
-- relation each output keeps between the disks, the builds keep.
namespace StaticSite

open Disk (within)

namespace Disk

variable {disk other next : Disk} {top : Location} {path root : Path}

-- Relative paths start from the same place on two disks, and outside of `top` the files are the
-- same.
structure Twins (top : Location) (disk other : Disk) : Prop where
  base : SameBase disk other
  file? : ∀ location, ¬ within top location → other.file? location = disk.file? location

-- The path spells a place outside of `top`, and there is a file.
def Holds (disk : Disk) (top : Location) (path : Path) : Prop :=
  ∃ location content, path = location.path ∧ ¬ within top location ∧
    disk.file? location = some content

theorem Holds.of_spares (h : disk.Holds top path) (hspares : disk.Spares top next) :
    next.Holds top path := by
  obtain ⟨location, content, hpath, hnot, hfile⟩ := h
  exact ⟨location, content, hpath, hnot, (hspares.file? location hnot).trans hfile⟩

-- A directory outside of `top`, whose scan depends on the files below it and on where relative
-- paths start.
structure Steady (disk : Disk) (top : Location) (root : Path) : Prop where
  ne : root.text ≠ ""
  ending : root.bare.toList.getLast? ≠ some '\\'
  straight : root.Straight
  grounded : disk.Grounded root
  outside : ∀ location, within (Location.walk disk.workDir root) location → ¬ within top location

theorem Steady.sameBase (h : disk.Steady top root) (hsame : SameBase disk next) :
    next.Steady top root :=
  ⟨h.ne, h.ending, h.straight, hsame.grounded h.grounded, by rw [hsame.workDir]; exact h.outside⟩

theorem holds_of_mem_scan {pattern : String} {files : List FoundFile} {file : FoundFile}
    (houtside : ∀ location, within (Location.walk disk.workDir root) location →
      ¬ within top location)
    (h : disk.scan root pattern = .ok files) (hmem : file ∈ files) :
    disk.Holds top file.absolute := by
  obtain ⟨location, content, hnamed, habsolute, hfile⟩ := file?_of_mem_scan h hmem
  have hwithin := (scan_places h hmem).2
  rw [habsolute, Location.walk_path hnamed] at hwithin
  exact ⟨location, content, habsolute, houtside location hwithin, hfile⟩

theorem holds_of_mem_scanSource {tree : SourceTree} {file : ContentFile}
    (houtside : ∀ location, within (Location.walk disk.workDir root) location →
      ¬ within top location)
    (h : disk.scanSource root = .ok tree) (hmem : file ∈ tree.files) :
    disk.Holds top file.absolute := by
  obtain ⟨found, hfound, rfl⟩ := map_eq_ok.1 h
  exact holds_of_mem_scan houtside hfound (SourceTree.mem_files_ofFound hmem).2

section Outside

variable (hsame : ∀ location, ¬ within top location → other.file? location = disk.file? location)

include hsame

theorem Holds.read_eq (h : disk.Holds top path) : other.read path = disk.read path := by
  obtain ⟨location, content, rfl, hnot, hfile⟩ := h
  have hnamed := named_of_kind? (file?_eq_some.1 hfile)
  have hfile' := (hsame location hnot).trans hfile
  by_cases hfollow : location.Followable
  · rw [(read_path hnamed).2 ⟨hfollow, hfile⟩, (read_path hnamed).2 ⟨hfollow, hfile'⟩]
  · cases hcheck : location.path.check with
    | ok _ => exact absurd hcheck hfollow
    | error fault => simp only [read, find, hcheck, bind, Except.bind]

theorem Holds.isFile_eq (h : disk.Holds top path) : other.isFile path = disk.isFile path := by
  obtain ⟨location, content, rfl, hnot, hfile⟩ := h
  have hnamed := named_of_kind? (file?_eq_some.1 hfile)
  rw [Bool.eq_iff_iff, isFile_path hnamed, isFile_path hnamed, hsame location hnot]

-- The page is the same, or the same error.
theorem composePage_eq_of_holds {tree : SourceTree} {file : ContentFile}
    (hread : ∀ part ∈ tree.chain file, disk.Holds top part.absolute) :
    other.composePage tree file = disk.composePage tree file := by
  have hsources : (tree.chain file).map other.source = (tree.chain file).map disk.source := by
    refine List.map_congr_left fun part hmem => ?_
    rw [source, source, readText, readText, (hread part hmem).read_eq hsame]
  rw [composePage, composePage, hsources]

end Outside

namespace Twins

theorem scanSource_eq (h : Twins top disk other) (hroot : disk.Steady top root) :
    other.scanSource root = disk.scanSource root :=
  scanSource_congr hroot.ne hroot.ending hroot.straight hroot.grounded h.base
    fun location hwithin => h.file? location (hroot.outside location hwithin)

theorem scanAssets_eq (h : Twins top disk other) (hroot : disk.Steady top root) :
    other.scanAssets root = disk.scanAssets root :=
  scanAssets_congr hroot.ne hroot.ending hroot.straight hroot.grounded h.base
    fun location hwithin => h.file? location (hroot.outside location hwithin)

end Twins

end Disk

namespace Progress

variable {progress other next built : Progress} {tree : SourceTree} {out : Path} {top : Location}
  {final : Disk} {sim : Disk → Disk → Prop}

theorem place_extends {destination : Path} {content : ByteArray} {ready : Disk → Prop}
    {change : Disk → Except Fault Disk} (hstores : Disk.Stores destination content ready change)
    (hready : ready progress.disk) :
    Disk.Extends progress.disk (progress.place destination change).2.disk := by
  have hmade := Disk.Extends.makeParent progress.disk destination
  have hgrows := progress.disk.makeParent_grows destination
  unfold place
  generalize progress.disk.makeParent destination = made at hmade hgrows ⊢
  obtain ⟨result, middle⟩ := made
  cases result with
  | error fault => exact hmade
  | ok _ =>
      dsimp only at hmade hgrows ⊢
      cases hchange : change middle with
      | error fault => exact hmade
      | ok last =>
          exact hmade.trans (hstores.extension (hstores.grows _ _ hgrows hready) hchange)

theorem disk_writeOutput (progress : Progress) (destination : Path) (content : ByteArray) :
    (progress.writeOutput destination content).2.disk =
      (progress.place destination (·.write destination content)).2.disk := by
  unfold writeOutput
  split <;> simp_all

theorem disk_copyOutput (progress : Progress) (source destination : Path) :
    (progress.copyOutput source destination).2.disk =
      (progress.place destination (·.copy source destination)).2.disk := by
  unfold copyOutput
  split <;> simp_all

-- A report only counts whether an output was made.
theorem record_writeOutput {destination target : Path} {content content' : ByteArray}
    (h : (other.place target (·.write target content')).1 = .ok () ↔
      (progress.place destination (·.write destination content)).1 = .ok ()) (report : Report) :
    report.record (other.writeOutput target content').1 =
      report.record (progress.writeOutput destination content).1 := by
  unfold writeOutput
  split <;> split <;> simp_all [Report.record]

theorem record_copyOutput {source destination target : Path}
    (h : (other.place target (·.copy source target)).1 = .ok () ↔
      (progress.place destination (·.copy source destination)).1 = .ok ()) (report : Report) :
    report.record (other.copyOutput source target).1 =
      report.record (progress.copyOutput source destination).1 := by
  unfold copyOutput
  split <;> split <;> simp_all [Report.record]

theorem buildAsset_of_kept {file : StaticFile} (hkept : file.deleted = false) (progress : Progress)
    (out : Path) : progress.buildAsset file out =
      if progress.disk.isFile file.absolute then
        progress.copyOutput file.absolute (out.join ⟨file.relative⟩)
      else (.failed (out.join ⟨file.relative⟩) .inaccessible,
        progress.note (.inaccessible file.absolute)) := by
  rw [buildAsset]
  rw [if_neg (by simp [hkept])]

-- What two builds to `out` keep between their disks: whatever is put at an output, is put there in
-- both or in none. The first build ends on the disk `final`.
structure Alongside (out : Path) (top : Location) (final : Disk) (sim : Disk → Disk → Prop) :
    Prop where
  twins : ∀ {disk other}, sim disk other → Disk.Twins top disk other
  place : ∀ {progress other : Progress} {relative : String} {content : ByteArray}
    {ready : Disk → Prop} {change : Disk → Except Fault Disk},
    Location.walk progress.disk.workDir out = top → IsRelative relative →
    Disk.Stores (out.join ⟨relative⟩) content ready change →
    ready progress.disk → ready other.disk → sim progress.disk other.disk →
    Disk.Extends (progress.place (out.join ⟨relative⟩) change).2.disk final →
      ((other.place (out.join ⟨relative⟩) change).1 = .ok () ↔
        (progress.place (out.join ⟨relative⟩) change).1 = .ok ()) ∧
      sim (progress.place (out.join ⟨relative⟩) change).2.disk
        (other.place (out.join ⟨relative⟩) change).2.disk

namespace Alongside

-- A file of the source tree: the first build does not lose what was there, and the second one does
-- the same as the first.
theorem buildContent (h : Alongside out top final sim) {file : ContentFile} {outcome : Outcome}
    (htop : Location.walk progress.disk.workDir out = top) (hkept : file.deleted = false)
    (hrelative : IsRelative file.relative)
    (hread : ∀ part ∈ tree.chain file, progress.disk.Holds top part.absolute)
    (hbuilt : progress.buildContent tree file out = (.ok outcome, next)) :
    Disk.Extends progress.disk next.disk ∧
      ∀ other : Progress, Disk.Extends next.disk final → sim progress.disk other.disk →
        ∃ outcome' next', other.buildContent tree file out = (.ok outcome', next') ∧
          (∀ report : Report, report.record outcome' = report.record outcome) ∧
          sim next.disk next'.disk := by
  rw [Progress.buildContent] at hbuilt
  split at hbuilt
  · next hhidden =>
    cases hbuilt
    refine ⟨.refl _, fun other _ hsim => ⟨.skipped, other, ?_, fun _ => rfl, hsim⟩⟩
    rw [Progress.buildContent, if_pos hhidden]
  · next hhidden =>
    dsimp only at hbuilt
    rw [if_neg (by simp [hkept])] at hbuilt
    -- The second build composes the same page, or fails to read the same file.
    have hother : ∀ other : Progress, sim progress.disk other.disk →
        other.disk.composePage tree file = progress.disk.composePage tree file :=
      fun other hsim => Disk.composePage_eq_of_holds (h.twins hsim).file? hread
    split at hbuilt
    · next page hpage =>
      cases hbuilt
      rw [disk_writeOutput]
      refine ⟨place_extends (Disk.stores_write _ _) trivial, fun other hfinal hsim => ?_⟩
      obtain ⟨hiff, hnext⟩ := h.place htop hrelative (Disk.stores_write _ _)
        trivial trivial hsim hfinal
      refine ⟨_, _, ?_, record_writeOutput hiff, by rwa [disk_writeOutput]⟩
      rw [Progress.buildContent, if_neg hhidden]
      dsimp only
      rw [if_neg (by simp [hkept]), hother other hsim, hpage]
    · next path fault hpage =>
      cases hbuilt
      refine ⟨.refl _, fun other _ hsim => ⟨_, other.note (.unreadable path fault), ?_,
        fun _ => rfl, hsim⟩⟩
      rw [Progress.buildContent, if_neg hhidden]
      dsimp only
      rw [if_neg (by simp [hkept]), hother other hsim, hpage]
    · cases hbuilt

theorem buildAsset (h : Alongside out top final sim) {file : StaticFile}
    (htop : Location.walk progress.disk.workDir out = top) (hkept : file.deleted = false)
    (hrelative : IsRelative file.relative) (hread : progress.disk.Holds top file.absolute) :
    Disk.Extends progress.disk (progress.buildAsset file out).2.disk ∧
      ∀ other : Progress, Disk.Extends (progress.buildAsset file out).2.disk final →
        sim progress.disk other.disk →
          (∀ report : Report, report.record (other.buildAsset file out).1 =
            report.record (progress.buildAsset file out).1) ∧
          sim (progress.buildAsset file out).2.disk (other.buildAsset file out).2.disk := by
  have hother : ∀ other : Progress, sim progress.disk other.disk →
      other.disk.isFile file.absolute = progress.disk.isFile file.absolute :=
    fun other hsim => hread.isFile_eq (h.twins hsim).file?
  have hbuild := fun progress => buildAsset_of_kept hkept progress out
  rw [hbuild]
  by_cases hfile : progress.disk.isFile file.absolute = true
  · rw [if_pos hfile, disk_copyOutput]
    obtain ⟨source, content, habsolute, hnot, hcontent⟩ := hread
    have hfollow : source.Followable := by
      rw [habsolute] at hfile
      exact ((Disk.isFile_path (Disk.named_of_kind? (Disk.file?_eq_some.1 hcontent))).1 hfile).1
    have hne : source ≠ Location.walk progress.disk.workDir (out.join ⟨file.relative⟩) := by
      rintro rfl
      exact hnot (htop ▸ hrelative.within_join progress.disk.workDir out)
    rw [habsolute]
    refine ⟨place_extends (Disk.stores_copy hfollow _ content) ⟨hcontent, hne⟩,
      fun other hfinal hsim => ?_⟩
    have htwins := h.twins hsim
    have hready : other.disk.file? source = some content ∧
        source ≠ Location.walk other.disk.workDir (out.join ⟨file.relative⟩) :=
      ⟨(htwins.file? source hnot).trans hcontent, by rwa [htwins.base.workDir]⟩
    obtain ⟨hiff, hnext⟩ := h.place htop hrelative
      (Disk.stores_copy hfollow _ content) ⟨hcontent, hne⟩ hready hsim hfinal
    rw [hbuild, hother other hsim, if_pos hfile, habsolute, disk_copyOutput]
    exact ⟨record_copyOutput hiff, hnext⟩
  · rw [if_neg hfile]
    refine ⟨.refl _, fun other _ hsim => ?_⟩
    rw [hbuild, hother other hsim, if_neg hfile]
    exact ⟨fun _ => rfl, hsim⟩

theorem buildPages (h : Alongside out top final sim) {files : List ContentFile}
    {report last : Report} (htop : Location.walk progress.disk.workDir out = top)
    (hkept : ∀ file ∈ files, file.deleted = false)
    (hrelative : ∀ file ∈ files, IsRelative file.relative)
    (hread : ∀ file ∈ files, ∀ part ∈ tree.chain file, progress.disk.Holds top part.absolute)
    (hbuilt : Progress.buildPages tree out files report progress = (.ok last, built)) :
    Disk.Extends progress.disk built.disk ∧
      ∀ other : Progress, Disk.Extends built.disk final → sim progress.disk other.disk →
        ∃ built', Progress.buildPages tree out files report other = (.ok last, built') ∧
          sim built.disk built'.disk := by
  induction files generalizing progress report with
  | nil =>
      cases hbuilt
      exact ⟨.refl _, fun other _ hsim => ⟨other, rfl, hsim⟩⟩
  | cons file rest ih =>
      have hfile : file ∈ file :: rest := List.mem_cons_self
      have htarget := (hrelative file hfile).target_spares progress.disk.workDir out
      have hspares := (buildContent_alters tree htarget).spares
      rw [Progress.buildPages] at hbuilt
      cases hcontent : progress.buildContent tree file out with
      | mk result next =>
          rw [hcontent] at hbuilt hspares
          rw [htop] at hspares
          cases result with
          | error error => cases hbuilt
          | ok outcome =>
              obtain ⟨hnext, hstep⟩ := h.buildContent htop (hkept file hfile)
                (hrelative file hfile) (hread file hfile) hcontent
              obtain ⟨hextends, hrest⟩ := ih (by rw [hnext.base.workDir, htop])
                (fun other hmem => hkept other (List.mem_cons_of_mem _ hmem))
                (fun other hmem => hrelative other (List.mem_cons_of_mem _ hmem))
                (fun other hmem part hpart =>
                  (hread other (List.mem_cons_of_mem _ hmem) part hpart).of_spares hspares) hbuilt
              refine ⟨hnext.trans hextends, fun other hfinal hsim => ?_⟩
              obtain ⟨outcome', next', hcontent', hrecord, hsim'⟩ :=
                hstep other (hextends.trans hfinal) hsim
              rw [Progress.buildPages, hcontent']
              dsimp only
              rw [hrecord]
              exact hrest next' hfinal hsim'

theorem buildAssets (h : Alongside out top final sim) {files : List StaticFile}
    {report : Report} (htop : Location.walk progress.disk.workDir out = top)
    (hkept : ∀ file ∈ files, file.deleted = false)
    (hrelative : ∀ file ∈ files, IsRelative file.relative)
    (hread : ∀ file ∈ files, progress.disk.Holds top file.absolute) :
    Disk.Extends progress.disk (Progress.buildAssets out files report progress).2.disk ∧
      ∀ other : Progress,
        Disk.Extends (Progress.buildAssets out files report progress).2.disk final →
        sim progress.disk other.disk →
          (Progress.buildAssets out files report other).1 =
            (Progress.buildAssets out files report progress).1 ∧
          sim (Progress.buildAssets out files report progress).2.disk
            (Progress.buildAssets out files report other).2.disk := by
  induction files generalizing progress report with
  | nil => exact ⟨.refl _, fun other _ hsim => ⟨rfl, hsim⟩⟩
  | cons file rest ih =>
      have hfile : file ∈ file :: rest := List.mem_cons_self
      have htarget := (hrelative file hfile).target_spares progress.disk.workDir out
      have hspares := (buildAsset_alters htarget).spares
      rw [htop] at hspares
      obtain ⟨hnext, hstep⟩ := h.buildAsset htop (hkept file hfile) (hrelative file hfile)
        (hread file hfile)
      obtain ⟨hextends, hrest⟩ := @ih (progress.buildAsset file out).2
        (report.record (progress.buildAsset file out).1) (by rw [hnext.base.workDir, htop])
        (fun other hmem => hkept other (List.mem_cons_of_mem _ hmem))
        (fun other hmem => hrelative other (List.mem_cons_of_mem _ hmem))
        (fun other hmem => (hread other (List.mem_cons_of_mem _ hmem)).of_spares hspares)
      refine ⟨hnext.trans hextends, fun other hfinal hsim => ?_⟩
      obtain ⟨hrecord, hsim'⟩ := hstep other (hextends.trans hfinal) hsim
      simp only [Progress.buildAssets, hrecord]
      exact hrest _ hfinal hsim'

theorem buildTrees {config : Config} {report : Report} (h : Alongside config.out top final sim)
    (htop : Location.walk progress.disk.workDir config.out = top)
    (hsource : progress.disk.Steady top config.source)
    (hassets : progress.disk.Steady top config.assets)
    (hbuilt : (progress.buildTrees config).1 = .ok report) :
    Disk.Extends progress.disk (progress.buildTrees config).2.disk ∧
      ∀ other : Progress, Disk.Extends (progress.buildTrees config).2.disk final →
        sim progress.disk other.disk →
          (other.buildTrees config).1 = .ok report ∧
          sim (progress.buildTrees config).2.disk (other.buildTrees config).2.disk := by
  obtain ⟨tree, pages, written, files, htree, hpages, hfiles, hcopied⟩ := buildTrees_eq_ok hbuilt
  have hsources : ∀ file ∈ tree.files, progress.disk.Holds top file.absolute :=
    fun file hmem => Disk.holds_of_mem_scanSource hsource.outside htree hmem
  have hscanned := Disk.scanned_of_scanSource htree
  obtain ⟨hwritten, hpagesOther⟩ := h.buildPages htop hscanned.kept
    (fun file hmem => hscanned.isRelative hmem)
    (fun file hmem part hpart => hsources part (SourceTree.mem_files_of_mem_chain hmem hpart)) hpages
  have hassets' := hassets.sameBase hwritten.base
  have hstatic : ∀ file ∈ files, written.disk.Holds top file.absolute := by
    obtain ⟨found, hfound, rfl⟩ := map_eq_ok.1 hfiles
    intro file hmem
    obtain ⟨origin, horigin, rfl⟩ := List.mem_map.1 hmem
    exact Disk.holds_of_mem_scan hassets'.outside hfound horigin
  have hcopies := Disk.scanned_of_scanAssets hfiles
  obtain ⟨hextends, hassetsOther⟩ := @buildAssets written config.out top final sim h files pages
    (by rw [hwritten.base.workDir, htop]) hcopies.kept (fun file hmem => hcopies.isRelative hmem)
    hstatic
  rw [hcopied] at hextends hassetsOther
  refine ⟨hwritten.trans hextends, fun other hfinal hsim => ?_⟩
  obtain ⟨written', hpages', hsim'⟩ := hpagesOther other (hextends.trans hfinal) hsim
  obtain ⟨hreport, hlast⟩ := hassetsOther written' hfinal hsim'
  have hother : other.buildTrees config =
      (.ok (Progress.buildAssets config.out files pages written').1,
        (Progress.buildAssets config.out files pages written').2) := by
    rw [Progress.buildTrees, (h.twins hsim).scanSource_eq hsource, htree]
    dsimp only
    rw [hpages']
    dsimp only
    rw [(h.twins hsim').scanAssets_eq hassets', hfiles]
  rw [hother]
  exact ⟨congrArg Except.ok hreport, hlast⟩

end Alongside

end Progress

end StaticSite
