import StaticSite.Proofs.Build.Inputs
import StaticSite.Proofs.Build.Published

-- What a build leaves in the output directory.
namespace StaticSite.Progress

variable {progress : Progress}

-- What a build works on: the source tree once the output has been cleared, and the assets once the
-- pages have been written.
def scans (progress : Progress) (config : Config) :
    Except BuildError (SourceTree × List StaticFile) := do
  let (cleared, progress) :=
    if config.clear then progress.clearOutput config.out else (.ok (), progress)
  cleared
  let tree ← (progress.disk.scanSource config.source).mapError .scan
  let (pages, progress) := buildPages tree config.out tree.files .empty progress
  let _ ← pages
  let files ← (progress.disk.scanAssets config.assets).mapError .scan
  return (tree, files)

theorem buildTrees_eq_ok {config : Config} {report : Report}
    (h : (progress.buildTrees config).1 = .ok report) :
    ∃ tree pages written files, progress.disk.scanSource config.source = .ok tree ∧
      buildPages tree config.out tree.files .empty progress = (.ok pages, written) ∧
      written.disk.scanAssets config.assets = .ok files ∧
      buildAssets config.out files pages written = (report, (progress.buildTrees config).2) := by
  unfold buildTrees at *
  split at h
  · cases h
  · next tree htree =>
    split at h
    · cases h
    · next pages written hpages =>
      split at h
      · cases h
      · next files hfiles =>
        cases h
        exact ⟨tree, pages, written, files, htree, hpages, hfiles, rfl⟩

-- A build is one of both trees, once the output has been cleared if the config asks for it.
theorem buildAll_of_cleared {config : Config} {cleared : Progress}
    (h : (if config.clear then progress.clearOutput config.out else (.ok (), progress)) =
      (.ok (), cleared)) : progress.buildAll config = cleared.buildTrees config := by
  unfold buildAll
  split
  · next hclear =>
    rw [if_pos hclear] at h
    simp only [h]
  · next hclear =>
    rw [if_neg hclear] at h
    cases h
    rfl

theorem exists_cleared {config : Config} {report : Report}
    (h : (progress.buildAll config).1 = .ok report) : ∃ cleared,
      (if config.clear then progress.clearOutput config.out else (.ok (), progress)) =
        (.ok (), cleared) := by
  unfold buildAll at h
  split at h
  · next hclear =>
    split at h
    · cases h
    · next cleared hcleared => exact ⟨cleared, by rw [if_pos hclear, hcleared]⟩
  · next hclear => exact ⟨progress, if_neg hclear⟩

-- The stages of a build that comes to its end.
theorem buildAll_eq_ok {config : Config} {report : Report}
    (h : (progress.buildAll config).1 = .ok report) :
    ∃ cleared tree pages written files,
      (if config.clear then progress.clearOutput config.out else (.ok (), progress)) =
        (.ok (), cleared) ∧
      cleared.disk.scanSource config.source = .ok tree ∧
      buildPages tree config.out tree.files .empty cleared = (.ok pages, written) ∧
      written.disk.scanAssets config.assets = .ok files ∧
      buildAssets config.out files pages written = (report, (progress.buildAll config).2) ∧
      progress.scans config = .ok (tree, files) := by
  obtain ⟨cleared, hcleared⟩ := exists_cleared h
  have hbuild := buildAll_of_cleared hcleared
  rw [hbuild] at h ⊢
  obtain ⟨tree, pages, written, files, htree, hpages, hfiles, hbuilt⟩ := buildTrees_eq_ok h
  refine ⟨cleared, tree, pages, written, files, hcleared, htree, hpages, hfiles, hbuilt, ?_⟩
  simp [scans, hcleared, htree, hpages, hfiles, bind, Except.bind, Except.mapError, pure,
    Except.pure]

-- Directories of which none lies in another share no place.
theorem not_within_of_apart {disk : Disk} {left right : Path} {leftTarget rightTarget : Path}
    (hleft : left.absolute disk.base? = .ok leftTarget)
    (hright : right.absolute disk.base? = .ok rightTarget)
    (h : ¬ leftTarget.startsWith rightTarget ∧ ¬ rightTarget.startsWith leftTarget)
    (location : Location) (hin : Disk.within (Location.walk disk.workDir left) location) :
    ¬ Disk.within (Location.walk disk.workDir right) location := by
  obtain ⟨rfl, hleftNamed⟩ := Disk.eq_path_of_absolute hleft
  obtain ⟨rfl, hrightNamed⟩ := Disk.eq_path_of_absolute hright
  rw [Location.startsWith_path_iff hleftNamed hrightNamed,
    Location.startsWith_path_iff hrightNamed hleftNamed] at h
  exact fun hwithin => (Disk.within_or_within hin hwithin).elim h.2 h.1

-- A build counts each file of its scans once, and removes none of their outputs. If nothing fails,
-- the output directory holds the public pages, as their chains compose, and the assets, as they
-- are, where an asset stands in for a page of the same name, and holds no other file. As all normal
-- paths do, that of the output directory goes up only before it goes down: what a path like
-- `x/../out` names is not found, and so not cleared, while there is no `x`.
theorem buildAll_exact {config : Config} {report : Report} {source assets out : Path}
    (hclear : config.clear = true)
    (hsource : config.source.absolute progress.disk.base? = .ok source)
    (hassets : config.assets.absolute progress.disk.base? = .ok assets)
    (hout : config.out.absolute progress.disk.base? = .ok out)
    (hapart : [source, assets, out].Pairwise fun left right =>
      ¬ left.startsWith right ∧ ¬ right.startsWith left)
    (hstraight : config.out.Straight) (h : (progress.buildAll config).1 = .ok report) :
    ∃ tree files, progress.scans config = .ok (tree, files) ∧
      report.written + report.skipped + report.copied + report.failed =
        tree.size + files.length ∧
      report.removed = 0 ∧
      (report.failed = 0 →
        report.written = tree.files.countP ContentFile.isPublic ∧
        report.skipped = tree.files.countP ContentFile.isHidden ∧
        report.copied = files.length ∧
        (∀ file ∈ tree.files, file.isPublic →
          ∃ page, progress.disk.composePage tree file = .ok page) ∧
        (∀ file ∈ files, ∃ content, progress.disk.file?
          (Location.walk progress.disk.workDir file.absolute) = some content) ∧
        let top := Location.walk progress.disk.workDir config.out
        ∀ location content, Disk.within top location →
          ((progress.buildAll config).2.disk.file? location = some content ↔
            progress.disk.AssetOutput top files location content ∨
              progress.disk.PageOutput tree top tree.files location content ∧
                ∀ file ∈ files, location ≠ Location.walk top ⟨file.relative⟩)) := by
  obtain ⟨cleared, tree, pages, written, files, hcleared, htree, hpages, hfiles, hbuilt, hscans⟩ :=
    buildAll_eq_ok h
  rw [if_pos hclear] at hcleared
  have hclearedSpares := progress.clearOutput_spares config.out
  rw [hcleared] at hclearedSpares
  have hsourceApart := not_within_of_apart hsource hout
    ((List.pairwise_cons.1 hapart).1 out (by simp))
  have hassetsApart := not_within_of_apart hassets hout
    ((List.pairwise_cons.1 (List.pairwise_cons.1 hapart).2).1 out (by simp))
  have htreeScanned := Disk.scanned_of_scanSource htree
  rw [hclearedSpares.workDir] at htreeScanned
  have hwrittenSpares := cleared.buildPages_spares tree .empty config.out
    fun file hmem => htreeScanned.isRelative hmem
  rw [hpages, hclearedSpares.workDir] at hwrittenSpares
  have hworkDir := hwrittenSpares.workDir.trans hclearedSpares.workDir
  have hfilesScanned := Disk.scanned_of_scanAssets hfiles
  rw [hworkDir] at hfilesScanned
  have hpagesReport := buildPages_report htreeScanned.kept (congrArg Prod.fst hpages)
  have hassetsReport := @buildAssets_report written config.out files pages hfilesScanned.kept
  rw [hbuilt] at hassetsReport
  have hcount : tree.files.countP ContentFile.isPublic + tree.files.countP ContentFile.isHidden =
      tree.size := by
    rw [SourceTree.size, List.length_eq_countP_add_countP ContentFile.isPublic]
    simp [ContentFile.isPublic]
  simp only [Report.empty] at hpagesReport hassetsReport
  refine ⟨tree, files, hscans, by omega, by omega, fun hok => ?_⟩
  have htop : ∀ disk : Disk, disk.workDir = progress.disk.workDir →
      Location.walk disk.workDir config.out = Location.walk progress.disk.workDir config.out :=
    fun disk hwork => hwork ▸ rfl
  obtain ⟨hpagesPut, hcomposed⟩ := buildPages_publishes htreeScanned (fun _ hmem => hmem)
    (htop _ hclearedSpares.workDir) hsourceApart hclearedSpares.file? hpages (by omega)
  obtain ⟨hassetsPut, hread⟩ := @buildAssets_publishes written config.out _ _ progress.disk files
    files pages hfilesScanned (fun _ hmem => hmem) hworkDir (htop _ hworkDir) hassetsApart
    (fun location hnot => (hwrittenSpares.file? location hnot).trans
      (hclearedSpares.file? location hnot)) (by rw [hbuilt]; exact hok)
  rw [hbuilt] at hassetsPut
  refine ⟨by omega, by omega, by omega, hcomposed, hread, fun location content hwithin => ?_⟩
  have hnone := file?_clearOutput hout hstraight hcleared hwithin
  rw [(hpagesPut.trans hassetsPut).file?_iff hnone]
  refine or_congr_right (and_congr_right fun _ => ⟨fun hnot file hmem heq => ?_, ?_⟩)
  · obtain ⟨other, hother⟩ := hread file hmem
    exact hnot other ⟨file, hmem, heq, hother⟩
  · rintro hnot other ⟨file, hmem, heq, -⟩
    exact hnot file hmem heq

-- A page, a hidden file, and two assets, one of them with the name of the page.
def overlap : Progress :=
  .start (((project ["site"]).putFile "~note.html" ["src", "site"] "z".toUTF8).putFile "a.html"
    ["static", "site"] "y".toUTF8)

theorem buildAll_exact_of_overlap :
    (overlap.buildAll default).1 = .ok ⟨1, 2, 0, 1, 0⟩ ∧
    (∃ tree files, overlap.scans default = .ok (tree, files) ∧ tree.size + files.length = 4 ∧
      tree.files.countP ContentFile.isHidden = 1 ∧
      ∀ content, (overlap.buildAll default).2.disk.file? ["a.html", "dist", "site"] = some content →
        overlap.disk.AssetOutput ["dist", "site"] files ["a.html", "dist", "site"] content ∨
          overlap.disk.PageOutput tree ["dist", "site"] tree.files ["a.html", "dist", "site"]
            content) ∧
    (overlap.buildAll default).2.disk.file? ["a.html", "dist", "site"] = some "y".toUTF8 ∧
    (overlap.buildAll default).2.disk.file? ["~note.html", "dist", "site"] = none := by
  obtain ⟨hreport, hmade, hhidden, htop⟩ :
      (overlap.buildAll default).1 = .ok ⟨1, 2, 0, 1, 0⟩ ∧
        (overlap.buildAll default).2.disk.file? ["a.html", "dist", "site"] = some "y".toUTF8 ∧
        (overlap.buildAll default).2.disk.file? ["~note.html", "dist", "site"] = none ∧
        Location.walk overlap.disk.workDir (default : Config).out = ["dist", "site"] := by
    decide +kernel
  obtain ⟨tree, files, hscans, htotal, -, hexact⟩ := @buildAll_exact overlap default
    ⟨1, 2, 0, 1, 0⟩ ⟨"/site/src"⟩ ⟨"/site/static"⟩ ⟨"/site/dist"⟩ rfl (by decide +kernel)
    (by decide +kernel) (by decide +kernel) (by decide +kernel)
    (Path.straight_of_normal (by decide +kernel)) hreport
  obtain ⟨-, hskipped, -, -, -, houtput⟩ := hexact rfl
  rw [htop] at houtput
  refine ⟨hreport, ⟨tree, files, hscans, htotal.symm, hskipped.symm, fun content hcontent => ?_⟩,
    hmade, hhidden⟩
  exact ((houtput _ content (by decide)).1 hcontent).imp_right And.left

end StaticSite.Progress
