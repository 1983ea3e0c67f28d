import StaticSite.Proofs.Build.Frame

-- A build does not touch what it is made from.
namespace StaticSite.Progress

-- The files that a build reads: the source tree once the output has been cleared, and the assets
-- once the pages have been written. The relative path of a file names its output.
def inputs (progress : Progress) (config : Config) : List FoundFile :=
  let (cleared, progress) :=
    if config.clear then progress.clearOutput config.out else (.ok (), progress)
  match cleared with
  | .error _ => []
  | .ok () =>
    match progress.disk.scanSource config.source with
    | .error _ => []
    | .ok tree =>
      tree.files.map (fun file => ⟨file.relative, file.absolute⟩) ++
        match buildPages tree config.out tree.files .empty progress with
        | (.error _, _) => []
        | (.ok _, progress) =>
          match progress.disk.scanAssets config.assets with
          | .error _ => []
          | .ok files => files.map fun file => ⟨file.relative, file.absolute⟩

-- What a build reads lies in one of the two trees, and what it writes in the output directory.
theorem places_of_mem_inputs {progress : Progress} {config : Config} {file : FoundFile}
    (h : file ∈ progress.inputs config) :
    (Disk.within (Location.walk progress.disk.workDir config.source)
        (Location.walk progress.disk.workDir file.absolute) ∨
      Disk.within (Location.walk progress.disk.workDir config.assets)
        (Location.walk progress.disk.workDir file.absolute)) ∧
      Disk.within (Location.walk progress.disk.workDir config.out)
        (Location.walk progress.disk.workDir (config.out.join ⟨file.relative⟩)) := by
  have hclear : (if config.clear then progress.clearOutput config.out
      else (.ok (), progress)).2.disk.workDir = progress.disk.workDir := by
    split
    · exact (progress.clearOutput_spares config.out).workDir
    · rfl
  unfold inputs at h
  rw [← hclear]
  revert h
  generalize (if config.clear then progress.clearOutput config.out else (.ok (), progress)) = cleared
  obtain ⟨result, cleared⟩ := cleared
  dsimp only
  intro h
  split at h
  · cases h
  · split at h
    · cases h
    · next tree hscan =>
      rcases List.mem_append.1 h with h | h
      · obtain ⟨page, hpage, rfl⟩ := List.mem_map.1 h
        obtain ⟨hrelative, hread⟩ := Disk.scanSource_places hscan hpage
        exact ⟨.inl hread, hrelative.within_join _ config.out⟩
      · have hpages := cleared.buildPages_spares tree .empty config.out
          fun page hmem => (Disk.scanSource_places hscan hmem).1
        split at h
        · cases h
        · next built heq =>
          rw [heq] at hpages
          split at h
          · cases h
          · next files hassets =>
            obtain ⟨asset, hasset, rfl⟩ := List.mem_map.1 h
            rw [← hpages.workDir]
            obtain ⟨hrelative, hread⟩ := Disk.scanAssets_places hassets hasset
            exact ⟨.inr hread, hrelative.within_join _ config.out⟩

-- Where the output directory neither holds a tree nor lies in one, a build creates, changes and
-- removes no file of the trees. All that it changes lies in the output directory, where it also
-- puts the output of each file, and all that it reads lies in the trees and outside of there.
theorem buildAll_spares_inputs {disk : Disk} {config : Config} {source assets out : Location}
    (hsource : Location.walk disk.workDir config.source = source)
    (hassets : Location.walk disk.workDir config.assets = assets)
    (hout : Location.walk disk.workDir config.out = out)
    (houtSource : ¬ Disk.within out source) (hsourceOut : ¬ Disk.within source out)
    (houtAssets : ¬ Disk.within out assets) (hassetsOut : ¬ Disk.within assets out) :
    (∀ location, Disk.within source location ∨ Disk.within assets location →
      ((start disk).buildAll config).2.disk.file? location = disk.file? location) ∧
    (∀ location, ((start disk).buildAll config).2.disk.file? location ≠ disk.file? location →
      Disk.within out location) ∧
    ∀ file ∈ (start disk).inputs config,
      let input := Location.walk disk.workDir file.absolute
      (Disk.within source input ∨ Disk.within assets input) ∧ ¬ Disk.within out input ∧
        Disk.within out (Location.walk disk.workDir (config.out.join ⟨file.relative⟩)) := by
  subst hsource hassets hout
  have hspares : disk.Spares (Location.walk disk.workDir config.out)
      ((start disk).buildAll config).2.disk := buildAll_spares (start disk) config
  have hapart : ∀ location, Disk.within (Location.walk disk.workDir config.source) location ∨
      Disk.within (Location.walk disk.workDir config.assets) location →
      ¬ Disk.within (Location.walk disk.workDir config.out) location := by
    rintro location (hin | hin) hwithin
    · exact (Disk.within_or_within hwithin hin).elim houtSource hsourceOut
    · exact (Disk.within_or_within hwithin hin).elim houtAssets hassetsOut
  refine ⟨fun location hin => hspares.file? location (hapart location hin), ?_, ?_⟩
  · intro location hne
    by_contra hnot
    exact hne (hspares.file? location hnot)
  · intro file hmem
    obtain ⟨hin, hwritten⟩ := places_of_mem_inputs hmem
    exact ⟨hin, hapart _ hin, hwritten⟩

-- A page and an asset in two directories next to each other.
def project (top : Location) : Disk :=
  let disk := (top.foldr (fun name (disk, parent) => (disk.putDirectory name parent, name :: parent))
    (Disk.blank, [])).1
  let disk := ((disk.putDirectory "src" top).putDirectory "static" top).workIn ["site"]
  (disk.putFile "a.html" ("src" :: top) "x".toUTF8).putFile "s.css" ("static" :: top) "y".toUTF8

theorem buildAll_spares_inputs_of_project :
    (project ["site"]).file? ["a.html", "src", "site"] = some "x".toUTF8 ∧
      ((start (project ["site"])).inputs default).map (·.relative) = ["a.html", "s.css"] ∧
      ((start (project ["site"])).buildAll default).2.disk.file? ["a.html", "dist", "site"] =
        some "x".toUTF8 ∧
      ((start (project ["site"])).buildAll default).2.disk.file? ["a.html", "src", "site"] =
        (project ["site"]).file? ["a.html", "src", "site"] := by
  have hsource : Location.walk (project ["site"]).workDir (default : Config).source =
      ["src", "site"] := by decide +kernel
  have hassets : Location.walk (project ["site"]).workDir (default : Config).assets =
      ["static", "site"] := by decide +kernel
  have hout : Location.walk (project ["site"]).workDir (default : Config).out =
      ["dist", "site"] := by decide +kernel
  have hspares := buildAll_spares_inputs hsource hassets hout (by decide) (by decide) (by decide)
    (by decide)
  exact ⟨by decide +kernel, by decide +kernel, by decide +kernel,
    hspares.1 ["a.html", "src", "site"] (by decide)⟩

-- That the three directories differ is not enough: an output directory that holds the trees is
-- removed with them before they are read.
theorem buildAll_removes_inputs_below_out :
    ¬ ∀ (disk : Disk) (config : Config), config.validate disk.base? = .ok () → ∀ location,
      Disk.within (Location.walk disk.workDir config.source) location →
        ((start disk).buildAll config).2.disk.file? location = disk.file? location := by
  intro h
  have hfalse := h (project ["out", "site"]) ⟨⟨"out/src"⟩, ⟨"out/static"⟩, ⟨"out"⟩, true⟩
    (by decide +kernel) ["a.html", "src", "out", "site"] (by decide +kernel)
  revert hfalse
  decide +kernel

end StaticSite.Progress
