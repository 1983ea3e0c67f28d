import StaticSite.Proofs.Watch.Start

-- A session starts although some pages do not compose: only these have no output.
namespace StaticSite

open Disk (within)

-- A disk can make a file of this path.
def Path.Creatable (path : Path) : Prop :=
  path.check = .ok () ∧
    ∀ segment ∈ segments path.text, segment.utf8ByteSize ≤ Disk.longestName

instance (path : Path) : Decidable path.Creatable := by
  unfold Path.Creatable
  infer_instance

theorem Location.creatable_path_iff {location : Location} (hne : location ≠ [])
    (hnamed : location.Named) : location.path.Creatable ↔ location.Followable ∧
      ∀ name ∈ location, name.utf8ByteSize ≤ Disk.longestName := by
  rw [Path.Creatable, segments_path hnamed hne]
  refine and_congr_right fun _ => ⟨fun h name hmem => ?_, fun h name hmem => ?_⟩
  · exact h name (List.mem_cons_of_mem _ (List.mem_reverse.2 hmem))
  · rcases List.mem_cons.1 hmem with rfl | hmem
    · decide
    · exact h name (List.mem_reverse.1 hmem)

namespace Disk

-- No public page and no asset have the same relative path or one that lies below the other, and
-- each can be put in the output.
structure Separate (disk : Disk) (config : Config) : Prop where
  apart : ∀ tree ∈ (disk.scanSource config.source).toOption,
    ∀ files ∈ (disk.scanAssets config.assets).toOption,
      ∀ page ∈ tree.files, page.isPublic → ∀ file ∈ files,
        ¬ Path.startsWith ⟨page.relative⟩ ⟨file.relative⟩ ∧
          ¬ Path.startsWith ⟨file.relative⟩ ⟨page.relative⟩
  page : ∀ tree ∈ (disk.scanSource config.source).toOption,
    ∀ page ∈ tree.files, page.isPublic → (config.out.join ⟨page.relative⟩).Creatable
  asset : ∀ files ∈ (disk.scanAssets config.assets).toOption,
    ∀ file ∈ files, (config.out.join ⟨file.relative⟩).Creatable

variable {roots : Roots} {disk : Disk} {place page asset : Location}

-- The places below the output directory that files are meant for.
def Meant (disk : Disk) (roots : Roots) (place : Location) : Prop :=
  disk.Public roots place ∨ place ∈ disk.listed roots.assets

theorem Meant.file?_isSome (h : disk.Meant roots place) :
    place ≠ [] ∧ place.Named ∧ ∃ root ∈ [roots.source, roots.assets],
      (disk.file? (place ++ root)).isSome := by
  have hroot : ∀ root, place ∈ disk.listed root →
      place ≠ [] ∧ place.Named ∧ (disk.file? (place ++ root)).isSome := fun root hmem =>
    have ⟨hne, _, hfile⟩ := mem_listed.1 hmem
    ⟨hne, (named_of_mem_listed hmem).of_append_left, hfile⟩
  rcases h with hpublic | hmem
  · obtain ⟨hne, hnamed, hfile⟩ := hroot _ (mem_pagesBelow.1 hpublic.1).1
    exact ⟨hne, hnamed, roots.source, by simp, hfile⟩
  · obtain ⟨hne, hnamed, hfile⟩ := hroot _ hmem
    exact ⟨hne, hnamed, roots.assets, by simp, hfile⟩

-- The public pages of the tree are those at the public places.
theorem Public.exists_page (h : disk.Public roots place) :
    ∃ page ∈ (SourceTree.below roots.source (disk.pagesBelow roots.source)).files,
      page.isPublic ∧ page.relative = "/".intercalate place.reverse := by
  obtain ⟨index, hindex⟩ := List.mem_iff_getElem?.1 h.1
  obtain ⟨hne, hnamed⟩ := (disk.places_pagesBelow roots.source).2 place h.1
  refine ⟨_, SourceTree.mem_files_below.2 ⟨index, place, hindex, rfl⟩, ?_, rfl⟩
  have hhidden := @isHidden_contentAt roots.source place hne hnamed
  rw [h.2] at hhidden
  rw [ContentFile.isPublic, Bool.not_eq_true', ← hhidden]
  rfl

theorem public_of_mem_below {page : ContentFile}
    (hmem : page ∈ (SourceTree.below roots.source (disk.pagesBelow roots.source)).files)
    (hpublic : page.isPublic) : disk.Public roots (Location.walk [] ⟨page.relative⟩) := by
  obtain ⟨index, place, hindex, rfl⟩ := SourceTree.mem_files_below.1 hmem
  have hplace := List.mem_of_getElem? hindex
  obtain ⟨hne, hnamed⟩ := (disk.places_pagesBelow roots.source).2 place hplace
  have hrelative : (SourceTree.linked roots.source (disk.pagesBelow roots.source) index
      place).relative = "/".intercalate place.reverse := rfl
  rw [hrelative, Location.walk_names hnamed, List.append_nil]
  refine ⟨hplace, ?_⟩
  rw [← @isHidden_contentAt roots.source place hne hnamed]
  rw [ContentFile.isPublic, Bool.not_eq_true'] at hpublic
  exact hpublic

theorem listed_of_mem_assets {file : StaticFile}
    (hmem : file ∈ (disk.listed roots.assets).map (assetAt roots.assets)) :
    Location.walk [] ⟨file.relative⟩ ∈ disk.listed roots.assets ∧
      disk.isFile file.absolute = true ∧ ∃ content,
        disk.file? (Location.walk disk.workDir file.absolute) = some content := by
  obtain ⟨place, hplace, rfl⟩ := List.mem_map.1 hmem
  obtain ⟨-, hfollow, hfile⟩ := mem_listed.1 hplace
  have hnamed := named_of_mem_listed hplace
  have habsolute : (assetAt roots.assets place).absolute =
      Location.path (place ++ roots.assets) := rfl
  have hrelative : (assetAt roots.assets place).relative = "/".intercalate place.reverse := rfl
  rw [habsolute, hrelative, Location.walk_names hnamed.of_append_left, List.append_nil,
    Location.walk_path hnamed]
  exact ⟨hplace, (isFile_path hnamed).2 ⟨hfollow, hfile⟩, Option.isSome_iff_exists.1 hfile⟩

-- The scans of a config whose directories are the roots.
theorem mem_scanSource_config (disk : Disk) (roots : Roots) :
    SourceTree.below roots.source (disk.pagesBelow roots.source) ∈
      (disk.scanSource roots.config.source).toOption := by
  rw [show roots.config.source = roots.source.path from rfl, scanSource_path roots.source_keeps]
  rfl

theorem mem_scanAssets_config (disk : Disk) (roots : Roots) :
    (disk.listed roots.assets).map (assetAt roots.assets) ∈
      (disk.scanAssets roots.config.assets).toOption := by
  rw [show roots.config.assets = roots.assets.path from rfl, scanAssets_path roots.assets_keeps]
  rfl

namespace Separate

theorem not_within (h : disk.Separate roots.config) (hpage : disk.Public roots page)
    (hasset : asset ∈ disk.listed roots.assets) : ¬ within asset page ∧ ¬ within page asset := by
  obtain ⟨file, hmem, hpublic, hrelative⟩ := hpage.exists_page
  obtain ⟨-, hnamed, -⟩ := Meant.file?_isSome (.inl hpage)
  obtain ⟨-, hnamed', -⟩ := Meant.file?_isSome (.inr hasset)
  have hpair := h.apart _ (disk.mem_scanSource_config roots) _ (disk.mem_scanAssets_config roots)
    file hmem hpublic (assetAt roots.assets asset) (List.mem_map.2 ⟨asset, hasset, rfl⟩)
  rw [hrelative, show (assetAt roots.assets asset).relative =
    "/".intercalate asset.reverse from rfl, Location.startsWith_names_iff hnamed hnamed',
    Location.startsWith_names_iff hnamed' hnamed] at hpair
  exact hpair

theorem creatable (h : disk.Separate roots.config) (hplace : disk.Meant roots place) :
    (Location.path (place ++ roots.out)).Creatable := by
  obtain ⟨hne, hnamed, -⟩ := hplace.file?_isSome
  rw [← Location.join_path roots.out_ne_nil roots.out_named hne hnamed]
  rcases hplace with hpublic | hmem
  · obtain ⟨file, hmem, hpublic, hrelative⟩ := hpublic.exists_page
    rw [← hrelative]
    exact h.page _ (disk.mem_scanSource_config roots) file hmem hpublic
  · exact h.asset _ (disk.mem_scanAssets_config roots) (assetAt roots.assets place)
      (List.mem_map.2 ⟨place, hmem, rfl⟩)

theorem fits (h : disk.Separate roots.config) : Fits roots.out (disk.Meant roots) := by
  have hcreatable : ∀ place, disk.Meant roots place →
      Location.Named (place ++ roots.out) ∧ Location.Followable (place ++ roots.out) ∧
        ∀ name ∈ place ++ roots.out, name.utf8ByteSize ≤ longestName := by
    intro place hplace
    obtain ⟨hne, hnamed, -⟩ := hplace.file?_isSome
    have hnamed := hnamed.append roots.out_named
    exact ⟨hnamed, (Location.creatable_path_iff (by simp [hne]) hnamed).1 (h.creatable hplace)⟩
  -- No file has another below it.
  have hfile : ∀ root place more : Location, more ≠ [] → (disk.file? (place ++ root)).isSome →
      (disk.file? (more ++ place ++ root)).isSome → False := by
    intro root place more hmore hplace hbelow
    obtain ⟨content, hcontent⟩ := Option.isSome_iff_exists.1 hplace
    have hkind : disk.kind? (place ++ root) ≠ some .directory := by
      rw [file?_eq_some.1 hcontent]
      simp
    rw [file?, List.append_assoc, kind?_below_of_ne_directory hkind hmore] at hbelow
    cases hbelow
  refine ⟨fun place hplace => hplace.file?_isSome.1, fun place more hplace hmore hbelow => ?_,
    fun place hplace => (hcreatable place hplace).2.1,
    fun place hplace => (hcreatable place hplace).1,
    fun place hplace => (hcreatable place hplace).2.2⟩
  rcases hplace with hpage | hasset <;> rcases hbelow with hpage' | hasset'
  · exact hfile roots.source place more hmore (mem_listed.1 (mem_pagesBelow.1 hpage.1).1).2.2
      (mem_listed.1 (mem_pagesBelow.1 hpage'.1).1).2.2
  · exact (h.not_within hpage hasset').2 (within_append more place)
  · exact (h.not_within hpage' hasset).1 (within_append more place)
  · exact hfile roots.assets place more hmore (mem_listed.1 hasset).2.2 (mem_listed.1 hasset').2.2

end Separate

-- What a directory holds of two trees: the public pages that compose, the assets, and nothing else.
structure Carries (before : Disk) (tree : SourceTree) (files : List StaticFile) (top : Location)
    (after : Disk) : Prop where
  page : ∀ page ∈ tree.files, page.isPublic → after.file? (Location.walk top ⟨page.relative⟩) =
    (before.composePage tree page).toOption.map fun text => (String.ofList text).toUTF8
  asset : ∀ file ∈ files, ∃ content,
    before.file? (Location.walk before.workDir file.absolute) = some content ∧
      after.file? (Location.walk top ⟨file.relative⟩) = some content
  rest : ∀ location, within top location → (after.file? location).isSome →
    (∃ page ∈ tree.files, page.isPublic ∧ location = Location.walk top ⟨page.relative⟩) ∨
      ∃ file ∈ files, location = Location.walk top ⟨file.relative⟩

variable {before cleared after : Disk} {tree : SourceTree} {files : List StaticFile}
  {root top : Location}

theorem Publishes.carries (hputs : cleared.Publishes (fun location content =>
      before.PageOutput tree top tree.files location content ∨
        before.AssetOutput top files location content) after)
    (hnone : ∀ location, within top location → cleared.file? location = none)
    (htree : tree.Scanned root)
    (hread : ∀ file ∈ files, ∃ content,
      before.file? (Location.walk before.workDir file.absolute) = some content)
    (hapart : ∀ page ∈ tree.files, page.isPublic → ∀ file ∈ files,
      Location.walk top ⟨page.relative⟩ ≠ Location.walk top ⟨file.relative⟩) :
    before.Carries tree files top after := by
  refine ⟨fun page hmem hpublic => ?_, fun file hmem => ?_, fun location hwithin hfile => ?_⟩
  · cases hpage : before.composePage tree page with
    | ok text => exact hputs.made _ _ (.inl ⟨page, hmem, hpublic, rfl, text, hpage, rfl⟩)
    | error error =>
        refine (hputs.same _ fun content hout => ?_).trans
          (hnone _ ((htree.isRelative hmem).within_walk top))
        rcases hout with ⟨other, hother, -, hplace, text, htext, -⟩ | ⟨file, hfile, hplace, -⟩
        · rw [← htree.eq_of_place hmem hother hpublic hplace, hpage] at htext
          cases htext
        · exact hapart page hmem hpublic file hfile hplace
  · obtain ⟨content, hcontent⟩ := hread file hmem
    exact ⟨content, hcontent, hputs.made _ _ (.inr ⟨file, hmem, rfl, hcontent⟩)⟩
  · obtain ⟨content, hcontent⟩ := Option.isSome_iff_exists.1 hfile
    rcases (hputs.file?_iff (hnone location hwithin)).1 hcontent with
      ⟨page, hmem, hpublic, hplace, -⟩ | ⟨file, hmem, hplace, -⟩
    · exact .inl ⟨page, hmem, hpublic, hplace⟩
    · exact .inr ⟨file, hmem, hplace⟩

end Disk

-- An output directory that has been cleared can be filled.
theorem Progress.fills_of_clearOutput {roots : Roots} {progress : Progress}
    {places : Location → Prop} (h : (progress.clearOutput roots.out.path).1 = .ok ()) :
    (progress.clearOutput roots.out.path).2.disk.Fills roots.out places := by
  refine ⟨fun below content hfile => ?_, fun below hdirectory => ?_,
    fun location content hwithin hfile => ?_⟩
  · rw [Disk.file?, kind?_clearOutput h, if_pos (Disk.within_append below roots.out)] at hfile
    cases hfile
  · rw [kind?_clearOutput h, if_pos (Disk.within_append below roots.out)] at hdirectory
    cases hdirectory
  · rw [kind?_clearOutput h] at hfile
    split at hfile
    · cases hfile
    · next hnot =>
      by_cases hdirectory : progress.disk.kind? roots.out = some .directory
      · obtain ⟨lower, hlower⟩ := Disk.within_iff.1 hwithin
        have hne : lower ≠ [] := by
          rintro rfl
          exact hnot (Disk.within_iff.2 ⟨[], hlower.symm⟩)
        rw [hlower] at hdirectory
        rw [Disk.kind?_above hne hdirectory] at hfile
        cases hfile
      · exact ((clearOutput_of_ne hdirectory).2 h).2.2 location content hwithin hfile

section

variable {roots : Roots} {progress : Progress} {before : Disk}

theorem Disk.scanned_below (disk : Disk) (roots : Roots) :
    (SourceTree.below roots.source (disk.pagesBelow roots.source)).Scanned roots.source := by
  have hscanned := scanned_of_scanSource (@scanSource_path disk _ roots.source_keeps)
  rwa [Location.walk_path roots.source_keeps.2.1] at hscanned

theorem Disk.scanned_assets (disk : Disk) (roots : Roots) :
    StaticFile.Scanned roots.assets ((disk.listed roots.assets).map (assetAt roots.assets)) := by
  have hscanned := scanned_of_scanAssets (@scanAssets_path disk _ roots.assets_keeps)
  rwa [Location.walk_path roots.assets_keeps.2.1] at hscanned

-- The source watcher builds the pages of an output that is being filled.
theorem SourceWatcher.buildAll_fills (files : List Location)
    (hfits : Fits roots.out (before.Meant roots))
    (hsame : ∀ location, ¬ within roots.out location →
      progress.disk.file? location = before.file? location)
    (h : progress.disk.Fills roots.out (before.Meant roots)) :
    ∃ rebuilds next, (knowing roots files).buildAll progress =
        ⟨knowing roots (before.pagesBelow roots.source), next, .ok rebuilds⟩ ∧
      next.disk.Fills roots.out (before.Meant roots) ∧
      progress.disk.Publishes (before.PageOutput
        (.below roots.source (before.pagesBelow roots.source)) roots.out
        (SourceTree.below roots.source (before.pagesBelow roots.source)).files) next.disk := by
  rw [buildAll, rescan_knowing, show (progress.announce .building).disk = progress.disk from rfl,
    (Disk.Agree.of_outside hsame).pagesBelow_eq]
  refine ⟨_, _, rfl, ?_⟩
  exact @rebuildEach_fills ((progress.announce .building).note (.rescanning roots.source.path))
    before roots.source roots.out (before.Meant roots) .changed none
    (knowing roots (before.pagesBelow roots.source)) _ hfits roots.out_ne_nil roots.out_named rfl
    (before.scanned_below roots) (fun _ hmem => hmem)
    (fun page hmem hpublic => .inl (Disk.public_of_mem_below hmem hpublic))
    (fun location hwithin => roots.not_within_out_of_within_tree .source hwithin) hsame h

theorem StaticWatcher.buildAll_fills (files : List Location)
    (hfits : Fits roots.out (before.Meant roots))
    (hsame : ∀ location, ¬ within roots.out location →
      progress.disk.file? location = before.file? location)
    (h : progress.disk.Fills roots.out (before.Meant roots)) :
    ∃ rebuilds next, (knowing roots files).buildAll progress =
        ⟨knowing roots (before.listed roots.assets), next, .ok rebuilds⟩ ∧
      progress.disk.Publishes (before.AssetOutput roots.out
        ((before.listed roots.assets).map (Disk.assetAt roots.assets))) next.disk := by
  rw [buildAll, rescan_knowing _ rfl rfl, (Disk.Agree.of_outside hsame).listed_eq]
  refine ⟨_, _, rfl, ?_⟩
  exact (@rebuildEach_fills (progress.note (.rescanning roots.assets.path)) before roots.assets
    roots.out (before.Meant roots) .changed none (knowing roots (before.listed roots.assets)) _ _
    hfits roots.out_ne_nil roots.out_named rfl (before.scanned_assets roots) (fun _ hmem => hmem)
    (fun file hmem => .inr (Disk.listed_of_mem_assets hmem).1)
    (fun file hmem => (Disk.listed_of_mem_assets hmem).2.1)
    (fun location hwithin => roots.not_within_out_of_within_tree .static hwithin) hsame h).2

end

namespace Session

variable {roots : Roots} {progress : Progress} {before : Disk}

theorem build_carries (hseparate : before.Separate roots.config)
    (hsame : ∀ location, ¬ within roots.out location →
      progress.disk.file? location = before.file? location)
    (hnone : ∀ location, within roots.out location → progress.disk.file? location = none)
    (h : progress.disk.Fills roots.out (before.Meant roots)) :
    ∃ next, (knowing roots before).build progress = (.ok (knowing roots before), next) ∧
      before.Carries (knowing roots before).source.files (knowing roots before).assets.files
        roots.out next.disk := by
  obtain ⟨pages, middle, hsource, hfills, hfirst⟩ := SourceWatcher.buildAll_fills
    (before.pagesBelow roots.source) hseparate.fits hsame h
  have hsource' : (knowing roots before).source.buildAll progress =
      ⟨.knowing roots (before.pagesBelow roots.source), middle, .ok pages⟩ := hsource
  have hsame' : ∀ location, ¬ within roots.out location →
      middle.disk.file? location = before.file? location := fun location hnot =>
    (hfirst.same location fun content hout => hnot
      (Disk.within_of_pageOutput (before.scanned_below roots) (fun _ hmem => hmem) hout)).trans
      (hsame location hnot)
  obtain ⟨copies, next, hassets, hsecond⟩ := StaticWatcher.buildAll_fills
    (before.listed roots.assets) hseparate.fits hsame' hfills
  have hassets' : (knowing roots before).assets.buildAll middle =
      ⟨.knowing roots (before.listed roots.assets), next, .ok copies⟩ := hassets
  -- No page and no asset have the same output.
  have hnever : ∀ page ∈ (knowing roots before).source.files.files, page.isPublic →
      ∀ file ∈ (knowing roots before).assets.files,
        Location.walk roots.out ⟨page.relative⟩ ≠ Location.walk roots.out ⟨file.relative⟩ := by
    intro page hpage hpublic file hfile heq
    have hplace := ((before.scanned_below roots).isRelative hpage).eq_of_walk
      ((before.scanned_assets roots).isRelative hfile) heq
    have hpublic := Disk.public_of_mem_below hpage hpublic
    rw [hplace] at hpublic
    exact (hseparate.not_within hpublic (Disk.listed_of_mem_assets hfile).1).1 (Disk.within_refl _)
  refine ⟨next, by simp only [build, hsource', hassets']; rfl, ?_⟩
  refine Disk.Publishes.carries (hfirst.trans_of_agree hsecond ?_) hnone
    (before.scanned_below roots) (fun file hmem => (Disk.listed_of_mem_assets hmem).2.2) hnever
  rintro location content other ⟨page, hpage, hpublic, rfl, -⟩ ⟨file, hfile, hplace, -⟩
  exact absurd hplace (hnever page hpage hpublic file hfile)

-- From a cleared output on, a session starts and builds each file that it can.
theorem start_carries (hclear : (progress.clearOutput roots.out.path).1 = .ok ())
    (hseparate : progress.disk.Separate roots.config) :
    ∃ next, start progress roots.config = (.ok (knowing roots progress.disk), next) ∧
      progress.disk.Carries (knowing roots progress.disk).source.files
        (knowing roots progress.disk).assets.files roots.out next.disk := by
  have hcleared : clear progress roots.config roots.out.path =
      (.ok (), (progress.clearOutput roots.out.path).2) := by
    rw [clear, if_pos (show roots.config.clear = true from rfl)]
    dsimp only
    rw [hclear]
    rfl
  have hkind := Progress.kind?_clearOutput hclear
  have hfills : Disk.Fills roots.out (progress.disk.Meant roots) _ :=
    Progress.fills_of_clearOutput hclear
  generalize (progress.clearOutput roots.out.path).2 = cleared at hcleared hkind hfills
  have hsame : ∀ location, ¬ within roots.out location →
      cleared.disk.file? location = progress.disk.file? location := fun location hnot =>
    Disk.file?_eq_of_kind?_eq (by rw [hkind, if_neg hnot])
  have hnone : ∀ location, within roots.out location → cleared.disk.file? location = none :=
    fun location hwithin => by rw [Disk.file?, hkind, if_pos hwithin]
  have hagree : Disk.Agree roots cleared.disk progress.disk := .of_outside hsame
  have hopen : open? cleared.disk roots.source.path roots.assets.path roots.out.path =
      .ok (knowing roots progress.disk) := by
    rw [open?_roots, knowing, hagree.pagesBelow_eq, hagree.listed_eq]
    rfl
  simp only [start, watchRoots_config, hcleared, hopen]
  exact build_carries hseparate hsame hnone hfills

-- A build that stops at a page has cleared the output.
theorem clearOutput_of_compose {config : Config} {error : Template.ComposeError}
    (hclear : config.clear = true) (h : (progress.buildAll config).1 = .error (.compose error)) :
    (progress.clearOutput config.out).1 = .ok () := by
  unfold Progress.buildAll at h
  rw [if_pos hclear] at h
  split at h
  · next cleared hcleared =>
    cases h
    unfold Progress.clearOutput at hcleared
    split at hcleared <;> cases hcleared
  · next cleared hcleared => rw [hcleared]

-- The start of a session and a build. What a build that comes to its end leaves on the disk, a
-- start leaves as well: the directories are given by their own paths, or else it makes no difference
-- to the disk. Where a build stops at a page that does not compose, a session starts all the same:
-- the output holds the assets and the pages that compose, whatever the others are, as long as there
-- is room for each of them.
theorem start_agrees_with_build {config : Config}
    (hvalid : config.validate progress.disk.base? = .ok ())
    (hstraight : ∀ path ∈ [config.source, config.assets, config.out], path.Straight)
    (hending : (config.located progress.disk.workDir).assets.text.toList.getLast? ≠ some '\\')
    (hcheck : config.clear = true →
      (config.located progress.disk.workDir).out.check = .ok ()) :
    (∀ report, (progress.buildAll config).1 = .ok report →
      config.Normal ∨ (progress.buildAll config).2.disk.Indifferent config →
        (∃ session, (start progress config).1 = .ok session) ∧
          (start progress config).2.disk = (progress.buildAll config).2.disk) ∧
    ∀ error, (progress.buildAll config).1 = .error (.compose error) → config.clear = true →
      config.Apart progress.disk.workDir →
        progress.disk.Separate (config.located progress.disk.workDir) →
          ∃ session, (start progress config).1 = .ok session ∧
            progress.disk.scanSource (config.located progress.disk.workDir).source =
              .ok session.source.files ∧
            progress.disk.scanAssets (config.located progress.disk.workDir).assets =
              .ok session.assets.files ∧
            progress.disk.Carries session.source.files session.assets.files
              (Location.walk progress.disk.workDir config.out) (start progress config).2.disk := by
  obtain ⟨hlocates, -⟩ := Disk.locates_of_validate hvalid
  have hnamed : ∀ path ∈ [config.source, config.assets, config.out],
      (Location.walk progress.disk.workDir path).Named := fun path hmem => (hlocates path hmem).2
  rw [start_located hvalid]
  constructor
  · intro report h hspelt
    obtain ⟨hbuilt, hsame⟩ : (progress.buildAll (config.located progress.disk.workDir)).1 =
        .ok report ∧ (progress.buildAll (config.located progress.disk.workDir)).2.disk =
          (progress.buildAll config).2.disk := by
      rcases hspelt with hnormal | hfinal
      · rw [hnormal.located]
        exact ⟨h, rfl⟩
      · exact Progress.buildAll_located hvalid hstraight hcheck hfinal h
    have hassets := hnamed config.assets (by simp)
    obtain ⟨hstart, hdisk⟩ := start_of_buildAll (normal_located hnamed) (fun disk =>
      Disk.exists_scanAssets (Location.searchable_path hassets hending)
        (Location.descends_path hassets).straight (.inl (Location.isAbsolute_path _))) hbuilt
    exact ⟨hstart, hdisk.trans hsame⟩
  · intro error h hclear hapart hseparate
    have hcleared := clearOutput_of_compose hclear h
    obtain ⟨roots, hroots, hout⟩ := hapart.exists_roots hnamed hclear
    obtain ⟨next, hnext, -⟩ := Progress.clearOutput_respelt (hlocates config.out (by simp)).1
      (hstraight config.out (by simp)) (hcheck hclear) (Prod.ext hcleared rfl)
    rw [← hroots] at hseparate ⊢
    obtain ⟨last, hstart, hcarries⟩ := start_carries (by rw [hout, hnext]) hseparate
    rw [hstart, ← hout]
    exact ⟨_, rfl, Disk.scanSource_path roots.source_keeps, Disk.scanAssets_path roots.assets_keeps,
      hcarries⟩

-- A page and an asset, and then a page that has a placeholder for what it does not have.
def plain : Progress :=
  .start (Progress.project ["site"])

def spoiled : Progress :=
  .start (plain.disk.putFile "b.html" ["src", "site"] "%\x7bcontent\x7d".toUTF8)

theorem indifferent_plain : (plain.buildAll default).2.disk.Indifferent default := by
  obtain ⟨hvalid, hsearch, hpages, hcopies⟩ :
      let disk := (plain.buildAll default).2.disk
      let config : Config := default
      let located := config.located disk.workDir
      config.validate disk.base? = .ok () ∧
        (∀ root ∈ [config.source, located.source, config.assets, located.assets],
          root.text ≠ "" ∧ root.bare.toList.getLast? ≠ some '\\' ∧
            (Path.segments root.text).head? ≠ some ".") ∧
        disk.Short config.source [config.source, located.source, config.out, located.out] ∧
        disk.Short config.assets [config.assets, located.assets, config.out, located.out] := by
    decide +kernel
  refine ⟨hvalid, fun root hmem => ?_, hpages, hcopies⟩
  obtain ⟨hne, hending, hhead⟩ := hsearch root hmem
  exact Path.searchable_of_head hne hending hhead

-- The default directories, which are given by relative paths.
theorem start_agrees_with_build_of_default :
    (start plain default).2.disk.file? ["a.html", "dist", "site"] = some "x".toUTF8 ∧
    (spoiled.buildAll default).1 = .error (.compose (.unconsumedPlaceholder "b.html")) ∧
    ∃ session, (start spoiled default).1 = .ok session ∧ session.source.files.size = 2 ∧
      spoiled.disk.Carries session.source.files session.assets.files ["dist", "site"]
        (start spoiled default).2.disk := by
  have hstraight : ∀ path ∈ [(default : Config).source, (default : Config).assets,
      (default : Config).out], path.Straight := by decide +kernel
  constructor
  · obtain ⟨hvalid, hending, hcheck, hbuilt, hmade⟩ :
        (default : Config).validate plain.disk.base? = .ok () ∧
          ((default : Config).located plain.disk.workDir).assets.text.toList.getLast? ≠ some '\\' ∧
          ((default : Config).located plain.disk.workDir).out.check = .ok () ∧
          (plain.buildAll default).1 = .ok ⟨1, 1, 0, 0, 0⟩ ∧
          (plain.buildAll default).2.disk.file? ["a.html", "dist", "site"] = some "x".toUTF8 := by
      decide +kernel
    obtain ⟨-, hsame⟩ := (start_agrees_with_build hvalid hstraight hending fun _ => hcheck).1 _
      hbuilt (.inr indifferent_plain)
    exact hsame ▸ hmade
  · obtain ⟨hvalid, hending, hcheck, hfails, hout, hsize⟩ :
        (default : Config).validate spoiled.disk.base? = .ok () ∧
          ((default : Config).located spoiled.disk.workDir).assets.text.toList.getLast? ≠
            some '\\' ∧
          ((default : Config).located spoiled.disk.workDir).out.check = .ok () ∧
          (spoiled.buildAll default).1 = .error (.compose (.unconsumedPlaceholder "b.html")) ∧
          Location.walk spoiled.disk.workDir (default : Config).out = ["dist", "site"] ∧
          ∀ tree ∈ (spoiled.disk.scanSource
            ((default : Config).located spoiled.disk.workDir).source).toOption, tree.size = 2 := by
      decide +kernel
    have hapart : (default : Config).Apart spoiled.disk.workDir :=
      ⟨by decide +kernel, by decide +kernel⟩
    have hseparate : spoiled.disk.Separate ((default : Config).located spoiled.disk.workDir) :=
      ⟨by decide +kernel, by decide +kernel, by decide +kernel⟩
    obtain ⟨session, hstart, htree, -, hcarries⟩ := (start_agrees_with_build hvalid hstraight hending
      fun _ => hcheck).2 _ hfails rfl hapart hseparate
    rw [hout] at hcarries
    exact ⟨hfails, session, hstart, hsize _ (by rw [htree]; rfl), hcarries⟩

-- An empty level in a relative path: the build finds no files there, and the start does.
theorem start_finds_more_than_build :
    ¬ ∀ (progress : Progress) (config : Config), config.validate progress.disk.base? = .ok () →
      (∀ path ∈ [config.source, config.assets, config.out], path.hasParentSegment = false) →
      ∀ report, (progress.buildAll config).1 = .ok report → ∀ location,
        Disk.within (Location.walk progress.disk.workDir config.out) location →
          (start progress config).2.disk.file? location =
            (progress.buildAll config).2.disk.file? location := by
  intro h
  have hfalse := h (.start (Progress.project ["site"])) ⟨⟨".//src"⟩, ⟨"static"⟩, ⟨"dist"⟩, true⟩
    (by decide +kernel) (by decide +kernel) ⟨0, 1, 0, 0, 0⟩ (by decide +kernel)
    ["a.html", "dist", "site"] (by decide +kernel)
  revert hfalse
  decide +kernel

end Session

end StaticSite
