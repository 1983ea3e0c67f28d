import StaticSite.Proofs.Build.Settled
import StaticSite.Proofs.Except

-- A build from scratch makes the files of an output directory that is settled once more.
namespace StaticSite

open Disk (within)

namespace Disk

variable {goal disk next : Disk} {top below location parent : Location} {name : String}

-- The disk is what it is to become, but for what is still missing at and below `top`.
def Stripped (top : Location) (goal disk : Disk) : Prop :=
  ∀ location, disk.kind? location = goal.kind? location ∨
    within top location ∧ disk.kind? location = none

namespace Stripped

theorem refl (top : Location) (disk : Disk) : Stripped top disk disk :=
  fun _ => .inl rfl

theorem file?_eq (h : Stripped top goal disk) (hnot : ¬ within top location) :
    disk.file? location = goal.file? location := by
  rcases h location with heq | ⟨hwithin, -⟩
  · exact file?_eq_of_kind?_eq heq
  · exact absurd hwithin hnot

theorem passable (h : Stripped top goal disk) (htidy : goal.Tidy top)
    (hgoal : goal.kind? location = some .directory) : disk.Passable location := by
  induction location with
  | nil => trivial
  | cons name parent ih =>
      refine ⟨?_, ih (kind?_parent hgoal)⟩
      rcases h (name :: parent) with heq | ⟨hwithin, hnone⟩
      · exact .inl (heq.trans hgoal)
      · exact .inr ⟨hnone, named_of_kind? hgoal name List.mem_cons_self,
          (htidy _ _ hwithin hgoal).2 name rfl⟩

-- The directory of a file that is to be there can be made.
theorem makeParent (h : Stripped top goal disk) (htidy : goal.Tidy top) (hne : parent ≠ [])
    (hwithin : within top (name :: parent)) {content : ByteArray}
    (hgoal : goal.kind? (name :: parent) = some (.file content)) :
    ∃ middle, disk.makeParent (Location.path (name :: parent)) = (.ok (), middle) ∧
      Stripped top goal middle ∧ middle.kind? parent = some .directory := by
  have hparent := kind?_parent hgoal
  have hnamed := named_of_kind? hgoal
  have hfollow := (htidy _ _ hwithin hgoal).1
  obtain ⟨middle, hmake, hkind⟩ := makeDirectories_path hfollow.tail (h.passable htidy hparent)
  rw [makeParent_path hnamed]
  refine ⟨middle, hmake, fun location => ?_, hkind⟩
  have hgrows := @makeDirectories_made disk parent hne hnamed.tail
  rw [hmake] at hgrows
  rcases hgrows.kind? location with heq | ⟨⟨hmade, -⟩, -, hdirectory⟩
  · rw [heq]
    exact h location
  · left
    obtain ⟨lower, rfl⟩ := within_iff.1 hmade
    rw [hdirectory]
    by_cases hlower : lower = []
    · subst hlower
      exact hparent.symm
    · exact (kind?_above hlower hparent).symm

-- The file that is to be there has been put at its place.
theorem put {content : ByteArray} (h : Stripped top goal disk)
    (hgoal : goal.kind? location = some (.file content))
    (hkind : ∀ other, next.kind? other =
      if other = location then some (.file content) else disk.kind? other) :
    Stripped top goal next := by
  intro other
  rw [hkind]
  by_cases heq : other = location
  · left
    rw [if_pos heq, heq, hgoal]
  · rw [if_neg heq]
    exact h other

theorem ne_directory {content : ByteArray} (h : Stripped top goal disk)
    (hgoal : goal.kind? location = some (.file content)) :
    disk.kind? location ≠ some .directory := by
  rcases h location with heq | ⟨-, hnone⟩
  · simp [heq, hgoal]
  · simp [hnone]

end Stripped

end Disk

namespace Progress

variable {goal : Disk} {progress : Progress} {top below source : Location} {content : ByteArray}

theorem place_stripped {change : Disk → Except Fault Disk} (hbelow : below ≠ []) (htop : top ≠ [])
    (htidy : goal.Tidy top) (hgoal : goal.kind? (below ++ top) = some (.file content))
    (h : Disk.Stripped top goal progress.disk)
    (hchange : ∀ middle : Disk, (∀ location, middle.file? location = progress.disk.file? location) →
      middle.kind? (below ++ top).tail = some .directory →
      middle.kind? (below ++ top) ≠ some .directory →
      ∃ next, change middle = .ok next ∧ ∀ other, next.kind? other =
        if other = below ++ top then some (.file content) else middle.kind? other) :
    ∃ next, progress.place (Location.path (below ++ top)) change = (.ok (), progress.onDisk next) ∧
      Disk.Stripped top goal next := by
  obtain ⟨name, rest, rfl⟩ := List.exists_cons_of_ne_nil hbelow
  have hwithin : within top (name :: rest ++ top) := Disk.within_append _ _
  obtain ⟨middle, hmake, hmiddle, hparent⟩ :=
    h.makeParent htidy (show rest ++ top ≠ [] by simp [htop]) hwithin hgoal
  obtain ⟨hfile, -, -⟩ := makeParent_below (by simp) htop (Disk.named_of_kind? hgoal) hmake
  obtain ⟨next, hnext, hkind⟩ := hchange middle hfile hparent (hmiddle.ne_directory hgoal)
  refine ⟨next, ?_, hmiddle.put hgoal hkind⟩
  have hmake : progress.disk.makeParent (Location.path (name :: rest ++ top)) = (.ok (), middle) :=
    hmake
  simp only [place, hmake, hnext]

theorem writeOutput_stripped (hbelow : below ≠ []) (htop : top ≠ []) (htidy : goal.Tidy top)
    (hgoal : goal.kind? (below ++ top) = some (.file content))
    (h : Disk.Stripped top goal progress.disk) :
    (progress.writeOutput (Location.path (below ++ top)) content).1.isFailed = false ∧
      Disk.Stripped top goal
        (progress.writeOutput (Location.path (below ++ top)) content).2.disk := by
  obtain ⟨hfollow, hlength⟩ := htidy _ _ (Disk.within_append _ _) hgoal
  obtain ⟨next, hplace, hnext⟩ := @place_stripped goal progress top below content
    (·.write (Location.path (below ++ top)) content) hbelow htop htidy hgoal h
    fun middle _ hparent hfree => Disk.write_made hfollow (Disk.named_of_kind? hgoal)
      (by simp [hbelow]) hparent hfree hlength
  simp only [writeOutput, hplace]
  exact ⟨rfl, hnext⟩

theorem copyOutput_stripped (hbelow : below ≠ []) (htop : top ≠ []) (htidy : goal.Tidy top)
    (hgoal : goal.kind? (below ++ top) = some (.file content))
    (h : Disk.Stripped top goal progress.disk) (hsource : source.Followable)
    (hne : source ≠ below ++ top) (hfile : progress.disk.file? source = some content) :
    (progress.copyOutput source.path (Location.path (below ++ top))).1.isFailed = false ∧
      Disk.Stripped top goal
        (progress.copyOutput source.path (Location.path (below ++ top))).2.disk := by
  obtain ⟨hfollow, hlength⟩ := htidy _ _ (Disk.within_append _ _) hgoal
  obtain ⟨next, hplace, hnext⟩ := @place_stripped goal progress top below content
    (·.copy source.path (Location.path (below ++ top))) hbelow htop htidy hgoal h
    fun middle hmiddle hparent hfree => Disk.copy_made hsource ((hmiddle source).trans hfile) hfollow
      (Disk.named_of_kind? hgoal) (by simp [hbelow]) hne hparent hfree hlength
  simp only [copyOutput, hplace]
  exact ⟨rfl, hnext⟩

variable {roots : Roots} {page : Location}

-- Where the output is already what it is to become, it stays so.
structure Nears (roots : Roots) (goal before after : Disk) : Prop where
  stripped : Disk.Stripped roots.out goal after
  keeps : ∀ place, before.file? (place ++ roots.out) = goal.file? (place ++ roots.out) →
    after.file? (place ++ roots.out) = goal.file? (place ++ roots.out)

theorem Nears.refl {disk : Disk} (h : Disk.Stripped roots.out goal disk) :
    Nears roots goal disk disk :=
  ⟨h, fun _ heq => heq⟩

theorem Nears.trans {before middle after : Disk} (h : Nears roots goal before middle)
    (h' : Nears roots goal middle after) : Nears roots goal before after :=
  ⟨h'.stripped, fun place heq => h'.keeps place (h.keeps place heq)⟩

theorem nears_of_sets {before after : Disk} (h : Disk.Stripped roots.out goal after)
    (hgoal : goal.file? (page ++ roots.out) = some content)
    (hsets : before.Sets roots.out (page ++ roots.out) (some content) after) :
    Nears roots goal before after ∧
      after.file? (page ++ roots.out) = goal.file? (page ++ roots.out) := by
  have hpage : after.file? (page ++ roots.out) = goal.file? (page ++ roots.out) := by
    rw [hsets.file?, if_pos rfl, hgoal]
  refine ⟨⟨h, fun place heq => ?_⟩, hpage⟩
  by_cases hsame : place ++ roots.out = page ++ roots.out
  · rw [hsame, hpage]
  · rw [hsets.file?, if_neg hsame, heq]

theorem agree_of_stripped {disk : Disk} (h : Disk.Stripped roots.out goal disk) :
    Disk.Agree roots goal disk :=
  .of_outside fun _ hnot => (h.file?_eq hnot).symm

theorem buildContent_nears (hgoal : Disk.Settled roots (fun _ => False) goal) {index : Nat}
    (hindex : (goal.pagesBelow roots.source)[index]? = some page)
    (h : Disk.Stripped roots.out goal progress.disk) :
    ∃ outcome next, progress.buildContent (.below roots.source (goal.pagesBelow roots.source))
        (SourceTree.linked roots.source (goal.pagesBelow roots.source) index page)
        roots.out.path = (.ok outcome, next) ∧
      Nears roots goal progress.disk next.disk ∧ (page.isHidden = false →
        next.disk.file? (page ++ roots.out) = goal.file? (page ++ roots.out)) := by
  have hfiles := goal.places_pagesBelow roots.source
  have hmem := List.mem_of_getElem? hindex
  obtain ⟨hne, hnamed⟩ := hfiles.2 page hmem
  rw [buildContent_linked roots progress hfiles hindex]
  by_cases hhidden : page.isHidden
  · rw [if_pos hhidden]
    exact ⟨.skipped, progress, rfl, .refl h, by simp [hhidden]⟩
  · rw [if_neg hhidden]
    have hhidden := Bool.eq_false_iff.2 hhidden
    obtain ⟨text, htext, hfile⟩ := (hgoal.fresh page (fun h => h)).page ⟨hmem, hhidden⟩
    have hagree := agree_of_stripped h
    have hpage := hagree.pageAt_eq hmem
    rw [← hagree.pagesBelow_eq, htext] at hpage
    rw [← hpage]
    dsimp only
    obtain ⟨hok, hstripped⟩ := writeOutput_stripped hne roots.out_ne_nil hgoal.tidy
      (Disk.file?_eq_some.1 hfile) h
    have hsets := writeOutput_sets hne roots.out_ne_nil (hnamed.append roots.out_named) hok
    obtain ⟨hnears, hreached⟩ := nears_of_sets hstripped hfile hsets
    exact ⟨_, _, rfl, hnears, fun _ => hreached⟩

theorem buildPages_nears (hgoal : Disk.Settled roots (fun _ => False) goal)
    {contents : List ContentFile}
    (hcontents : ∀ content ∈ contents,
      content ∈ (SourceTree.below roots.source (goal.pagesBelow roots.source)).files)
    (report : Report) (h : Disk.Stripped roots.out goal progress.disk) :
    ∃ last next, buildPages (.below roots.source (goal.pagesBelow roots.source)) roots.out.path
        contents report progress = (.ok last, next) ∧
      Nears roots goal progress.disk next.disk ∧ ∀ index page,
        (goal.pagesBelow roots.source)[index]? = some page →
          SourceTree.linked roots.source (goal.pagesBelow roots.source) index page ∈ contents →
            page.isHidden = false →
              next.disk.file? (page ++ roots.out) = goal.file? (page ++ roots.out) := by
  have hfiles := goal.places_pagesBelow roots.source
  induction contents generalizing progress report with
  | nil => exact ⟨report, progress, rfl, .refl h, fun _ _ _ hmem => by cases hmem⟩
  | cons content rest ih =>
      obtain ⟨index, page, hindex, rfl⟩ :=
        SourceTree.mem_files_below.1 (hcontents content List.mem_cons_self)
      obtain ⟨outcome, middle, hbuild, hnears, hfirst⟩ := buildContent_nears hgoal hindex h
      obtain ⟨last, next, hrest, hothers, hreached⟩ :=
        ih (fun other hmem => hcontents other (List.mem_cons_of_mem _ hmem))
          (report.record outcome) hnears.stripped
      refine ⟨last, next, by rw [buildPages, hbuild]; exact hrest, hnears.trans hothers, ?_⟩
      intro other file hother hmem hhidden
      rcases List.mem_cons.1 hmem with heq | hmem
      · have hsame := SourceTree.eq_of_linked_eq hfiles (List.mem_of_getElem? hother)
          (List.mem_of_getElem? hindex) heq
        subst hsame
        exact hothers.keeps _ (hfirst hhidden)
      · exact hreached other file hother hmem hhidden

theorem buildAsset_nears (hgoal : Disk.Settled roots (fun _ => False) goal)
    (hmem : page ∈ goal.listed roots.assets) (h : Disk.Stripped roots.out goal progress.disk) :
    Nears roots goal progress.disk
        (progress.buildAsset (Disk.assetAt roots.assets page) roots.out.path).2.disk ∧
      (progress.buildAsset (Disk.assetAt roots.assets page) roots.out.path).2.disk.file?
        (page ++ roots.out) = goal.file? (page ++ roots.out) := by
  obtain ⟨hne, hfollow, hsome⟩ := Disk.mem_listed.1 hmem
  obtain ⟨content, hcontent⟩ := Option.isSome_iff_exists.1 hsome
  have hnamed := Disk.named_of_mem_listed hmem
  have hagree := agree_of_stripped h
  have hfile : progress.disk.file? (page ++ roots.assets) = some content := by
    rw [← hagree.assets, hcontent]
  have hout : goal.file? (page ++ roots.out) = some content := by
    rw [(hgoal.fresh page (fun h => h)).asset hmem, hcontent]
  have hapart : page ++ roots.assets ≠ page ++ roots.out := by
    intro heq
    refine roots.not_within_out_assets page ?_
    rw [heq]
    exact Disk.within_append _ _
  have hisFile : progress.disk.isFile (Location.path (page ++ roots.assets)) = true :=
    (Disk.isFile_path hnamed).2 ⟨hfollow, by rw [hfile]; rfl⟩
  rw [buildAsset_assetAt roots progress hne hnamed.of_append_left, if_pos hisFile]
  obtain ⟨hok, hstripped⟩ := copyOutput_stripped hne roots.out_ne_nil hgoal.tidy
    (Disk.file?_eq_some.1 hout) h hfollow hapart hfile
  have hsets := copyOutput_sets hne roots.out_ne_nil
    (hnamed.of_append_left.append roots.out_named) hnamed hapart hfile hok
  exact nears_of_sets hstripped hout hsets

theorem buildAssets_nears (hgoal : Disk.Settled roots (fun _ => False) goal)
    {places : List Location} (hplaces : ∀ page ∈ places, page ∈ goal.listed roots.assets)
    (report : Report) (h : Disk.Stripped roots.out goal progress.disk) :
    Nears roots goal progress.disk (buildAssets roots.out.path
        (places.map (Disk.assetAt roots.assets)) report progress).2.disk ∧
      ∀ page ∈ places, (buildAssets roots.out.path
        (places.map (Disk.assetAt roots.assets)) report progress).2.disk.file?
          (page ++ roots.out) = goal.file? (page ++ roots.out) := by
  induction places generalizing progress report with
  | nil => exact ⟨.refl h, fun _ hmem => by cases hmem⟩
  | cons place rest ih =>
      obtain ⟨hnears, hfirst⟩ := buildAsset_nears hgoal (hplaces place List.mem_cons_self) h
      rw [List.map_cons, buildAssets]
      generalize progress.buildAsset (Disk.assetAt roots.assets place) roots.out.path = step
        at hnears hfirst ⊢
      obtain ⟨outcome, middle⟩ := step
      obtain ⟨hothers, hreached⟩ := ih
        (fun other hmem => hplaces other (List.mem_cons_of_mem _ hmem)) (report.record outcome)
        hnears.stripped
      refine ⟨hnears.trans hothers, fun page hmem => ?_⟩
      rcases List.mem_cons.1 hmem with rfl | hmem
      · exact hothers.keeps page hfirst
      · exact hreached page hmem

-- The trees are built to where the disk was before.
theorem buildTrees_of_stripped (hgoal : Disk.Settled roots (fun _ => False) goal)
    (h : Disk.Stripped roots.out goal progress.disk) (location : Location)
    (hwithin : within roots.out location) :
    (progress.buildTrees roots.config).2.disk.file? location = goal.file? location := by
  have hagree := agree_of_stripped h
  have hscan : progress.disk.scanSource roots.config.source =
      .ok (.below roots.source (goal.pagesBelow roots.source)) := by
    rw [hagree.pagesBelow_eq]
    exact Disk.scanSource_path roots.source_keeps
  have hcontents : ∀ content ∈
      (SourceTree.below roots.source (goal.pagesBelow roots.source)).files,
        content ∈ (SourceTree.below roots.source (goal.pagesBelow roots.source)).files :=
    fun _ hmem => hmem
  obtain ⟨report, middle, hpages, hnears, hshown⟩ := buildPages_nears hgoal hcontents .empty h
  have hassets : middle.disk.scanAssets roots.config.assets =
      .ok ((goal.listed roots.assets).map (Disk.assetAt roots.assets)) := by
    rw [(agree_of_stripped hnears.stripped).listed_eq]
    exact Disk.scanAssets_path roots.assets_keeps
  obtain ⟨hothers, hcopied⟩ := buildAssets_nears hgoal (fun _ hmem => hmem) report hnears.stripped
  have hbuild : (progress.buildTrees roots.config).2 =
      (buildAssets roots.out.path ((goal.listed roots.assets).map (Disk.assetAt roots.assets))
        report middle).2 := by
    rw [buildTrees, hscan]
    dsimp only
    rw [show roots.config.out = roots.out.path from rfl, hpages]
    dsimp only
    rw [hassets]
  rw [hbuild]
  obtain ⟨place, rfl⟩ := Disk.within_iff.1 hwithin
  have hfresh := hgoal.fresh place (fun h => h)
  by_cases hpublic : goal.Public roots place
  · obtain ⟨index, hindex⟩ := List.getElem?_of_mem hpublic.1
    exact hothers.keeps place (hshown index place hindex
      (SourceTree.mem_files_below.2 ⟨index, place, hindex, rfl⟩) hpublic.2)
  · by_cases hlisted : place ∈ goal.listed roots.assets
    · exact hcopied place hlisted
    · have hnone := hfresh.rest hpublic hlisted
      rcases hothers.stripped (place ++ roots.out) with heq | ⟨-, heq⟩
      · exact Disk.file?_eq_of_kind?_eq heq
      · rw [hnone, Disk.file?, heq]

-- The output directory is found and removed, or there is none.
theorem clearOutput_of_directory (hfollow : roots.out.Followable)
    (h : progress.disk.kind? roots.out = some .directory) :
    ∃ next, progress.clearOutput roots.out.path = (.ok (), progress.onDisk next) ∧
      ∀ location, next.kind? location =
        if within roots.out location then none else progress.disk.kind? location := by
  obtain ⟨next, hremove⟩ : ∃ next, progress.disk.removeDirectory roots.out.path = (.ok (), next) := by
    obtain ⟨name, parent, heq⟩ := List.exists_cons_of_ne_nil roots.out_ne_nil
    rw [heq] at hfollow h ⊢
    exact ⟨_, Disk.removeDirectory_path hfollow h⟩
  exact ⟨next, by simp only [clearOutput, hremove],
    Disk.kind?_removeDirectory roots.out_ne_nil roots.out_named hremove⟩

theorem clearOutput_of_ne (h : progress.disk.kind? roots.out ≠ some .directory) :
    (progress.clearOutput roots.out.path).2 = progress ∧
      ((progress.clearOutput roots.out.path).1 = .ok () →
        roots.out.Followable ∧ progress.disk.kind? roots.out = none ∧
          ∀ above content, within above roots.out →
            progress.disk.kind? above ≠ some (.file content)) := by
  obtain ⟨fault, hremove, hfault⟩ := Disk.removeDirectory_of_ne roots.out_ne_nil roots.out_named h
  unfold clearOutput
  rw [hremove]
  split
  · next heq => cases heq
  · next heq =>
    cases heq
    exact ⟨rfl, fun _ => hfault rfl⟩
  · next heq =>
    cases heq
    exact ⟨rfl, fun h => by cases h⟩

-- A project whose output is settled is built from scratch to what it is.
theorem buildAll_of_settled (h : Disk.Settled roots (fun _ => False) progress.disk)
    (location : Location) (hwithin : within roots.out location) :
    (progress.buildAll roots.config).2.disk.file? location = progress.disk.file? location := by
  rw [buildAll, if_pos (show roots.config.clear = true from rfl),
    show roots.config.out = roots.out.path from rfl]
  by_cases hdirectory : progress.disk.kind? roots.out = some .directory
  · obtain ⟨next, hclear, hkind⟩ := clearOutput_of_directory h.followable hdirectory
    have hstripped : Disk.Stripped roots.out progress.disk next := by
      intro location
      rw [hkind]
      by_cases hwithin : within roots.out location
      · exact .inr ⟨hwithin, if_pos hwithin⟩
      · exact .inl (if_neg hwithin)
    rw [hclear]
    exact buildTrees_of_stripped h hstripped location hwithin
  · obtain ⟨hsame, -⟩ := clearOutput_of_ne hdirectory
    have hstripped : Disk.Stripped roots.out progress.disk progress.disk := .refl _ _
    split
    · next after heq =>
      rw [heq] at hsame
      rw [show after = progress from hsame]
    · next after heq =>
      rw [heq] at hsame
      rw [show after = progress from hsame]
      exact buildTrees_of_stripped h hstripped location hwithin

end Progress

end StaticSite
