import StaticSite.Proofs.Build.Published

-- An output directory that is filled from nothing: where no output is in the way of another, each
-- of them can be made.
namespace StaticSite

open Disk (within)

-- Places below `top` for files. None lies below another, and a disk can make each of them.
structure Fits (top : Location) (places : Location → Prop) : Prop where
  proper : ∀ place, places place → place ≠ []
  apart : ∀ place more, places place → more ≠ [] → ¬ places (more ++ place)
  followable : ∀ place, places place → Location.Followable (place ++ top)
  named : ∀ place, places place → Location.Named (place ++ top)
  short : ∀ place, places place → ∀ name ∈ place ++ top, name.utf8ByteSize ≤ Disk.longestName

namespace Disk

variable {disk middle next : Disk} {top location place : Location} {places : Location → Prop}
  {content : ByteArray}

-- At and below `top` there are files at some of the places and directories on the way to them, and
-- no file is above.
structure Fills (top : Location) (places : Location → Prop) (disk : Disk) : Prop where
  file : ∀ below content, disk.file? (below ++ top) = some content → places below
  directory : ∀ below, disk.kind? (below ++ top) = some .directory →
    ∃ more, more ≠ [] ∧ places (more ++ below)
  above : ∀ location content, within location top → disk.kind? location ≠ some (.file content)

namespace Fills

-- There is no directory where a file is to be put.
theorem ne_directory (h : disk.Fills top places) (hfits : Fits top places) (hplace : places place) :
    disk.kind? (place ++ top) ≠ some .directory := by
  intro hkind
  obtain ⟨more, hmore, hbelow⟩ := h.directory place hkind
  exact hfits.apart place more hplace hmore hbelow

-- The directory of a file that is to be put can be made.
theorem passable {name : String} {rest : Location} (h : disk.Fills top places)
    (hfits : Fits top places) (hplace : places (name :: rest)) : disk.Passable (rest ++ top) := by
  have hway : ∀ above lower : Location, lower ++ above = rest ++ top → disk.Passable above := by
    intro above
    induction above with
    | nil => exact fun _ _ => trivial
    | cons last above ih =>
        intro lower heq
        refine ⟨?_, ih (lower ++ [last]) (by simpa using heq)⟩
        have hmem : last ∈ name :: rest ++ top := by
          rw [List.cons_append, ← heq]
          simp
        cases hkind : disk.kind? (last :: above) with
        | none =>
            exact .inr ⟨rfl, hfits.named _ hplace last hmem, hfits.short _ hplace last hmem⟩
        | some kind =>
            cases kind with
            | directory => exact .inl rfl
            | file content =>
                have hwithin : within (last :: above) (rest ++ top) :=
                  within_iff.2 ⟨lower, heq.symm⟩
                rcases within_or_within hwithin (within_append rest top) with habove | hbelow
                · exact absurd hkind (h.above _ content habove)
                · -- A file on the way is one of the places, with the other below it.
                  obtain ⟨below, hplaceBelow⟩ := within_iff.1 hbelow
                  rw [hplaceBelow] at hkind heq
                  have hrest : rest = lower ++ below := by
                    rw [← List.append_assoc] at heq
                    exact (List.append_cancel_right heq).symm
                  refine absurd ?_ (hfits.apart below (name :: lower)
                    (h.file below content (file?_eq_some.2 hkind)) (by simp))
                  rw [List.cons_append, ← hrest]
                  exact hplace
  exact hway (rest ++ top) [] rfl

theorem makeParent {name : String} {rest : Location} (h : disk.Fills top places)
    (hfits : Fits top places) (htop : top ≠ []) (hplace : places (name :: rest)) :
    ∃ middle, disk.makeParent (Location.path (name :: rest ++ top)) = (.ok (), middle) ∧
      middle.Fills top places ∧ middle.kind? (rest ++ top) = some .directory := by
  have hnamed := hfits.named _ hplace
  have hfollow := hfits.followable _ hplace
  rw [List.cons_append] at hnamed hfollow ⊢
  obtain ⟨middle, hmake, hkind⟩ := makeDirectories_path hfollow.tail (h.passable hfits hplace)
  have hgrows := @makeDirectories_made disk (rest ++ top) (by simp [htop]) hnamed.tail
  rw [hmake] at hgrows
  rw [makeParent_path hnamed]
  refine ⟨middle, hmake, ⟨fun below content hfile => ?_, fun below hdirectory => ?_,
    fun location content hwithin hfile => ?_⟩, hkind⟩
  · rw [hgrows.file?_eq] at hfile
    exact h.file below content hfile
  · rcases hgrows.kind? (below ++ top) with heq | ⟨⟨hmade, -⟩, -⟩
    · exact h.directory below (heq ▸ hdirectory)
    · obtain ⟨lower, hlower⟩ := within_iff.1 (within_append_right_iff.1 hmade)
      exact ⟨name :: lower, by simp, by rwa [List.cons_append, ← hlower]⟩
  · rcases hgrows.kind? location with heq | ⟨-, -, hdirectory⟩
    · exact h.above location content hwithin (heq ▸ hfile)
    · rw [hdirectory] at hfile
      cases hfile

theorem put (h : disk.Fills top places) (hfits : Fits top places) (hplace : places place)
    (hkind : ∀ other, next.kind? other =
      if other = place ++ top then some (.file content) else disk.kind? other) :
    next.Fills top places := by
  refine ⟨fun below other hfile => ?_, fun below hdirectory => ?_, fun location other hwithin => ?_⟩
  · by_cases heq : below = place
    · rwa [heq]
    · rw [file?, hkind, if_neg fun h => heq (List.append_cancel_right h)] at hfile
      exact h.file below other hfile
  · rw [hkind] at hdirectory
    split at hdirectory
    · cases hdirectory
    · exact h.directory below hdirectory
  · rw [hkind, if_neg]
    · exact h.above location other hwithin
    · rintro rfl
      have hempty : place ++ top = top := within_antisymm hwithin (within_append place top)
      exact hfits.proper place hplace (List.append_left_eq_self.1 hempty)

end Fills

end Disk

namespace Progress

variable {progress : Progress} {top place source : Location} {places : Location → Prop}
  {content : ByteArray}

theorem place_fills {change : Disk → Except Fault Disk} (hfits : Fits top places) (htop : top ≠ [])
    (hplace : places place) (h : progress.disk.Fills top places)
    (hchange : ∀ middle : Disk, (∀ location, middle.file? location = progress.disk.file? location) →
      middle.kind? (place ++ top).tail = some .directory →
      middle.kind? (place ++ top) ≠ some .directory →
      ∃ next, change middle = .ok next ∧ ∀ other, next.kind? other =
        if other = place ++ top then some (.file content) else middle.kind? other) :
    ∃ next, progress.place (Location.path (place ++ top)) change = (.ok (), progress.onDisk next) ∧
      next.Fills top places := by
  obtain ⟨name, rest, rfl⟩ := List.exists_cons_of_ne_nil (hfits.proper place hplace)
  obtain ⟨middle, hmake, hmiddle, hparent⟩ := h.makeParent hfits htop hplace
  obtain ⟨hfile, -, -⟩ := makeParent_below (by simp) htop (hfits.named _ hplace) hmake
  obtain ⟨next, hnext, hkind⟩ :=
    hchange middle hfile hparent (hmiddle.ne_directory hfits hplace)
  exact ⟨next, by simp only [place, hmake, hnext], hmiddle.put hfits hplace hkind⟩

theorem writeOutput_fills (hfits : Fits top places) (htop : top ≠ []) (hplace : places place)
    (h : progress.disk.Fills top places) (content : ByteArray) :
    (progress.writeOutput (Location.path (place ++ top)) content).1.isFailed = false ∧
      (progress.writeOutput (Location.path (place ++ top)) content).2.disk.Fills top places := by
  obtain ⟨next, hnext, hfills⟩ := @place_fills progress top place places content
    (·.write (Location.path (place ++ top)) content) hfits htop hplace h fun middle _ hparent hfree =>
      Disk.write_made (hfits.followable _ hplace) (hfits.named _ hplace) (by simp [htop]) hparent
        hfree fun name hmem => hfits.short _ hplace name (List.mem_of_mem_head? hmem)
  simp only [writeOutput, hnext]
  exact ⟨rfl, hfills⟩

theorem copyOutput_fills (hfits : Fits top places) (htop : top ≠ []) (hplace : places place)
    (h : progress.disk.Fills top places) (hsource : source.Followable)
    (hne : source ≠ place ++ top) (hfile : progress.disk.file? source = some content) :
    (progress.copyOutput source.path (Location.path (place ++ top))).1.isFailed = false ∧
      (progress.copyOutput source.path (Location.path (place ++ top))).2.disk.Fills top places := by
  obtain ⟨next, hnext, hfills⟩ := @place_fills progress top place places content
    (·.copy source.path (Location.path (place ++ top))) hfits htop hplace h
    fun middle hmiddle hparent hfree =>
      Disk.copy_made hsource ((hmiddle source).trans hfile) (hfits.followable _ hplace)
        (hfits.named _ hplace) (by simp [htop]) hne hparent hfree
        fun name hmem => hfits.short _ hplace name (List.mem_of_mem_head? hmem)
  simp only [copyOutput, hnext]
  exact ⟨rfl, hfills⟩

variable {before : Disk} {tree : SourceTree} {root : Location}

-- A public page is put in its place if it composes. If not, nothing is changed.
theorem buildContent_fills {file : ContentFile} (hfits : Fits top places) (htop : top ≠ [])
    (hnamed : top.Named) (hscanned : tree.Scanned root) (hmem : file ∈ tree.files)
    (hplace : file.isPublic → places (Location.walk [] ⟨file.relative⟩))
    (hapart : ∀ location, within root location → ¬ within top location)
    (hsame : ∀ location, ¬ within top location →
      progress.disk.file? location = before.file? location)
    (h : progress.disk.Fills top places) :
    (progress.buildContent tree file top.path).2.disk.Fills top places ∧
      progress.disk.Publishes (before.PageOutput tree top [file])
        (progress.buildContent tree file top.path).2.disk := by
  obtain ⟨below, hne, hbelow, hrelative, -⟩ := hscanned.place file hmem
  have hdestination : top.path.join ⟨file.relative⟩ = Location.path (below ++ top) := by
    rw [hrelative, Location.join_path htop hnamed hne hbelow]
  have hwalk (start : Location) : Location.walk start ⟨file.relative⟩ = below ++ start := by
    rw [hrelative, Location.walk_names hbelow]
  -- Where the file has no output, nothing has changed.
  have hidle (hnone : ∀ location content, ¬ before.PageOutput tree top [file] location content) :
      progress.disk.Publishes (before.PageOutput tree top [file]) progress.disk :=
    ⟨fun location content hout => absurd hout (hnone location content), fun _ _ => rfl⟩
  unfold buildContent
  by_cases hhidden : file.isHidden = true
  · rw [if_pos hhidden]
    refine ⟨h, hidle fun location content hout => ?_⟩
    obtain ⟨other, hother, hpublic, -⟩ := hout
    rw [List.mem_singleton.1 hother, ContentFile.isPublic, hhidden] at hpublic
    cases hpublic
  · have hpublic : file.isPublic = true := by simpa [ContentFile.isPublic] using hhidden
    have hplace := hplace hpublic
    rw [hwalk, List.append_nil] at hplace
    rw [if_neg hhidden]
    simp only [hscanned.kept file hmem, hdestination, Bool.false_eq_true, ↓reduceIte]
    cases hpage : progress.disk.composePage tree file with
    | ok page =>
        have hpage' := Disk.composePage_of_outside hscanned hmem hapart hsame hpage
        obtain ⟨hok, hfills⟩ := writeOutput_fills hfits htop hplace h (String.ofList page).toUTF8
        have hsets := writeOutput_sets hne htop (hfits.named below hplace) hok
        dsimp only
        refine ⟨hfills, (Disk.publishes_of_file? hsets.file?).congr fun location content => ?_⟩
        simp [Disk.PageOutput, hpublic, hwalk, hpage']
    | error error =>
        have hfails : ∀ location content, ¬ before.PageOutput tree top [file] location content := by
          rintro location content ⟨other, hother, -, -, page, hpage', -⟩
          rw [List.mem_singleton.1 hother] at hpage'
          have hagain := Disk.composePage_of_outside hscanned hmem hapart
            (fun location hnot => (hsame location hnot).symm) hpage'
          rw [hpage] at hagain
          cases hagain
        cases error <;> exact ⟨h, hidle hfails⟩

-- An asset is put in its place.
theorem buildAsset_fills {file : StaticFile} {files : List StaticFile} (hfits : Fits top places)
    (htop : top ≠ []) (hnamed : top.Named) (hscanned : StaticFile.Scanned root files)
    (hmem : file ∈ files) (hplace : places (Location.walk [] ⟨file.relative⟩))
    (hread : progress.disk.isFile file.absolute = true)
    (hapart : ∀ location, within root location → ¬ within top location)
    (hsame : ∀ location, ¬ within top location →
      progress.disk.file? location = before.file? location)
    (h : progress.disk.Fills top places) :
    (progress.buildAsset file top.path).2.disk.Fills top places ∧
      progress.disk.Publishes (before.AssetOutput top [file])
        (progress.buildAsset file top.path).2.disk := by
  obtain ⟨below, hne, hbelow, hrelative, habsolute, hsource⟩ := hscanned.place file hmem
  have hdestination : top.path.join ⟨file.relative⟩ = Location.path (below ++ top) := by
    rw [hrelative, Location.join_path htop hnamed hne hbelow]
  have hwalk (start : Location) : Location.walk start ⟨file.relative⟩ = below ++ start := by
    rw [hrelative, Location.walk_names hbelow]
  rw [hwalk, List.append_nil] at hplace
  rw [habsolute] at hread
  obtain ⟨hfollow, hfile⟩ := (Disk.isFile_path hsource).1 hread
  obtain ⟨content, hcontent⟩ := Option.isSome_iff_exists.1 hfile
  have houtside : ¬ within top (below ++ root) := hapart _ (Disk.within_append below root)
  have hne' : below ++ root ≠ below ++ top := by
    intro heq
    rw [heq] at houtside
    exact houtside (Disk.within_append below top)
  obtain ⟨hok, hfills⟩ := copyOutput_fills hfits htop hplace h hfollow hne' hcontent
  have hsets := copyOutput_sets hne htop (hfits.named below hplace) hsource hne' hcontent hok
  unfold buildAsset
  simp only [hscanned.kept file hmem, hdestination, habsolute, hread, Bool.false_eq_true,
    ↓reduceIte]
  refine ⟨hfills, (Disk.publishes_of_file? hsets.file?).congr fun location other => ?_⟩
  have hbefore : before.file? (below ++ root) = some content := by
    rw [← hsame _ houtside, hcontent]
  simp [Disk.AssetOutput, hwalk, habsolute, Location.walk_path hsource, hbefore, eq_comm]

end Progress

end StaticSite
