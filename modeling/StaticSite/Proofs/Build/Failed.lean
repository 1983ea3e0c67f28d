import StaticSite.Proofs.Build.Confined
import StaticSite.Proofs.Build.Inputs
import StaticSite.Proofs.Build.Placing
import StaticSite.Proofs.Build.Settled
import StaticSite.Proofs.Path.Characters

-- What an operation on one file leaves of the disk when it fails: at most some of the directories
-- that lead to the output are new, and none where the names are short enough for a disk.
namespace StaticSite

open Disk (within)

namespace Path

variable {path out : Path} {name : String}

theorem isAbsolute_iff_head? (hne : path.text ≠ "") :
    path.isAbsolute = true ↔ (segments path.text).head? = some "" := by
  rw [isAbsolute_iff]
  constructor
  · rintro ⟨rest, -, heq⟩
    rw [heq, List.head?_cons]
  · intro hhead
    obtain ⟨rest, heq⟩ := List.head?_eq_some_iff.1 hhead
    refine ⟨rest, fun hnil => hne ?_, heq⟩
    rw [← intercalate_segments path.text, heq, hnil]
    rfl

theorem exists_mem_segments {c : Char} {text : String} (hslash : c ≠ '/') (h : c ∈ text.toList) :
    ∃ segment ∈ segments text, c ∈ segment.toList := by
  rw [← intercalate_segments text] at h
  exact mem_intercalate hslash h

-- A disk follows the path to the directory of a file if it follows that of the directory.
theorem near_path {parent : Location} (hnamed : Location.Named (name :: parent))
    (hfollow : parent.Followable) : (Location.path (name :: parent)).near = true := by
  rw [near, Location.parent?_path hnamed, Option.all_some, decide_eq_true_iff]
  exact .inr hfollow

end Path

theorem Location.join_name {name : String} {parent : Location} (hnamed : Named (name :: parent))
    (hne : parent ≠ []) : parent.path.join ⟨name⟩ = path (name :: parent) := by
  have hlast : Named [name] := by simpa [Named] using hnamed name List.mem_cons_self
  have hjoin := @join_path parent [name] hne
    (fun other hmem => hnamed other (List.mem_cons_of_mem _ hmem)) (List.cons_ne_nil _ _) hlast
  rwa [List.reverse_singleton, String.intercalate_singleton] at hjoin

-- A path that never goes up leads down from where it starts, by the names that are its steps.
theorem Location.foldl_follow_descends {segments : List String} (h : ".." ∉ segments)
    (start : Location) : ∃ names : Location, segments.foldl follow start = names ++ start ∧
      ∀ name ∈ names, name ∈ segments ∧ name ≠ "" ∧ name ≠ "." := by
  induction segments generalizing start with
  | nil => exact ⟨[], rfl, List.forall_mem_nil _⟩
  | cons segment rest ih =>
      rw [List.mem_cons, not_or] at h
      obtain ⟨names, hfold, hnames⟩ := ih h.2 (start.follow segment)
      have hrest : ∀ name ∈ names, name ∈ segment :: rest ∧ name ≠ "" ∧ name ≠ "." :=
        fun name hmem => ⟨List.mem_cons_of_mem _ (hnames name hmem).1, (hnames name hmem).2⟩
      rw [List.foldl_cons, hfold, follow, if_neg (Ne.symm h.1)]
      split
      · exact ⟨names, rfl, hrest⟩
      · next hname =>
        rw [not_or] at hname
        refine ⟨names ++ [segment], by rw [List.append_assoc]; rfl, fun name hmem => ?_⟩
        rcases List.mem_append.1 hmem with hmem | hmem
        · exact hrest name hmem
        · rw [List.mem_singleton.1 hmem]
          exact ⟨List.mem_cons_self, hname⟩

namespace Disk

variable {disk next : Disk} {path out : Path} {location parent : Location} {name : String}

-- No disk finds a file by a path with a NUL in it.
theorem relative_of_mem_scan {root : Path} {pattern : String} {files : List FoundFile}
    {file : FoundFile} (h : disk.scan root pattern = .ok files) (hmem : file ∈ files) :
    Char.ofNat 0 ∉ file.relative.toList := by
  obtain ⟨paths, -, h⟩ := bind_eq_ok.1 h
  obtain ⟨path, hpath, hplace⟩ := exists_of_mem_mapM h hmem
  obtain ⟨content, hread⟩ := exists_read_of_isFile (List.mem_filter.1 hpath).2
  obtain ⟨spot, hfind, -⟩ := bind_eq_ok.1 hread
  have hclean := (Location.check_eq_ok_iff.1 (check_of_find hfind).1).1
  unfold placeBelow at hplace
  dsimp only at hplace
  split at hplace
  · cases hplace
  · next names hunder =>
    have hnames := under?_eq_some hunder
    rw [Path.components_normalize] at hnames
    split at hplace
    · cases hplace
    · obtain ⟨absolute, -, hplace⟩ := bind_eq_ok.1 hplace
      cases hplace
      intro hnul
      have hspell := Path.mem_toSlash (by decide) (by decide) hnul
      rw [Path.ofComponents, String.toList_ofList] at hspell
      obtain ⟨text, htext, hnul⟩ := Path.mem_spell (by decide) (by decide) hspell
      refine hclean (Path.mem_text_of_mem_components
        (Path.mem_components_of_mem_normalComponents ?_) hnul)
      rw [hnames]
      exact List.mem_append_right _ htext

section Lost

-- From a working directory that has been removed, and by a path that does not go up, nothing is
-- reached.

theorem eq_removed_of_foldlM {steps : List String} {above : Nat} {spot : Spot}
    (hdown : ".." ∉ steps) (h : steps.foldlM disk.enter (.removed above) = .ok spot) :
    spot = .removed above := by
  induction steps with
  | nil =>
      cases h
      rfl
  | cons step rest ih =>
      rw [List.mem_cons, not_or] at hdown
      rw [List.foldlM_cons] at h
      obtain ⟨next, hnext, hrest⟩ := bind_eq_ok.1 h
      simp only [enter, if_neg (Ne.symm hdown.1)] at hnext
      split at hnext
      · cases hnext
        exact ih hdown.2 hrest
      · cases hnext

theorem ending_of_lost (hrelative : path.isAbsolute = false) (hdown : ".." ∉ path.steps)
    (hadrift : disk.adrift ≠ 0) : disk.ending path ≠ .ok (.name parent name) := by
  obtain ⟨above, habove⟩ := Nat.exists_eq_succ_of_ne_zero hadrift
  have horigin : disk.origin path = .removed above := by
    rw [origin, if_neg (by simp [hrelative]), habove]
  intro h
  unfold ending at h
  obtain ⟨-, -, h⟩ := bind_eq_ok.1 h
  split at h
  · cases h
  · next last before hsteps =>
    have hbefore : ".." ∉ before.reverse := fun hmem => by
      refine hdown (List.mem_reverse.1 ?_)
      rw [hsteps]
      exact List.mem_cons_of_mem _ (List.mem_reverse.1 hmem)
    obtain ⟨spot, hspot, h⟩ := bind_eq_ok.1 h
    rw [horigin] at hspot
    obtain rfl := eq_removed_of_foldlM hbefore hspot
    simp only [Spot.entry, Entry.isDirectory, Bool.not_true, Bool.false_eq_true, ↓reduceIte] at h
    split at h
    · cases h
    · split at h <;> cases h

theorem makeWay_of_failing {segments : List String}
    (h : ∀ above, above <:+ segments → above ≠ [] →
      ∀ next, disk.makeDirectory (Path.ofSegments above.reverse) ≠ .ok next) :
    (disk.makeWay segments).2 = disk := by
  induction segments with
  | nil => rfl
  | cons segment rest ih =>
      have hrest := ih fun above habove => h above (habove.trans (List.suffix_cons _ _))
      have hself := h (segment :: rest) List.suffix_rfl (List.cons_ne_nil _ _)
      rw [makeWay]
      split
      · exact hrest
      · dsimp only
        split
        · next made hmake => exact absurd hmake (hself made)
        · split
          · next fault middle hway =>
            rw [hway] at hrest
            exact hrest
          · next middle hway =>
            rw [hway] at hrest
            obtain rfl : middle = disk := hrest
            split
            · next made hmake => exact absurd hmake (hself made)
            · rfl
        · rfl

theorem makeParent_of_lost (hdescends : path.Descends) (hrelative : path.isAbsolute = false)
    (htext : path.text ≠ "") (hadrift : disk.adrift ≠ 0) : (disk.makeParent path).2 = disk := by
  have hhead : (Path.segments path.text).head? ≠ some "" := fun hhead => by
    rw [(Path.isAbsolute_iff_head? htext).2 hhead] at hrelative
    cases hrelative
  -- No beginning of the path leads to where a directory could be made.
  have hfail : ∀ front, front ≠ [] → front <+: Path.segments path.text →
      ∀ next, disk.makeDirectory (Path.ofSegments front) ≠ .ok next := by
    intro front hne hstarts next hmake
    have hslash : ∀ segment ∈ front, '/' ∉ segment.toList := fun segment hmem =>
      Path.not_mem_of_mem_segments (hstarts.subset hmem)
    have hdown : ".." ∉ (Path.ofSegments front).steps := by
      rw [steps_ofSegments hne hslash]
      exact fun hmem => hdescends (hstarts.subset (List.mem_of_mem_filter hmem))
    have hstart : (Path.ofSegments front).isAbsolute = false := by
      rw [← Bool.not_eq_true, isAbsolute_ofSegments hne hslash]
      obtain ⟨back, hback⟩ := hstarts
      rwa [← hback, List.head?_append_of_ne_nil _ hne] at hhead
    obtain ⟨ending, hending, hmake⟩ := bind_eq_ok.1 hmake
    split at hmake
    · exact ending_of_lost hstart hdown hadrift hending
    · cases hmake
  unfold makeParent
  split
  · next parent hparent =>
    unfold makeDirectories
    split
    · rfl
    · next hne =>
      obtain ⟨front, hfront, hstarts, rfl⟩ := (Path.parent?_eq_some hparent).resolve_left hne
      have hroot : front ≠ [""] := by
        rintro rfl
        obtain ⟨back, hback⟩ := hstarts
        rw [← hback] at hhead
        exact hhead rfl
      rw [Path.segments_ofSegments hfront hroot fun segment hmem =>
        Path.not_mem_of_mem_segments (hstarts.subset hmem)]
      refine makeWay_of_failing fun above habove hne next => ?_
      exact hfail _ (by simpa using hne) ((List.reverse_prefix.2 habove).trans
        (by rwa [List.reverse_reverse])) next
  · rfl

end Lost

-- What stands on the disk is what stood there before. Directories that were missing on the way to
-- an output can be new, but only where the path is too long for a disk or a name on it is.
structure Spared (destination : Path) (before after : Disk) : Prop where
  grows : before.Grows
    (fun location => within location (Location.walk before.workDir destination).tail) after
  same : destination.text.utf8ByteSize ≤ Path.longest →
    (∀ step ∈ destination.steps, step.utf8ByteSize ≤ longestName) → after = before

theorem Spared.refl (destination : Path) (disk : Disk) : disk.Spared destination disk :=
  ⟨.refl disk, fun _ _ => rfl⟩

theorem passable_missing {below : Location} (hpass : Scene.Passable disk.kind? location)
    (hnone : disk.kind? location = none)
    (hbelow : ∀ name ∈ below, IsName name ∧ name.utf8ByteSize ≤ longestName) :
    Scene.Passable disk.kind? (below ++ location) := by
  induction below with
  | nil => exact hpass
  | cons name rest ih =>
      refine ⟨.inr ⟨?_, hbelow name List.mem_cons_self⟩,
        ih fun other hmem => hbelow other (List.mem_cons_of_mem _ hmem)⟩
      exact kind?_below_of_ne_directory (by simp [hnone]) (List.cons_ne_nil name rest)

section Unfit

variable {destination : Path}

-- A path whose directory can be followed can be followed itself, if it is not too long.
theorem Aims.check_of_near (h : disk.Aims destination name parent) (hnear : destination.near = true)
    (hclean : Char.ofNat 0 ∉ name.toList)
    (hlength : destination.text.utf8ByteSize ≤ Path.longest) : destination.check = .ok () := by
  refine Location.check_eq_ok_iff.2 ⟨fun hnul => ?_, h.text_ne, hlength⟩
  obtain ⟨front, hsegments⟩ := h.segments
  obtain ⟨segment, hmem, hchar⟩ := Path.exists_mem_segments (by decide) hnul
  rw [hsegments] at hmem
  rcases List.mem_append.1 hmem with hmem | hmem
  · have hne : front ≠ [] := List.ne_nil_of_mem hmem
    obtain ⟨dots, hdots, hskip, -⟩ :=
      Path.exists_trimEnd front.reverse (List.reverse_ne_nil_iff.2 hne)
    have hkept : (Path.trimEnd front.reverse).reverse ≠ [] :=
      List.reverse_ne_nil_iff.2 (Path.trimEnd_ne_nil (List.reverse_ne_nil_iff.2 hne))
    rw [Path.near, Path.parent?_concat hsegments h.isName, if_neg hne, Option.all_some,
      decide_eq_true_iff, or_iff_right (text_ofSegments_ne hkept)] at hnear
    refine (Location.check_eq_ok_iff.1 hnear).1 ?_
    -- Segments that are left out are empty or a dot.
    have hthere : segment ∈ (Path.trimEnd front.reverse).reverse := by
      rw [List.mem_reverse]
      rw [← List.mem_reverse, hdots] at hmem
      refine (List.mem_append.1 hmem).resolve_left fun hdot => ?_
      rcases hskip segment hdot with rfl | rfl <;> exact absurd hchar (by decide)
    have hslash : ∀ segment ∈ (Path.trimEnd front.reverse).reverse, '/' ∉ segment.toList := by
      intro other hother
      refine @Path.not_mem_of_mem_segments destination.text other ?_
      rw [hsegments]
      exact List.mem_append_left _
        (List.mem_reverse.1 ((Path.trimEnd_suffix _).subset (List.mem_reverse.1 hother)))
    have hread := segments_ofSegments hkept hslash
    split at hread
    · next hroot =>
      rw [hroot, List.mem_singleton] at hthere
      rw [hthere] at hchar
      exact absurd hchar (by decide)
    · exact Path.mem_of_mem_segments (by rwa [hread]) hchar
  · exact hclean (List.mem_singleton.1 hmem ▸ hchar)

-- Where something is missing on the way to an output, and no name there is too long, it can be
-- made, and so can the output.
theorem Aims.fits_of_missing (h : disk.Aims destination name parent)
    (hdescends : destination.Descends) (hclean : Char.ofNat 0 ∉ name.toList)
    (hlength : destination.text.utf8ByteSize ≤ Path.longest)
    (hnames : ∀ step ∈ destination.steps, step.utf8ByteSize ≤ longestName)
    (hnear : destination.near = true) (hwithin : within location parent)
    (hnone : disk.kind? location = none) (hpass : Scene.Passable disk.kind? location) :
    (destination.slot disk.workDir).Fits disk.kind? := by
  obtain ⟨below, rfl⟩ := within_iff.1 hwithin
  -- What starts a path is there, so what is missing is below it, and leads on by steps of the path.
  have hbelow : ∀ other ∈ name :: below, IsName other ∧ other.utf8ByteSize ≤ longestName := by
    have hwalk := h.walk
    rw [Location.walk_eq_foldl_follow] at hwalk
    obtain ⟨names, hfold, hsteps⟩ := Location.foldl_follow_descends hdescends
      (if destination.isAbsolute then [] else disk.workDir)
    rw [hfold] at hwalk
    have hstart : disk.kind? (if destination.isAbsolute then [] else disk.workDir) =
        some .directory := by
      split
      · exact disk.kind?_nil
      · next hrelative =>
        have hadrift := h.grounded.resolve_left hrelative
        rw [hdescends.rises_eq, Nat.le_zero] at hadrift
        have hground := disk.kind?_workDir_drop
        rwa [hadrift, List.drop_zero] at hground
    generalize (if destination.isAbsolute then [] else disk.workDir) = start at hwalk hstart
    have hwhole : within location (name :: below ++ location) := within_append _ _
    have hlead : within start (name :: below ++ location) := by
      rw [List.cons_append, ← hwalk]
      exact within_append _ _
    rcases within_or_within hlead hwhole with habove | habove
    · obtain ⟨middle, rfl⟩ := within_iff.1 habove
      rw [← List.append_assoc, ← List.cons_append, ← List.cons_append, List.append_cancel_right_eq]
        at hwalk
      intro other hmem
      obtain ⟨hsegment, hempty, hdot⟩ := hsteps other (hwalk ▸ List.mem_append_left _ hmem)
      exact ⟨⟨hempty, hdot, fun hup => hdescends (hup ▸ hsegment),
        Path.not_mem_of_mem_segments hsegment⟩,
        hnames other (List.mem_filter.2 ⟨hsegment, by simpa using hempty⟩)⟩
    · exact absurd hnone (ne_none_of_directory hstart habove)
  have hfree : disk.kind? (name :: (below ++ location)) = none :=
    kind?_below_of_ne_directory (by simp [hnone]) (List.cons_ne_nil name below)
  refine (Progress.fits_slot h).2 ⟨h.check_of_near hnear hclean hlength,
    passable_missing hpass hnone fun other hmem => hbelow other (List.mem_cons_of_mem _ hmem),
    by simp [hfree], fun _ => (hbelow name List.mem_cons_self).2⟩

theorem Aims.spared_makeParent (h : disk.Aims destination name parent)
    (hdescends : destination.Descends) (hclean : Char.ofNat 0 ∉ name.toList)
    (hunfit : ¬ (destination.slot disk.workDir).Fits disk.kind?) :
    disk.Spared destination (disk.makeParent destination).2 := by
  have hbase := disk.sameBase_makeParent destination
  by_cases hnear : destination.near = true
  · obtain ⟨-, hkind⟩ := h.raises_makeParent hnear
    refine ⟨⟨hbase.workDir, fun location => ?_⟩, fun hlength hnames => hbase.eq_of_kind? ?_⟩
    · rw [hkind, h.walk, List.tail_cons, Scene.raise]
      split
      · next hmissing => exact .inr ⟨hmissing.1, hmissing.2.1, rfl⟩
      · exact .inl rfl
    · rw [hkind]
      refine Scene.raise_eq_self fun location hwithin hnone hpass => hunfit ?_
      exact h.fits_of_missing hdescends hclean hlength hnames hnear hwithin hnone hpass
  · rw [Bool.not_eq_true] at hnear
    obtain ⟨fault, hmake⟩ := h.makeParent_of_not_near hnear
    rw [hmake]
    exact .refl destination disk

-- No directory is made where an output is already.
theorem Aims.makeParent_of_directory (h : disk.Aims destination name parent)
    (hparent : disk.kind? parent = some .directory) : (disk.makeParent destination).2 = disk := by
  by_cases hnear : destination.near = true
  · obtain ⟨-, hkind⟩ := h.raises_makeParent hnear
    exact (disk.sameBase_makeParent destination).eq_of_kind?
      (hkind.trans (raise_of_directory hparent))
  · rw [Bool.not_eq_true] at hnear
    obtain ⟨fault, hmake⟩ := h.makeParent_of_not_near hnear
    rw [hmake]

end Unfit

end Disk

namespace Progress

variable {progress : Progress} {destination out : Path} {name : String} {parent : Location}
  {content : ByteArray}

-- An operation that fails after the directory of the output has been made leaves it there.
theorem disk_place_of_ne_ok {change : Disk → Except Fault Disk}
    (h : (progress.place destination change).1 ≠ .ok ()) :
    (progress.place destination change).2.disk = (progress.disk.makeParent destination).2 := by
  unfold place at h ⊢
  generalize progress.disk.makeParent destination = made at h ⊢
  obtain ⟨result, middle⟩ := made
  cases result with
  | error fault => rfl
  | ok _ =>
      dsimp only at h ⊢
      cases hchange : change middle with
      | error fault => rfl
      | ok next =>
          rw [hchange] at h
          exact absurd rfl h

theorem writeOutput_eq_failed (h : (progress.writeOutput destination content).1.isFailed = true) :
    (progress.writeOutput destination content).1 ≠ .written destination ∧
      (progress.writeOutput destination content).2.disk =
        (progress.disk.makeParent destination).2 := by
  have hplace := @disk_place_of_ne_ok progress destination (·.write destination content)
  unfold writeOutput at h ⊢
  split at h
  · cases h
  · next heq =>
    rw [heq] at hplace
    exact ⟨by simp, hplace (by simp)⟩

-- A page that does not fit leaves the directories that have been made for it.
theorem writeOutput_of_unfit (h : progress.disk.Aims destination name parent)
    (hnear : destination.near = true)
    (hunfit : ¬ (destination.slot progress.disk.workDir).Fits progress.disk.kind?) :
    (progress.writeOutput destination content).1.isFailed = true ∧
      (progress.writeOutput destination content).2.disk.kind? =
        Scene.raise progress.disk.kind? parent := by
  have hlands := @writeOutput_lands progress destination name parent content h
  have hfailed : (progress.writeOutput destination content).1.isFailed = true := by
    have hnot := fun hwritten => hunfit (hlands.done.1 hwritten)
    unfold writeOutput at hnot ⊢
    split
    · next heq =>
      rw [heq] at hnot
      exact absurd rfl hnot
    · rfl
  refine ⟨hfailed, ?_⟩
  rw [(writeOutput_eq_failed hfailed).2]
  exact (h.raises_makeParent hnear).2

theorem copyOutput_eq_failed {source : Path}
    (h : (progress.copyOutput source destination).1.isFailed = true) :
    (progress.copyOutput source destination).1 ≠ .copied destination ∧
      (progress.copyOutput source destination).2.disk =
        (progress.disk.makeParent destination).2 := by
  have hplace := @disk_place_of_ne_ok progress destination (·.copy source destination)
  unfold copyOutput at h ⊢
  split at h
  · cases h
  · next heq =>
    rw [heq] at hplace
    exact ⟨by simp, hplace (by simp)⟩

theorem removeOutput_eq_failed (h : (progress.removeOutput destination).1.isFailed = true) :
    (progress.removeOutput destination).2.disk = progress.disk := by
  unfold removeOutput at h ⊢
  split at h
  · cases h
  · rfl

section Joined

variable {relative : String}

-- The output of a file, as a path that leads somewhere or does not.
theorem aims_or_lost (disk : Disk) (hrelative : IsRelative relative)
    (hclean : Char.ofNat 0 ∉ relative.toList) (hout : out.Descends) :
    (∃ name parent, disk.Aims (out.join ⟨relative⟩) name parent ∧ Char.ofNat 0 ∉ name.toList) ∨
      (disk.makeParent (out.join ⟨relative⟩)).2 = disk := by
  by_cases hgrounded : disk.Grounded out
  · obtain ⟨below, hne, hnamed, rfl⟩ := hrelative
    obtain ⟨name, rest, rfl⟩ := List.exists_cons_of_ne_nil hne
    refine .inl ⟨name, _, Disk.aims_join hout.straight hgrounded hnamed, fun hnul => ?_⟩
    refine hclean (Path.mem_of_mem_segments ?_ hnul)
    rw [Location.segments_names hne hnamed]
    simp
  · rw [Disk.Grounded, not_or, hout.rises_eq, Nat.le_zero] at hgrounded
    refine .inr (Disk.makeParent_of_lost (hrelative.descends_join hout) ?_
      (hrelative.text_join out) hgrounded.2)
    obtain ⟨below, -, hnamed, rfl⟩ := hrelative
    exact Path.isAbsolute_join_eq_false (by simpa using hgrounded.1)
      (Location.isAbsolute_names hnamed)

theorem writeOutput_spared (hrelative : IsRelative relative)
    (hclean : Char.ofNat 0 ∉ relative.toList) (hout : out.Descends)
    (h : (progress.writeOutput (out.join ⟨relative⟩) content).1.isFailed = true) :
    progress.disk.Spared (out.join ⟨relative⟩)
      (progress.writeOutput (out.join ⟨relative⟩) content).2.disk := by
  obtain ⟨hnot, hdisk⟩ := writeOutput_eq_failed h
  rw [hdisk]
  rcases aims_or_lost progress.disk hrelative hclean hout with
    ⟨name, parent, haims, hname⟩ | hlost
  · refine haims.spared_makeParent (hrelative.descends_join hout) hname fun hfits => hnot ?_
    exact (writeOutput_lands haims).done.2 hfits
  · rw [hlost]
    exact .refl _ _

theorem copyOutput_spared {source : Location} (hrelative : IsRelative relative)
    (hclean : Char.ofNat 0 ∉ relative.toList) (hout : out.Descends) (hsource : source.Named)
    (hfile : progress.disk.isFile source.path = true)
    (h : (progress.copyOutput source.path (out.join ⟨relative⟩)).1.isFailed = true) :
    progress.disk.Spared (out.join ⟨relative⟩)
      (progress.copyOutput source.path (out.join ⟨relative⟩)).2.disk := by
  obtain ⟨hnot, hdisk⟩ := copyOutput_eq_failed h
  obtain ⟨content, hread⟩ := Disk.exists_read_of_isFile hfile
  obtain ⟨hfollow, hthere⟩ := (Disk.read_path hsource).1 hread
  rw [hdisk]
  rcases aims_or_lost progress.disk hrelative hclean hout with
    ⟨name, parent, haims, hname⟩ | hlost
  · by_cases hself : source = name :: parent
    · have hparent := Disk.kind?_parent (hself ▸ Disk.file?_eq_some.1 hthere)
      rw [haims.makeParent_of_directory hparent]
      exact .refl _ _
    · refine haims.spared_makeParent (hrelative.descends_join hout) hname fun hfits => hnot ?_
      exact (copyOutput_lands haims hfollow hthere hself).done.2 hfits
  · rw [hlost]
    exact .refl _ _

end Joined

-- What is built for a page that composes.
theorem buildContent_of_page {tree : SourceTree} {file : ContentFile} {page : List Char}
    (hpublic : file.isHidden = false) (hkept : file.deleted = false)
    (hpage : progress.disk.composePage tree file = .ok page) :
    (progress.buildContent tree file out).1 =
        .ok (progress.writeOutput (out.join ⟨file.relative⟩) (String.ofList page).toUTF8).1 ∧
      (progress.buildContent tree file out).2 =
        (progress.writeOutput (out.join ⟨file.relative⟩) (String.ofList page).toUTF8).2 := by
  simp only [buildContent, hpublic, hkept, hpage, Bool.false_eq_true, ↓reduceIte, and_self]

-- Of a page, also where the build is abandoned.
theorem buildContent_spared {file : ContentFile} (tree : SourceTree)
    (hrelative : IsRelative file.relative) (hclean : Char.ofNat 0 ∉ file.relative.toList)
    (hout : out.Descends) (h : ∀ outcome, (progress.buildContent tree file out).1 = .ok outcome →
      outcome.isFailed = true) :
    progress.disk.Spared (out.join ⟨file.relative⟩)
      (progress.buildContent tree file out).2.disk := by
  by_cases hhidden : file.isHidden = true
  · rw [buildContent, if_pos hhidden] at h
    cases h .skipped rfl
  · by_cases hdeleted : file.deleted = true
    · rw [buildContent, if_neg hhidden] at h ⊢
      dsimp only at h ⊢
      rw [if_pos hdeleted] at h ⊢
      rw [removeOutput_eq_failed (h _ rfl)]
      exact .refl _ _
    · cases hcompose : progress.disk.composePage tree file with
      | ok page =>
          rw [Bool.not_eq_true] at hhidden hdeleted
          obtain ⟨houtcome, hbuilt⟩ := @buildContent_of_page progress out tree file page hhidden
            hdeleted hcompose
          rw [hbuilt]
          exact writeOutput_spared hrelative hclean hout (h _ houtcome)
      | error error =>
          rw [buildContent, if_neg hhidden]
          dsimp only
          rw [if_neg hdeleted, hcompose]
          cases error <;> exact .refl _ _

theorem buildAsset_spared {file : StaticFile} {source : Location}
    (hrelative : IsRelative file.relative) (hclean : Char.ofNat 0 ∉ file.relative.toList)
    (hout : out.Descends) (hsource : source.Named) (habsolute : file.absolute = source.path)
    (h : (progress.buildAsset file out).1.isFailed = true) :
    progress.disk.Spared (out.join ⟨file.relative⟩) (progress.buildAsset file out).2.disk := by
  unfold buildAsset at h ⊢
  dsimp only at h ⊢
  by_cases hdeleted : file.deleted = true
  · rw [if_pos hdeleted] at h ⊢
    rw [removeOutput_eq_failed h]
    exact .refl _ _
  · rw [if_neg hdeleted] at h ⊢
    by_cases hfile : progress.disk.isFile file.absolute = true
    · rw [if_pos hfile] at h ⊢
      rw [habsolute] at hfile h ⊢
      exact copyOutput_spared hrelative hclean hout hsource hfile h
    · rw [if_neg hfile]
      exact .refl _ _

-- What is done for a file of a scan, marked as deleted or not, changes no file and removes nothing
-- when it fails. Where no name is too long, it changes nothing at all.
theorem failed_spares (progress : Progress) {out : Path} (hout : out.Descends) (scanned : Disk)
    (root : Path) (deleted : Bool) :
    (∀ (found tree : SourceTree) (file : ContentFile),
      scanned.scanSource root = .ok found → file ∈ found.files →
      (∀ outcome, (progress.buildContent tree (file.flagged deleted) out).1 = .ok outcome →
        outcome.isFailed = true) →
      progress.disk.Spared (out.join ⟨file.relative⟩)
        (progress.buildContent tree (file.flagged deleted) out).2.disk) ∧
    ∀ (files : List StaticFile) (file : StaticFile),
      scanned.scanAssets root = .ok files → file ∈ files →
      (progress.buildAsset (file.flagged deleted) out).1.isFailed = true →
      progress.disk.Spared (out.join ⟨file.relative⟩)
        (progress.buildAsset (file.flagged deleted) out).2.disk := by
  constructor
  · intro found tree file hscan hmem hfailed
    have hrelative := (Disk.scanSource_places hscan hmem).1
    obtain ⟨sources, hsources, rfl⟩ := map_eq_ok.1 hscan
    have hclean := Disk.relative_of_mem_scan hsources (SourceTree.mem_files_ofFound hmem).2
    exact @buildContent_spared progress out (file.flagged deleted) tree hrelative hclean hout hfailed
  · intro files file hscan hmem hfailed
    obtain ⟨sources, hsources, rfl⟩ := map_eq_ok.1 hscan
    obtain ⟨origin, horigin, rfl⟩ := List.mem_map.1 hmem
    obtain ⟨below, hne, hnamed, hrelative, habsolute, hplace⟩ := Disk.scan_spec hsources horigin
    exact @buildAsset_spared progress out ((StaticFile.ofFound origin).flagged deleted) _
      ⟨below, hne, hnamed, hrelative⟩ (Disk.relative_of_mem_scan hsources horigin) hout hplace
      habsolute hfailed

-- A file stands where the output directory should be.
def obstructed : Progress :=
  .start ((project ["site"]).putFile "dist" ["site"] "z".toUTF8)

def soleSource : ContentFile := ⟨"a.html", ⟨"/site/src/a.html"⟩, false, []⟩

def soleAsset : StaticFile := ⟨"s.css", ⟨"/site/static/s.css"⟩, false⟩

theorem failed_spares_of_obstructed :
    (obstructed.buildContent ⟨[soleSource]⟩ (soleSource.flagged false) ⟨"dist/new"⟩).1 =
        .ok (.failed ⟨"dist/new/a.html"⟩ (.disk .notADirectory)) ∧
      (obstructed.buildContent ⟨[soleSource]⟩ (soleSource.flagged false) ⟨"dist/new"⟩).2.disk =
        obstructed.disk ∧
      (obstructed.buildAsset (soleAsset.flagged true) ⟨"dist/new"⟩).1 =
        .failed ⟨"dist/new/s.css"⟩ (.disk .notADirectory) ∧
      (obstructed.buildAsset (soleAsset.flagged true) ⟨"dist/new"⟩).2.disk = obstructed.disk := by
  have hpage : (obstructed.buildContent ⟨[soleSource]⟩ (soleSource.flagged false) ⟨"dist/new"⟩).1 =
      .ok (.failed ⟨"dist/new/a.html"⟩ (.disk .notADirectory)) := by decide +kernel
  have hasset : (obstructed.buildAsset (soleAsset.flagged true) ⟨"dist/new"⟩).1 =
      .failed ⟨"dist/new/s.css"⟩ (.disk .notADirectory) := by decide +kernel
  have hdescends : (Path.mk "dist/new").Descends := Path.descends_iff.2 (by decide +kernel)
  have hscan : obstructed.disk.scanSource ⟨"src"⟩ = .ok ⟨[soleSource]⟩ := by decide +kernel
  have hscanAssets : obstructed.disk.scanAssets ⟨"static"⟩ = .ok [soleAsset] := by decide +kernel
  have hpageFailed : ∀ outcome, (obstructed.buildContent ⟨[soleSource]⟩ (soleSource.flagged false)
      ⟨"dist/new"⟩).1 = .ok outcome → outcome.isFailed = true := by
    intro outcome hok
    rw [hpage] at hok
    cases hok
    rfl
  have hassetFailed : (obstructed.buildAsset (soleAsset.flagged true) ⟨"dist/new"⟩).1.isFailed =
      true := by
    rw [hasset]
    rfl
  have hpageSpared := (failed_spares obstructed hdescends obstructed.disk ⟨"src"⟩ false).1
    ⟨[soleSource]⟩ ⟨[soleSource]⟩ soleSource hscan List.mem_cons_self hpageFailed
  have hassetSpared := (failed_spares obstructed hdescends obstructed.disk ⟨"static"⟩ true).2
    [soleAsset] soleAsset hscanAssets List.mem_cons_self hassetFailed
  exact ⟨hpage, hpageSpared.same (by decide +kernel) (by decide +kernel), hasset,
    hassetSpared.same (by decide +kernel) (by decide +kernel)⟩

-- A name of 256 bytes.
def longName : String := Nat.repeat (fun text => text ++ text) 8 "x"

theorem utf8ByteSize_longName : longName.utf8ByteSize = 256 := by
  simp only [longName, Nat.repeat, String.utf8ByteSize_append]
  decide

theorem eq_of_mem_longName {c : Char} (hmem : c ∈ longName.toList) : c = 'x' := by
  simp only [longName, Nat.repeat, String.toList_append, List.mem_append, or_self] at hmem
  exact List.mem_singleton.1 hmem

theorem isName_longName : IsName longName := by
  have hne : ∀ text : String, text.utf8ByteSize ≠ 256 → longName ≠ text := by
    rintro text hsize rfl
    exact hsize utf8ByteSize_longName
  exact ⟨hne _ (by decide), hne _ (by decide), hne _ (by decide),
    fun hmem => absurd (eq_of_mem_longName hmem) (by decide)⟩

-- An output directory with that name.
def overlong : Location := [longName, "new", "site"]

theorem followable_overlong : overlong.Followable := by
  have htext : overlong.path.text = "/site/new" ++ "/" ++ longName := by
    have happend := @Location.text_path_append ["new", "site"] [longName] (List.cons_ne_nil _ _)
      (List.cons_ne_nil _ _)
    rwa [List.reverse_singleton, String.intercalate_singleton,
      show (Location.path ["new", "site"]).text = "/site/new" by decide] at happend
  rw [Location.Followable, Location.check_eq_ok_iff, htext, String.toList_append,
    String.utf8ByteSize_append, utf8ByteSize_longName]
  refine ⟨fun hnul => ?_, by simp, by decide⟩
  rcases List.mem_append.1 hnul with hnul | hnul
  · exact absurd hnul (by decide)
  · exact absurd (eq_of_mem_longName hnul) (by decide)

theorem named_overlong : overlong.Named := by
  rintro name (_ | ⟨_, hmem⟩)
  · exact isName_longName
  · revert name
    decide

-- A name that is too long is met after the directory above it has been made.
theorem failed_leaves_directory :
    (project ["site"]).scanSource ⟨"src"⟩ = .ok ⟨[soleSource]⟩ ∧ overlong.path.Descends ∧
      (∃ outcome, ((start (project ["site"])).buildContent ⟨[soleSource]⟩ soleSource
        overlong.path).1 = .ok outcome ∧ outcome.isFailed = true) ∧
      (project ["site"]).kind? ["new", "site"] = none ∧
      ((start (project ["site"])).buildContent ⟨[soleSource]⟩ soleSource overlong.path).2.disk.kind?
        ["new", "site"] = some .directory := by
  have hscan : (project ["site"]).scanSource ⟨"src"⟩ = .ok ⟨[soleSource]⟩ := by decide +kernel
  have hpage : (project ["site"]).composePage ⟨[soleSource]⟩ soleSource = .ok ['x'] := by
    decide +kernel
  have hnone : (project ["site"]).kind? ["new", "site"] = none := by decide +kernel
  have htop : (project ["site"]).kind? ["site"] = some .directory := by decide +kernel
  have hname : IsName "a.html" := by decide
  have haims := @Disk.aims_path (project ["site"]) _ _ (named_overlong.cons hname)
  have hunfit : ¬ ((Location.path ("a.html" :: overlong)).slot (project ["site"]).workDir).Fits
      (project ["site"]).kind? := by
    intro hfits
    have hpass := ((fits_slot haims).1 hfits).2.1.1
    have hbelow : (project ["site"]).kind? (longName :: ["new", "site"]) = none :=
      @Disk.kind?_below_of_ne_directory _ ["new", "site"] (by simp [hnone]) [longName] (by decide)
    rw [hbelow, utf8ByteSize_longName] at hpass
    exact absurd (hpass.resolve_left (by simp)).2.2 (by decide)
  obtain ⟨hfailed, hkind⟩ := @writeOutput_of_unfit (start (project ["site"])) _ _ _
    (String.ofList ['x']).toUTF8 haims
    (Path.near_path (named_overlong.cons hname) followable_overlong) hunfit
  obtain ⟨houtcome, hbuilt⟩ := @buildContent_of_page (start (project ["site"])) overlong.path
    ⟨[soleSource]⟩ soleSource ['x'] (by decide +kernel) rfl hpage
  rw [show soleSource.relative = "a.html" from rfl,
    Location.join_name (named_overlong.cons hname) (List.cons_ne_nil _ _)] at houtcome hbuilt
  refine ⟨hscan, Location.descends_path named_overlong, ⟨_, houtcome, hfailed⟩, hnone, ?_⟩
  rw [hbuilt, hkind]
  exact if_pos ⟨by decide, hnone, .inr ⟨hnone, by decide⟩, .inl htop, trivial⟩

end Progress

end StaticSite
