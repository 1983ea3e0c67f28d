import StaticSite.Proofs.Build.Frame
import StaticSite.Proofs.Build.Report
import StaticSite.Proofs.Disk.Clearing
import StaticSite.Proofs.Template.Acceptance

-- What a run of builds that nothing fails for puts in the output directory.
namespace StaticSite

namespace Disk

variable {disk other : Disk} {root : Path}

-- In a scan, a file is known by its relative path.
theorem eq_of_mem_scan {pattern : String} {files : List FoundFile} {left right : FoundFile}
    (h : disk.scan root pattern = .ok files) (hleft : left ∈ files) (hright : right ∈ files)
    (heq : left.relative = right.relative) : left = right := by
  obtain ⟨below, -, hnamed, hrelative, habsolute, -⟩ := scan_spec h hleft
  obtain ⟨below', -, hnamed', hrelative', habsolute', -⟩ := scan_spec h hright
  rw [hrelative, hrelative'] at heq
  have hbelow := Location.names_injective hnamed hnamed' heq
  subst hbelow
  cases left
  cases right
  simp_all

-- A disk composes a page that another has composed, if it reads the same in all parts of it.
theorem composePage_of_read {tree : SourceTree} {file : ContentFile} {page : List Char}
    (hread : ∀ part ∈ tree.chain file, ∀ content, disk.read part.absolute = .ok content →
      other.read part.absolute = .ok content)
    (h : disk.composePage tree file = .ok page) : other.composePage tree file = .ok page := by
  have hok := Template.Composition.exists_of_addAll h
  have hsources : (tree.chain file).map disk.source = (tree.chain file).map other.source := by
    refine List.map_congr_left fun part hmem => ?_
    obtain ⟨text, htext⟩ := hok _ (List.mem_map_of_mem hmem)
    cases hdisk : disk.read part.absolute with
    | error fault =>
        rw [source, readText, hdisk] at htext
        cases htext
    | ok content => rw [source, source, readText, readText, hdisk, hread part hmem content hdisk]
  rw [composePage, ← hsources]
  exact h

theorem read_of_file?_eq {location : Location} {content : ByteArray} (hnamed : location.Named)
    (heq : other.file? location = disk.file? location)
    (h : disk.read location.path = .ok content) : other.read location.path = .ok content := by
  rw [read_path hnamed] at h ⊢
  rwa [heq]

end Disk

namespace SourceTree

theorem isHidden_of_isLayout {file : ContentFile} (h : file.isLayout) : file.isHidden := by
  rw [ContentFile.isLayout, List.isPrefixOf_iff_prefix] at h
  rw [ContentFile.isHidden, List.isPrefixOf_iff_prefix]
  exact List.IsPrefix.trans (by decide) h

-- Two pages with the same relative path are one.
theorem eq_of_relative {found : List FoundFile}
    (hfound : ∀ left ∈ found, ∀ right ∈ found, left.relative = right.relative → left = right)
    {left right : ContentFile} (hleft : left ∈ (ofFound found).files)
    (hright : right ∈ (ofFound found).files) (hpublic : left.isPublic)
    (heq : left.relative = right.relative) : left = right := by
  simp only [ofFound, link, List.mem_mapIdx, List.length_map, List.getElem_map] at hleft hright
  obtain ⟨i, hi, rfl⟩ := hleft
  obtain ⟨j, hj, rfl⟩ := hright
  have hsame := hfound _ (List.getElem_mem hi) _ (List.getElem_mem hj) heq
  rw [hsame]
  congr 1
  refine List.filter_congr fun layout hlayout => ?_
  -- A page is no layout, so it is not left out of its own dependencies.
  have hne : ∀ index (hindex : index < found.length), found[index] = found[j] →
      (layout != index) = true := by
    rintro index hindex hfile
    rw [bne_iff_ne]
    rintro rfl
    have hlayout := (List.mem_filter.1 (List.mem_mergeSort.1 hlayout)).2
    rw [List.getElem?_map, List.getElem?_eq_getElem hindex, Option.map_some, Option.any_some,
      hfile, ← hsame] at hlayout
    have hhidden := isHidden_of_isLayout hlayout
    rw [ContentFile.isPublic] at hpublic
    simp_all [ContentFile.isHidden]
  rw [hne i hi hsame, hne j hj rfl]

end SourceTree

-- What is known of the files of a scan: no two have the same relative path, which leads from the
-- root to where the file is read.
structure SourceTree.Scanned (root : Location) (tree : SourceTree) : Prop where
  kept : ∀ file ∈ tree.files, file.deleted = false
  place : ∀ file ∈ tree.files, ∃ below : Location, below ≠ [] ∧ below.Named ∧
    file.relative = "/".intercalate below.reverse ∧ file.absolute = (below ++ root).path ∧
      (below ++ root).Named
  unique : ∀ left ∈ tree.files, ∀ right ∈ tree.files, left.isPublic →
    left.relative = right.relative → left = right

theorem Disk.scanned_of_scanSource {disk : Disk} {root : Path} {tree : SourceTree}
    (h : disk.scanSource root = .ok tree) : tree.Scanned (Location.walk disk.workDir root) := by
  obtain ⟨found, hfound, rfl⟩ := map_eq_ok.1 h
  refine ⟨fun file hmem => (SourceTree.mem_files_ofFound hmem).1, fun file hmem => ?_,
    fun left hleft right hright => ?_⟩
  · exact scan_spec hfound (SourceTree.mem_files_ofFound hmem).2
  · exact SourceTree.eq_of_relative (fun _ hleft _ hright => eq_of_mem_scan hfound hleft hright)
      hleft hright

-- The same of assets.
structure StaticFile.Scanned (root : Location) (files : List StaticFile) : Prop where
  kept : ∀ file ∈ files, file.deleted = false
  place : ∀ file ∈ files, ∃ below : Location, below ≠ [] ∧ below.Named ∧
    file.relative = "/".intercalate below.reverse ∧ file.absolute = (below ++ root).path ∧
      (below ++ root).Named
  unique : ∀ left ∈ files, ∀ right ∈ files, left.relative = right.relative → left = right

theorem Disk.scanned_of_scanAssets {disk : Disk} {root : Path} {files : List StaticFile}
    (h : disk.scanAssets root = .ok files) :
    StaticFile.Scanned (Location.walk disk.workDir root) files := by
  obtain ⟨found, hfound, rfl⟩ := map_eq_ok.1 h
  refine ⟨fun file hmem => ?_, fun file hmem => ?_, fun left hleft right hright heq => ?_⟩
  · obtain ⟨origin, -, rfl⟩ := List.mem_map.1 hmem
    rfl
  · obtain ⟨origin, horigin, rfl⟩ := List.mem_map.1 hmem
    exact scan_spec hfound horigin
  · obtain ⟨origin, horigin, rfl⟩ := List.mem_map.1 hleft
    obtain ⟨other, hother, rfl⟩ := List.mem_map.1 hright
    rw [eq_of_mem_scan hfound horigin hother heq]

-- The file at `place` has this content, and no other file has changed.
structure Disk.Puts (place : Location) (content : ByteArray) (before after : Disk) : Prop where
  workDir : after.workDir = before.workDir
  file? : ∀ location,
    after.file? location = if location = place then some content else before.file? location

-- These files have been put, and no other file has changed.
structure Disk.Publishes (outputs : Location → ByteArray → Prop) (before after : Disk) : Prop where
  made : ∀ location content, outputs location content → after.file? location = some content
  same : ∀ location, (∀ content, ¬ outputs location content) →
    after.file? location = before.file? location

namespace Disk.Publishes

variable {outputs others : Location → ByteArray → Prop} {before middle after : Disk}

-- What is put later replaces what has been put before.
theorem trans (h : before.Publishes outputs middle) (h' : middle.Publishes others after) :
    before.Publishes (fun location content => others location content ∨
      outputs location content ∧ ∀ other, ¬ others location other) after := by
  constructor
  · rintro location content (hlast | ⟨hfirst, hnot⟩)
    · exact h'.made location content hlast
    · rw [h'.same location hnot, h.made location content hfirst]
  · intro location hnot
    have hothers : ∀ content, ¬ others location content := fun content hlast =>
      hnot content (.inl hlast)
    rw [h'.same location hothers, h.same location fun content hfirst =>
      hnot content (.inr ⟨hfirst, hothers⟩)]

theorem congr (h : before.Publishes outputs after)
    (heq : ∀ location content, outputs location content ↔ others location content) :
    before.Publishes others after := by
  have : outputs = others := funext₂ fun location content => propext (heq location content)
  exact this ▸ h

-- The order does not matter where nothing is replaced by something else.
theorem trans_of_agree (h : before.Publishes outputs middle) (h' : middle.Publishes others after)
    (hagree : ∀ location content other, outputs location content → others location other →
      content = other) :
    before.Publishes (fun location content => outputs location content ∨ others location content)
      after := by
  refine (h.trans h').congr fun location content => ⟨fun hout => ?_, fun hout => ?_⟩
  · exact hout.elim .inr fun hfirst => .inl hfirst.1
  · by_cases hlast : ∃ other, others location other
    · obtain ⟨other, hother⟩ := hlast
      rcases hout with hfirst | hout
      · exact .inl (hagree location content other hfirst hother ▸ hother)
      · exact .inl hout
    · exact hout.elim (fun hfirst => .inr ⟨hfirst, fun other hother => hlast ⟨other, hother⟩⟩) .inl

-- Where there has been nothing, what has been put is all there is.
theorem file?_iff (h : before.Publishes outputs after) {location : Location}
    {content : ByteArray} (hnone : before.file? location = none) :
    after.file? location = some content ↔ outputs location content := by
  refine ⟨fun hfile => ?_, h.made location content⟩
  by_contra hnot
  have hall : ∀ other, ¬ outputs location other := by
    intro other hother
    rw [h.made location other hother, Option.some.injEq] at hfile
    exact hnot (hfile ▸ hother)
  rw [h.same location hall, hnone] at hfile
  cases hfile

end Disk.Publishes

theorem Disk.publishes_of_file? {place : Location} {content : ByteArray} {before after : Disk}
    (h : ∀ location,
      after.file? location = if location = place then some content else before.file? location) :
    before.Publishes (fun location other => location = place ∧ other = content) after := by
  constructor
  · rintro location other ⟨rfl, rfl⟩
    rw [h, if_pos rfl]
  · intro location hnot
    rw [h, if_neg fun heq => hnot content ⟨heq, rfl⟩]

namespace Progress

variable {progress : Progress} {tree : SourceTree} {out : Path}

theorem place_puts {destination : Path} {change : Disk → Except Fault Disk} {content : ByteArray}
    (hchange : ∀ middle next : Disk, middle.workDir = progress.disk.workDir →
      (∀ location, middle.file? location = progress.disk.file? location) →
      change middle = .ok next →
      middle.Puts (Location.walk progress.disk.workDir destination) content next)
    (h : (progress.place destination change).1 = .ok ()) :
    progress.disk.Puts (Location.walk progress.disk.workDir destination) content
      (progress.place destination change).2.disk := by
  obtain ⟨middle, hmake, hnext⟩ := place_eq_ok h
  have hgrows := progress.disk.makeParent_grows destination
  rw [hmake] at hgrows
  have hputs := hchange middle _ hgrows.workDir hgrows.file?_eq hnext
  refine ⟨hputs.workDir.trans hgrows.workDir, fun location => ?_⟩
  rw [hputs.file?, hgrows.file?_eq]

theorem writeOutput_puts {destination : Path} {content : ByteArray}
    (h : (progress.writeOutput destination content).1.isFailed = false) :
    progress.disk.Puts (Location.walk progress.disk.workDir destination) content
      (progress.writeOutput destination content).2.disk := by
  have hplace := @place_puts progress destination (·.write destination content) content
    fun middle next hwork _ hwrite => by
      refine ⟨Disk.workDir_write hwrite, fun location => ?_⟩
      have hkind := Disk.kind?_write hwrite location
      rw [hwork] at hkind
      by_cases heq : location = Location.walk progress.disk.workDir destination
      · rw [if_pos heq, Disk.file?_eq_some, hkind, if_pos heq]
      · rw [if_neg heq]
        exact Disk.file?_eq_of_kind?_eq (by rw [hkind, if_neg heq])
  unfold writeOutput at h ⊢
  split at h
  · next heq =>
    rw [heq] at hplace
    simpa [heq] using hplace rfl
  · cases h

theorem copyOutput_puts {source destination : Path} {content : ByteArray}
    (hne : Location.walk progress.disk.workDir source ≠
      Location.walk progress.disk.workDir destination)
    (hfile : progress.disk.file? (Location.walk progress.disk.workDir source) = some content)
    (h : (progress.copyOutput source destination).1.isFailed = false) :
    progress.disk.Puts (Location.walk progress.disk.workDir destination) content
      (progress.copyOutput source destination).2.disk := by
  have hplace := @place_puts progress destination (·.copy source destination) content
    fun middle next hwork hsame hcopy => by
      refine ⟨Disk.workDir_copy hcopy, fun location => ?_⟩
      have hkind := Disk.kind?_copy hcopy (by rwa [hwork]) location
      rw [hwork] at hkind
      by_cases heq : location = Location.walk progress.disk.workDir destination
      · rw [if_pos heq, Disk.file?_eq_some, hkind, if_pos heq, ← Disk.file?_eq_some, hsame, hfile]
      · rw [if_neg heq]
        exact Disk.file?_eq_of_kind?_eq (by rw [hkind, if_neg heq])
  unfold copyOutput at h ⊢
  split at h
  · next heq =>
    rw [heq] at hplace
    simpa [heq] using hplace rfl
  · cases h

-- A page that is built is what its chain composes to.
theorem buildContent_puts {file : ContentFile} {outcome : Outcome} (hkept : file.deleted = false)
    (hpublic : file.isPublic) (h : (progress.buildContent tree file out).1 = .ok outcome)
    (hok : outcome.isFailed = false) :
    ∃ page, progress.disk.composePage tree file = .ok page ∧
      progress.disk.Puts (Location.walk progress.disk.workDir (out.join ⟨file.relative⟩))
        (String.ofList page).toUTF8 (progress.buildContent tree file out).2.disk := by
  rcases @buildContent_cases progress tree out file hkept with
    ⟨hhidden, -⟩ | ⟨-, ⟨page, hpage, heq⟩ | ⟨path, fault, -, heq⟩ | ⟨error, -, -, heq⟩⟩
  · simp [ContentFile.isPublic, hhidden] at hpublic
  · rw [heq] at h ⊢
    dsimp only at h ⊢
    obtain rfl := Except.ok.inj h
    exact ⟨page, hpage, writeOutput_puts hok⟩
  · rw [heq] at h
    cases h
    cases hok
  · rw [heq] at h
    cases h

theorem buildAsset_puts {file : StaticFile} (hkept : file.deleted = false)
    (hne : Location.walk progress.disk.workDir file.absolute ≠
      Location.walk progress.disk.workDir (out.join ⟨file.relative⟩))
    (hok : (progress.buildAsset file out).1.isFailed = false) :
    ∃ content, progress.disk.file? (Location.walk progress.disk.workDir file.absolute) =
        some content ∧
      progress.disk.Puts (Location.walk progress.disk.workDir (out.join ⟨file.relative⟩)) content
        (progress.buildAsset file out).2.disk := by
  unfold buildAsset at hok ⊢
  simp only [hkept, Bool.false_eq_true, ↓reduceIte] at hok ⊢
  split at hok
  · next hfile =>
    obtain ⟨content, hread⟩ := Disk.exists_read_of_isFile hfile
    have hcontent := Disk.file?_of_read hread
    rw [if_pos hfile]
    exact ⟨content, hcontent, copyOutput_puts hne hcontent hok⟩
  · cases hok

end Progress

namespace IsRelative

variable {relative other : String}

theorem walk_join (h : IsRelative relative) (start : Location) (out : Path) :
    Location.walk start (out.join ⟨relative⟩) =
      Location.walk (Location.walk start out) ⟨relative⟩ := by
  obtain ⟨below, -, hnamed, rfl⟩ := h
  rw [Location.walk_join_names hnamed, Location.walk_names hnamed]

theorem within_walk (h : IsRelative relative) (top : Location) :
    Disk.within top (Location.walk top ⟨relative⟩) := by
  obtain ⟨below, -, hnamed, rfl⟩ := h
  rw [Location.walk_names hnamed]
  exact Disk.within_append _ _

theorem eq_of_walk (h : IsRelative relative) (h' : IsRelative other) {top : Location}
    (heq : Location.walk top ⟨relative⟩ = Location.walk top ⟨other⟩) : relative = other := by
  obtain ⟨below, -, hnamed, rfl⟩ := h
  obtain ⟨below', -, hnamed', rfl⟩ := h'
  rw [Location.walk_names hnamed, Location.walk_names hnamed'] at heq
  rw [List.append_cancel_right heq]

end IsRelative

namespace SourceTree

theorem Scanned.isRelative {root : Location} {tree : SourceTree} (h : tree.Scanned root)
    {file : ContentFile} (hmem : file ∈ tree.files) : IsRelative file.relative := by
  obtain ⟨below, hne, hnamed, hrelative, -⟩ := h.place file hmem
  exact ⟨below, hne, hnamed, hrelative⟩

theorem mem_files_of_mem_chain {tree : SourceTree} {file part : ContentFile}
    (hmem : file ∈ tree.files) (h : part ∈ tree.chain file) : part ∈ tree.files := by
  rw [chain, List.mem_append, List.mem_singleton, List.mem_filterMap] at h
  rcases h with ⟨index, -, hindex⟩ | rfl
  · exact List.mem_of_getElem? hindex
  · exact hmem

end SourceTree

theorem StaticFile.Scanned.isRelative {root : Location} {files : List StaticFile}
    (h : StaticFile.Scanned root files) {file : StaticFile} (hmem : file ∈ files) :
    IsRelative file.relative := by
  obtain ⟨below, hne, hnamed, hrelative, -⟩ := h.place file hmem
  exact ⟨below, hne, hnamed, hrelative⟩

-- Disks with the same files outside of the output directory compose the same pages.
theorem Disk.composePage_of_outside {disk other : Disk} {root top : Location} {tree : SourceTree}
    {file : ContentFile} {page : List Char} (hscanned : tree.Scanned root)
    (hmem : file ∈ tree.files) (hapart : ∀ location, within root location → ¬ within top location)
    (hsame : ∀ location, ¬ within top location → disk.file? location = other.file? location)
    (h : disk.composePage tree file = .ok page) : other.composePage tree file = .ok page := by
  refine composePage_of_read (fun part hpart content hread => ?_) h
  obtain ⟨below, -, -, -, habsolute, hnamed⟩ :=
    hscanned.place part (SourceTree.mem_files_of_mem_chain hmem hpart)
  rw [habsolute] at hread ⊢
  exact read_of_file?_eq hnamed (hsame _ (hapart _ (within_append _ _))).symm hread

-- The outputs of the public pages among `files`, as the disk composes them.
def Disk.PageOutput (disk : Disk) (tree : SourceTree) (top : Location) (files : List ContentFile)
    (location : Location) (content : ByteArray) : Prop :=
  ∃ file ∈ files, file.isPublic ∧ location = Location.walk top ⟨file.relative⟩ ∧
    ∃ page, disk.composePage tree file = .ok page ∧ content = (String.ofList page).toUTF8

-- The outputs of assets, as they are on the disk.
def Disk.AssetOutput (disk : Disk) (top : Location) (files : List StaticFile)
    (location : Location) (content : ByteArray) : Prop :=
  ∃ file ∈ files, location = Location.walk top ⟨file.relative⟩ ∧
    disk.file? (Location.walk disk.workDir file.absolute) = some content

theorem Disk.pageOutput_cons {disk : Disk} {tree : SourceTree} {top location : Location}
    {file : ContentFile} {rest : List ContentFile} {content : ByteArray} :
    disk.PageOutput tree top (file :: rest) location content ↔
      (file.isPublic ∧ location = Location.walk top ⟨file.relative⟩ ∧
        ∃ page, disk.composePage tree file = .ok page ∧
          content = (String.ofList page).toUTF8) ∨
      disk.PageOutput tree top rest location content :=
  List.exists_mem_cons_iff ..

theorem Disk.assetOutput_cons {disk : Disk} {top location : Location} {file : StaticFile}
    {rest : List StaticFile} {content : ByteArray} :
    disk.AssetOutput top (file :: rest) location content ↔
      (location = Location.walk top ⟨file.relative⟩ ∧
        disk.file? (Location.walk disk.workDir file.absolute) = some content) ∨
      disk.AssetOutput top rest location content :=
  List.exists_mem_cons_iff ..

-- Two pages with the same output are the same page.
theorem SourceTree.Scanned.eq_of_place {root top : Location} {tree : SourceTree}
    (h : tree.Scanned root) {left right : ContentFile} (hleft : left ∈ tree.files)
    (hright : right ∈ tree.files) (hpublic : left.isPublic)
    (heq : Location.walk top ⟨left.relative⟩ = Location.walk top ⟨right.relative⟩) :
    left = right :=
  h.unique left hleft right hright hpublic ((h.isRelative hleft).eq_of_walk (h.isRelative hright) heq)

namespace Progress

variable {progress built : Progress} {tree : SourceTree} {out : Path} {root top : Location}
  {before : Disk}

theorem not_isFailed_of_record {report : Report} {outcome : Outcome}
    (h : (report.record outcome).failed = 0) : outcome.isFailed = false := by
  cases outcome with
  | failed path reason => cases h
  | _ => rfl

-- Where nothing fails, each public page is put in its place, as the disk composed it before the
-- run: what is read for a page lies elsewhere.
theorem buildPages_publishes {files : List ContentFile} {report last : Report}
    (hscanned : tree.Scanned root) (hfiles : ∀ file ∈ files, file ∈ tree.files)
    (htop : Location.walk progress.disk.workDir out = top)
    (hapart : ∀ location, Disk.within root location → ¬ Disk.within top location)
    (hsame : ∀ location, ¬ Disk.within top location →
      progress.disk.file? location = before.file? location)
    (h : buildPages tree out files report progress = (.ok last, built)) (hok : last.failed = 0) :
    progress.disk.Publishes (before.PageOutput tree top files) built.disk ∧
      ∀ file ∈ files, file.isPublic → ∃ page, before.composePage tree file = .ok page := by
  induction files generalizing report progress with
  | nil =>
      cases h
      exact ⟨⟨fun _ _ ⟨_, hmem, _⟩ => (nomatch hmem), fun _ _ => rfl⟩, fun _ hmem => (nomatch hmem)⟩
  | cons file rest ih =>
      have hmem := hfiles file List.mem_cons_self
      have hrest := fun other hother => hfiles other (List.mem_cons_of_mem file hother)
      have hrelative := hscanned.isRelative hmem
      rw [buildPages] at h
      split at h
      · cases h
      · next outcome next heq =>
        obtain ⟨hresult, hnext⟩ := Prod.ext_iff.1 heq
        dsimp only at hresult hnext
        have hgood : outcome.isFailed = false := by
          have hreport := buildPages_report
            (fun other hother => hscanned.kept other (hrest other hother)) (congrArg Prod.fst h)
          exact @not_isFailed_of_record report outcome (by omega)
        by_cases hpublic : file.isPublic
        · obtain ⟨page, hpage, hputs⟩ :=
            buildContent_puts (hscanned.kept file hmem) hpublic hresult hgood
          rw [hnext, hrelative.walk_join, htop] at hputs
          have hpage := Disk.composePage_of_outside hscanned hmem hapart hsame hpage
          have hsame' : ∀ location, ¬ Disk.within top location →
              next.disk.file? location = before.file? location := by
            intro location hnot
            rw [hputs.file?, if_neg, hsame location hnot]
            rintro rfl
            exact hnot (hrelative.within_walk top)
          obtain ⟨hpublishes, hpages⟩ := ih hrest (hputs.workDir ▸ htop) hsame' h
          refine ⟨((Disk.publishes_of_file? hputs.file?).trans_of_agree hpublishes ?_).congr
            fun location content => ?_,
            List.forall_mem_cons.2 ⟨fun _ => ⟨page, hpage⟩, hpages⟩⟩
          · rintro location content other ⟨rfl, rfl⟩ ⟨again, hagain, -, hplace, found, hfound, rfl⟩
            have := hscanned.eq_of_place hmem (hrest again hagain) hpublic hplace
            subst this
            rw [hpage] at hfound
            cases hfound
            rfl
          · rw [Disk.pageOutput_cons]
            exact or_congr_left (by simp [hpublic, hpage])
        · have hdisk : next = progress := by
            rw [← hnext, buildContent, if_pos (by simpa [ContentFile.isPublic] using hpublic)]
          subst hdisk
          obtain ⟨hpublishes, hpages⟩ := ih hrest htop hsame h
          refine ⟨hpublishes.congr fun location content => ?_,
            List.forall_mem_cons.2 ⟨fun hshown => absurd hshown hpublic, hpages⟩⟩
          rw [Disk.pageOutput_cons]
          simp [hpublic]

-- Where nothing fails, each asset is put in its place as it was before the run.
theorem buildAssets_publishes {files all : List StaticFile} {report : Report}
    (hscanned : StaticFile.Scanned root all) (hfiles : ∀ file ∈ files, file ∈ all)
    (hwork : progress.disk.workDir = before.workDir)
    (htop : Location.walk progress.disk.workDir out = top)
    (hapart : ∀ location, Disk.within root location → ¬ Disk.within top location)
    (hsame : ∀ location, ¬ Disk.within top location →
      progress.disk.file? location = before.file? location)
    (hok : (buildAssets out files report progress).1.failed = 0) :
    progress.disk.Publishes (before.AssetOutput top files)
        (buildAssets out files report progress).2.disk ∧
      ∀ file ∈ files, ∃ content,
        before.file? (Location.walk before.workDir file.absolute) = some content := by
  induction files generalizing report progress with
  | nil => exact ⟨⟨fun _ _ ⟨_, hmem, _⟩ => (nomatch hmem), fun _ _ => rfl⟩, fun _ hmem => (nomatch hmem)⟩
  | cons file rest ih =>
      have hmem := hfiles file List.mem_cons_self
      have hrest := fun other hother => hfiles other (List.mem_cons_of_mem file hother)
      have hrelative := hscanned.isRelative hmem
      rw [buildAssets] at hok ⊢
      dsimp only at hok ⊢
      have hgood : (progress.buildAsset file out).1.isFailed = false := by
        have hreport := @buildAssets_report (progress.buildAsset file out).2 out rest
          (report.record (progress.buildAsset file out).1)
          fun other hother => hscanned.kept other (hrest other hother)
        exact @not_isFailed_of_record report _ (by omega)
      -- An asset lies outside of the output directory, and its output inside.
      have houtside : ¬ Disk.within top (Location.walk progress.disk.workDir file.absolute) := by
        obtain ⟨below, -, -, -, habsolute, hnamed⟩ := hscanned.place file hmem
        rw [habsolute, Location.walk_path hnamed]
        exact hapart _ (Disk.within_append _ _)
      have hplace : Location.walk progress.disk.workDir (out.join ⟨file.relative⟩) =
          Location.walk top ⟨file.relative⟩ := by
        rw [hrelative.walk_join, htop]
      have hinside := hrelative.within_walk top
      obtain ⟨content, hcontent, hputs⟩ := buildAsset_puts (hscanned.kept file hmem)
        (fun heq => houtside (by rw [heq, hplace]; exact hinside)) hgood
      rw [hplace] at hputs
      rw [hsame _ houtside, hwork] at hcontent
      have hsame' : ∀ location, ¬ Disk.within top location →
          (progress.buildAsset file out).2.disk.file? location = before.file? location := by
        intro location hnot
        rw [hputs.file?, if_neg, hsame location hnot]
        rintro rfl
        exact hnot hinside
      obtain ⟨hpublishes, hassets⟩ := ih hrest (hputs.workDir.trans hwork)
        (hputs.workDir ▸ htop) hsame' hok
      refine ⟨((Disk.publishes_of_file? hputs.file?).trans_of_agree hpublishes ?_).congr
        fun location content => ?_,
        List.forall_mem_cons.2 ⟨⟨content, hcontent⟩, hassets⟩⟩
      · rintro location content other ⟨rfl, rfl⟩ ⟨again, hagain, hplace, hfound⟩
        have := hscanned.unique file hmem again (hrest again hagain)
          (hrelative.eq_of_walk (hscanned.isRelative (hrest again hagain)) hplace)
        subst this
        rw [hcontent] at hfound
        exact Option.some.inj hfound
      · rw [Disk.assetOutput_cons]
        exact or_congr_left (by simp [hcontent, eq_comm])

end Progress

end StaticSite
