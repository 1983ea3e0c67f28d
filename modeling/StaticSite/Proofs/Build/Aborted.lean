import StaticSite.Proofs.Build.Room

-- A build that is abandoned at a page that does not compose, and what it has put into the output
-- directory until then.
namespace StaticSite

open Disk (within)

-- The outputs of those public pages among `files` that `fits` holds of, as the disk composes them.
def Disk.OutputWhere (disk : Disk) (fits : ContentFile → Prop) (tree : SourceTree) (top : Location)
    (files : List ContentFile) (location : Location) (content : ByteArray) : Prop :=
  ∃ file ∈ files, file.isPublic ∧ fits file ∧ location = Location.walk top ⟨file.relative⟩ ∧
    ∃ page, disk.composePage tree file = .ok page ∧ content = (String.ofList page).toUTF8

theorem Disk.outputWhere_cons {disk : Disk} {fits : ContentFile → Prop} {tree : SourceTree}
    {top location : Location} {file : ContentFile} {rest : List ContentFile} {content : ByteArray} :
    disk.OutputWhere fits tree top (file :: rest) location content ↔
      disk.OutputWhere fits tree top [file] location content ∨
        disk.OutputWhere fits tree top rest location content := by
  simp only [OutputWhere, List.exists_mem_cons_iff, List.not_mem_nil, false_and, exists_false,
    or_false]

theorem Disk.outputWhere_congr {disk : Disk} {fits fits' : ContentFile → Prop} {tree : SourceTree}
    {top location : Location} {files : List ContentFile} {content : ByteArray}
    (h : ∀ file ∈ files, file.isPublic → (fits file ↔ fits' file)) :
    disk.OutputWhere fits tree top files location content ↔
      disk.OutputWhere fits' tree top files location content :=
  exists_congr fun file => and_congr_right fun hmem => and_congr_right fun hpublic =>
    and_congr_left fun _ => h file hmem hpublic

theorem Disk.Lands.file? {slot : Slot} {content : ByteArray} {done : Prop} {before after : Disk}
    (h : Disk.Lands slot content done before after) (location : Location) :
    after.file? location = if location = slot.place ∧ slot.Fits before.kind? then some content
      else before.file? location := by
  have hkind := congrFun h.kind? location
  rw [Slot.fill] at hkind
  split at hkind
  · next hput => rw [if_pos hput, file?_eq_some.2 hkind]
  · next hnot =>
    rw [if_neg hnot]
    split at hkind
    · rw [Scene.raise] at hkind
      split at hkind
      · next hmissing => simp only [Disk.file?, hkind, hmissing.2.1]
      · exact file?_eq_of_kind?_eq hkind
    · exact file?_eq_of_kind?_eq hkind

namespace ContentFile

variable {file : ContentFile} {out : Path} {start top : Location}

-- Where the output of a file goes.
def slot (file : ContentFile) (out : Path) (start : Location) : Slot :=
  (out.join ⟨file.relative⟩).slot start

theorem place_slot (h : IsRelative file.relative) (htop : Location.walk start out = top) :
    (file.slot out start).place = Location.walk top ⟨file.relative⟩ :=
  (h.walk_join start out).trans (by rw [htop])

end ContentFile

-- Pages have been put into the output directory, each one that composes and fits there. Those that
-- `before` does not compose cannot be read. For another output nothing has changed.
structure Disk.Receives (before : Disk) (tree : SourceTree) (out : Path) (top : Location)
    (files : List ContentFile) (disk next : Disk) : Prop where
  base : SameBase disk next
  composed : ∀ file ∈ files, file.isPublic → ∀ error, before.composePage tree file = .error error →
    error.IsUnreadable
  made : disk.Publishes (before.OutputWhere
    (fun file => (file.slot out disk.workDir).Fits disk.kind?) tree top files) next
  fits : ∀ slot : Slot, (∀ file ∈ files, file.isPublic → file.slot out disk.workDir = slot ∨
    (file.slot out disk.workDir).place.Apart slot.place) →
      (slot.Fits next.kind? ↔ slot.Fits disk.kind?)

namespace Disk.Receives

variable {before disk middle next : Disk} {tree : SourceTree} {out : Path} {top : Location}
  {file : ContentFile} {rest files : List ContentFile}

theorem nil : before.Receives tree out top [] disk disk :=
  ⟨.refl _, List.forall_mem_nil _, ⟨fun _ _ ⟨_, hmem, _⟩ => (nomatch hmem), fun _ _ => rfl⟩,
    fun _ _ => Iff.rfl⟩

-- A page that cannot be read is left out, as a hidden file is.
theorem skip (h : file.isPublic → ∃ error, before.composePage tree file = .error error ∧
    error.IsUnreadable) : before.Receives tree out top [file] disk disk := by
  refine ⟨.refl _, ?_, ⟨?_, fun _ _ => rfl⟩, fun _ _ => Iff.rfl⟩
  · rw [List.forall_mem_singleton]
    intro hpublic error herror
    obtain ⟨other, hother, hunreadable⟩ := h hpublic
    rw [hother] at herror
    cases herror
    exact hunreadable
  · rintro location content ⟨other, hmem, hpublic, -, -, page, hpage, -⟩
    obtain rfl := List.mem_singleton.1 hmem
    obtain ⟨error, herror, -⟩ := h hpublic
    rw [herror] at hpage
    cases hpage

theorem of_lands {page : List Char} {done : Prop} (hrelative : IsRelative file.relative)
    (htop : Location.walk disk.workDir out = top) (hne : Location.walk top ⟨file.relative⟩ ≠ [])
    (hpublic : file.isPublic) (hpage : before.composePage tree file = .ok page)
    (h : Disk.Lands (file.slot out disk.workDir) (String.ofList page).toUTF8 done disk next) :
    before.Receives tree out top [file] disk next := by
  have hplace := file.place_slot hrelative htop
  refine ⟨h.base, ?_, ⟨?_, fun location hnot => ?_⟩, fun slot hslot => ?_⟩
  · rw [List.forall_mem_singleton]
    intro _ error herror
    rw [hpage] at herror
    cases herror
  · rintro location content ⟨other, hmem, -, hfits, rfl, again, hagain, rfl⟩
    obtain rfl := List.mem_singleton.1 hmem
    rw [hpage] at hagain
    cases hagain
    rw [h.file?, if_pos ⟨hplace.symm, hfits⟩]
  · rw [h.file?, if_neg]
    rintro ⟨heq, hfits⟩
    exact hnot _ ⟨file, List.mem_singleton_self _, hpublic, hfits, heq.trans hplace, page, hpage, rfl⟩
  · rw [h.kind?]
    rcases hslot file (List.mem_singleton_self _) hpublic with rfl | hapart
    · exact Slot.fits_fill_self (hplace ▸ hne)
    · exact Slot.fits_fill_of_apart hapart

-- Of the files outside of the output directory none has changed.
theorem file?_outside (h : before.Receives tree out top files disk next)
    (hrelative : ∀ file ∈ files, IsRelative file.relative) {location : Location}
    (hnot : ¬ within top location) : next.file? location = disk.file? location := by
  refine h.made.same location ?_
  rintro content ⟨file, hmem, -, -, rfl, -⟩
  exact hnot ((hrelative file hmem).within_walk top)

-- If the output directory cannot be made, no file has changed at all.
theorem file?_of_not_creatable {start : Disk} (h : before.Receives tree out top files disk next)
    (hready : Readied out start disk) (hstraight : out.Straight) (hgrounded : disk.Grounded out)
    (hrelative : ∀ file ∈ files, IsRelative file.relative)
    (hnot : ¬ (Location.walk start.workDir out).Creatable) (location : Location) :
    next.file? location = disk.file? location := by
  refine h.made.same location ?_
  rintro content ⟨file, hmem, -, hfits, -⟩
  have hroom := (hready.fits_iff hstraight hgrounded (hrelative file hmem)).1 hfits
  exact hnot (hroom.creatable (hrelative file hmem))

theorem cons (hrelative : ∀ other ∈ file :: rest, IsRelative other.relative)
    (htop : Location.walk disk.workDir out = top)
    (hapart : ∀ other ∈ rest, file.isPublic → other.isPublic →
      file = other ∨ (Location.walk top ⟨file.relative⟩).Apart (Location.walk top ⟨other.relative⟩))
    (h : before.Receives tree out top [file] disk middle)
    (h' : before.Receives tree out top rest middle next) :
    before.Receives tree out top (file :: rest) disk next := by
  rw [List.forall_mem_cons] at hrelative
  have hwork := h.base.workDir
  have hfits : ∀ other ∈ rest, other.isPublic →
      ((other.slot out middle.workDir).Fits middle.kind? ↔
        (other.slot out disk.workDir).Fits disk.kind?) := by
    intro other hmem hother
    rw [hwork]
    refine h.fits _ ?_
    rw [List.forall_mem_singleton, file.place_slot hrelative.1 htop,
      other.place_slot (hrelative.2 other hmem) htop]
    refine fun hpublic => (hapart other hmem hpublic hother).imp_left ?_
    rintro rfl
    rfl
  refine ⟨h.base.trans h'.base, ?_, ?_, fun slot hslot => ?_⟩
  · rw [List.forall_mem_cons]
    exact ⟨h.composed file (List.mem_singleton_self _), h'.composed⟩
  · have hrest := h'.made.congr fun location content => Disk.outputWhere_congr hfits
    refine (h.made.trans_of_agree hrest ?_).congr fun location content => Disk.outputWhere_cons.symm
    rintro location content other ⟨first, hfirst, hpublic, -, rfl, page, hpage, rfl⟩
      ⟨again, hagain, hpublic', -, hplace, page', hpage', rfl⟩
    obtain rfl := List.mem_singleton.1 hfirst
    rcases hapart again hagain hpublic hpublic' with rfl | hnot
    · rw [hpage] at hpage'
      cases hpage'
      rfl
    · exact absurd (hplace ▸ within_refl _) hnot.1
  · rw [List.forall_mem_cons] at hslot
    rw [h'.fits slot (by rw [hwork]; exact hslot.2), h.fits slot (by simpa using hslot.1)]

end Disk.Receives

namespace Progress

variable {progress next built final : Progress} {tree : SourceTree} {out : Path} {top : Location}
  {before : Disk} {file : ContentFile} {files : List ContentFile}

-- A run of pages ends where it comes to the first that is not built.
theorem buildPages_eq_error {report : Report} {error : BuildError}
    (h : buildPages tree out files report progress = (.error error, final)) :
    ∃ front page rest last built, files = front ++ page :: rest ∧
      buildPages tree out front report progress = (.ok last, built) ∧
      built.buildContent tree page out = (.error error, final) := by
  induction files generalizing report progress with
  | nil => cases h
  | cons file rest ih =>
      rw [buildPages] at h
      split at h
      · next hfile =>
        cases h
        exact ⟨[], file, rest, report, progress, rfl, rfl, hfile⟩
      · next outcome next hfile =>
        obtain ⟨front, page, others, last, built, rfl, hfront, hpage⟩ := ih h
        refine ⟨file :: front, page, others, last, built, rfl, ?_, hpage⟩
        rw [buildPages, hfile]
        exact hfront

theorem buildContent_receives {outcome : Outcome} (hstraight : out.Straight)
    (htop : Location.walk progress.disk.workDir out = top)
    (hgrounded : progress.disk.Grounded out) (hkept : file.deleted = false)
    (hrelative : IsRelative file.relative)
    (hcompose : progress.disk.composePage tree file = before.composePage tree file)
    (h : progress.buildContent tree file out = (.ok outcome, next)) :
    before.Receives tree out top [file] progress.disk next.disk := by
  rcases @buildContent_cases progress tree out file hkept with
    ⟨hhidden, heq⟩ | ⟨hpublic, ⟨page, hpage, heq⟩ | ⟨path, fault, hpage, heq⟩ | ⟨error, -, -, heq⟩⟩
  · rw [heq, Prod.mk.injEq] at h
    obtain ⟨-, rfl⟩ := h
    exact .skip fun hpublic => by simp [ContentFile.isPublic, hhidden] at hpublic
  · rw [heq, Prod.mk.injEq] at h
    obtain ⟨-, rfl⟩ := h
    obtain ⟨⟨below, hne, hplace⟩, hlands⟩ := Alongside.lands_output htop hrelative hstraight
      hgrounded (Disk.stores_write (out.join ⟨file.relative⟩) (String.ofList page).toUTF8) trivial
    rw [disk_writeOutput]
    refine .of_lands hrelative htop ?_ hpublic (hcompose ▸ hpage) hlands
    rw [← file.place_slot hrelative htop, ContentFile.slot, hplace]
    simp [hne]
  · rw [heq, Prod.mk.injEq] at h
    obtain ⟨-, rfl⟩ := h
    exact .skip fun _ => ⟨_, hcompose ▸ hpage, path, fault, rfl⟩
  · rw [heq, Prod.mk.injEq] at h
    cases h.1

-- What a run of pages comes to that is not abandoned.
theorem buildPages_receives {report last : Report} (hstraight : out.Straight)
    (htop : Location.walk progress.disk.workDir out = top)
    (hgrounded : progress.disk.Grounded out) (hkept : ∀ file ∈ files, file.deleted = false)
    (hrelative : ∀ file ∈ files, IsRelative file.relative)
    (hread : ∀ file ∈ files, ∀ part ∈ tree.chain file, before.Holds top part.absolute)
    (hapart : ∀ left ∈ files, ∀ right ∈ files, left.isPublic → right.isPublic →
      left = right ∨
        (Location.walk top ⟨left.relative⟩).Apart (Location.walk top ⟨right.relative⟩))
    (hsame : ∀ location, ¬ within top location →
      progress.disk.file? location = before.file? location)
    (h : buildPages tree out files report progress = (.ok last, built)) :
    before.Receives tree out top files progress.disk built.disk := by
  induction files generalizing progress report with
  | nil =>
      cases h
      exact .nil
  | cons file rest ih =>
      have hrelatives := hrelative
      rw [List.forall_mem_cons] at hkept hrelative hread
      rw [buildPages] at h
      split at h
      · cases h
      · next outcome next hfile =>
        have hfirst := buildContent_receives hstraight htop hgrounded hkept.1 hrelative.1
          (Disk.composePage_eq_of_holds hsame hread.1) hfile
        refine .cons hrelatives htop
          (fun other hmem => hapart file List.mem_cons_self other (List.mem_cons_of_mem file hmem))
          hfirst (ih ?_ (hfirst.base.grounded hgrounded) hkept.2 hrelative.2 hread.2 ?_ ?_ h)
        · rw [hfirst.base.workDir, htop]
        · exact fun left hleft right hright => hapart left (List.mem_cons_of_mem file hleft) right
            (List.mem_cons_of_mem file hright)
        · intro location hnot
          rw [hfirst.file?_outside (by simpa using hrelative.1) hnot, hsame location hnot]

section Scanned

-- The source tree has been scanned outside of the output directory, where the files have not
-- changed since `before`.
variable {report last : Report} {root : Path} (hstraight : out.Straight)
  (htop : Location.walk progress.disk.workDir out = top) (hgrounded : progress.disk.Grounded out)
  (hscan : progress.disk.scanSource root = .ok tree)
  (houtside : ∀ location, within (Location.walk progress.disk.workDir root) location →
    ¬ within top location)
  (hsame : ∀ location, ¬ within top location →
    progress.disk.file? location = before.file? location)

include hstraight htop hgrounded hscan houtside hsame

theorem buildPages_receives_of_scanSource (hmem : ∀ file ∈ files, file ∈ tree.files)
    (h : buildPages tree out files report progress = (.ok last, built)) :
    before.Receives tree out top files progress.disk built.disk ∧
      ∀ file ∈ tree.files, built.disk.composePage tree file = before.composePage tree file := by
  have hscanned := Disk.scanned_of_scanSource hscan
  have hrelative : ∀ file ∈ files, IsRelative file.relative := fun file hfile =>
    hscanned.isRelative (hmem file hfile)
  have hread : ∀ file ∈ tree.files, ∀ part ∈ tree.chain file, before.Holds top part.absolute := by
    intro file hfile part hpart
    obtain ⟨location, content, hpath, hnot, hcontent⟩ := Disk.holds_of_mem_scanSource houtside hscan
      (SourceTree.mem_files_of_mem_chain hfile hpart)
    exact ⟨location, content, hpath, hnot, (hsame location hnot).symm.trans hcontent⟩
  have hreceives := buildPages_receives hstraight htop hgrounded
    (fun file hfile => hscanned.kept file (hmem file hfile)) hrelative
    (fun file hfile => hread file (hmem file hfile))
    (fun left hleft right hright hpublic _ => or_iff_not_imp_left.2 fun hne =>
      Disk.apart_of_scanSource hscan (hmem left hleft) (hmem right hright) hpublic hne top)
    hsame h
  exact ⟨hreceives, fun file hfile => Disk.composePage_eq_of_holds (fun location hnot =>
    (hreceives.file?_outside hrelative hnot).trans (hsame location hnot)) (hread file hfile)⟩

-- The page that a run is abandoned for is the first whose chain does not compose.
theorem buildPages_abandons {error : BuildError}
    (h : buildPages tree out tree.files report progress = (.error error, final)) :
    ∃ front page rest composeError, tree.files = front ++ page :: rest ∧ page.isPublic ∧
      error = .compose composeError ∧ before.composePage tree page = .error composeError ∧
      ¬ composeError.IsUnreadable ∧
      before.Receives tree out top front progress.disk final.disk := by
  obtain ⟨front, page, rest, last, built, hfiles, hfront, hpage⟩ := buildPages_eq_error h
  have hmem : page ∈ tree.files := by simp [hfiles]
  have hkept := (Disk.scanned_of_scanSource hscan).kept page hmem
  obtain ⟨hreceives, hcompose⟩ := buildPages_receives_of_scanSource hstraight htop hgrounded hscan
    houtside hsame (fun file hfile => by simp [hfiles, hfile]) hfront
  rcases @buildContent_cases built tree out page hkept with
    ⟨-, heq⟩ | ⟨hpublic, ⟨_, -, heq⟩ | ⟨_, _, -, heq⟩ | ⟨composeError, herror, hnot, heq⟩⟩
  · rw [heq] at hpage
    cases hpage
  · rw [heq] at hpage
    cases hpage
  · rw [heq] at hpage
    cases hpage
  · rw [heq] at hpage
    cases hpage
    exact ⟨front, page, rest, composeError, hfiles, hpublic, rfl, hcompose page hmem ▸ herror, hnot,
      hreceives⟩

-- A run does not get past such a page.
theorem buildPages_ne_ok {page : ContentFile} {composeError : Template.ComposeError}
    (hmem : page ∈ tree.files) (hpublic : page.isPublic)
    (herror : before.composePage tree page = .error composeError)
    (hnot : ¬ composeError.IsUnreadable) :
    buildPages tree out tree.files report progress ≠ (.ok last, built) := by
  intro h
  obtain ⟨hreceives, -⟩ := buildPages_receives_of_scanSource hstraight htop hgrounded hscan
    houtside hsame (fun _ hfile => hfile) h
  exact hnot (hreceives.composed page hmem hpublic composeError herror)

end Scanned

-- Only a page is abandoned for an error of composing, so the output has been cleared and the source
-- tree scanned by then, and no asset has been copied.
theorem buildAll_eq_compose_error {config : Config} {error : Template.ComposeError}
    (hclear : config.clear = true) (h : (progress.buildAll config).1 = .error (.compose error)) :
    ∃ cleared tree, progress.clearOutput config.out = (.ok (), cleared) ∧
      cleared.disk.scanSource config.source = .ok tree ∧
      buildPages tree config.out tree.files .empty cleared =
        (.error (.compose error), (progress.buildAll config).2) := by
  unfold buildAll at *
  rw [if_pos hclear] at *
  split at h
  · next fault cleared hcleared =>
    cases h
    unfold clearOutput at hcleared
    split at hcleared <;> cases hcleared
  · next cleared hcleared =>
    refine ⟨cleared, ?_⟩
    unfold buildTrees at *
    split at h
    · cases h
    · next tree htree =>
      split at h
      · next written hpages =>
        cases h
        exact ⟨tree, hcleared, htree, hpages⟩
      · split at h <;> cases h

theorem buildAll_of_buildPages {cleared : Progress} {config : Config} {error : BuildError}
    (hclear : config.clear = true) (hcleared : progress.clearOutput config.out = (.ok (), cleared))
    (htree : cleared.disk.scanSource config.source = .ok tree)
    (hpages : buildPages tree config.out tree.files .empty cleared = (.error error, final)) :
    progress.buildAll config = (.error error, final) := by
  rw [buildAll, if_pos hclear, hcleared]
  dsimp only
  rw [buildTrees, htree]
  dsimp only
  rw [hpages]

-- A build is abandoned at the first public page whose chain does not compose, though all of it can
-- be read. By then the public pages before it, as their chains compose, are all the files in the
-- output directory: none of a page whose chain cannot be read or that has no room there, none of a
-- later page, and no asset. No other file has changed.
theorem buildAll_abandons {config : Config} {source out : Path} {error : Template.ComposeError}
    (hclear : config.clear = true)
    (hsource : config.source.absolute progress.disk.base? = .ok source)
    (hout : config.out.absolute progress.disk.base? = .ok out)
    (hapart : ¬ source.startsWith out ∧ ¬ out.startsWith source)
    (hstraight : config.out.Straight)
    (h : (progress.buildAll config).1 = .error (.compose error)) :
    ∃ cleared tree front page rest, progress.clearOutput config.out = (.ok (), cleared) ∧
      cleared.disk.scanSource config.source = .ok tree ∧ tree.files = front ++ page :: rest ∧
      page.isPublic ∧ progress.disk.composePage tree page = .error error ∧
      ¬ error.IsUnreadable ∧
      (∀ file ∈ front, file.isPublic → ∀ other, progress.disk.composePage tree file = .error other →
        other.IsUnreadable) ∧
      (∀ location, ¬ within (Location.walk progress.disk.workDir config.out) location →
        (progress.buildAll config).2.disk.file? location = progress.disk.file? location) ∧
      ∀ location content, within (Location.walk progress.disk.workDir config.out) location →
        ((progress.buildAll config).2.disk.file? location = some content ↔
          progress.disk.OutputWhere (progress.disk.HasRoom config.out ·.relative) tree
            (Location.walk progress.disk.workDir config.out) front location content) := by
  obtain ⟨cleared, tree, hcleared, htree, hpages⟩ := buildAll_eq_compose_error hclear h
  obtain ⟨hready, hgrounded⟩ := Disk.readied_grounded hout hstraight hcleared
  have hspares := progress.clearOutput_spares config.out
  rw [hcleared] at hspares
  have hwork : cleared.disk.workDir = progress.disk.workDir := hspares.workDir
  have houtside := not_within_of_apart hsource hout hapart
  obtain ⟨front, page, rest, composeError, hfiles, hpublic, heq, herror, hnot, hreceives⟩ :=
    buildPages_abandons hstraight (by rw [hwork]) hgrounded htree (by rw [hwork]; exact houtside)
      hspares.file? hpages
  cases heq
  have hscanned := Disk.scanned_of_scanSource htree
  have hrelative : ∀ file ∈ front, IsRelative file.relative := fun file hmem =>
    hscanned.isRelative (by simp [hfiles, hmem])
  refine ⟨cleared, tree, front, page, rest, hcleared, htree, hfiles, hpublic, herror, hnot,
    hreceives.composed, fun location hother => ?_, fun location content hwithin => ?_⟩
  · exact (hreceives.file?_outside hrelative hother).trans (hspares.file? location hother)
  · rw [hreceives.made.file?_iff (file?_clearOutput hout hstraight hcleared hwithin)]
    exact Disk.outputWhere_congr fun file hmem _ =>
      hready.fits_iff hstraight hgrounded (hrelative file hmem)

-- Of four pages the second cannot be read, and the third does not compose.
def faulty : Disk :=
  (((project ["site"]).putFile "b.html" ["src", "site"] ⟨#[255]⟩).putFile "c.html" ["src", "site"]
    "%\x7bnope\x7d".toUTF8).putFile "d.html" ["src", "site"] "z".toUTF8

theorem buildAll_abandons_of_faulty :
    ((start faulty).buildAll default).1 =
        .error (.compose (.unknownDirective "nope" "c.html")) ∧
      (∃ tree front page rest, tree.files = front ++ page :: rest ∧ page.isPublic ∧
        faulty.composePage tree page = .error (.unknownDirective "nope" "c.html") ∧
        faulty.OutputWhere (faulty.HasRoom (default : Config).out ·.relative) tree ["dist", "site"]
          front ["a.html", "dist", "site"] "x".toUTF8) ∧
      ((start faulty).buildAll default).2.disk.file? ["a.html", "dist", "site"] = some "x".toUTF8 ∧
      ((start faulty).buildAll default).2.disk.file? ["b.html", "dist", "site"] = none ∧
      ((start faulty).buildAll default).2.disk.file? ["d.html", "dist", "site"] = none ∧
      ((start faulty).buildAll default).2.disk.file? ["s.css", "dist", "site"] = none := by
  obtain ⟨herror, hmade, hleft⟩ :
      ((start faulty).buildAll default).1 =
          .error (.compose (.unknownDirective "nope" "c.html")) ∧
        ((start faulty).buildAll default).2.disk.file? ["a.html", "dist", "site"] =
          some "x".toUTF8 ∧
        ((start faulty).buildAll default).2.disk.file? ["b.html", "dist", "site"] = none ∧
        ((start faulty).buildAll default).2.disk.file? ["d.html", "dist", "site"] = none ∧
        ((start faulty).buildAll default).2.disk.file? ["s.css", "dist", "site"] = none := by
    decide +kernel
  have htop : Location.walk (start faulty).disk.workDir (default : Config).out =
      ["dist", "site"] := by decide +kernel
  obtain ⟨_, tree, front, page, rest, -, -, hfiles, hpublic, hpage, -, -, -, hexact⟩ :=
    @buildAll_abandons (start faulty) default ⟨"/site/src"⟩ ⟨"/site/dist"⟩ _ rfl
      (by decide +kernel) (by decide +kernel) (by decide +kernel)
      (Path.straight_of_normal (by decide +kernel)) herror
  rw [htop] at hexact
  exact ⟨herror, ⟨tree, front, page, rest, hfiles, hpublic, hpage,
    (hexact _ _ (by decide)).1 hmade⟩, hmade, hleft⟩

-- A page that composes, and one that does not.
def cramped : Disk :=
  (((project ["site"]).putDirectory "pages" ["site"]).putFile "a.html" ["pages", "site"]
    "x".toUTF8).putFile "b.html" ["pages", "site"] "%\x7bnope\x7d".toUTF8

def firstPage : ContentFile := ⟨"a.html", ⟨"/site/pages/a.html"⟩, false, []⟩

def secondPage : ContentFile := ⟨"b.html", ⟨"/site/pages/b.html"⟩, false, []⟩

theorem scanSource_cramped (name : String) :
    cramped.scanSource (strained name).source = .ok ⟨[firstPage, secondPage]⟩ := by
  change cramped.scanSource (Location.path ["pages", "site"]) = _
  decide +kernel

theorem composePage_cramped :
    cramped.composePage ⟨[firstPage, secondPage]⟩ firstPage = .ok ['x'] ∧
      cramped.composePage ⟨[firstPage, secondPage]⟩ secondPage =
        .error (.unknownDirective "nope" "b.html") := by
  decide +kernel

-- If a name on the way to the output directory is too long, the first page is not written, and the
-- second one is what the build is abandoned for all the same.
theorem buildAll_cramped {name : String} (hname : IsName name)
    (hfollow : Location.Followable [name, "new", "site"])
    (hlong : Disk.longestName < name.utf8ByteSize) :
    ∃ error final, (start cramped).buildAll (strained name) = (.error (.compose error), final) ∧
      final.disk.file? ["a.html", name, "new", "site"] = none := by
  have hnamed := named_strained hname
  have hnormal := strained_normal hname
  have habsolute : ∀ path ∈ [(strained name).source, (strained name).assets, (strained name).out],
      path.absolute (start cramped).disk.base? = .ok path := fun path hmem =>
    Path.absolute_of_normal (hnormal path hmem).1 (hnormal path hmem).2 _
  have hsource := habsolute (strained name).source (by simp)
  have hout := habsolute (strained name).out (by simp)
  have htop : Location.walk (start cramped).disk.workDir (strained name).out =
      [name, "new", "site"] := Location.walk_path hnamed _
  have hstraight : (strained name).out.Straight := (Location.descends_path hnamed).straight
  have hcleared : (start cramped).clearOutput (strained name).out = (.ok (), start cramped) :=
    clearOutput_strained hname hfollow (by decide +kernel) (by decide +kernel)
  obtain ⟨hready, hgrounded⟩ := Disk.readied_grounded hout hstraight hcleared
  have houtside := not_within_of_apart hsource hout
    ((List.pairwise_cons.1 (strained_apart hname)).1 (strained name).out (by simp))
  rw [htop] at houtside
  have hscan : (start cramped).disk.scanSource (strained name).source =
      .ok ⟨[firstPage, secondPage]⟩ := scanSource_cramped name
  cases hpages : buildPages ⟨[firstPage, secondPage]⟩ (strained name).out
    [firstPage, secondPage] .empty (start cramped) with
  | mk result final =>
      cases result with
      | ok last =>
          refine absurd hpages (buildPages_ne_ok hstraight htop hgrounded hscan houtside
            (fun _ _ => rfl) (by simp) (by decide) composePage_cramped.2 ?_)
          rintro ⟨path, fault, heq⟩
          cases heq
      | error error =>
          obtain ⟨front, page, rest, composeError, hfiles, -, rfl, -, -, hreceives⟩ :=
            buildPages_abandons hstraight htop hgrounded hscan houtside (fun _ _ => rfl) hpages
          refine ⟨composeError, final, buildAll_of_buildPages rfl hcleared hscan hpages, ?_⟩
          have hnone : cramped.kind? ["a.html", name, "new", "site"] = none :=
            @Disk.kind?_below_of_ne_directory _ ["new", "site"] (by decide +kernel)
              ["a.html", name] (by simp)
          have hrelative : ∀ file ∈ front, IsRelative file.relative := fun file hmem =>
            (Disk.scanned_of_scanSource hscan).isRelative (hfiles ▸ List.mem_append_left _ hmem)
          rw [hreceives.file?_of_not_creatable hready hstraight hgrounded hrelative, start,
            Disk.file?, hnone]
          rw [htop]
          exact fun hcreatable => absurd (hcreatable name rfl).2 (Nat.not_le.2 hlong)

-- So it is not all pages before the one that a build is abandoned for whose outputs are there.
theorem buildAll_abandons_with_gaps :
    ¬ ∀ (disk : Disk) (config : Config) (error : Template.ComposeError),
      config.clear = true →
      (∀ path ∈ [config.source, config.assets, config.out],
        path.isAbsolute = true ∧ path.normalize = path) →
      [config.source, config.assets, config.out].Pairwise (fun left right =>
        ¬ left.startsWith right ∧ ¬ right.startsWith left) →
      ((start disk).buildAll config).1 = .error (.compose error) →
      ∃ tree front page rest, disk.scanSource config.source = .ok tree ∧
        tree.files = front ++ page :: rest ∧ page.isPublic ∧
        disk.composePage tree page = .error error ∧
        (∀ file ∈ front, file.isPublic → ∀ other, disk.composePage tree file = .error other →
          other.IsUnreadable) ∧
        ∀ location content, within (Location.walk disk.workDir config.out) location →
          (((start disk).buildAll config).2.disk.file? location = some content ↔
            disk.PageOutput tree (Location.walk disk.workDir config.out) front location
              content) := by
  intro h
  have hlong : Disk.longestName < longName.utf8ByteSize := by
    rw [utf8ByteSize_longName]
    decide
  have hnamed := named_strained isName_longName
  obtain ⟨error, final, hbuild, hnone⟩ := buildAll_cramped isName_longName followable_overlong hlong
  obtain ⟨tree, front, page, rest, hscan, hfiles, -, herror, -, hexact⟩ := h cramped
    (strained longName) error rfl (strained_normal isName_longName)
    (strained_apart isName_longName) (by rw [hbuild])
  rw [scanSource_cramped] at hscan
  cases hscan
  have htop : Location.walk cramped.workDir (strained longName).out = [longName, "new", "site"] :=
    Location.walk_path hnamed _
  rw [hbuild, htop] at hexact
  -- The first page composes, so it comes before the page that does not.
  have hfirst : firstPage ∈ front := by
    cases front with
    | nil =>
        cases hfiles
        rw [composePage_cramped.1] at herror
        cases herror
    | cons file others =>
        obtain ⟨rfl, -⟩ := List.cons.inj hfiles
        exact List.mem_cons_self
  have hmade := (hexact ["a.html", longName, "new", "site"] (String.ofList ['x']).toUTF8
    (Disk.within_append ["a.html"] _)).2 ⟨firstPage, hfirst, by decide,
      (Location.walk_names (show Location.Named ["a.html"] by simp only [Location.Named]; decide)
        _).symm, ['x'], composePage_cramped.1, rfl⟩
  rw [hnone] at hmade
  cases hmade

end Progress

end StaticSite
