import StaticSite.Build.Batch
import StaticSite.Proofs.Build.Output
import StaticSite.Proofs.Build.Page
import StaticSite.Proofs.Tree.Dependents

-- When the output directory holds what a build would put there, and nothing else.
namespace StaticSite

open Disk (within)

-- The places of the three directories of a project, none of which lies in another.
structure Roots where
  source : Location
  assets : Location
  out : Location
  source_keeps : source.Keeps
  assets_keeps : assets.Keeps
  out_named : out.Named
  source_apart : ¬ within source assets ∧ ¬ within assets source
  out_apart : ∀ input ∈ [source, assets], ¬ within input out ∧ ¬ within out input

namespace Roots

variable {roots : Roots}

-- The project that is built from scratch.
def config (roots : Roots) : Config :=
  ⟨roots.source.path, roots.assets.path, roots.out.path, true⟩

theorem out_ne_nil (roots : Roots) : roots.out ≠ [] := by
  intro heq
  refine (roots.out_apart roots.source List.mem_cons_self).2 ?_
  rw [heq]
  exact Disk.within_iff.2 ⟨roots.source, (List.append_nil _).symm⟩

-- What lies below one of two directories of which none lies in the other does not lie below
-- the other.
theorem not_within_of_apart {left right : Location} (h : ¬ within left right)
    (h' : ¬ within right left) (below : Location) : ¬ within left (below ++ right) := by
  intro hwithin
  rcases Disk.within_or_within hwithin (Disk.within_append below right) with hnested | hnested
  · exact h hnested
  · exact h' hnested

theorem not_within_out_source (roots : Roots) (below : Location) :
    ¬ within roots.out (below ++ roots.source) :=
  have h := roots.out_apart roots.source List.mem_cons_self
  not_within_of_apart h.2 h.1 below

theorem not_within_out_assets (roots : Roots) (below : Location) :
    ¬ within roots.out (below ++ roots.assets) :=
  have h := roots.out_apart roots.assets (by simp)
  not_within_of_apart h.2 h.1 below

end Roots

namespace Disk

variable {roots : Roots} {disk other : Disk} {place : Location} {stale : Location → Prop}

-- The page of a file is in the output.
def Shows (disk : Disk) (roots : Roots) (page : Location) : Prop :=
  ∃ text, disk.pageAt roots.source (disk.pagesBelow roots.source) page = .ok text ∧
    disk.file? (page ++ roots.out) = some (String.ofList text).toUTF8

-- The places of the pages in the output.
def Public (disk : Disk) (roots : Roots) (page : Location) : Prop :=
  page ∈ disk.pagesBelow roots.source ∧ page.isHidden = false

-- At a place in the output there is what a build would put there.
structure Fresh (disk : Disk) (roots : Roots) (place : Location) : Prop where
  page : disk.Public roots place → disk.Shows roots place
  asset : place ∈ disk.listed roots.assets →
    disk.file? (place ++ roots.out) = disk.file? (place ++ roots.assets)
  rest : ¬ disk.Public roots place → place ∉ disk.listed roots.assets →
    disk.file? (place ++ roots.out) = none

-- The output is what a build would make, but for what is stale.
structure Settled (roots : Roots) (stale : Location → Prop) (disk : Disk) : Prop where
  fresh : ∀ place, ¬ stale place → disk.Fresh roots place
  tidy : disk.Tidy roots.out
  followable : roots.out.Followable

-- The asset at a place below the root.
def assetAt (root file : Location) : StaticFile :=
  .ofFound (foundAt root file)

-- Two disks with the same files in both trees.
structure Agree (roots : Roots) (disk other : Disk) : Prop where
  source : ∀ below, disk.file? (below ++ roots.source) = other.file? (below ++ roots.source)
  assets : ∀ below, disk.file? (below ++ roots.assets) = other.file? (below ++ roots.assets)

namespace Agree

theorem refl (disk : Disk) : Agree roots disk disk :=
  ⟨fun _ => rfl, fun _ => rfl⟩

theorem symm (h : Agree roots disk other) : Agree roots other disk :=
  ⟨fun below => (h.source below).symm, fun below => (h.assets below).symm⟩

theorem trans {last : Disk} (h : Agree roots disk other) (h' : Agree roots other last) :
    Agree roots disk last :=
  ⟨fun below => (h.source below).trans (h'.source below),
    fun below => (h.assets below).trans (h'.assets below)⟩

theorem of_outside (h : ∀ location, ¬ within roots.out location →
    disk.file? location = other.file? location) : Agree roots disk other :=
  ⟨fun below => h _ (roots.not_within_out_source below),
    fun below => h _ (roots.not_within_out_assets below)⟩

theorem pagesBelow_eq (h : Agree roots disk other) :
    disk.pagesBelow roots.source = other.pagesBelow roots.source :=
  pagesBelow_congr h.source

theorem listed_eq (h : Agree roots disk other) :
    disk.listed roots.assets = other.listed roots.assets :=
  listed_congr fun below => by rw [h.assets below]

theorem public_iff (h : Agree roots disk other) :
    disk.Public roots place ↔ other.Public roots place := by
  rw [Public, Public, h.pagesBelow_eq]

theorem pageAt_eq (h : Agree roots disk other) (hpage : place ∈ disk.pagesBelow roots.source) :
    disk.pageAt roots.source (disk.pagesBelow roots.source) place =
      other.pageAt roots.source (other.pagesBelow roots.source) place :=
  pageAt_congr hpage fun file _ => ⟨by rw [h.pagesBelow_eq], fun _ => h.source file⟩

theorem shows_iff (h : Agree roots disk other) (hpage : place ∈ disk.pagesBelow roots.source)
    (hout : disk.file? (place ++ roots.out) = other.file? (place ++ roots.out)) :
    disk.Shows roots place ↔ other.Shows roots place := by
  rw [Shows, Shows, h.pageAt_eq hpage, hout]

-- What a build would put at a place is told by the files of both trees.
theorem fresh_of_eq (h : Agree roots disk other)
    (hout : disk.file? (place ++ roots.out) = other.file? (place ++ roots.out))
    (hfresh : disk.Fresh roots place) : other.Fresh roots place := by
  constructor
  · intro hpublic
    have hpage := h.public_iff.2 hpublic
    exact (h.shows_iff hpage.1 hout).1 (hfresh.page hpage)
  · intro hlisted
    rw [← hout, ← h.assets, hfresh.asset (h.listed_eq ▸ hlisted)]
  · intro hpublic hlisted
    rw [← hout, hfresh.rest (mt h.public_iff.1 hpublic) (h.listed_eq ▸ hlisted)]

end Agree

theorem Sets.agree {content : Option ByteArray} {below : Location}
    (h : disk.Sets roots.out (below ++ roots.out) content other) : Agree roots disk other := by
  refine .of_outside fun location hnot => ?_
  rw [h.file?, if_neg]
  rintro rfl
  exact hnot (within_append _ _)

end Disk

-- The asset, marked as deleted or not.
def StaticFile.flagged (file : StaticFile) (deleted : Bool) : StaticFile :=
  { file with deleted := deleted }

namespace Progress

variable {roots : Roots} {progress : Progress} {page : Location} {files : List Location}

-- What is built for a file of the tree.
theorem buildContent_linked (roots : Roots) (progress : Progress)
    (hfiles : SourceTree.Places files) {index : Nat} (hindex : files[index]? = some page) :
    progress.buildContent (.below roots.source files)
        (SourceTree.linked roots.source files index page) roots.out.path =
      if page.isHidden then (.ok .skipped, progress)
      else match progress.disk.pageAt roots.source files page with
        | .ok text =>
          ((.ok (progress.writeOutput (Location.path (page ++ roots.out))
              (String.ofList text).toUTF8).1),
            (progress.writeOutput (Location.path (page ++ roots.out))
              (String.ofList text).toUTF8).2)
        | .error (.unreadable path fault) =>
          (.ok (.failed (Location.path (page ++ roots.out)) (.disk fault)),
            progress.note (.unreadable path fault))
        | .error error => (.error (.compose error), progress) := by
  obtain ⟨hne, hnamed⟩ := hfiles.2 page (List.mem_of_getElem? hindex)
  have hhidden : (SourceTree.linked roots.source files index page).isHidden = page.isHidden :=
    @Disk.isHidden_contentAt roots.source page hne hnamed
  have hdestination : roots.out.path.join
      ⟨(SourceTree.linked roots.source files index page).relative⟩ =
        Location.path (page ++ roots.out) :=
    Location.join_path roots.out_ne_nil roots.out_named hne hnamed
  have hdeleted : (SourceTree.linked roots.source files index page).deleted = false := rfl
  rw [buildContent, hhidden]
  by_cases hpage : page.isHidden
  · rw [if_pos hpage, if_pos hpage]
  · rw [if_neg hpage, if_neg hpage]
    dsimp only
    have hpage := @SourceTree.composePage_below roots.source page files progress.disk hfiles index
      hindex
    rw [hdestination, hdeleted, if_neg Bool.false_ne_true]
    cases hcompose : progress.disk.pageAt roots.source files page with
    | ok text => simp only [hpage, hcompose]
    | error error => cases error <;> simp only [hpage, hcompose]

-- What is built for a file of the tree that is marked as deleted.
theorem buildContent_deleted (roots : Roots) (progress : Progress) (tree : SourceTree)
    (hne : page ≠ []) (hnamed : page.Named) (index : Nat) :
    progress.buildContent tree ((SourceTree.linked roots.source files index page).flagged true)
        roots.out.path =
      if page.isHidden then (.ok .skipped, progress)
      else (.ok (progress.removeOutput (Location.path (page ++ roots.out))).1,
        (progress.removeOutput (Location.path (page ++ roots.out))).2) := by
  have hhidden : ((SourceTree.linked roots.source files index page).flagged true).isHidden =
      page.isHidden :=
    @Disk.isHidden_contentAt roots.source page hne hnamed
  have hdestination : roots.out.path.join
      ⟨((SourceTree.linked roots.source files index page).flagged true).relative⟩ =
        Location.path (page ++ roots.out) :=
    Location.join_path roots.out_ne_nil roots.out_named hne hnamed
  have hdeleted : ((SourceTree.linked roots.source files index page).flagged true).deleted =
      true := rfl
  simp only [buildContent, hhidden, hdestination, hdeleted, ↓reduceIte]

-- What is done for an asset.
theorem buildAsset_assetAt (roots : Roots) (progress : Progress) (hne : page ≠ [])
    (hnamed : page.Named) :
    progress.buildAsset (Disk.assetAt roots.assets page) roots.out.path =
      if progress.disk.isFile (Location.path (page ++ roots.assets)) then
        progress.copyOutput (Location.path (page ++ roots.assets))
          (Location.path (page ++ roots.out))
      else (.failed (Location.path (page ++ roots.out)) .inaccessible,
        progress.note (.inaccessible (Location.path (page ++ roots.assets)))) := by
  have hdestination : roots.out.path.join ⟨(Disk.assetAt roots.assets page).relative⟩ =
      Location.path (page ++ roots.out) :=
    Location.join_path roots.out_ne_nil roots.out_named hne hnamed
  have hdeleted : (Disk.assetAt roots.assets page).deleted = false := rfl
  simp only [buildAsset, hdestination, hdeleted, Bool.false_eq_true, ↓reduceIte]
  rfl

theorem buildAsset_deleted (roots : Roots) (progress : Progress) (hne : page ≠ [])
    (hnamed : page.Named) :
    progress.buildAsset ((Disk.assetAt roots.assets page).flagged true) roots.out.path =
      progress.removeOutput (Location.path (page ++ roots.out)) := by
  have hdestination :
      roots.out.path.join ⟨((Disk.assetAt roots.assets page).flagged true).relative⟩ =
        Location.path (page ++ roots.out) :=
    Location.join_path roots.out_ne_nil roots.out_named hne hnamed
  have hdeleted : ((Disk.assetAt roots.assets page).flagged true).deleted = true := rfl
  simp only [buildAsset, hdestination, hdeleted, ↓reduceIte]

end Progress

end StaticSite
