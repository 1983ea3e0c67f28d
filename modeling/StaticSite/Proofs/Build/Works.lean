import StaticSite.Proofs.Build.Settled

-- What a run of builds does to the output, place by place.
namespace StaticSite

open Disk (within)

namespace Disk

variable {roots : Roots} {before middle after : Disk} {made made' gone gone' : Location → Prop}

-- The outputs of the places that are `made` are what a build would put there, those of the
-- places that are `gone` are removed unless they are made again, and nothing else has changed.
structure Works (roots : Roots) (made gone : Location → Prop) (before after : Disk) : Prop where
  agree : Agree roots before after
  directory : ∀ location, ¬ within roots.out location → before.kind? location = some .directory →
    after.kind? location = some .directory
  tidy : before.Tidy roots.out → after.Tidy roots.out
  fresh : ∀ place, made place → after.Fresh roots place
  none : ∀ place, gone place → ¬ made place → after.file? (place ++ roots.out) = none
  same : ∀ place, ¬ made place → ¬ gone place →
    after.file? (place ++ roots.out) = before.file? (place ++ roots.out)

namespace Works

theorem refl (roots : Roots) (disk : Disk) : Works roots (fun _ => False) (fun _ => False) disk disk :=
  ⟨.refl disk, fun _ _ h => h, fun h => h, fun _ h => h.elim, fun _ h => h.elim, fun _ _ _ => rfl⟩

theorem congr {other other' : Location → Prop} (h : Works roots made gone before after)
    (hmade : ∀ place, made place ↔ other place) (hgone : ∀ place, gone place ↔ other' place) :
    Works roots other other' before after := by
  have heq : made = other := funext fun place => propext (hmade place)
  have heq' : gone = other' := funext fun place => propext (hgone place)
  exact heq ▸ heq' ▸ h

-- One run after another. What is made by the first and gone after the second, the second makes.
theorem trans_of_again (h : Works roots made gone before middle)
    (h' : Works roots made' gone' middle after)
    (hagain : ∀ place, made place → gone' place → made' place) :
    Works roots (fun place => made place ∨ made' place) (fun place => gone place ∨ gone' place)
      before after := by
  refine ⟨h.agree.trans h'.agree, fun location hnot hdirectory =>
    h'.directory location hnot (h.directory location hnot hdirectory),
    fun htidy => h'.tidy (h.tidy htidy), ?_, ?_, ?_⟩
  · intro place hmade
    by_cases hlast : made' place
    · exact h'.fresh place hlast
    · have hfirst := hmade.resolve_right hlast
      exact h'.agree.fresh_of_eq (h'.same place hlast (mt (hagain place hfirst) hlast)).symm
        (h.fresh place hfirst)
  · intro place hgone hnot
    rw [not_or] at hnot
    by_cases hlast : gone' place
    · exact h'.none place hlast hnot.2
    · rw [h'.same place hnot.2 hlast, h.none place (hgone.resolve_right hlast) hnot.1]
  · intro place hnot hstays
    rw [not_or] at hnot hstays
    rw [h'.same place hnot.2 hstays.2, h.same place hnot.1 hstays.1]

-- What is made after other places are gone.
theorem trans (h : Works roots made gone before middle)
    (h' : Works roots made' (fun _ => False) middle after) :
    Works roots (fun place => made place ∨ made' place) gone before after :=
  (h.trans_of_again h' fun _ _ h => h.elim).congr (fun _ => Iff.rfl) fun _ => iff_of_eq (or_false _)

theorem trans_gone (h : Works roots (fun _ => False) gone before middle)
    (h' : Works roots (fun _ => False) gone' middle after) :
    Works roots (fun _ => False) (fun place => gone place ∨ gone' place) before after :=
  (h.trans_of_again h' fun _ h _ => h).congr (fun _ => or_self_iff) fun _ => Iff.rfl

end Works

-- A file of the tree and one of the assets never have the same place.
def Distinct (disk : Disk) (roots : Roots) : Prop :=
  ∀ place ∈ disk.pagesBelow roots.source, place ∉ disk.listed roots.assets

theorem Agree.distinct (h : Agree roots before after) (hdistinct : before.Distinct roots) :
    after.Distinct roots := by
  intro place hmem
  rw [← h.listed_eq]
  rw [← h.pagesBelow_eq] at hmem
  exact hdistinct place hmem

theorem fresh_of_shows {disk : Disk} {place : Location} (hdistinct : disk.Distinct roots)
    (hpublic : disk.Public roots place) (hshows : disk.Shows roots place) :
    disk.Fresh roots place :=
  ⟨fun _ => hshows, fun hmem => absurd hmem (hdistinct place hpublic.1), fun hnot => absurd hpublic hnot⟩

theorem fresh_of_copied {disk : Disk} {place : Location} (hdistinct : disk.Distinct roots)
    (hmem : place ∈ disk.listed roots.assets)
    (hcopied : disk.file? (place ++ roots.out) = disk.file? (place ++ roots.assets)) :
    disk.Fresh roots place :=
  ⟨fun hpublic => absurd hmem (hdistinct place hpublic.1), fun _ => hcopied,
    fun _ hnot => absurd hmem hnot⟩

theorem Sets.directory_outside {disk next : Disk} {place : Location} {content : Option ByteArray}
    (h : disk.Sets roots.out (place ++ roots.out) content next) (location : Location)
    (hnot : ¬ within roots.out location) (hdirectory : disk.kind? location = some .directory) :
    next.kind? location = some .directory := by
  refine h.directory location ?_ hdirectory
  rintro rfl
  exact hnot (within_append _ _)

-- A file that has been put at one place.
theorem Sets.works_made {disk next : Disk} {place : Location} {content : Option ByteArray}
    (h : disk.Sets roots.out (place ++ roots.out) content next) (hfresh : next.Fresh roots place) :
    Works roots (· = place) (fun _ => False) disk next := by
  refine ⟨h.agree, h.directory_outside, h.tidy, ?_, fun _ h => h.elim, ?_⟩
  · rintro _ rfl
    exact hfresh
  · intro other hne _
    rw [h.file?, if_neg fun heq => hne (List.append_cancel_right heq)]

theorem Sets.works_gone {disk next : Disk} {place : Location}
    (h : disk.Sets roots.out (place ++ roots.out) none next) :
    Works roots (fun _ => False) (· = place) disk next := by
  refine ⟨h.agree, h.directory_outside, h.tidy, fun _ h => h.elim, ?_, ?_⟩
  · rintro _ rfl _
    rw [h.file?, if_pos rfl]
  · intro other _ hne
    rw [h.file?, if_neg fun heq => hne (List.append_cancel_right heq)]

end Disk

namespace Progress

variable {roots : Roots} {progress : Progress} {page : Location}

-- A file is removed if it is there, and if it is not there is none afterwards either.
theorem removeOutput_works (hne : page ≠ []) (hnamed : page.Named)
    (htidy : progress.disk.Tidy roots.out) :
    Disk.Works roots (fun _ => False) (· = page) progress.disk
      (progress.removeOutput (Location.path (page ++ roots.out))).2.disk := by
  have hplace := hnamed.append roots.out_named
  cases hremove : progress.disk.removeFile (Location.path (page ++ roots.out)) with
  | ok next =>
      have hsets : progress.disk.Sets roots.out (page ++ roots.out) none next :=
        Disk.removeFile_sets hplace hremove
      simpa [removeOutput, hremove] using hsets.works_gone
  | error fault =>
      have hnone : progress.disk.file? (page ++ roots.out) = none := by
        cases hfile : progress.disk.file? (page ++ roots.out) with
        | none => rfl
        | some content =>
            have hfollow := (htidy _ _ (Disk.within_append _ _) (Disk.file?_eq_some.1 hfile)).1
            obtain ⟨name, rest, rfl⟩ := List.exists_cons_of_ne_nil hne
            rw [List.cons_append] at hfollow hfile hremove
            rw [Disk.removeFile_path hfollow hfile] at hremove
            cases hremove
      have hsame : (progress.removeOutput (Location.path (page ++ roots.out))).2.disk =
          progress.disk := by
        simp [removeOutput, hremove]
      rw [hsame]
      have hsets : progress.disk.Sets roots.out (page ++ roots.out) none progress.disk := by
        refine ⟨fun location => ?_, fun _ _ h => h, fun h => h⟩
        split
        · next heq => rw [heq, hnone]
        · rfl
      exact hsets.works_gone

end Progress

end StaticSite
