import StaticSite.Proofs.Build.Works

-- Changes of the trees, and what has to be built for them.
namespace StaticSite

namespace Roots

-- Where a tree lies.
def tree (roots : Roots) : Tree → Location
  | .source => roots.source
  | .static => roots.assets

@[simp]
theorem tree_source (roots : Roots) : roots.tree .source = roots.source := rfl

@[simp]
theorem tree_static (roots : Roots) : roots.tree .static = roots.assets := rfl

theorem not_within_tree (roots : Roots) {tree other : Tree} (h : other ≠ tree)
    (below : Location) : ¬ Disk.within (roots.tree tree) (below ++ roots.tree other) := by
  cases tree <;> cases other
  · exact absurd rfl h
  · exact not_within_of_apart roots.source_apart.1 roots.source_apart.2 below
  · exact not_within_of_apart roots.source_apart.2 roots.source_apart.1 below
  · exact absurd rfl h

theorem tree_keeps (roots : Roots) (tree : Tree) : (roots.tree tree).Keeps := by
  cases tree with
  | source => exact roots.source_keeps
  | static => exact roots.assets_keeps

theorem not_within_out_tree (roots : Roots) (tree : Tree) (below : Location) :
    ¬ Disk.within roots.out (below ++ roots.tree tree) := by
  cases tree with
  | source => exact roots.not_within_out_source below
  | static => exact roots.not_within_out_assets below

theorem not_within_out_of_within_tree (roots : Roots) (tree : Tree) {location : Location}
    (h : Disk.within (roots.tree tree) location) : ¬ Disk.within roots.out location := by
  obtain ⟨below, rfl⟩ := Disk.within_iff.1 h
  exact roots.not_within_out_tree tree below

end Roots

namespace Disk

variable {roots : Roots} {root place : Location} {gone come : Location → Prop}
  {before after last : Disk}

-- The files of a tree, as a scan lists them.
def present (disk : Disk) (roots : Roots) : Tree → List Location
  | .source => disk.pagesBelow roots.source
  | .static => disk.listed roots.assets

open scoped Classical in
-- What is left of known files: those that are not gone.
noncomputable def remaining (gone : Location → Prop) (known : List Location) : List Location :=
  known.filter (¬ gone ·)

section Remaining

variable {known : List Location} {gone' : Location → Prop}

theorem mem_remaining : place ∈ remaining gone known ↔ place ∈ known ∧ ¬ gone place := by
  simp [remaining]

theorem remaining_eq_filter (known : List Location) (gone : Location → Prop)
    [DecidablePred gone] : remaining gone known = known.filter (¬ gone ·) :=
  List.filter_congr fun _ _ => by simp

theorem remaining_of_forall_not (h : ∀ file ∈ known, ¬ gone file) : remaining gone known = known :=
  List.filter_eq_self.2 fun file hmem => by simpa using h file hmem

theorem remaining_remaining :
    remaining gone' (remaining gone known) = remaining (fun file => gone file ∨ gone' file) known := by
  rw [remaining, remaining, List.filter_filter]
  exact List.filter_congr fun _ _ => Bool.eq_iff_iff.2 (by simp [and_comm])

end Remaining

-- The files below `root` have changed at places that are `gone` or have `come`: nothing is left
-- where something is gone, unless something has come there, and what has come replaces files by
-- files only.
structure Shifts (root : Location) (gone come : Location → Prop) (before after : Disk) :
    Prop where
  same : ∀ place, ¬ gone place → ¬ come place →
    after.file? (place ++ root) = before.file? (place ++ root)
  lost : ∀ place, gone place → ¬ come place → after.file? (place ++ root) = none
  kept : ∀ place, come place → ¬ gone place → (before.file? (place ++ root)).isSome →
    (after.file? (place ++ root)).isSome

namespace Shifts

theorem listed_of_listed (h : Shifts root gone come before after) (hgone : ¬ gone place)
    (hmem : place ∈ before.listed root) : place ∈ after.listed root := by
  rw [mem_listed] at hmem ⊢
  refine ⟨hmem.1, hmem.2.1, ?_⟩
  by_cases hcome : come place
  · exact h.kept place hcome hgone hmem.2.2
  · rw [h.same place hgone hcome]
    exact hmem.2.2

theorem not_gone (h : Shifts root gone come before after) (hmem : place ∈ after.listed root)
    (hcome : ¬ come place) : ¬ gone place := by
  intro hgone
  have hsome := (mem_listed.1 hmem).2.2
  rw [h.lost place hgone hcome] at hsome
  cases hsome

theorem listed_before (h : Shifts root gone come before after) (hmem : place ∈ after.listed root)
    (hcome : ¬ come place) : place ∈ before.listed root := by
  have hgone := h.not_gone hmem hcome
  rw [mem_listed, h.same place hgone hcome] at hmem
  exact mem_listed.2 hmem

-- Where nothing has come, what is listed is what is left.
theorem remaining_listed (h : Shifts root gone come before after)
    (hcome : ∀ file ∈ after.listed root, ¬ come file) :
    remaining gone (before.listed root) = after.listed root := by
  refine ((before.pairwise_listed root).filter _).eq_of_mem_iff (after.pairwise_listed root)
    fun file => mem_remaining.trans ?_
  exact ⟨fun hmem => h.listed_of_listed hmem.2 hmem.1,
    fun hmem => ⟨h.listed_before hmem (hcome file hmem), h.not_gone hmem (hcome file hmem)⟩⟩

theorem pagesBelow_of_pagesBelow (h : Shifts root gone come before after) (hgone : ¬ gone place)
    (hmem : place ∈ before.pagesBelow root) : place ∈ after.pagesBelow root := by
  rw [mem_pagesBelow] at hmem ⊢
  exact ⟨h.listed_of_listed hgone hmem.1, hmem.2⟩

theorem pagesBelow_before (h : Shifts root gone come before after)
    (hmem : place ∈ after.pagesBelow root) (hcome : ¬ come place) :
    place ∈ before.pagesBelow root := by
  rw [mem_pagesBelow] at hmem ⊢
  exact ⟨h.listed_before hmem.1 hcome, hmem.2⟩

theorem remaining_pagesBelow (h : Shifts root gone come before after)
    (hcome : ∀ page ∈ after.pagesBelow root, ¬ come page) :
    remaining gone (before.pagesBelow root) = after.pagesBelow root := by
  refine ((before.pairwise_pagesBelow root).filter _).eq_of_mem_iff
    (after.pairwise_pagesBelow root) fun place => mem_remaining.trans ?_
  exact ⟨fun hmem => h.pagesBelow_of_pagesBelow hmem.2 hmem.1, fun hmem =>
    ⟨h.pagesBelow_before hmem (hcome place hmem),
      h.not_gone (mem_pagesBelow.1 hmem).1 (hcome place hmem)⟩⟩

theorem pagesBelow_eq (h : Shifts root gone come before after)
    (hgone : ∀ page ∈ before.pagesBelow root, ¬ gone page)
    (hcome : ∀ page ∈ after.pagesBelow root, ¬ come page) :
    before.pagesBelow root = after.pagesBelow root :=
  (remaining_of_forall_not hgone).symm.trans (h.remaining_pagesBelow hcome)

theorem refl (root : Location) (disk : Disk) :
    Shifts root (fun _ => False) (fun _ => False) disk disk :=
  ⟨fun _ _ _ => rfl, fun _ h => h.elim, fun _ h => h.elim⟩

theorem trans {middle : Disk} {gone' come' : Location → Prop}
    (h : Shifts root gone come before middle) (h' : Shifts root gone' come' middle after) :
    Shifts root (fun place => gone place ∨ gone' place) (fun place => come place ∨ come' place)
      before after := by
  refine ⟨fun place hstays hnot => ?_, fun place hgone hnot => ?_, fun place _ hstays hsome => ?_⟩
  · rw [not_or] at hstays hnot
    rw [h'.same place hstays.2 hnot.2, h.same place hstays.1 hnot.1]
  · rw [not_or] at hnot
    by_cases hlast : gone' place
    · exact h'.lost place hlast hnot.2
    · rw [h'.same place hlast hnot.2, h.lost place (hgone.resolve_right hlast) hnot.1]
  · rw [not_or] at hstays
    have hmiddle : (middle.file? (place ++ root)).isSome := by
      by_cases hcome : come place
      · exact h.kept place hcome hstays.1 hsome
      · rw [h.same place hstays.1 hcome]
        exact hsome
    by_cases hcome : come' place
    · exact h'.kept place hcome hstays.2 hmiddle
    · rw [h'.same place hstays.2 hcome]
      exact hmiddle

end Shifts

-- A page that has come, or that a layout wraps which has come.
def Renewed (roots : Roots) (come : Location → Prop) (after : Disk) (place : Location) : Prop :=
  after.Public roots place ∧
    (come place ∨ ∃ file ∈ after.pagesBelow roots.source, come file ∧ file.wraps place = true)

-- A known page that is still there, and that a known layout wrapped which is gone.
def Orphaned (roots : Roots) (gone : Location → Prop) (known : List Location) (after : Disk)
    (place : Location) : Prop :=
  after.Public roots place ∧ place ∈ known ∧ ∃ file ∈ known, gone file ∧ file.wraps place = true

namespace Shifts

-- A page for which nothing is done is composed of what it was composed of.
theorem pageAt_eq (h : Shifts roots.source gone come before after)
    (hpublic : after.Public roots place) (hrenewed : ¬ Renewed roots come after place)
    (horphaned : ¬ Orphaned roots gone (before.pagesBelow roots.source) after place) :
    place ∈ before.pagesBelow roots.source ∧
      before.pageAt roots.source (before.pagesBelow roots.source) place =
        after.pageAt roots.source (after.pagesBelow roots.source) place := by
  have hstays : ¬ come place := fun hcome => hrenewed ⟨hpublic, .inl hcome⟩
  have hbefore := h.pagesBelow_before hpublic.1 hstays
  refine ⟨hbefore, pageAt_congr hbefore fun file hpart => ?_⟩
  have hafter : file ∈ after.pagesBelow roots.source → ¬ come file := by
    intro hmem hcome
    rcases hpart with rfl | hwraps
    · exact hstays hcome
    · exact hrenewed ⟨hpublic, .inr ⟨file, hmem, hcome, hwraps⟩⟩
  have hremains : file ∈ before.pagesBelow roots.source → ¬ gone file := by
    intro hmem hgone
    rcases hpart with rfl | hwraps
    · exact h.not_gone (mem_pagesBelow.1 hpublic.1).1 hstays hgone
    · exact horphaned ⟨hpublic, hbefore, file, hmem, hgone, hwraps⟩
  have hiff : file ∈ before.pagesBelow roots.source ↔ file ∈ after.pagesBelow roots.source :=
    ⟨fun hmem => h.pagesBelow_of_pagesBelow (hremains hmem) hmem,
      fun hmem => h.pagesBelow_before hmem (hafter hmem)⟩
  exact ⟨hiff, fun hmem => (h.same file (hremains hmem) (hafter (hiff.1 hmem))).symm⟩

end Shifts

-- What is built for what has come to both trees.
def Brought (roots : Roots) (come : Tree → Location → Prop) (after : Disk) (place : Location) :
    Prop :=
  Renewed roots (come .source) after place ∨
    place ∈ after.listed roots.assets ∧ come .static place

theorem Agree.renewed_iff (h : Agree roots before after) :
    Renewed roots come before place ↔ Renewed roots come after place := by
  simp only [Renewed, h.public_iff, h.pagesBelow_eq]

theorem renewed_or {come' : Location → Prop} :
    Renewed roots (fun file => come file ∨ come' file) after place ↔
      Renewed roots come after place ∨ Renewed roots come' after place := by
  simp only [Renewed, or_and_right, and_or_left, exists_or, or_or_or_comm]

theorem brought_or {come come' : Tree → Location → Prop} :
    Brought roots (fun tree file => come tree file ∨ come' tree file) after place ↔
      Brought roots come after place ∨ Brought roots come' after place := by
  rw [Brought, renewed_or, and_or_left, or_or_or_comm]
  rfl

-- Both trees have changed, and nothing in the output.
structure Changed (roots : Roots) (gone come : Tree → Location → Prop) (before after : Disk) :
    Prop where
  shifts : ∀ tree, Shifts (roots.tree tree) (gone tree) (come tree) before after
  out : ∀ location, within roots.out location → after.file? location = before.file? location
  tidy : before.Tidy roots.out → after.Tidy roots.out

namespace Changed

variable {gone come gone' come' : Tree → Location → Prop} {middle : Disk}

theorem refl (roots : Roots) (disk : Disk) :
    Changed roots (fun _ _ => False) (fun _ _ => False) disk disk :=
  ⟨fun tree => .refl (roots.tree tree) disk, fun _ _ => rfl, fun h => h⟩

theorem trans (h : Changed roots gone come before middle)
    (h' : Changed roots gone' come' middle after) :
    Changed roots (fun tree place => gone tree place ∨ gone' tree place)
      (fun tree place => come tree place ∨ come' tree place) before after :=
  ⟨fun tree => (h.shifts tree).trans (h'.shifts tree),
    fun location hwithin => (h'.out location hwithin).trans (h.out location hwithin),
    fun htidy => h'.tidy (h.tidy htidy)⟩

theorem congr (h : Changed roots gone come before after)
    (hgone : ∀ tree place, gone tree place ↔ gone' tree place)
    (hcome : ∀ tree place, come tree place ↔ come' tree place) :
    Changed roots gone' come' before after := by
  have heq : gone = gone' := funext fun tree => funext fun place => propext (hgone tree place)
  have heq' : come = come' := funext fun tree => funext fun place => propext (hcome tree place)
  exact heq ▸ heq' ▸ h

-- What has to be built after a change of known files, and whose output has to be removed.
def Makes (roots : Roots) (gone come : Tree → Location → Prop) (known : Tree → List Location)
    (after : Disk) (place : Location) : Prop :=
  Orphaned roots (gone .source) (known .source) after place ∨ Brought roots come after place

def Takes (gone : Tree → Location → Prop) (known : Tree → List Location) (place : Location) :
    Prop :=
  (place ∈ known .source ∧ place.isHidden = false) ∧ gone .source place ∨
    place ∈ known .static ∧ gone .static place

-- After a change the output is settled again once what is gone has been removed from it, and
-- what has come or depends on what has changed is built.
theorem settled (h : Changed roots gone come before after)
    (hsettled : Settled roots (fun _ => False) before) (hdistinct : before.Distinct roots)
    (hworks : Works roots (Makes roots gone come (before.present roots) after)
      (Takes gone (before.present roots)) after last) :
    Settled roots (fun _ => False) last := by
  have hpages : Shifts roots.source (gone .source) (come .source) before after := h.shifts .source
  have hfiles : Shifts roots.assets (gone .static) (come .static) before after := h.shifts .static
  refine ⟨fun place _ => ?_, hworks.tidy (h.tidy hsettled.tidy), hsettled.followable⟩
  by_cases hmade : Makes roots gone come (before.present roots) after place
  · exact hworks.fresh place hmade
  obtain ⟨horphaned, hnot⟩ := not_or.1 hmade
  obtain ⟨hrenewed, hcopied⟩ := not_or.1 hnot
  -- What is there now and is not built has been there before, and stays.
  have hpublic : after.Public roots place → before.Public roots place ∧ ¬ gone .source place := by
    intro hpublic
    have hcome : ¬ come .source place := fun hcome => hrenewed ⟨hpublic, .inl hcome⟩
    exact ⟨⟨hpages.pagesBelow_before hpublic.1 hcome, hpublic.2⟩,
      hpages.not_gone (mem_pagesBelow.1 hpublic.1).1 hcome⟩
  have hlisted : place ∈ after.listed roots.assets →
      place ∈ before.listed roots.assets ∧ ¬ gone .static place ∧ ¬ come .static place := by
    intro hmem
    have hcome : ¬ come .static place := fun hcome => hcopied ⟨hmem, hcome⟩
    exact ⟨hfiles.listed_before hmem hcome, hfiles.not_gone hmem hcome, hcome⟩
  by_cases hgone : Takes gone (before.present roots) place
  · have hnone := hworks.none place hgone hmade
    have hprivate : ¬ after.Public roots place := fun h => by
      obtain ⟨hbefore, hstays⟩ := hpublic h
      rcases hgone with ⟨-, hgone⟩ | ⟨hmem, -⟩
      · exact hstays hgone
      · exact hdistinct place hbefore.1 hmem
    have hunlisted : place ∉ after.listed roots.assets := fun h => by
      obtain ⟨hbefore, hstays, -⟩ := hlisted h
      rcases hgone with ⟨hpage, -⟩ | ⟨-, hgone⟩
      · exact hdistinct place hpage.1 hbefore
      · exact hstays hgone
    exact ⟨fun h => absurd (hworks.agree.public_iff.2 h) hprivate,
      fun h => absurd (hworks.agree.listed_eq ▸ h) hunlisted, fun _ _ => hnone⟩
  · obtain ⟨hkept, hkept'⟩ := not_or.1 hgone
    have hsame : after.file? (place ++ roots.out) = before.file? (place ++ roots.out) :=
      h.out _ (within_append place roots.out)
    have hfresh := hsettled.fresh place id
    refine hworks.agree.fresh_of_eq (hworks.same place hmade hgone).symm ⟨?_, ?_, ?_⟩
    · intro hpage
      obtain ⟨-, heq⟩ := hpages.pageAt_eq hpage hrenewed horphaned
      obtain ⟨text, htext, hfile⟩ := hfresh.page (hpublic hpage).1
      exact ⟨text, heq ▸ htext, hsame.trans hfile⟩
    · intro hmem
      obtain ⟨hbefore, hstays, hcome⟩ := hlisted hmem
      have hcopy : after.file? (place ++ roots.assets) = before.file? (place ++ roots.assets) :=
        hfiles.same place hstays hcome
      rw [hsame, hcopy, hfresh.asset hbefore]
    · intro hpage hmem
      rw [hsame]
      refine hfresh.rest (fun hbefore => hpage ?_) fun hbefore => hmem ?_
      · exact ⟨hpages.pagesBelow_of_pagesBelow (fun h => hkept ⟨hbefore, h⟩) hbefore.1, hbefore.2⟩
      · exact hfiles.listed_of_listed (fun h => hkept' ⟨hbefore, h⟩) hbefore

end Changed

-- One tree has changed, and nothing outside of it.
structure Edited (roots : Roots) (root : Location) (gone come : Location → Prop)
    (before after : Disk) : Prop where
  shifts : Shifts root gone come before after
  outside : ∀ location, ¬ within root location → after.file? location = before.file? location
  directory : ∀ location, ¬ within root location → before.kind? location = some .directory →
    after.kind? location = some .directory
  tidy : before.Tidy roots.out → after.Tidy roots.out

namespace Edited

-- The other tree is as it was.
theorem listed_eq (h : Edited roots roots.source gone come before after) :
    before.listed roots.assets = after.listed roots.assets := by
  refine listed_congr fun below => ?_
  rw [h.outside _ (Roots.not_within_of_apart roots.source_apart.1 roots.source_apart.2 below)]

theorem pagesBelow_eq (h : Edited roots roots.assets gone come before after) :
    before.pagesBelow roots.source = after.pagesBelow roots.source := by
  refine pagesBelow_congr fun below => ?_
  rw [h.outside _ (Roots.not_within_of_apart roots.source_apart.2 roots.source_apart.1 below)]

-- The change of one tree as one of both.
theorem changed {tree : Tree} (h : Edited roots (roots.tree tree) gone come before after) :
    Changed roots (fun other place => other = tree ∧ gone place)
      (fun other place => other = tree ∧ come place) before after := by
  refine ⟨fun other => ?_, fun location hwithin => h.outside location fun hbelow =>
    roots.not_within_out_of_within_tree tree hbelow hwithin, h.tidy⟩
  by_cases hother : other = tree
  · subst hother
    simpa only [true_and] using h.shifts
  · simp only [hother, false_and]
    have hsame (place : Location) :
        after.file? (place ++ roots.tree other) = before.file? (place ++ roots.tree other) :=
      h.outside _ (roots.not_within_tree hother place)
    exact ⟨fun place _ _ => hsame place, fun _ h => h.elim, fun _ h => h.elim⟩

-- After a change of the source tree the output is settled again once the pages that are gone
-- have been removed, and those that have come or that depend on what has changed are built.
theorem settled_source (h : Edited roots roots.source gone come before after)
    (hsettled : Settled roots (fun _ => False) before) (hdistinct : before.Distinct roots)
    (hworks : Works roots
      (fun place => Orphaned roots gone (before.pagesBelow roots.source) after place ∨
        Renewed roots come after place)
      (fun place => before.Public roots place ∧ gone place) after last) :
    Settled roots (fun _ => False) last := by
  have h : Edited roots (roots.tree .source) gone come before after := h
  refine h.changed.settled hsettled hdistinct (hworks.congr (fun place => ?_) fun place => ?_)
  · simp [Changed.Makes, Brought, present]
  · simp [Changed.Takes, present, Public]

-- After a change of the static tree it is settled once the copies of what is gone have been
-- removed and what has come is copied.
theorem settled_assets (h : Edited roots roots.assets gone come before after)
    (hsettled : Settled roots (fun _ => False) before) (hdistinct : before.Distinct roots)
    (hworks : Works roots (fun place => place ∈ after.listed roots.assets ∧ come place)
      (fun place => place ∈ before.listed roots.assets ∧ gone place) after last) :
    Settled roots (fun _ => False) last := by
  have h : Edited roots (roots.tree .static) gone come before after := h
  refine h.changed.settled hsettled hdistinct (hworks.congr (fun place => ?_) fun place => ?_)
  · simp [Changed.Makes, Brought, Orphaned, Renewed]
  · simp [Changed.Takes, present]

end Edited

end Disk

end StaticSite
