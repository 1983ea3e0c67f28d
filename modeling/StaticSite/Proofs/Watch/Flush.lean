import Mathlib.Logic.Function.Basic
import StaticSite.Proofs.Watch.Answer
import StaticSite.Proofs.Watch.Batch
import StaticSite.Proofs.Watch.Queue

-- Sessions whose edits are handled in batches.
namespace StaticSite

open Disk (within remaining Works Settled Agree Changed)
open Disk.Changed (Makes Takes)

-- What is built for events that are handled in order.
def dispatchBuilds {σ τ : Type} [Handler σ] [Handler τ] (source : σ) (assets : τ)
    (progress : Progress) : List (Tree × Event) → List Rebuild
  | [] => []
  | (.source, event) :: rest =>
    (Handler.handle source event progress).result.toOption.getD [] ++
      match Handler.receive source event progress with
      | (source, progress, .ok ()) => dispatchBuilds source assets progress rest
      | (_, _, .error _) => []
  | (.static, event) :: rest =>
    (Handler.handle assets event progress).result.toOption.getD [] ++
      match Handler.receive assets event progress with
      | (assets, progress, .ok ()) => dispatchBuilds source assets progress rest
      | (_, _, .error _) => []

section

variable {σ τ : Type} [Watcher σ] [Watcher τ] {source source' : σ} {assets assets' : τ}
  {progress next : Progress} {event : Event} {rebuilds : List Rebuild}

theorem dispatch_source (assets : τ) (rest : List (Tree × Event))
    (h : Watcher.handle source event progress = ⟨source', next, .ok rebuilds⟩) :
    dispatch source assets progress ((.source, event) :: rest) = dispatch source' assets next rest ∧
      dispatchBuilds source assets progress ((.source, event) :: rest) =
        rebuilds ++ dispatchBuilds source' assets next rest := by
  have h : Handler.handle source event progress = ⟨source', next, .ok rebuilds⟩ := h
  have hreceive : Handler.receive source event progress = (source', next, .ok ()) := by
    rw [Handler.receive, h]
  rw [dispatch, dispatchBuilds, hreceive, h]
  exact ⟨rfl, rfl⟩

theorem dispatch_static (source : σ) (rest : List (Tree × Event))
    (h : Watcher.handle assets event progress = ⟨assets', next, .ok rebuilds⟩) :
    dispatch source assets progress ((.static, event) :: rest) = dispatch source assets' next rest ∧
      dispatchBuilds source assets progress ((.static, event) :: rest) =
        rebuilds ++ dispatchBuilds source assets' next rest := by
  have h : Handler.handle assets event progress = ⟨assets', next, .ok rebuilds⟩ := h
  have hreceive : Handler.receive assets event progress = (assets', next, .ok ()) := by
    rw [Handler.receive, h]
  rw [dispatch, dispatchBuilds, hreceive, h]
  exact ⟨rfl, rfl⟩

end

variable {roots : Roots} {disk before : Disk} {progress next : Progress} {tree : Tree}
  {first : Tree × Event} {events more rest : List (Tree × Event)}

-- What a watcher knows of its tree after events: all that is there, if the tree has been scanned
-- for one of them, and otherwise what is left of what it has known before.
def Learns (roots : Roots) (disk : Disk) (events : List (Tree × Event)) (tree : Tree)
    (known after : List Location) : Prop :=
  after = disk.present roots tree ∧
      (∃ event, (tree, event) ∈ events ∧ (tree = .static → event.kind ≠ .unlink)) ∨
    after = remaining (Withdrawn roots events tree) known ∧
      ∀ file ∈ disk.present roots tree, ¬ Announced roots events tree file

-- Nothing is gone after the tree has been scanned.
theorem not_withdrawn_of_scanned {event : Event} (hmem : (tree, event) ∈ events)
    (hkind : tree = .static → event.kind ≠ .unlink)
    (hheeds : ∀ earlier ∈ events, ∀ later ∈ more, Heeds roots earlier later) (file : Location) :
    ¬ Withdrawn roots more tree file := by
  rintro ⟨later, hlater, hunlink, -⟩
  obtain ⟨hstatic, hfirst⟩ := (hheeds _ hmem _ hlater).same hunlink rfl
  exact hkind hstatic hfirst

namespace Learns

variable {known middle after : List Location} {place : Location}

theorem idle (h : ∀ event, (tree, event) ∉ events) (known : List Location) :
    Learns roots disk events tree known known := by
  refine .inr ⟨(Disk.remaining_of_forall_not fun file _ => ?_).symm, fun file _ => ?_⟩
  · rintro ⟨event, hmem, -⟩
    exact h event hmem
  · rintro ⟨event, hmem, -⟩
    exact h event hmem

theorem append (h : Learns roots disk events tree known middle)
    (h' : Learns roots disk more tree middle after)
    (hheeds : ∀ earlier ∈ events, ∀ later ∈ more, Heeds roots earlier later) :
    Learns roots disk (events ++ more) tree known after := by
  rcases h' with ⟨h', event, hmem, hkind⟩ | ⟨h', hcome'⟩
  · exact .inl ⟨h', event, List.mem_append_right _ hmem, hkind⟩
  rcases h with ⟨rfl, event, hmem, hkind⟩ | ⟨rfl, hcome⟩
  · have hstays := not_withdrawn_of_scanned hmem hkind hheeds
    exact .inl ⟨h'.trans (Disk.remaining_of_forall_not fun file _ => hstays file), event,
      List.mem_append_left _ hmem, hkind⟩
  · refine .inr ⟨h'.trans (Disk.remaining_remaining.trans ?_), fun file hmem => ?_⟩
    · congr 1
      exact funext fun file => propext Told.append_iff.symm
    · exact fun h => (Told.append_iff.1 h).elim (hcome file hmem) (hcome' file hmem)

-- In the end all is known that is there.
theorem eq_present (h : Learns roots disk events tree (before.present roots tree) after)
    (hchanged : Changed roots (Withdrawn roots events) (Announced roots events) before disk) :
    after = disk.present roots tree := by
  rcases h with ⟨h, -⟩ | ⟨rfl, hcome⟩
  · exact h
  · cases tree with
    | source => exact (hchanged.shifts .source).remaining_pagesBelow hcome
    | static => exact (hchanged.shifts .static).remaining_listed hcome

theorem places (h : Learns roots disk events tree known after) (hplaces : SourceTree.Places known) :
    SourceTree.Places after := by
  rcases h with ⟨rfl, -⟩ | ⟨rfl, -⟩
  · exact disk.places_present roots tree
  · exact ⟨hplaces.1.filter _, fun file hmem => hplaces.2 file (List.mem_of_mem_filter hmem)⟩

-- What is known afterwards is there or has been known before.
theorem mem_or_mem (h : Learns roots disk events tree known after) (hmem : place ∈ after) :
    place ∈ disk.present roots tree ∨ place ∈ known := by
  rcases h with ⟨rfl, -⟩ | ⟨rfl, -⟩
  · exact .inl hmem
  · exact .inr (List.mem_of_mem_filter hmem)

-- What is known and gone is the same for the events together.
theorem withdrawn_iff (h : Learns roots disk events tree known middle)
    (hheeds : ∀ earlier ∈ events, ∀ later ∈ more, Heeds roots earlier later) (place : Location) :
    place ∈ known ∧ Withdrawn roots events tree place ∨
        place ∈ middle ∧ Withdrawn roots more tree place ↔
      place ∈ known ∧ Withdrawn roots (events ++ more) tree place := by
  rw [Withdrawn, Told.append_iff]
  rcases h with ⟨rfl, event, hmem, hkind⟩ | ⟨rfl, -⟩
  · have hstays := not_withdrawn_of_scanned hmem hkind hheeds place
    rw [Withdrawn] at hstays
    simp only [hstays, and_false, or_false]
  · rw [Disk.mem_remaining]
    tauto

-- So are the pages without a layout that has wrapped them.
theorem orphaned_iff (h : Learns roots disk events .source known middle)
    (hheeds : ∀ earlier ∈ events, ∀ later ∈ more, Heeds roots earlier later) :
    Disk.Orphaned roots (Withdrawn roots events .source) known disk place ∨
        Disk.Orphaned roots (Withdrawn roots more .source) middle disk place ↔
      Disk.Orphaned roots (Withdrawn roots (events ++ more) .source) known disk place := by
  have happend (file : Location) : Withdrawn roots (events ++ more) .source file ↔
      Withdrawn roots events .source file ∨ Withdrawn roots more .source file := Told.append_iff
  by_cases hnone : ∀ event, (.source, event) ∉ events
  · have hidle (file : Location) : ¬ Withdrawn roots events .source file := fun ⟨event, hmem, _⟩ =>
      hnone event hmem
    obtain rfl : middle = known := by
      rcases h with ⟨-, event, hmem, -⟩ | ⟨rfl, -⟩
      · exact absurd hmem (hnone event)
      · exact Disk.remaining_of_forall_not fun file _ => hidle file
    simp [Disk.Orphaned, happend, hidle]
  · obtain ⟨event, hmem⟩ := not_forall_not.1 hnone
    have hstays := not_withdrawn_of_scanned hmem (by simp) hheeds
    simp [Disk.Orphaned, happend, hstays]

end Learns

section

variable {known middle : Tree → List Location} {place : Location}

-- What is done for events one after another is what has to be done for all of them.
theorem makes_append_iff (hlearns : ∀ tree, Learns roots disk events tree (known tree) (middle tree))
    (hheeds : ∀ earlier ∈ events, ∀ later ∈ more, Heeds roots earlier later) :
    Makes roots (Withdrawn roots events) (Announced roots events) known disk place ∨
        Makes roots (Withdrawn roots more) (Announced roots more) middle disk place ↔
      Makes roots (Withdrawn roots (events ++ more)) (Announced roots (events ++ more)) known disk
        place := by
  have happend : Announced roots (events ++ more) = fun tree file =>
      Announced roots events tree file ∨ Announced roots more tree file :=
    funext fun _ => funext fun _ => propext Told.append_iff
  rw [Makes, Makes, Makes, ← (hlearns .source).orphaned_iff hheeds, happend, Disk.brought_or,
    or_or_or_comm]

theorem takes_append_iff (hlearns : ∀ tree, Learns roots disk events tree (known tree) (middle tree))
    (hheeds : ∀ earlier ∈ events, ∀ later ∈ more, Heeds roots earlier later) :
    Takes (Withdrawn roots events) known place ∨ Takes (Withdrawn roots more) middle place ↔
      Takes (Withdrawn roots (events ++ more)) known place := by
  have hpages := (hlearns .source).withdrawn_iff hheeds place
  have hassets := (hlearns .static).withdrawn_iff hheeds place
  rw [Takes, Takes, Takes, or_or_or_comm, hassets]
  refine or_congr_left ?_
  simp only [and_right_comm (b := place.isHidden = false), ← or_and_right, hpages]

end

-- A single event tells of the places at and below the one that it is about.
theorem Told.singleton_iff {wanted : Change → Prop} {entry : Tree × Event} {place file : Location}
    (hnamed : Location.Named (place ++ roots.tree entry.1))
    (hpath : entry.2.path = Location.path (place ++ roots.tree entry.1)) :
    Told roots wanted [entry] tree file ↔ tree = entry.1 ∧ wanted entry.2.kind ∧ within place file := by
  rw [Told.cons_iff, Told.nil_iff, or_false, Event.covers_iff hnamed hpath]

theorem Told.source_iff {wanted : Change → Prop} {kind : Change} {place file : Location}
    (hnamed : Location.Named (place ++ roots.source)) :
    Told roots wanted [(.source, ⟨kind, Location.path (place ++ roots.source)⟩)] tree file ↔
      tree = .source ∧ wanted kind ∧ within place file :=
  singleton_iff hnamed rfl

theorem Told.static_iff {wanted : Change → Prop} {kind : Change} {place file : Location}
    (hnamed : Location.Named (place ++ roots.assets)) :
    Told roots wanted [(.static, ⟨kind, Location.path (place ++ roots.assets)⟩)] tree file ↔
      tree = .static ∧ wanted kind ∧ within place file :=
  singleton_iff hnamed rfl

-- Watchers to which events are yet to be handed. A page that is still there, and that an asset is
-- taken for whose removal is among the events, is among those that have come.
structure Attends (roots : Roots) (disk : Disk) (known : Tree → List Location)
    (events : List (Tree × Event)) (progress : Progress) : Prop where
  agree : Agree roots disk progress.disk
  tidy : progress.disk.Tidy roots.out
  places : ∀ tree, SourceTree.Places (known tree)
  named : ∀ entry ∈ events, ∃ place, Location.Named (place ++ roots.tree entry.1) ∧
    entry.2.path = Location.path (place ++ roots.tree entry.1)
  there : ∀ entry ∈ events, entry.2.kind ≠ .unlink →
    ∃ place, Announces roots progress.disk entry place
  heeds : events.Pairwise (Heeds roots)
  again : ∀ page, disk.Public roots page → page ∈ known .static →
    Withdrawn roots events .static page → Announced roots events .source page

-- What comes of one event.
structure Answers (roots : Roots) (disk : Disk) (known middle : Tree → List Location)
    (first : Tree × Event) (rebuilds : List Rebuild) (progress next : Progress) : Prop where
  dispatch : ∀ rest, dispatch (SourceWatcher.knowing roots (known .source))
      (StaticWatcher.knowing roots (known .static)) progress (first :: rest) =
    dispatch (SourceWatcher.knowing roots (middle .source))
      (StaticWatcher.knowing roots (middle .static)) next rest
  builds : ∀ rest, dispatchBuilds (SourceWatcher.knowing roots (known .source))
      (StaticWatcher.knowing roots (known .static)) progress (first :: rest) =
    rebuilds ++ dispatchBuilds (SourceWatcher.knowing roots (middle .source))
      (StaticWatcher.knowing roots (middle .static)) next rest
  learns : ∀ tree, Learns roots disk [first] tree (known tree) (middle tree)
  works : (∀ rebuild ∈ rebuilds, rebuild.outcome.isFailed = false) →
    Works roots (Makes roots (Withdrawn roots [first]) (Announced roots [first]) known disk)
      (Takes (Withdrawn roots [first]) known) progress.disk next.disk

section

variable {known : Tree → List Location} {event : Event}

-- The source watcher answers.
theorem exists_answers_source {files : List Location} {rebuilds : List Rebuild}
    (hhandle : Watcher.handle (SourceWatcher.knowing roots (known .source)) event progress =
      ⟨.knowing roots files, next, .ok rebuilds⟩)
    (hlearns : Learns roots disk [(.source, event)] .source (known .source) files)
    (hworks : (∀ rebuild ∈ rebuilds, rebuild.outcome.isFailed = false) →
      Works roots (Makes roots (Withdrawn roots [(.source, event)])
        (Announced roots [(.source, event)]) known disk) (Takes (Withdrawn roots [(.source, event)]) known)
          progress.disk next.disk) :
    ∃ middle rebuilds next, Answers roots disk known middle (.source, event) rebuilds progress next := by
  refine ⟨Function.update known .source files, rebuilds, next,
    fun rest => (dispatch_source _ rest hhandle).1, fun rest => (dispatch_source _ rest hhandle).2,
    fun tree => ?_, hworks⟩
  cases tree with
  | source => exact hlearns
  | static => exact .idle (by simp) _

theorem exists_answers_static {places : List Location} {rebuilds : List Rebuild}
    (hhandle : Watcher.handle (StaticWatcher.knowing roots (known .static)) event progress =
      ⟨.knowing roots places, next, .ok rebuilds⟩)
    (hlearns : Learns roots disk [(.static, event)] .static (known .static) places)
    (hworks : (∀ rebuild ∈ rebuilds, rebuild.outcome.isFailed = false) →
      Works roots (Makes roots (Withdrawn roots [(.static, event)])
        (Announced roots [(.static, event)]) known disk) (Takes (Withdrawn roots [(.static, event)]) known)
          progress.disk next.disk) :
    ∃ middle rebuilds next, Answers roots disk known middle (.static, event) rebuilds progress next := by
  refine ⟨Function.update known .static places, rebuilds, next,
    fun rest => (dispatch_static _ rest hhandle).1, fun rest => (dispatch_static _ rest hhandle).2,
    fun tree => ?_, hworks⟩
  cases tree with
  | source => exact .idle (by simp) _
  | static => exact hlearns

end

namespace Attends

variable {known middle : Tree → List Location} {place : Location} {path : Path} {kind : Change}
  {rebuilds : List Rebuild}

-- A path of the source tree is gone.
theorem answers_source_unlink (h : Attends roots disk known
      ((.source, ⟨.unlink, Location.path (place ++ roots.source)⟩) :: rest) progress)
    (hdistinct : disk.Distinct roots) (hnamed : Location.Named (place ++ roots.source)) :
    ∃ middle rebuilds next, Answers roots disk known middle
      (.source, ⟨.unlink, Location.path (place ++ roots.source)⟩) rebuilds progress next := by
  obtain ⟨files, rebuilds, next, hhandle, hfiles, hworks⟩ := @SourceWatcher.handle_unlink roots
    progress (known .source) place (h.places .source) h.tidy (h.agree.distinct hdistinct) hnamed
  refine exists_answers_source hhandle ?_ fun hok =>
    (hworks hok).congr (fun page => ?_) fun page => ?_
  · rcases hfiles with rfl | ⟨rfl, hstays⟩
    · exact .inl ⟨h.agree.pagesBelow_eq.symm, _, List.mem_singleton_self _, by simp⟩
    · refine .inr ⟨(Disk.remaining_of_forall_not fun file hmem => ?_).symm, fun file _ => ?_⟩
      · simpa [Withdrawn, Told.source_iff hnamed] using hstays file hmem
      · simp [Announced, Told.source_iff hnamed]
  · simp [Makes, Disk.Orphaned, Disk.Brought, Disk.Renewed, Withdrawn, Announced, Told.source_iff hnamed,
      h.agree.public_iff]
  · simp [Takes, Withdrawn, Told.source_iff hnamed]

-- Something has come into the source tree.
theorem answers_source_come (h : Attends roots disk known
      ((.source, ⟨kind, Location.path (place ++ roots.source)⟩) :: rest) progress)
    (hdistinct : disk.Distinct roots)
    (hname : ∀ page ∈ disk.pagesBelow roots.source, page.headD "" ≠ ".html")
    (hthere : Announces roots progress.disk
      (.source, ⟨kind, Location.path (place ++ roots.source)⟩) place) :
    ∃ middle rebuilds next, Answers roots disk known middle
      (.source, ⟨kind, Location.path (place ++ roots.source)⟩) rebuilds progress next := by
  have hkind : kind ≠ .unlink := hthere.kind
  have hnamed : Location.Named (place ++ roots.source) := hthere.named
  obtain ⟨files, rebuilds, next, hhandle, hfiles, hworks⟩ := @SourceWatcher.handle_come roots
    progress (known .source) place (h.agree.distinct hdistinct) kind hkind hthere.followable
    hthere.there hthere.proper (h.agree.pagesBelow_eq ▸ hname)
  rw [← h.agree.pagesBelow_eq] at hfiles
  refine exists_answers_source hhandle ?_ fun hok =>
    (hworks hok).congr (fun page => ?_) fun page => ?_
  · rcases hfiles with rfl | ⟨rfl, hnot⟩
    · exact .inl ⟨rfl, _, List.mem_singleton_self _, by simp⟩
    · refine .inr ⟨(Disk.remaining_of_forall_not fun file _ => ?_).symm, fun file hmem => ?_⟩
      · simp [Withdrawn, Told.source_iff hnamed, hkind]
      · simpa [Announced, Told.source_iff hnamed, hkind] using hnot file hmem
  · rw [← h.agree.renewed_iff]
    simp [Makes, Disk.Orphaned, Disk.Brought, Disk.Renewed, Withdrawn, Announced,
      Told.source_iff hnamed, hkind]
  · simp [Takes, Withdrawn, Told.source_iff hnamed, hkind]

-- A path of the static tree is gone.
theorem answers_static_unlink (h : Attends roots disk known
      ((.static, ⟨.unlink, Location.path (place ++ roots.assets)⟩) :: rest) progress)
    (hnamed : Location.Named (place ++ roots.assets)) :
    ∃ middle rebuilds next, Answers roots disk known middle
      (.static, ⟨.unlink, Location.path (place ++ roots.assets)⟩) rebuilds progress next := by
  obtain ⟨rebuilds, next, hhandle, hworks⟩ := @StaticWatcher.handle_unlink roots progress
    (known .static) place (h.places .static).1 (fun file hmem =>
      ⟨((h.places .static).2 file hmem).1, ((h.places .static).2 file hmem).2.append
        roots.assets_keeps.2.1⟩) h.tidy hnamed
  refine exists_answers_static hhandle (.inr ⟨?_, fun file _ => ?_⟩) fun _ =>
    hworks.congr (fun page => ?_) fun page => ?_
  · rw [← Disk.remaining_eq_filter]
    congr 1
    funext file
    simp [Withdrawn, Told.static_iff hnamed]
  · simp [Announced, Told.static_iff hnamed]
  · simp [Makes, Disk.Orphaned, Disk.Brought, Disk.Renewed, Withdrawn, Announced, Told.static_iff hnamed]
  · simp [Takes, Withdrawn, Told.static_iff hnamed]

-- Something has come into the static tree.
theorem answers_static_come (h : Attends roots disk known
      ((.static, ⟨kind, Location.path (place ++ roots.assets)⟩) :: rest) progress)
    (hdistinct : disk.Distinct roots) (hthere : Announces roots progress.disk
      (.static, ⟨kind, Location.path (place ++ roots.assets)⟩) place) :
    ∃ middle rebuilds next, Answers roots disk known middle
      (.static, ⟨kind, Location.path (place ++ roots.assets)⟩) rebuilds progress next := by
  have hkind : kind ≠ .unlink := hthere.kind
  have hnamed : Location.Named (place ++ roots.assets) := hthere.named
  obtain ⟨rebuilds, next, hhandle, hworks⟩ := @StaticWatcher.handle_come roots progress
    (known .static) place (h.agree.distinct hdistinct) kind hkind hthere.followable hthere.there
    hthere.proper
  rw [← h.agree.listed_eq] at hhandle hworks
  refine exists_answers_static hhandle (.inl ⟨rfl, _, List.mem_singleton_self _, fun _ => hkind⟩)
    fun hok => (hworks hok).congr (fun file => ?_) fun file => ?_
  · simp [Makes, Disk.Orphaned, Disk.Brought, Disk.Renewed, Withdrawn, Announced,
      Told.static_iff hnamed, hkind]
  · simp [Takes, Withdrawn, Told.static_iff hnamed, hkind]

-- Every event is answered.
theorem exists_answers (h : Attends roots disk known (first :: rest) progress)
    (hdistinct : disk.Distinct roots)
    (hname : ∀ page ∈ disk.pagesBelow roots.source, page.headD "" ≠ ".html") :
    ∃ middle rebuilds next, Answers roots disk known middle first rebuilds progress next := by
  obtain ⟨tree, kind, path⟩ := first
  by_cases hkind : kind = .unlink
  · obtain ⟨place, hnamed, hpath⟩ : ∃ place : Location, Location.Named (place ++ roots.tree tree) ∧
        path = Location.path (place ++ roots.tree tree) := h.named _ List.mem_cons_self
    subst hkind hpath
    cases tree with
    | source => exact h.answers_source_unlink hdistinct hnamed
    | static => exact h.answers_static_unlink hnamed
  · obtain ⟨place, hthere⟩ := h.there _ List.mem_cons_self hkind
    have hpath : path = Location.path (place ++ roots.tree tree) := hthere.path
    subst hpath
    cases tree with
    | source => exact h.answers_source_come hdistinct hname hthere
    | static => exact h.answers_static_come hdistinct hthere

-- The other events are yet to be handed.
theorem of_answers (h : Attends roots disk known (first :: rest) progress)
    (hdistinct : disk.Distinct roots)
    (hanswers : Answers roots disk known middle first rebuilds progress next)
    (hok : ∀ rebuild ∈ rebuilds, rebuild.outcome.isFailed = false) :
    Attends roots disk middle rest next := by
  have hworks := hanswers.works hok
  obtain ⟨hfirst, hrest⟩ := List.pairwise_cons.1 h.heeds
  refine ⟨h.agree.trans hworks.agree, hworks.tidy h.tidy,
    fun tree => (hanswers.learns tree).places (h.places tree),
    fun entry hmem => h.named entry (List.mem_cons_of_mem _ hmem),
    fun entry hmem hkind => (h.there entry (List.mem_cons_of_mem _ hmem) hkind).imp fun _ hplace =>
      hplace.retained (hworks.retains entry.1), hrest, fun page hpublic hmem hgone => ?_⟩
  have hknown : page ∈ known .static :=
    ((hanswers.learns .static).mem_or_mem hmem).resolve_left (hdistinct page hpublic.1)
  have hcome := h.again page hpublic hknown (Told.cons_iff.2 (.inr hgone))
  -- It does not come with the first event: the removal of the asset would take its output away.
  refine (Told.cons_iff.1 hcome).resolve_left ?_
  rintro ⟨htree, hkind, hcovers⟩
  obtain ⟨later, hlater, hunlink, hcovers'⟩ := hgone
  exact (hfirst _ hlater).other hunlink hkind (by simp [← htree]) page hcovers hcovers'

-- What is built for the first event and gone after the others, they have built again.
theorem makes_of_takes (h : Attends roots disk known (first :: rest) progress)
    (hrest : Attends roots disk middle rest next)
    (hmakes : Makes roots (Withdrawn roots [first]) (Announced roots [first]) known disk place)
    (htakes : Takes (Withdrawn roots rest) middle place) :
    Makes roots (Withdrawn roots rest) (Announced roots rest) middle disk place := by
  obtain ⟨hfirst, -⟩ := List.pairwise_cons.1 h.heeds
  have hpage (hpublic : disk.Public roots place) (hsource : .source = first.1) :
      Makes roots (Withdrawn roots rest) (Announced roots rest) middle disk place := by
    rcases htakes with ⟨-, later, hlater, hunlink, -⟩ | ⟨hmem, hgone⟩
    · have hstatic := ((hfirst _ hlater).same hunlink hsource.symm).1
      cases hstatic
    · exact .inr (.inl ⟨hpublic, .inl (hrest.again place hpublic hmem hgone)⟩)
  have hsource {wanted : Change → Prop} {tree : Tree} {file : Location}
      (htold : Told roots wanted [first] tree file) : tree = first.1 := by
    obtain ⟨event, hmem, -⟩ := htold
    rw [← List.mem_singleton.1 hmem]
  rcases hmakes with ⟨hpublic, -, file, -, hgone, -⟩ | ⟨hpublic, hcome | ⟨file, -, hcome, -⟩⟩ |
    ⟨-, hcome⟩
  · exact hpage hpublic (hsource hgone)
  · exact hpage hpublic (hsource hcome)
  · exact hpage hpublic (hsource hcome)
  · -- A copy of an asset that has come stays.
    exfalso
    have hstatic := hsource hcome
    obtain ⟨-, hkind, hcovers⟩ := (Told.cons_iff.1 hcome).resolve_right Told.nil_iff.1
    rcases htakes with ⟨-, later, hlater, hunlink, hcovers'⟩ | ⟨-, later, hlater, hunlink, -⟩
    · exact (hfirst _ hlater).other hunlink hkind (by simp [← hstatic]) place hcovers hcovers'
    · exact hkind ((hfirst _ hlater).same hunlink hstatic.symm).2

-- A run of events.
theorem exists_dispatch (h : Attends roots disk known events progress)
    (hdistinct : disk.Distinct roots)
    (hname : ∀ page ∈ disk.pagesBelow roots.source, page.headD "" ≠ ".html")
    (hclean : ∀ rebuild ∈ dispatchBuilds (SourceWatcher.knowing roots (known .source))
      (StaticWatcher.knowing roots (known .static)) progress events,
        rebuild.outcome.isFailed = false) :
    ∃ (after : Tree → List Location) (next : Progress), dispatch (SourceWatcher.knowing roots (known .source))
        (StaticWatcher.knowing roots (known .static)) progress events =
          ⟨.knowing roots (after .source), .knowing roots (after .static), next, .ok ()⟩ ∧
      (∀ tree, Learns roots disk events tree (known tree) (after tree)) ∧
      Works roots (Makes roots (Withdrawn roots events) (Announced roots events) known disk)
        (Takes (Withdrawn roots events) known) progress.disk next.disk := by
  induction events generalizing known progress with
  | nil =>
      refine ⟨known, progress, rfl, fun tree => .idle (by simp) _,
        (Works.refl roots progress.disk).congr (fun place => ?_) fun place => ?_⟩
      · simp [Makes, Disk.Orphaned, Disk.Brought, Disk.Renewed, Withdrawn, Announced, Told.nil_iff]
      · simp [Takes, Withdrawn, Told.nil_iff]
  | cons first rest ih =>
      obtain ⟨middle, rebuilds, next, hanswers⟩ := h.exists_answers hdistinct hname
      rw [hanswers.builds] at hclean
      have hok : ∀ rebuild ∈ rebuilds, rebuild.outcome.isFailed = false :=
        fun rebuild hmem => hclean rebuild (List.mem_append_left _ hmem)
      have hrest := h.of_answers hdistinct hanswers hok
      obtain ⟨after, last, hdispatch, hlearns, hworks⟩ := ih hrest
        fun rebuild hmem => hclean rebuild (List.mem_append_right _ hmem)
      have hheeds : ∀ earlier ∈ [first], ∀ later ∈ rest, Heeds roots earlier later := by
        simpa using (List.pairwise_cons.1 h.heeds).1
      refine ⟨after, last, (hanswers.dispatch rest).trans hdispatch,
        fun tree => (hanswers.learns tree).append (hlearns tree) hheeds, ?_⟩
      refine ((hanswers.works hok).trans_of_again hworks fun place =>
        h.makes_of_takes hrest).congr (fun place => ?_) fun place => ?_
      · exact makes_append_iff hanswers.learns hheeds
      · exact takes_append_iff hanswers.learns hheeds

end Attends

-- After the events of a batch the watchers know what is there, and the output is settled.
structure Caught (roots : Roots) (disk : Disk) (dispatched : Dispatch SourceWatcher StaticWatcher) :
    Prop where
  source : dispatched.source = .knowing roots (disk.pagesBelow roots.source)
  assets : dispatched.assets = .knowing roots (disk.listed roots.assets)
  agree : Agree roots disk dispatched.progress.disk
  settled : Settled roots (fun _ => False) dispatched.progress.disk

-- What waits in the queue are the events of the batch: one that is dropped has been there before.
theorem mem_pending_iff {edits : List (Tree × Edit)} {timed : List (Nat × Tree × Event)}
    (h : Disk.Edits roots.config before edits (timed.map (·.2)) disk) (entry : Tree × Event) :
    entry ∈ (EventQueue.empty.pushEach timed).pending ↔ entry ∈ timed.map (·.2) := by
  have hsubset := (EventQueue.pending_sublist timed).subset
  refine ⟨fun hmem => hsubset hmem, fun hmem => ?_⟩
  obtain ⟨-, -, -, hholds⟩ := EventQueue.empty.pending_pushEach timed
  obtain ⟨earlier, hearlier, hkind, hplace⟩ := hholds entry hmem
  obtain ⟨place, hnamed, hpath⟩ := h.exists_place entry hmem
  obtain ⟨place', hnamed', hpath'⟩ := h.exists_place _ (hsubset hearlier)
  rw [Event.samePlace, hpath, hpath', Location.same_path_iff hnamed' hnamed] at hplace
  have heq : earlier = entry.2 := by
    cases hentry : entry.2
    cases earlier
    simp_all
  rwa [heq] at hearlier

-- Before a batch whose edits heed each other the watchers know enough for its events.
theorem attends_batch {edits : List (Tree × Edit)} {timed : List (Nat × Tree × Event)}
    (hedits : Disk.Edits roots.config before edits (timed.map (·.2)) progress.disk)
    (hheeded : edits.Pairwise Edit.Heeded)
    (hchanged : Changed roots (Withdrawn roots (EventQueue.empty.pushEach timed).pending)
      (Announced roots (EventQueue.empty.pushEach timed).pending) before progress.disk)
    (htidy : before.Tidy roots.out) (hdistinct : before.Distinct roots) :
    Attends roots progress.disk (before.present roots) (EventQueue.empty.pushEach timed).pending
      progress := by
  have hmem := mem_pending_iff hedits
  refine ⟨.refl progress.disk, hchanged.tidy htidy, before.places_present roots,
    fun entry hentry => hedits.exists_place entry ((hmem entry).1 hentry),
    fun entry hentry => hedits.announces hheeded entry ((hmem entry).1 hentry),
    (hedits.heeds hheeded).sublist (EventQueue.pending_sublist timed),
    fun page hpublic hasset _ => ?_⟩
  -- The page has not been there before, since an asset was.
  by_contra hcome
  exact hdistinct page ((hchanged.shifts .source).pagesBelow_before hpublic.1 hcome) hasset

-- A batch of edits that heed each other.
theorem caught_batch {edits : List (Tree × Edit)} {timed : List (Nat × Tree × Event)}
    (hedits : Disk.Edits roots.config before edits (timed.map (·.2)) progress.disk)
    (hheeded : edits.Pairwise Edit.Heeded)
    (hsettled : Settled roots (fun _ => False) before) (hdistinct : before.Distinct roots)
    (hdisk : progress.disk.Unambiguous roots.config)
    (hclean : ∀ rebuild ∈ dispatchBuilds (SourceWatcher.knowing roots (before.present roots .source))
      (StaticWatcher.knowing roots (before.present roots .static)) progress
        (EventQueue.empty.pushEach timed).pending, rebuild.outcome.isFailed = false) :
    Caught roots progress.disk
      (dispatch (SourceWatcher.knowing roots (before.present roots .source))
        (StaticWatcher.knowing roots (before.present roots .static)) progress
          (EventQueue.empty.pushEach timed).pending) := by
  obtain ⟨hdistinct', hname⟩ := hdisk.distinct
  have hmem := mem_pending_iff hedits
  have hchanged : Changed roots (Withdrawn roots (EventQueue.empty.pushEach timed).pending)
      (Announced roots (EventQueue.empty.pushEach timed).pending) before progress.disk :=
    hedits.changed.congr (fun _ _ => (Told.congr hmem).symm) fun _ _ => (Told.congr hmem).symm
  have hattends := attends_batch hedits hheeded hchanged hsettled.tidy hdistinct
  obtain ⟨after, next, hdispatch, hlearns, hworks⟩ :=
    hattends.exists_dispatch hdistinct' hname hclean
  rw [hdispatch]
  exact ⟨congrArg (SourceWatcher.knowing roots) ((hlearns .source).eq_present hchanged),
    congrArg (StaticWatcher.knowing roots) ((hlearns .static).eq_present hchanged), hworks.agree,
    hchanged.settled hsettled hdistinct hworks⟩

namespace Session

-- The session after what has waited in a queue.
def flush (session : Session) (progress : Progress) (timed : List (Nat × Tree × Event)) :
    Dispatch SourceWatcher StaticWatcher :=
  dispatch session.source session.assets progress (EventQueue.empty.pushEach timed).take.1

-- What is built for it.
def flushBuilds (session : Session) (progress : Progress) (timed : List (Nat × Tree × Event)) :
    List Rebuild :=
  dispatchBuilds session.source session.assets progress (EventQueue.empty.pushEach timed).take.1

-- What sessions come to whose edits are handled in batches. The edits of a batch heed what later
-- ones take away, and nothing that is built fails.
inductive Batches (config : Config) : Session → Progress → Prop
  | start {session : Session} {progress : Progress}
      (hsession : (Session.start progress config).1 = .ok session)
      (hclean : ∀ rebuild ∈ startBuilds progress config, rebuild.outcome.isFailed = false)
      (hdisk : progress.disk.Unambiguous config) :
      Batches config session (Session.start progress config).2
  | batch {session : Session} {progress : Progress} {edits : List (Tree × Edit)} {disk : Disk}
      {timed : List (Nat × Tree × Event)} (h : Batches config session progress)
      (hedits : Disk.Edits config progress.disk edits (timed.map (·.2)) disk)
      (hheeded : edits.Pairwise Edit.Heeded) (hdisk : disk.Unambiguous config)
      (hclean : ∀ rebuild ∈ session.flushBuilds (progress.onDisk disk) timed,
        rebuild.outcome.isFailed = false) :
      Batches config
        ⟨(session.flush (progress.onDisk disk) timed).source,
          (session.flush (progress.onDisk disk) timed).assets⟩
        (session.flush (progress.onDisk disk) timed).progress

variable {config : Config} {session : Session}

-- After every batch the watchers know what is in the trees, and the output is settled.
theorem Batches.settled (h : Batches roots.config session progress) :
    session = knowing roots progress.disk ∧ Settled roots (fun _ => False) progress.disk ∧
      progress.disk.Distinct roots := by
  induction h with
  | start hsession hclean hdisk =>
      obtain ⟨hover, hsettled, hagree⟩ := start_settled hsession hclean hdisk.distinct.1
      exact ⟨hover, hsettled, hagree.distinct hdisk.distinct.1⟩
  | @batch _ progress _ disk timed _ hedits hheeded hdisk hclean ih =>
      obtain ⟨rfl, hsettled, hdistinct⟩ := ih
      obtain ⟨hsource, hassets, hagree, hlast⟩ := @caught_batch roots progress.disk
        (progress.onDisk disk) _ timed hedits hheeded hsettled hdistinct hdisk hclean
      refine ⟨?_, hlast, hagree.distinct hdisk.distinct.1⟩
      rw [hagree.pagesBelow_eq] at hsource
      rw [hagree.listed_eq] at hassets
      exact congrArg₂ Session.mk hsource hassets

-- After every batch the watchers know what a scan finds, and the output holds the files that a
-- build from scratch leaves there, with the same content.
theorem Batches.output_eq (hclear : config.clear = true) (hnormal : config.Normal)
    (hapart : config.Apart []) (h : Batches config session progress) :
    progress.disk.scanSource config.source = .ok session.source.files ∧
      progress.disk.scanAssets config.assets = .ok session.assets.files ∧
      ∀ location, within (Location.walk [] config.out) location →
        progress.disk.file? location =
          ((Progress.start progress.disk).buildAll config).2.disk.file? location := by
  obtain ⟨roots, hroots, hout⟩ := hapart.exists_roots (fun path _ => Path.named_walk_root path) hclear
  rw [hnormal.located] at hroots
  subst hroots
  obtain ⟨rfl, hsettled, -⟩ := h.settled
  refine ⟨Disk.scanSource_path roots.source_keeps, Disk.scanAssets_path roots.assets_keeps,
    fun location hwithin => ?_⟩
  rw [← hout] at hwithin
  exact (@Progress.buildAll_of_settled (Progress.start progress.disk) roots hsettled location
    hwithin).symm

-- In one batch the page gets another name, one stylesheet makes room for another, and the page is
-- written again.
def bared : Disk :=
  ((Edit.removeFile ["s.css"]).apply ["static"] renamed).toOption.getD .blank

def styled : Disk :=
  ((Edit.write ["t.css"] "z".toUTF8).apply ["static"] bared).toOption.getD .blank

def rewritten : Disk :=
  ((Edit.write ["b.html"] "w".toUTF8).apply ["src"] styled).toOption.getD .blank

def changes : List (Tree × Edit) :=
  [(.source, .rename ["a.html"] ["b.html"]), (.static, .removeFile ["s.css"]),
    (.static, .write ["t.css"] "z".toUTF8), (.source, .write ["b.html"] "w".toUTF8)]

def moments : List (Nat × Tree × Event) :=
  [(0, .source, ⟨.unlink, ⟨"/src/a.html"⟩⟩), (0, .source, ⟨.add, ⟨"/src/b.html"⟩⟩),
    (1, .static, ⟨.unlink, ⟨"/static/s.css"⟩⟩), (1, .static, ⟨.add, ⟨"/static/t.css"⟩⟩),
    (2, .source, ⟨.add, ⟨"/src/b.html"⟩⟩)]

def flushed : Dispatch SourceWatcher StaticWatcher :=
  opened.flush (started.2.onDisk rewritten) moments

theorem output_eq_of_batch : Batches site ⟨flushed.source, flushed.assets⟩ flushed.progress ∧
    flushed.progress.disk.file? ["b.html", "dist"] = some "w".toUTF8 ∧
    flushed.progress.disk.file? ["a.html", "dist"] = none ∧
    flushed.progress.disk.file? ["s.css", "dist"] = none ∧
    ((Progress.start flushed.progress.disk).buildAll site).2.disk.file? ["b.html", "dist"] =
      some "w".toUTF8 := by
  obtain ⟨hsession, hbuilds, hdisk, hrenamed, hbared, hstyled, hrewritten, hdisk', hclean, hmade,
      hgone, hbare⟩ :
      started.1 = .ok opened ∧
        (∀ rebuild ∈ startBuilds (.start (Progress.project [])) site,
          rebuild.outcome.isFailed = false) ∧ (Progress.project []).Unambiguous site ∧
        ((Edit.rename ["a.html"] ["b.html"]).apply ["src"] started.2.disk).toOption.isSome ∧
        ((Edit.removeFile ["s.css"]).apply ["static"] renamed).toOption.isSome ∧
        ((Edit.write ["t.css"] "z".toUTF8).apply ["static"] bared).toOption.isSome ∧
        ((Edit.write ["b.html"] "w".toUTF8).apply ["src"] styled).toOption.isSome ∧
        rewritten.Unambiguous site ∧
        (∀ rebuild ∈ opened.flushBuilds (started.2.onDisk rewritten) moments,
          rebuild.outcome.isFailed = false) ∧
        flushed.progress.disk.file? ["b.html", "dist"] = some "w".toUTF8 ∧
        flushed.progress.disk.file? ["a.html", "dist"] = none ∧
        flushed.progress.disk.file? ["s.css", "dist"] = none := by
    decide +kernel
  have hsource : site.rootOf .source = ["src"] := by decide +kernel
  have hstatic : site.rootOf .static = ["static"] := by decide +kernel
  obtain ⟨hrename, hremove, hadd, hwrite⟩ :
      [⟨.unlink, ⟨"/src/a.html"⟩⟩, ⟨.add, ⟨"/src/b.html"⟩⟩] ∈
          (Edit.rename ["a.html"] ["b.html"]).reports (site.rootOf .source) ∧
        [⟨.unlink, ⟨"/static/s.css"⟩⟩] ∈
          (Edit.removeFile ["s.css"]).reports (site.rootOf .static) ∧
        [⟨.add, ⟨"/static/t.css"⟩⟩] ∈
          (Edit.write ["t.css"] "z".toUTF8).reports (site.rootOf .static) ∧
        [⟨.add, ⟨"/src/b.html"⟩⟩] ∈
          (Edit.write ["b.html"] "w".toUTF8).reports (site.rootOf .source) := by
    rw [hsource, hstatic]
    decide +kernel
  have hedits : Disk.Edits site started.2.disk changes (moments.map (·.2)) rewritten :=
    .cons (by decide) (hsource ▸ eq_ok_getD hrenamed) hrename
      (.cons (by decide) (hstatic ▸ eq_ok_getD hbared) hremove
        (.cons (by decide) (hstatic ▸ eq_ok_getD hstyled) hadd
          (.cons (by decide) (hsource ▸ eq_ok_getD hrewritten) hwrite (.nil _))))
  have hbatches : Batches site ⟨flushed.source, flushed.assets⟩ flushed.progress :=
    .batch (.start hsession hbuilds hdisk) hedits (by decide) hdisk' hclean
  obtain ⟨-, -, houtput⟩ := hbatches.output_eq rfl normal_site apart_site
  exact ⟨hbatches, hmade, hgone, hbare, (houtput _ (by decide +kernel)).symm.trans hmade⟩

-- A second removal in a batch comes too late: the tree has been scanned for the first one, and
-- the page is not known any more.
def pair : Disk :=
  (Progress.project []).putFile "b.html" ["src"] "y".toUTF8

def startedPair : Except WatchError Session × Progress :=
  start (.start pair) site

def openedPair : Session :=
  startedPair.1.toOption.getD opened

def halved : Disk :=
  ((Edit.removeFile ["a.html"]).apply ["src"] startedPair.2.disk).toOption.getD .blank

def emptied : Disk :=
  ((Edit.removeFile ["b.html"]).apply ["src"] halved).toOption.getD .blank

def removals : List (Nat × Tree × Event) :=
  [(0, .source, ⟨.unlink, ⟨"/src/a.html"⟩⟩), (1, .source, ⟨.unlink, ⟨"/src/b.html"⟩⟩)]

theorem batch_keeps_removed_page : Batches site openedPair startedPair.2 ∧
    Disk.Edits site startedPair.2.disk
      [(.source, .removeFile ["a.html"]), (.source, .removeFile ["b.html"])] (removals.map (·.2))
        emptied ∧
    emptied.Unambiguous site ∧
    (∀ rebuild ∈ openedPair.flushBuilds (startedPair.2.onDisk emptied) removals,
      rebuild.outcome.isFailed = false) ∧
    (openedPair.flush (startedPair.2.onDisk emptied) removals).progress.disk.file?
      ["b.html", "dist"] = some "y".toUTF8 ∧
    ((Progress.start (openedPair.flush (startedPair.2.onDisk emptied) removals).progress.disk).buildAll
      site).2.disk.file? ["b.html", "dist"] = none := by
  obtain ⟨hsession, hbuilds, hdisk, hhalved, hemptied, hlast⟩ :
      startedPair.1 = .ok openedPair ∧
        (∀ rebuild ∈ startBuilds (.start pair) site, rebuild.outcome.isFailed = false) ∧
        pair.Unambiguous site ∧
        ((Edit.removeFile ["a.html"]).apply ["src"] startedPair.2.disk).toOption.isSome ∧
        ((Edit.removeFile ["b.html"]).apply ["src"] halved).toOption.isSome ∧
        emptied.Unambiguous site ∧
        (∀ rebuild ∈ openedPair.flushBuilds (startedPair.2.onDisk emptied) removals,
          rebuild.outcome.isFailed = false) ∧
        (openedPair.flush (startedPair.2.onDisk emptied) removals).progress.disk.file?
          ["b.html", "dist"] = some "y".toUTF8 ∧
        ((Progress.start (openedPair.flush (startedPair.2.onDisk emptied)
          removals).progress.disk).buildAll site).2.disk.file? ["b.html", "dist"] = none := by
    decide +kernel
  have hsource : site.rootOf .source = ["src"] := by decide +kernel
  have hevents (name : String) (h : ⟨"/src/" ++ name⟩ = Location.path [name, "src"]) :
      [⟨.unlink, ⟨"/src/" ++ name⟩⟩] ∈ (Edit.removeFile [name]).reports (site.rootOf .source) := by
    rw [hsource, h]
    exact List.mem_singleton_self _
  refine ⟨.start hsession hbuilds hdisk, ?_, hlast⟩
  exact .cons (by decide) (hsource ▸ eq_ok_getD hhalved) (hevents "a.html" (by decide +kernel))
    (.cons (by decide) (hsource ▸ eq_ok_getD hemptied) (hevents "b.html" (by decide +kernel)) (.nil _))

end Session

end StaticSite
