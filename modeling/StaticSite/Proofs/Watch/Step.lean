import StaticSite.Proofs.Watch.Edit
import StaticSite.Proofs.Watch.Handle

-- One edit and the events of it, from a settled output to the next.
namespace StaticSite

open Disk (within Works Settled Agree Edited Renewed Orphaned)

-- Where events have led a watcher, and what came of each.
structure Handled (ω : Type) where
  watcher : ω
  progress : Progress
  results : List (Except WatchError (List Rebuild))

namespace Handled

variable {ω : Type}

-- Nothing that was built has failed.
def Clean (handled : Handled ω) : Prop :=
  ∀ result ∈ handled.results, ∀ rebuild ∈ result.toOption.getD [],
    rebuild.outcome.isFailed = false

instance (handled : Handled ω) : Decidable handled.Clean := by
  unfold Clean; infer_instance

end Handled

-- Events of one tree, handled in order.
def Handler.handleEach {ω : Type} [Handler ω] (watcher : ω) (progress : Progress) :
    List Event → Handled ω
  | [] => ⟨watcher, progress, []⟩
  | event :: rest =>
    let reaction := Handler.handle watcher event progress
    let handled := handleEach reaction.watcher reaction.progress rest
    { handled with results := reaction.result :: handled.results }

theorem Watcher.handleEach_cons {ω : Type} [Watcher ω] {watcher next : ω}
    {progress last : Progress} {event : Event} {rest : List Event}
    {result : Except WatchError (List Rebuild)} {handled : Handled ω}
    (hfirst : Watcher.handle watcher event progress = ⟨next, last, result⟩)
    (hrest : Handler.handleEach next last rest = handled) :
    Handler.handleEach watcher progress (event :: rest) =
      ⟨handled.watcher, handled.progress, result :: handled.results⟩ := by
  have hfirst : Handler.handle watcher event progress = ⟨next, last, result⟩ := hfirst
  rw [Handler.handleEach, hfirst, ← hrest]

-- The watcher knows what a scan finds, and the output is what a build would make of the disk.
structure Handled.Settles {ω : Type} (roots : Roots) (disk : Disk) (watcher : ω)
    (handled : Handled ω) : Prop where
  watcher : handled.watcher = watcher
  results : ∀ result ∈ handled.results, ∃ rebuilds, result = .ok rebuilds
  agree : Agree roots disk handled.progress.disk
  settled : Settled roots (fun _ => False) handled.progress.disk

namespace SourceWatcher

variable {roots : Roots} {progress : Progress} {before : Disk} {place old new : Location}

-- Something is gone, and that is reported.
theorem settles_unlink
    (hedited : Edited roots roots.source (within place ·) (fun _ => False) before progress.disk)
    (hnamed : Location.Named (place ++ roots.source))
    (hsettled : Settled roots (fun _ => False) before) (hdistinct : before.Distinct roots)
    (hdistinct' : progress.disk.Distinct roots)
    (hclean : (Handler.handleEach (knowing roots (before.pagesBelow roots.source)) progress
      [⟨.unlink, Location.path (place ++ roots.source)⟩]).Clean) :
    (Handler.handleEach (knowing roots (before.pagesBelow roots.source)) progress
      [⟨.unlink, Location.path (place ++ roots.source)⟩]).Settles roots progress.disk
        (knowing roots (progress.disk.pagesBelow roots.source)) := by
  obtain ⟨known, rebuilds, next, hhandle, hknown, hworks⟩ := @handle_unlink roots progress
    (before.pagesBelow roots.source) place (before.places_pagesBelow roots.source)
    (hedited.tidy hsettled.tidy) hdistinct' hnamed
  rw [Watcher.handleEach_cons hhandle rfl] at hclean ⊢
  have hworks := hworks (hclean (.ok rebuilds) List.mem_cons_self)
  have hover : known = progress.disk.pagesBelow roots.source := by
    rcases hknown with h | ⟨h, hnot⟩
    · exact h
    · exact h.trans (hedited.shifts.pagesBelow_eq hnot fun _ _ => id)
  refine ⟨by rw [← hover]; rfl, ?_, hworks.agree, ?_⟩
  · intro result hmem
    exact ⟨rebuilds, List.mem_singleton.1 hmem⟩
  · refine hedited.settled_source hsettled hdistinct (hworks.congr (fun page => ?_) fun page => ?_)
    · constructor
      · exact .inl
      · rintro (h | ⟨-, h | ⟨file, -, h, -⟩⟩)
        · exact h
        · exact h.elim
        · exact h.elim
    · exact Iff.rfl

-- A file has been written, and that is reported.
theorem settles_come {kind : Change} (hkind : kind ≠ .unlink)
    (hedited : Edited roots roots.source (fun _ => False) (within place ·) before progress.disk)
    (hne : place ≠ []) (hfollow : Location.Followable (place ++ roots.source))
    (hfile : (progress.disk.file? (place ++ roots.source)).isSome)
    (hname : ∀ page ∈ progress.disk.pagesBelow roots.source, page.headD "" ≠ ".html")
    (hsettled : Settled roots (fun _ => False) before) (hdistinct : before.Distinct roots)
    (hdistinct' : progress.disk.Distinct roots)
    (hclean : (Handler.handleEach (knowing roots (before.pagesBelow roots.source)) progress
      [⟨kind, Location.path (place ++ roots.source)⟩]).Clean) :
    (Handler.handleEach (knowing roots (before.pagesBelow roots.source)) progress
      [⟨kind, Location.path (place ++ roots.source)⟩]).Settles roots progress.disk
        (knowing roots (progress.disk.pagesBelow roots.source)) := by
  obtain ⟨known, rebuilds, next, hhandle, hknown, hworks⟩ := @handle_come roots progress
    (before.pagesBelow roots.source) place hdistinct' kind hkind hfollow (.inl hfile) hne hname
  rw [Watcher.handleEach_cons hhandle rfl] at hclean ⊢
  have hworks := hworks (hclean (.ok rebuilds) List.mem_cons_self)
  have hover : known = progress.disk.pagesBelow roots.source := by
    rcases hknown with h | ⟨h, hnot⟩
    · exact h
    · exact h.trans (hedited.shifts.pagesBelow_eq (fun _ _ => id) hnot)
  refine ⟨by rw [← hover]; rfl, ?_, hworks.agree, ?_⟩
  · intro result hmem
    exact ⟨rebuilds, List.mem_singleton.1 hmem⟩
  · refine hedited.settled_source hsettled hdistinct (hworks.congr (fun page => ?_) fun page => ?_)
    · constructor
      · exact .inr
      · rintro (⟨-, -, file, -, h, -⟩ | h)
        · exact h.elim
        · exact h
    · exact ⟨False.elim, fun h => h.2⟩

-- A file or a directory has been renamed, and that is reported as what is gone and what has come.
theorem settles_rename
    (hedited : Edited roots roots.source (within old ·) (within new ·) before progress.disk)
    (hold : Location.Named (old ++ roots.source)) (hne : new ≠ [])
    (hfollow : Location.Followable (new ++ roots.source))
    (hthere : (progress.disk.file? (new ++ roots.source)).isSome ∨
      progress.disk.kind? (new ++ roots.source) = some .directory)
    (hname : ∀ page ∈ progress.disk.pagesBelow roots.source, page.headD "" ≠ ".html")
    (hsettled : Settled roots (fun _ => False) before) (hdistinct : before.Distinct roots)
    (hdistinct' : progress.disk.Distinct roots)
    (hclean : (Handler.handleEach (knowing roots (before.pagesBelow roots.source)) progress
      [⟨.unlink, Location.path (old ++ roots.source)⟩,
        ⟨.add, Location.path (new ++ roots.source)⟩]).Clean) :
    (Handler.handleEach (knowing roots (before.pagesBelow roots.source)) progress
      [⟨.unlink, Location.path (old ++ roots.source)⟩,
        ⟨.add, Location.path (new ++ roots.source)⟩]).Settles roots progress.disk
          (knowing roots (progress.disk.pagesBelow roots.source)) := by
  obtain ⟨left, removed, middle, hunlink, hleft, hfirst⟩ := @handle_unlink roots progress
    (before.pagesBelow roots.source) old (before.places_pagesBelow roots.source)
    (hedited.tidy hsettled.tidy) hdistinct' hold
  rw [Watcher.handleEach_cons hunlink rfl] at hclean ⊢
  have hfirst := hfirst (hclean (.ok removed) List.mem_cons_self)
  have hsame := hfirst.agree.pagesBelow_eq
  have hthere' : (middle.disk.file? (new ++ roots.source)).isSome ∨ Change.add = .add ∧
      middle.disk.kind? (new ++ roots.source) = some .directory := by
    refine hthere.imp (fun h => ?_) fun h => ⟨rfl, ?_⟩
    · rw [← hfirst.agree.source]
      exact h
    · exact hfirst.directory _ (roots.not_within_out_source new) h
  obtain ⟨known, added, next, hadd, hknown, hsecond⟩ := @handle_come roots middle left new
    (hfirst.agree.distinct hdistinct') .add (by decide) hfollow hthere' hne (hsame ▸ hname)
  rw [Watcher.handleEach_cons hadd rfl] at hclean ⊢
  have hsecond := hsecond (hclean (.ok added) (List.mem_cons_of_mem _ List.mem_cons_self))
  have hworks := hfirst.trans hsecond
  rw [← hsame] at hknown
  have hover : known = progress.disk.pagesBelow roots.source := by
    rcases hknown with h | ⟨rfl, hcome⟩
    · exact h
    · rcases hleft with h | ⟨h, hgone⟩
      · exact h
      · exact h.trans (hedited.shifts.pagesBelow_eq hgone hcome)
  refine ⟨by rw [← hover]; rfl, ?_, hworks.agree, ?_⟩
  · intro result hmem
    rcases List.mem_cons.1 hmem with h | hmem
    · exact ⟨removed, h⟩
    · exact ⟨added, List.mem_singleton.1 hmem⟩
  · refine hedited.settled_source hsettled hdistinct (hworks.congr (fun page => ?_) fun page => ?_)
    · refine or_congr Iff.rfl ?_
      rw [Renewed, Renewed, ← hsame, hfirst.agree.public_iff]
    · exact Iff.rfl

-- The source watcher keeps up with every edit of its tree.
theorem handleEach_settles {edit : Edit} {events : List Event} (hinside : edit.Inside)
    (happly : edit.apply roots.source before = .ok progress.disk)
    (hevents : events ∈ edit.reports roots.source)
    (hname : ∀ page ∈ progress.disk.pagesBelow roots.source, page.headD "" ≠ ".html")
    (hsettled : Settled roots (fun _ => False) before) (hdistinct : before.Distinct roots)
    (hdistinct' : progress.disk.Distinct roots)
    (hclean : (Handler.handleEach (knowing roots (before.pagesBelow roots.source)) progress
      events).Clean) :
    (Handler.handleEach (knowing roots (before.pagesBelow roots.source)) progress events).Settles
      roots progress.disk (knowing roots (progress.disk.pagesBelow roots.source)) := by
  obtain ⟨hroot, hnamed, -⟩ := roots.source_keeps
  have hedited : Edited roots roots.source edit.Gone edit.Come before progress.disk :=
    Edit.edited hroot hnamed roots.not_within_out_source hinside happly
  cases edit with
  | write file content =>
      obtain ⟨hne, hfile⟩ := hinside file List.mem_cons_self
      obtain ⟨hfollow, hsome⟩ := Edit.there_of_write (hfile.append hnamed) happly
      simp only [Edit.reports, List.mem_cons, List.not_mem_nil, or_false] at hevents
      rcases hevents with rfl | rfl
      · exact settles_come (by decide) hedited hne hfollow hsome hname hsettled hdistinct
          hdistinct' hclean
      · exact settles_come (by decide) hedited hne hfollow hsome hname hsettled hdistinct
          hdistinct' hclean
  | removeFile place =>
      obtain ⟨-, hplace⟩ := hinside place List.mem_cons_self
      obtain rfl := List.mem_singleton.1 hevents
      exact settles_unlink hedited (hplace.append hnamed) hsettled hdistinct hdistinct' hclean
  | removeDirectory place =>
      obtain ⟨-, hplace⟩ := hinside place List.mem_cons_self
      obtain rfl := List.mem_singleton.1 hevents
      exact settles_unlink hedited (hplace.append hnamed) hsettled hdistinct hdistinct' hclean
  | rename old new =>
      obtain ⟨-, hold⟩ := hinside old List.mem_cons_self
      obtain ⟨hne, hnew⟩ := hinside new (by simp [Edit.places])
      obtain ⟨hfollow, hthere⟩ :=
        Edit.there_of_rename (hold.append hnamed) (hnew.append hnamed) happly
      obtain rfl := List.mem_singleton.1 hevents
      exact settles_rename hedited (hold.append hnamed) hne hfollow hthere hname hsettled
        hdistinct hdistinct' hclean

end SourceWatcher

namespace StaticWatcher

variable {roots : Roots} {progress : Progress} {before : Disk} {place old new : Location}

theorem settles_unlink
    (hedited : Edited roots roots.assets (within place ·) (fun _ => False) before progress.disk)
    (hnamed : Location.Named (place ++ roots.assets))
    (hsettled : Settled roots (fun _ => False) before) (hdistinct : before.Distinct roots) :
    (Handler.handleEach (knowing roots (before.listed roots.assets)) progress
      [⟨.unlink, Location.path (place ++ roots.assets)⟩]).Settles roots progress.disk
        (knowing roots (progress.disk.listed roots.assets)) := by
  obtain ⟨rebuilds, next, hhandle, hworks⟩ := @handle_unlink roots progress
    (before.listed roots.assets) place (nodup_listed before roots.assets)
    (fun file hmem => ⟨(Disk.mem_listed.1 hmem).1, Disk.named_of_mem_listed hmem⟩)
    (hedited.tidy hsettled.tidy) hnamed
  rw [← Disk.remaining_eq_filter, hedited.shifts.remaining_listed fun _ _ => id] at hhandle
  rw [Watcher.handleEach_cons hhandle rfl]
  refine ⟨rfl, ?_, hworks.agree, ?_⟩
  · intro result hmem
    exact ⟨rebuilds, List.mem_singleton.1 hmem⟩
  · refine hedited.settled_assets hsettled hdistinct (hworks.congr (fun file => ?_) fun _ => Iff.rfl)
    exact ⟨False.elim, fun h => h.2⟩

theorem settles_come {kind : Change} (hkind : kind ≠ .unlink)
    (hedited : Edited roots roots.assets (fun _ => False) (within place ·) before progress.disk)
    (hne : place ≠ []) (hfollow : Location.Followable (place ++ roots.assets))
    (hfile : (progress.disk.file? (place ++ roots.assets)).isSome)
    (hsettled : Settled roots (fun _ => False) before) (hdistinct : before.Distinct roots)
    (hdistinct' : progress.disk.Distinct roots)
    (hclean : (Handler.handleEach (knowing roots (before.listed roots.assets)) progress
      [⟨kind, Location.path (place ++ roots.assets)⟩]).Clean) :
    (Handler.handleEach (knowing roots (before.listed roots.assets)) progress
      [⟨kind, Location.path (place ++ roots.assets)⟩]).Settles roots progress.disk
        (knowing roots (progress.disk.listed roots.assets)) := by
  obtain ⟨rebuilds, next, hhandle, hworks⟩ := @handle_come roots progress
    (before.listed roots.assets) place hdistinct' kind hkind hfollow (.inl hfile) hne
  rw [Watcher.handleEach_cons hhandle rfl] at hclean ⊢
  have hworks := hworks (hclean (.ok rebuilds) List.mem_cons_self)
  refine ⟨rfl, ?_, hworks.agree, ?_⟩
  · intro result hmem
    exact ⟨rebuilds, List.mem_singleton.1 hmem⟩
  · refine hedited.settled_assets hsettled hdistinct (hworks.congr (fun _ => Iff.rfl) fun file => ?_)
    exact ⟨False.elim, fun h => h.2⟩

theorem settles_rename
    (hedited : Edited roots roots.assets (within old ·) (within new ·) before progress.disk)
    (hold : Location.Named (old ++ roots.assets)) (hne : new ≠ [])
    (hfollow : Location.Followable (new ++ roots.assets))
    (hthere : (progress.disk.file? (new ++ roots.assets)).isSome ∨
      progress.disk.kind? (new ++ roots.assets) = some .directory)
    (hsettled : Settled roots (fun _ => False) before) (hdistinct : before.Distinct roots)
    (hdistinct' : progress.disk.Distinct roots)
    (hclean : (Handler.handleEach (knowing roots (before.listed roots.assets)) progress
      [⟨.unlink, Location.path (old ++ roots.assets)⟩,
        ⟨.add, Location.path (new ++ roots.assets)⟩]).Clean) :
    (Handler.handleEach (knowing roots (before.listed roots.assets)) progress
      [⟨.unlink, Location.path (old ++ roots.assets)⟩,
        ⟨.add, Location.path (new ++ roots.assets)⟩]).Settles roots progress.disk
          (knowing roots (progress.disk.listed roots.assets)) := by
  obtain ⟨removed, middle, hunlink, hfirst⟩ := @handle_unlink roots progress
    (before.listed roots.assets) old (nodup_listed before roots.assets)
    (fun file hmem => ⟨(Disk.mem_listed.1 hmem).1, Disk.named_of_mem_listed hmem⟩)
    (hedited.tidy hsettled.tidy) hold
  have hsame := hfirst.agree.listed_eq
  have hthere' : (middle.disk.file? (new ++ roots.assets)).isSome ∨ Change.add = .add ∧
      middle.disk.kind? (new ++ roots.assets) = some .directory := by
    refine hthere.imp (fun h => ?_) fun h => ⟨rfl, ?_⟩
    · rw [← hfirst.agree.assets]
      exact h
    · exact hfirst.directory _ (roots.not_within_out_assets new) h
  obtain ⟨added, next, hadd, hsecond⟩ := @handle_come roots middle
    ((before.listed roots.assets).filter (¬ within old ·)) new
    (hfirst.agree.distinct hdistinct') .add (by decide) hfollow hthere' hne
  rw [← hsame] at hadd hsecond
  rw [Watcher.handleEach_cons hunlink (Watcher.handleEach_cons hadd rfl)] at hclean ⊢
  have hworks := hfirst.trans
    (hsecond (hclean (.ok added) (List.mem_cons_of_mem _ List.mem_cons_self)))
  refine ⟨rfl, ?_, hworks.agree, ?_⟩
  · intro result hmem
    rcases List.mem_cons.1 hmem with h | hmem
    · exact ⟨removed, h⟩
    · exact ⟨added, List.mem_singleton.1 hmem⟩
  · refine hedited.settled_assets hsettled hdistinct (hworks.congr (fun file => ?_) fun _ => Iff.rfl)
    exact or_iff_right id

-- The static watcher keeps up with every edit of its tree.
theorem handleEach_settles {edit : Edit} {events : List Event} (hinside : edit.Inside)
    (happly : edit.apply roots.assets before = .ok progress.disk)
    (hevents : events ∈ edit.reports roots.assets)
    (hsettled : Settled roots (fun _ => False) before) (hdistinct : before.Distinct roots)
    (hdistinct' : progress.disk.Distinct roots)
    (hclean : (Handler.handleEach (knowing roots (before.listed roots.assets)) progress
      events).Clean) :
    (Handler.handleEach (knowing roots (before.listed roots.assets)) progress events).Settles
      roots progress.disk (knowing roots (progress.disk.listed roots.assets)) := by
  obtain ⟨hroot, hnamed, -⟩ := roots.assets_keeps
  have hedited : Edited roots roots.assets edit.Gone edit.Come before progress.disk :=
    Edit.edited hroot hnamed roots.not_within_out_assets hinside happly
  cases edit with
  | write file content =>
      obtain ⟨hne, hfile⟩ := hinside file List.mem_cons_self
      obtain ⟨hfollow, hsome⟩ := Edit.there_of_write (hfile.append hnamed) happly
      simp only [Edit.reports, List.mem_cons, List.not_mem_nil, or_false] at hevents
      rcases hevents with rfl | rfl
      · exact settles_come (by decide) hedited hne hfollow hsome hsettled hdistinct hdistinct' hclean
      · exact settles_come (by decide) hedited hne hfollow hsome hsettled hdistinct hdistinct' hclean
  | removeFile place =>
      obtain ⟨-, hplace⟩ := hinside place List.mem_cons_self
      obtain rfl := List.mem_singleton.1 hevents
      exact settles_unlink hedited (hplace.append hnamed) hsettled hdistinct
  | removeDirectory place =>
      obtain ⟨-, hplace⟩ := hinside place List.mem_cons_self
      obtain rfl := List.mem_singleton.1 hevents
      exact settles_unlink hedited (hplace.append hnamed) hsettled hdistinct
  | rename old new =>
      obtain ⟨-, hold⟩ := hinside old List.mem_cons_self
      obtain ⟨hne, hnew⟩ := hinside new (by simp [Edit.places])
      obtain ⟨hfollow, hthere⟩ :=
        Edit.there_of_rename (hold.append hnamed) (hnew.append hnamed) happly
      obtain rfl := List.mem_singleton.1 hevents
      exact settles_rename hedited (hold.append hnamed) hne hfollow hthere hsettled hdistinct
        hdistinct' hclean

end StaticWatcher

end StaticSite
