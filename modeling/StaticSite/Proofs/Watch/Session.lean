import StaticSite.Proofs.Build.Inputs
import StaticSite.Proofs.Build.Job
import StaticSite.Proofs.Build.Rebuild
import StaticSite.Proofs.Config.Validation
import StaticSite.Proofs.Watch.Step
import StaticSite.Watch.Session

-- Sessions: the output is what a build would make from the start on, whatever is edited.
namespace StaticSite

open Disk (within Works Settled Agree)

-- The directories are given by absolute and normal paths.
def Config.Normal (config : Config) : Prop :=
  ∀ path ∈ [config.source, config.assets, config.out], path.isAbsolute ∧ path.normalize = path

-- None of the directories lies in another, wherever they are when relative paths start from `start`.
-- The own paths of those that are scanned do not end in a backslash, as patterns do without it.
structure Config.Apart (config : Config) (start : Location) : Prop where
  ending : ∀ root ∈ [config.source, config.assets],
    (Location.walk start root).path.text.toList.getLast? ≠ some '\\'
  apart : [config.source, config.assets, config.out].Pairwise fun left right =>
    (Location.walk start left).Apart (Location.walk start right)

theorem Location.path_walk_of_normal {path : Path} (habsolute : path.isAbsolute)
    (hnormal : path.normalize = path) : (Location.walk [] path).path = path := by
  rw [← Path.normalize_of_isAbsolute habsolute, hnormal]

theorem Config.Normal.located {config : Config} (h : config.Normal) (start : Location) :
    config.located start = config := by
  have hpath : ∀ path ∈ [config.source, config.assets, config.out],
      (Location.walk start path).path = path := fun path hmem => by
    rw [Path.walk_of_isAbsolute (h path hmem).1, Location.path_walk_of_normal (h path hmem).1
      (h path hmem).2]
  rw [Config.located, hpath _ (by simp), hpath _ (by simp), hpath _ (by simp)]

-- Such directories are the roots of a project.
theorem Config.Apart.exists_roots {config : Config} {start : Location} (h : config.Apart start)
    (hnamed : ∀ path ∈ [config.source, config.assets, config.out],
      (Location.walk start path).Named) (hclear : config.clear = true) : ∃ roots : Roots,
      roots.config = config.located start ∧ roots.out = Location.walk start config.out := by
  have hne : ∀ left right : Path, (Location.walk start left).Apart (Location.walk start right) →
      Location.walk start left ≠ [] := fun left right hnot heq =>
    hnot.1 (Disk.within_iff.2 ⟨Location.walk start right, by rw [heq, List.append_nil]⟩)
  obtain ⟨hfirst, hsecond, -⟩ := List.pairwise_cons.1 h.apart |>.imp_right List.pairwise_cons.1
  have hinputs := hfirst config.assets (by simp)
  have hsource := hfirst config.out (by simp)
  have hassets := hsecond config.out (by simp)
  refine ⟨⟨Location.walk start config.source, Location.walk start config.assets,
    Location.walk start config.out, ⟨hne _ _ hinputs, hnamed _ (by simp), h.ending _ (by simp)⟩,
    ⟨hne _ _ hassets, hnamed _ (by simp), h.ending _ (by simp)⟩, hnamed _ (by simp), hinputs, ?_⟩,
    ?_, rfl⟩
  · rw [List.forall_mem_cons, List.forall_mem_singleton]
    exact ⟨hsource, hassets⟩
  · rw [Roots.config, Config.located, hclear]

-- No page has the relative path of an asset, and none is named by its extension alone.
def Disk.Unambiguous (disk : Disk) (config : Config) : Prop :=
  match disk.scanSource config.source, disk.scanAssets config.assets with
  | .ok tree, .ok files => ∀ page ∈ tree.files, page.absolute.fileName? ≠ some ".html" ∧
      ∀ file ∈ files, page.relative ≠ file.relative
  | _, _ => True

instance (disk : Disk) (config : Config) : Decidable (disk.Unambiguous config) := by
  unfold Disk.Unambiguous
  split <;> infer_instance

theorem Disk.Unambiguous.distinct {disk : Disk} {roots : Roots}
    (h : disk.Unambiguous roots.config) : disk.Distinct roots ∧
      ∀ page ∈ disk.pagesBelow roots.source, page.headD "" ≠ ".html" := by
  have hsource : disk.scanSource roots.config.source =
      .ok (.below roots.source (disk.pagesBelow roots.source)) :=
    Disk.scanSource_path roots.source_keeps
  have hassets : disk.scanAssets roots.config.assets =
      .ok ((disk.listed roots.assets).map (Disk.assetAt roots.assets)) :=
    Disk.scanAssets_path roots.assets_keeps
  rw [Unambiguous, hsource, hassets] at h
  dsimp only at h
  have hpages : ∀ page ∈ disk.pagesBelow roots.source, ∃ index,
      SourceTree.linked roots.source (disk.pagesBelow roots.source) index page ∈
        (SourceTree.below roots.source (disk.pagesBelow roots.source)).files := by
    intro page hmem
    obtain ⟨index, hindex⟩ := List.mem_iff_getElem?.1 hmem
    exact ⟨index, SourceTree.mem_files_below.2 ⟨index, page, hindex, rfl⟩⟩
  constructor
  · intro page hmem hasset
    obtain ⟨index, hlinked⟩ := hpages page hmem
    exact (h _ hlinked).2 _ (List.mem_map.2 ⟨page, hasset, rfl⟩) rfl
  · intro page hmem
    obtain ⟨index, hlinked⟩ := hpages page hmem
    have hname := (h _ hlinked).1
    have hnamed := Disk.named_of_mem_listed (Disk.mem_pagesBelow.1 hmem).1
    obtain ⟨name, rest, rfl⟩ :=
      List.exists_cons_of_ne_nil ((disk.places_pagesBelow roots.source).2 page hmem).1
    have hfile : (SourceTree.linked roots.source (disk.pagesBelow roots.source) index
        (name :: rest)).absolute.fileName? = some name := Location.fileName?_path hnamed
    rw [hfile] at hname
    exact fun heq => hname (congrArg some heq)

namespace Progress

variable {roots : Roots} {progress : Progress}

-- Nothing is cleared that no disk could follow the path to.
theorem followable_of_clearOutput (h : (progress.clearOutput roots.out.path).1 = .ok ()) :
    roots.out.Followable := by
  cases hcheck : roots.out.path.check with
  | ok => exact hcheck
  | error fault =>
      have hempty : progress.disk.emptyDirectory roots.out.path = .error fault := by
        rw [Disk.emptyDirectory, Disk.find, hcheck]
        rfl
      have hfault : fault ≠ .notFound := by
        rintro rfl
        have htext : roots.out.path.text ≠ "" := by
          rw [Location.text_path roots.out_ne_nil]
          simp
        rw [Path.check, if_neg htext] at hcheck
        split at hcheck
        · cases hcheck
        · split at hcheck <;> cases hcheck
      have hremove : progress.disk.removeDirectory roots.out.path =
          (.error fault, progress.disk) := by
        rw [Disk.removeDirectory, hempty]
      unfold clearOutput at h
      rw [hremove] at h
      split at h
      · next heq => cases heq
      · next heq => cases heq; exact absurd rfl hfault
      · cases h

-- After it nothing is left in the output, and nothing outside of it has changed.
theorem kind?_clearOutput (h : (progress.clearOutput roots.out.path).1 = .ok ())
    (location : Location) : (progress.clearOutput roots.out.path).2.disk.kind? location =
      if within roots.out location then none else progress.disk.kind? location := by
  by_cases hdirectory : progress.disk.kind? roots.out = some .directory
  · obtain ⟨next, hclear, hkind⟩ :=
      clearOutput_of_directory (followable_of_clearOutput h) hdirectory
    rw [hclear]
    exact hkind location
  · obtain ⟨hsame, hnone⟩ := clearOutput_of_ne hdirectory
    obtain ⟨-, hnone, -⟩ := hnone h
    rw [hsame]
    split
    · next hwithin =>
      obtain ⟨below, rfl⟩ := Disk.within_iff.1 hwithin
      by_cases hbelow : below = []
      · subst hbelow
        exact hnone
      · exact Disk.kind?_below_of_ne_directory hdirectory hbelow
    · rfl

end Progress

-- Where there is no output yet, it is settled once all pages and assets have been built.
theorem Disk.settled_of_works {roots : Roots} {made : Location → Prop} {before after : Disk}
    (h : Works roots made (fun _ => False) before after)
    (hall : ∀ place, before.Public roots place ∨ place ∈ before.listed roots.assets → made place)
    (hnone : ∀ location, within roots.out location → before.kind? location = none)
    (hfollow : roots.out.Followable) : Settled roots (fun _ => False) after := by
  refine ⟨fun place _ => ?_, h.tidy fun location kind hwithin hkind => ?_, hfollow⟩
  · by_cases hmade : made place
    · exact h.fresh place hmade
    · have hnot := mt (hall place) hmade
      rw [not_or, h.agree.public_iff, h.agree.listed_eq] at hnot
      refine ⟨fun hpublic => absurd hpublic hnot.1, fun hmem => absurd hmem hnot.2, fun _ _ => ?_⟩
      rw [h.same place hmade id, Disk.file?, hnone _ (Disk.within_append _ _)]
  · rw [hnone location hwithin] at hkind
    cases hkind

-- The source watcher builds all pages of the tree.
theorem SourceWatcher.buildAll_knowing {roots : Roots} {progress : Progress} (files : List Location)
    (hdistinct : progress.disk.Distinct roots) :
    ∃ rebuilds next, (knowing roots files).buildAll progress =
        ⟨knowing roots (progress.disk.pagesBelow roots.source), next, .ok rebuilds⟩ ∧
      ((∀ rebuild ∈ rebuilds, rebuild.outcome.isFailed = false) →
        Works roots (progress.disk.Public roots ·) (fun _ => False) progress.disk next.disk) := by
  rw [buildAll, rescan_knowing]
  refine ⟨_, _, rfl, fun hok => ?_⟩
  have hworks := @rebuildEach_works roots ((progress.announce .building).note
    (.rescanning roots.source.path)) _ _ rfl hdistinct .changed none (fun _ hmem => hmem) hok
  refine hworks.congr (fun place => ?_) fun _ => Iff.rfl
  rw [placesOf, Disk.Public]
  constructor
  · rintro ⟨hshown, index, hindex, -⟩
    exact ⟨List.mem_of_getElem? hindex, hshown⟩
  · rintro ⟨hmem, hshown⟩
    obtain ⟨index, hindex⟩ := List.mem_iff_getElem?.1 hmem
    exact ⟨hshown, index, hindex, SourceTree.mem_files_below.2 ⟨index, place, hindex, rfl⟩⟩

-- The static watcher copies all assets.
theorem StaticWatcher.buildAll_knowing {roots : Roots} {progress : Progress} (files : List Location) :
    ∃ rebuilds next, (knowing roots files).buildAll progress =
        ⟨knowing roots (progress.disk.listed roots.assets), next, .ok rebuilds⟩ ∧
      (progress.disk.Distinct roots →
        (∀ rebuild ∈ rebuilds, rebuild.outcome.isFailed = false) →
          Works roots (· ∈ progress.disk.listed roots.assets) (fun _ => False) progress.disk
            next.disk) := by
  rw [buildAll, rescan_knowing _ rfl rfl]
  refine ⟨_, _, rfl, fun hdistinct hok => ?_⟩
  exact @rebuildEach_works roots (progress.note (.rescanning roots.assets.path)) _ _ rfl hdistinct
    .changed none (fun _ hmem => hmem) hok

namespace Session

variable {roots : Roots} {progress : Progress} {session : Session}

-- What the watchers build when they build both trees in full.
def builds (session : Session) (progress : Progress) : List Rebuild :=
  match session.source.buildAll progress with
  | ⟨_, _, .error _⟩ => []
  | ⟨_, progress, .ok pages⟩ =>
    match session.assets.buildAll progress with
    | ⟨_, _, .error _⟩ => pages
    | ⟨_, _, .ok copies⟩ => pages ++ copies

-- What is built when a session starts.
def startBuilds (progress : Progress) (config : Config) : List Rebuild :=
  match progress.disk.watchRoots config with
  | .error _ => []
  | .ok (source, assets, out) =>
    match clear progress config out with
    | (.error _, _) => []
    | (.ok (), progress) =>
      match open? progress.disk source assets out with
      | .error _ => []
      | .ok session => session.builds progress

-- The watchers of a project that know what is in the trees.
def knowing (roots : Roots) (disk : Disk) : Session :=
  ⟨.knowing roots (disk.pagesBelow roots.source), .knowing roots (disk.listed roots.assets)⟩

theorem watchRoots_config (disk : Disk) (roots : Roots) : disk.watchRoots roots.config =
    .ok (roots.source.path, roots.assets.path, roots.out.path) := by
  have hroot : ∀ location : Location, location.Named →
      disk.watchRoot location.path = .ok location.path := by
    intro location hnamed
    rw [Disk.watchRoot, Path.absolute_of_isAbsolute (Location.isAbsolute_path location),
      Location.walk_path hnamed]
    rfl
  rw [Disk.watchRoots, show roots.config.source = roots.source.path from rfl,
    show roots.config.assets = roots.assets.path from rfl,
    show roots.config.out = roots.out.path from rfl, hroot _ roots.source_keeps.2.1,
    hroot _ roots.assets_keeps.2.1, hroot _ roots.out_named]
  rfl

theorem open?_roots (disk : Disk) (roots : Roots) :
    open? disk roots.source.path roots.assets.path roots.out.path = .ok (knowing roots disk) := by
  rw [open?, SourceWatcher.open?, Disk.scanSource_path roots.source_keeps,
    StaticWatcher.open?, Disk.scanAssets_path roots.assets_keeps]
  rfl

-- Building all that the watchers know makes the outputs of all pages and assets.
theorem build_works (hdistinct : progress.disk.Distinct roots)
    (hclean : ∀ rebuild ∈ (knowing roots progress.disk).builds progress,
      rebuild.outcome.isFailed = false) :
    ∃ next, (knowing roots progress.disk).build progress = (.ok (knowing roots next.disk), next) ∧
      Works roots (fun place => progress.disk.Public roots place ∨
        place ∈ progress.disk.listed roots.assets) (fun _ => False) progress.disk next.disk := by
  obtain ⟨pages, middle, hsource, hfirst⟩ := SourceWatcher.buildAll_knowing
    (progress.disk.pagesBelow roots.source) hdistinct
  have hsource' : (knowing roots progress.disk).source.buildAll progress =
      ⟨.knowing roots (progress.disk.pagesBelow roots.source), middle, .ok pages⟩ := hsource
  obtain ⟨copies, next, hassets, hsecond⟩ := @StaticWatcher.buildAll_knowing roots middle
    (progress.disk.listed roots.assets)
  have hassets' : (knowing roots progress.disk).assets.buildAll middle =
      ⟨.knowing roots (middle.disk.listed roots.assets), next, .ok copies⟩ := hassets
  simp only [builds, hsource', hassets', List.mem_append] at hclean
  have hfirst := hfirst fun rebuild hmem => hclean rebuild (.inl hmem)
  have hsecond := hsecond (hfirst.agree.distinct hdistinct)
    fun rebuild hmem => hclean rebuild (.inr hmem)
  rw [← hfirst.agree.listed_eq] at hsecond
  refine ⟨next, ?_, hfirst.trans hsecond⟩
  simp only [build, hsource', hassets']
  rw [knowing, hfirst.agree.pagesBelow_eq, hsecond.agree.pagesBelow_eq, hsecond.agree.listed_eq]

-- A session that has started without a failure has a settled output.
theorem start_settled (hsession : (start progress roots.config).1 = .ok session)
    (hclean : ∀ rebuild ∈ startBuilds progress roots.config, rebuild.outcome.isFailed = false)
    (hdistinct : progress.disk.Distinct roots) :
    session = knowing roots (start progress roots.config).2.disk ∧
      Settled roots (fun _ => False) (start progress roots.config).2.disk ∧
      Agree roots progress.disk (start progress roots.config).2.disk := by
  have hcleared : clear progress roots.config roots.out.path =
      ((progress.clearOutput roots.out.path).1.mapError .build,
        (progress.clearOutput roots.out.path).2) := if_pos rfl
  unfold start at hsession ⊢
  unfold startBuilds at hclean
  simp only [watchRoots_config, hcleared] at hsession hclean ⊢
  cases hclear : (progress.clearOutput roots.out.path).1 with
  | error error =>
      rw [hclear] at hsession
      cases hsession
  | ok _ =>
      have hfollow := Progress.followable_of_clearOutput hclear
      have hkind := Progress.kind?_clearOutput hclear
      rw [hclear] at hsession hclean
      generalize (progress.clearOutput roots.out.path).2 = cleared at hsession hclean hkind ⊢
      simp only [Except.mapError, open?_roots] at hsession hclean ⊢
      have hagree : Agree roots progress.disk cleared.disk :=
        .of_outside fun location hnot => Disk.file?_eq_of_kind?_eq (by rw [hkind, if_neg hnot])
      obtain ⟨next, hbuild, hworks⟩ := build_works (hagree.distinct hdistinct) hclean
      rw [hbuild] at hsession ⊢
      cases hsession
      refine ⟨rfl, Disk.settled_of_works hworks (fun _ h => h) (fun location hwithin => ?_) hfollow,
        hagree.trans hworks.agree⟩
      rw [hkind, if_pos hwithin]

-- The session after events of one of its trees, which are handled in order.
def handleEach (session : Session) (tree : Tree) (progress : Progress) (events : List Event) :
    Handled Session :=
  match tree with
  | .source =>
    let handled := Handler.handleEach session.source progress events
    ⟨{ session with source := handled.watcher }, handled.progress, handled.results⟩
  | .static =>
    let handled := Handler.handleEach session.assets progress events
    ⟨{ session with assets := handled.watcher }, handled.progress, handled.results⟩

end Session

-- Where the files of a tree are.
def Config.rootOf (config : Config) : Tree → Location
  | .source => Location.walk [] config.source
  | .static => Location.walk [] config.assets

namespace Session

variable {config : Config} {roots : Roots} {session : Session} {progress : Progress} {tree : Tree}
  {edit : Edit} {disk : Disk} {events : List Event}

-- What sessions come to. Each edit of a tree is followed by its events before the next edit, and
-- nothing that is built fails.
inductive Follows (config : Config) : Session → Progress → Prop
  | start {session : Session} {progress : Progress}
      (hsession : (Session.start progress config).1 = .ok session)
      (hclean : ∀ rebuild ∈ startBuilds progress config, rebuild.outcome.isFailed = false)
      (hdisk : progress.disk.Unambiguous config) :
      Follows config session (Session.start progress config).2
  | edit {session : Session} {progress : Progress} {tree : Tree} {edit : Edit} {disk : Disk}
      {events : List Event} (h : Follows config session progress) (hinside : edit.Inside)
      (happly : edit.apply (config.rootOf tree) progress.disk = .ok disk)
      (hevents : events ∈ edit.reports (config.rootOf tree)) (hdisk : disk.Unambiguous config)
      (hclean : (session.handleEach tree (progress.onDisk disk) events).Clean) :
      Follows config (session.handleEach tree (progress.onDisk disk) events).watcher
        (session.handleEach tree (progress.onDisk disk) events).progress

-- One edit and its events.
theorem handleEach_settles (hinside : edit.Inside)
    (happly : edit.apply (roots.config.rootOf tree) progress.disk = .ok disk)
    (hevents : events ∈ edit.reports (roots.config.rootOf tree))
    (hsettled : Settled roots (fun _ => False) progress.disk)
    (hdistinct : progress.disk.Distinct roots) (hdisk : disk.Unambiguous roots.config)
    (hclean : ((knowing roots progress.disk).handleEach tree (progress.onDisk disk) events).Clean) :
    ((knowing roots progress.disk).handleEach tree (progress.onDisk disk) events).Settles roots disk
      (knowing roots disk) := by
  obtain ⟨hdistinct', hname⟩ := hdisk.distinct
  cases tree with
  | source =>
      have hroot : roots.config.rootOf .source = roots.source :=
        Location.walk_path roots.source_keeps.2.1 []
      rw [hroot] at happly hevents
      have hedited : Disk.Edited roots roots.source edit.Gone edit.Come progress.disk disk :=
        Edit.edited roots.source_keeps.1 roots.source_keeps.2.1 roots.not_within_out_source hinside
          happly
      obtain ⟨hwatcher, hresults, hagree, hlast⟩ := @SourceWatcher.handleEach_settles roots
        (progress.onDisk disk) progress.disk edit events hinside happly hevents hname hsettled
        hdistinct hdistinct' hclean
      refine ⟨?_, hresults, hagree, hlast⟩
      have hassets : (knowing roots progress.disk).assets = (knowing roots disk).assets := by
        rw [knowing, hedited.listed_eq, knowing]
      exact congrArg₂ Session.mk hwatcher hassets
  | static =>
      have hroot : roots.config.rootOf .static = roots.assets :=
        Location.walk_path roots.assets_keeps.2.1 []
      rw [hroot] at happly hevents
      have hedited : Disk.Edited roots roots.assets edit.Gone edit.Come progress.disk disk :=
        Edit.edited roots.assets_keeps.1 roots.assets_keeps.2.1 roots.not_within_out_assets hinside
          happly
      obtain ⟨hwatcher, hresults, hagree, hlast⟩ := @StaticWatcher.handleEach_settles roots
        (progress.onDisk disk) progress.disk edit events hinside happly hevents hsettled hdistinct
        hdistinct' hclean
      refine ⟨?_, hresults, hagree, hlast⟩
      have hsource : (knowing roots progress.disk).source = (knowing roots disk).source := by
        rw [knowing, hedited.pagesBelow_eq, knowing]
      exact congrArg₂ Session.mk hsource hwatcher

-- At every moment the watchers know what is in the trees, and the output is settled.
theorem Follows.settled (h : Follows roots.config session progress) :
    session = knowing roots progress.disk ∧ Settled roots (fun _ => False) progress.disk ∧
      progress.disk.Distinct roots := by
  induction h with
  | start hsession hclean hdisk =>
      obtain ⟨hover, hsettled, hagree⟩ := start_settled hsession hclean hdisk.distinct.1
      exact ⟨hover, hsettled, hagree.distinct hdisk.distinct.1⟩
  | edit _ hinside happly hevents hdisk hclean ih =>
      obtain ⟨rfl, hsettled, hdistinct⟩ := ih
      obtain ⟨hwatcher, -, hagree, hlast⟩ :=
        handleEach_settles hinside happly hevents hsettled hdistinct hdisk hclean
      refine ⟨hwatcher.trans ?_, hlast, hagree.distinct hdisk.distinct.1⟩
      rw [knowing, knowing, hagree.pagesBelow_eq, hagree.listed_eq]

-- After every edit the watchers know what a scan finds, and the output holds the files that a
-- build from scratch leaves there, with the same content.
theorem Follows.output_eq_build (hclear : config.clear = true) (hnormal : config.Normal)
    (hapart : config.Apart []) (h : Follows config session progress) :
    progress.disk.scanSource config.source = .ok session.source.files ∧
      progress.disk.scanAssets config.assets = .ok session.assets.files ∧
      ∀ location, within (Location.walk [] config.out) location →
        progress.disk.file? location =
          ((Progress.start progress.disk).buildAll config).2.disk.file? location := by
  obtain ⟨roots, hroots, hout⟩ := hapart.exists_roots (fun path _ => Path.named_walk_root path) hclear
  rw [hnormal.located] at hroots
  subst hroots
  obtain ⟨rfl, hsettled, -⟩ := h.settled
  refine ⟨Disk.scanSource_path roots.source_keeps, Disk.scanAssets_path roots.assets_keeps,
    fun location hwithin => ?_⟩
  rw [← hout] at hwithin
  exact (@Progress.buildAll_of_settled (Progress.start progress.disk) roots hsettled location
    hwithin).symm

-- A project whose directories lie next to each other.
def site : Config := ⟨⟨"/src"⟩, ⟨"/static"⟩, ⟨"/dist"⟩, true⟩

-- Its session starts, and then the page gets another name.
def started : Except WatchError Session × Progress :=
  start (.start (Progress.project [])) site

def opened : Session :=
  started.1.toOption.getD ⟨⟨site.source, site.out, ⟨[]⟩⟩, ⟨site.assets, site.out, []⟩⟩

def renamed : Disk :=
  ((Edit.rename ["a.html"] ["b.html"]).apply ["src"] started.2.disk).toOption.getD .blank

def reported : Handled Session :=
  opened.handleEach .source (started.2.onDisk renamed)
    [⟨.unlink, ⟨"/src/a.html"⟩⟩, ⟨.add, ⟨"/src/b.html"⟩⟩]

theorem normal_site : site.Normal := by
  unfold Config.Normal
  decide +kernel

theorem apart_site : site.Apart [] :=
  ⟨by decide +kernel, by decide +kernel⟩

theorem output_eq_build_of_rename : Follows site reported.watcher reported.progress ∧
    reported.progress.disk.file? ["b.html", "dist"] = some "x".toUTF8 ∧
    reported.progress.disk.file? ["a.html", "dist"] = none ∧
    ((Progress.start reported.progress.disk).buildAll site).2.disk.file? ["b.html", "dist"] =
      some "x".toUTF8 := by
  obtain ⟨hsession, hbuilds, hdisk, hrenamed, hdisk', hclean, hmade, hgone⟩ :
      started.1 = .ok opened ∧
        (∀ rebuild ∈ startBuilds (.start (Progress.project [])) site,
          rebuild.outcome.isFailed = false) ∧ (Progress.project []).Unambiguous site ∧
        ((Edit.rename ["a.html"] ["b.html"]).apply ["src"] started.2.disk).toOption.isSome ∧
        renamed.Unambiguous site ∧ reported.Clean ∧
        reported.progress.disk.file? ["b.html", "dist"] = some "x".toUTF8 ∧
        reported.progress.disk.file? ["a.html", "dist"] = none := by
    decide +kernel
  have hroot : site.rootOf .source = ["src"] := by decide +kernel
  have happly : (Edit.rename ["a.html"] ["b.html"]).apply (site.rootOf .source)
      started.2.disk = .ok renamed := by
    rw [hroot]
    exact eq_ok_getD hrenamed
  have hevents : [⟨.unlink, ⟨"/src/a.html"⟩⟩, ⟨.add, ⟨"/src/b.html"⟩⟩] ∈
      (Edit.rename ["a.html"] ["b.html"]).reports (site.rootOf .source) := by
    rw [hroot]
    decide +kernel
  have hfollows : Follows site reported.watcher reported.progress :=
    .edit (.start hsession hbuilds hdisk) (by decide) happly hevents hdisk' hclean
  obtain ⟨-, -, houtput⟩ := hfollows.output_eq_build rfl normal_site apart_site
  exact ⟨hfollows, hmade, hgone, (houtput _ (by decide +kernel)).symm.trans hmade⟩

-- No event of an edit that nothing fails for is an error.
theorem Follows.results (hclear : config.clear = true) (hnormal : config.Normal)
    (hapart : config.Apart []) (h : Follows config session progress) (hinside : edit.Inside)
    (happly : edit.apply (config.rootOf tree) progress.disk = .ok disk)
    (hevents : events ∈ edit.reports (config.rootOf tree)) (hdisk : disk.Unambiguous config)
    (hclean : (session.handleEach tree (progress.onDisk disk) events).Clean) :
    ∀ result ∈ (session.handleEach tree (progress.onDisk disk) events).results,
      ∃ rebuilds, result = .ok rebuilds := by
  obtain ⟨roots, hroots, -⟩ := hapart.exists_roots (fun path _ => Path.named_walk_root path) hclear
  rw [hnormal.located] at hroots
  subst hroots
  obtain ⟨rfl, hsettled, hdistinct⟩ := h.settled
  exact (handleEach_settles hinside happly hevents hsettled hdistinct hdisk hclean).results

end Session

end StaticSite
