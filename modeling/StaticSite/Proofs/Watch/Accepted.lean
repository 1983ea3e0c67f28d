import StaticSite.Proofs.Watch.Answering
import StaticSite.Proofs.Watch.Recall

-- Which files the source watcher takes up when they come: those that a scan lists.
namespace StaticSite

variable {disk : Disk} {root place : Location}

-- What a scan lists are the paths of the pages.
theorem Disk.mem_absolute_below (hnamed : Location.Named (place ++ root)) :
    Location.path (place ++ root) ∈
        (SourceTree.below root (disk.pagesBelow root)).files.map (·.absolute) ↔
      place ∈ disk.pagesBelow root := by
  rw [SourceTree.map_absolute_below, List.mem_map]
  constructor
  · rintro ⟨page, hmem, heq⟩
    have hpage := Disk.named_of_mem_listed (Disk.mem_pagesBelow.1 hmem).1
    rwa [← List.append_cancel_right (Location.path_injective hpage hnamed heq)]
  · exact fun hmem => ⟨place, hmem, rfl⟩

-- A listed file that has come is built first, and the watcher knows what is listed.
theorem SourceWatcher.update_of_listed {progress : Progress} {files : List Location}
    (hroot : root.Named) (hfiles : SourceTree.Places files) (hmem : place ∈ files)
    (hscan : progress.disk.scanSource root.path = .ok (.below root files)) (out : Path)
    (known : SourceTree) :
    ∃ next rebuilds, (SourceWatcher.mk root.path out known).update (Location.path (place ++ root))
        progress = ⟨⟨root.path, out, .below root files⟩, next, .ok rebuilds⟩ ∧
      (rebuilds.map (·.file)).head? = some place.relative := by
  obtain ⟨index, hfind, hindex⟩ :=
    (SourceTree.marked_below root files).findAbsolute?_path hfiles hroot hmem
  have hcontent : (SourceTree.below root files).files[index]? =
      some (SourceTree.linked root files index place) := by
    rw [SourceTree.getElem?_below, hindex]
    rfl
  unfold update rescan open?
  rw [hscan]
  dsimp only
  rw [hfind]
  refine ⟨_, _, rfl, ?_⟩
  rw [List.map_append, rebuildEach_files, hcontent]
  rfl

namespace Session

variable {progress : Progress} {config : Config} {session : Session} {path : Path}

-- The source watcher takes up the files that a scan lists and no others, but it misses those whose
-- name is nothing else than the extension. What it takes up is built, and nothing else is.
theorem accepts_iff_listed (h : (start progress config).1 = .ok session)
    (later : Progress) (hback : session.source.root.text.toList.getLast? ≠ some '\\')
    (hbelow : path.normalize.startsWith session.source.root = true)
    (hne : path.normalize ≠ session.source.root)
    (hfile : later.disk.isFile path.normalize = true) :
    ∃ tree, later.disk.scanSource session.source.root = .ok tree ∧
      (session.source.accepts path.normalize = true ↔
        path.normalize ∈ tree.files.map (·.absolute) ∧
          path.normalize.fileName? ≠ some ".html") ∧
      ∀ kind ≠ .unlink,
        (path.normalize ∉ tree.files.map (·.absolute) →
          Watcher.handle session.source ⟨kind, path⟩ later = ⟨session.source, later, .ok []⟩) ∧
        (path.normalize.fileName? ≠ some ".html" →
          ∀ file ∈ tree.files, file.absolute = path.normalize →
            ∃ next rebuilds, Watcher.handle session.source ⟨kind, path⟩ later =
                ⟨{ session.source with files := tree }, next, .ok rebuilds⟩ ∧
              (rebuilds.map (·.file)).head? = some file.relative) := by
  obtain ⟨source, assets, out, known, files, rfl, hpaths, -⟩ := start_eq_ok h
  obtain ⟨root, hroot, rfl⟩ := hpaths source List.mem_cons_self
  obtain ⟨place, hnamed, hpath⟩ := Path.exists_place hroot hbelow
  have hbelow : place ≠ [] := fun hnil => hne (by rw [hpath, hnil, List.nil_append])
  have hevent : ∀ kind, Watcher.handle (SourceWatcher.mk root.path out known) ⟨kind, path⟩ later =
      Watcher.handle (SourceWatcher.mk root.path out known) ⟨kind, path.normalize⟩ later := by
    intro kind
    unfold Watcher.handle
    simp only [hpath, Location.normalize_path hnamed]
  simp only [hevent]
  rw [hpath] at hfile ⊢
  have haccepts := SourceWatcher.accepts_path_iff ⟨root.path, out, known⟩ rfl hbelow hnamed hfile
  have hname : place.headD "" ≠ ".html" ↔
      (Location.path (place ++ root)).fileName? ≠ some ".html" := by
    obtain ⟨name, above, rfl⟩ := List.exists_cons_of_ne_nil hbelow
    rw [List.cons_append] at hnamed ⊢
    rw [Location.fileName?_path hnamed, ne_eq, ne_eq, Option.some.injEq]
    rfl
  rw [← Disk.mem_absolute_below hnamed, hname] at haccepts
  have hscan := @Disk.scanSource_place later.disk root hroot hback
  refine ⟨_, hscan, haccepts, fun kind hkind => ?_⟩
  rw [Watcher.handle_file hkind hnamed hfile]
  refine ⟨fun hmem => if_neg fun htrue => hmem (haccepts.1 htrue).1, fun hname file hmem heq => ?_⟩
  obtain ⟨index, page, hindex, rfl⟩ := SourceTree.mem_files_below.1 hmem
  have hpage := List.mem_of_getElem? hindex
  have hpageNamed := Disk.named_of_mem_listed (Disk.mem_pagesBelow.1 hpage).1
  obtain rfl := List.append_cancel_right (Location.path_injective hpageNamed hnamed heq)
  have htaken : Watcher.accepts (SourceWatcher.mk root.path out known)
      (Location.path (page ++ root)) = true := haccepts.2 ⟨List.mem_map.2 ⟨_, hmem, rfl⟩, hname⟩
  rw [if_pos htaken]
  exact SourceWatcher.update_of_listed hroot (later.disk.places_pagesBelow root) hpage hscan out known

theorem accepts_iff_listed_of_rename :
    ∃ tree, renamed.scanSource ⟨"/src"⟩ = .ok tree ∧
      ⟨"/src/b.html"⟩ ∈ tree.files.map (·.absolute) ∧
      opened.source.accepts ⟨"/src/b.html"⟩ = true ∧
      (Watcher.handle opened.source ⟨.add, ⟨"/src/./b.html"⟩⟩
        (started.2.onDisk renamed)).watcher.files = tree := by
  obtain ⟨hstart, hroot, hback, hbelow, hne, hfile, hnormal, hname, haccepts⟩ :
      started.1 = .ok opened ∧ opened.source.root = ⟨"/src"⟩ ∧
        opened.source.root.text.toList.getLast? ≠ some '\\' ∧
        (Path.normalize ⟨"/src/./b.html"⟩).startsWith opened.source.root = true ∧
        Path.normalize ⟨"/src/./b.html"⟩ ≠ opened.source.root ∧
        renamed.isFile (Path.normalize ⟨"/src/./b.html"⟩) = true ∧
        Path.normalize ⟨"/src/./b.html"⟩ = ⟨"/src/b.html"⟩ ∧
        Path.fileName? ⟨"/src/b.html"⟩ ≠ some ".html" ∧
        opened.source.accepts ⟨"/src/b.html"⟩ = true := by
    decide +kernel
  obtain ⟨tree, htree, hiff, hhandle⟩ := accepts_iff_listed hstart (started.2.onDisk renamed) hback
    hbelow hne hfile
  rw [hnormal] at hiff hhandle
  obtain ⟨hmem, -⟩ := hiff.1 haccepts
  obtain ⟨file, hthere, heq⟩ := List.mem_map.1 hmem
  obtain ⟨next, rebuilds, hreaction, -⟩ := (hhandle .add (by decide)).2 hname file hthere heq
  rw [hroot] at htree
  refine ⟨tree, htree, hmem, haccepts, ?_⟩
  rw [hreaction]

-- A page without a name before its extension is built with the site and not followed afterwards.
theorem listed_not_accepted : ¬ ∀ (progress : Progress) (config : Config) (session : Session)
    (disk : Disk) (path : Path), (start progress config).1 = .ok session →
      disk.isFile path = true → path.startsWith session.source.root = true →
      path ≠ session.source.root → ∃ tree, disk.scanSource session.source.root = .ok tree ∧
        (session.source.accepts path = true ↔ path ∈ tree.files.map (·.absolute)) := by
  intro h
  obtain ⟨hstart, hfile, hbelow, hne, hscan, hnot⟩ : started.1 = .ok opened ∧
      ((Progress.project []).putFile ".html" ["src"] .empty).isFile ⟨"/src/.html"⟩ = true ∧
      Path.startsWith ⟨"/src/.html"⟩ opened.source.root = true ∧
      ⟨"/src/.html"⟩ ≠ opened.source.root ∧
      (((Progress.project []).putFile ".html" ["src"] .empty).scanSource
        opened.source.root).map (fun tree => decide (⟨"/src/.html"⟩ ∈ tree.files.map (·.absolute))) =
          .ok true ∧
      opened.source.accepts ⟨"/src/.html"⟩ = false := by
    decide +kernel
  obtain ⟨tree, htree, hiff⟩ := h _ _ opened _ ⟨"/src/.html"⟩ hstart hfile hbelow hne
  rw [htree] at hscan
  rw [hiff.2 (of_decide_eq_true (Except.ok.inj hscan))] at hnot
  cases hnot

end Session

end StaticSite
