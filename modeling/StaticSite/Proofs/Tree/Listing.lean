import StaticSite.Proofs.Tree.Reach

-- What the list that a tree is made of means for the chains of its files, told by relative paths.
-- The files that it names decide which layouts a file has. Its order decides among layouts of one
-- directory only.
namespace StaticSite.SourceTree

-- Distinct paths of plain names, none of which leads through another.
structure Listing (names : List String) : Prop where
  relative : ∀ name ∈ names, IsRelative name
  free : ∀ upper ∈ names, ∀ lower ∈ names,
    Path.segments upper <+: Path.segments lower → upper = lower
  distinct : names.Nodup

theorem Listing.sublist {names kept : List String} (h : Listing names)
    (hkept : kept.Sublist names) : Listing kept where
  relative name hmem := h.relative name (hkept.subset hmem)
  free upper hupper lower hlower := h.free upper (hkept.subset hupper) lower (hkept.subset hlower)
  distinct := h.distinct.sublist hkept

theorem Listing.perm {names others : List String} (h : Listing names)
    (hperm : names.Perm others) : Listing others where
  relative name hmem := h.relative name (hperm.mem_iff.2 hmem)
  free upper hupper lower hlower :=
    h.free upper (hperm.mem_iff.2 hupper) lower (hperm.mem_iff.2 hlower)
  distinct := hperm.nodup_iff.1 h.distinct

-- How deep the directory of a file lies.
def depth (name : String) : Nat :=
  (Path.segments name).dropLast.length

-- The first of two relative paths is that of a layout, and it wraps the file of the second one.
def Wraps (layout page : String) : Prop :=
  layout ≠ page ∧ "~layout".toList <+: (baseName layout).toList ∧
    (Path.segments layout).dropLast <+: (Path.segments page).dropLast

-- Nearer to the root, or at the same depth and named earlier.
def Outer (names : List String) (one next : String) : Prop :=
  depth one < depth next ∨ depth one = depth next ∧ names.idxOf one < names.idxOf next

instance (names : List String) : Std.Irrefl (Outer names) where
  irrefl name h := by simp [Outer] at h

instance (names : List String) : Std.Antisymm (Outer names) where
  antisymm one next h h' := by unfold Outer at h h'; omega

-- Leaving names away keeps the order of the others.
theorem Outer.of_sublist {names kept : List String} (hkept : kept.Sublist names)
    (hdistinct : names.Nodup) {one next : String} (hone : one ∈ kept) (hnext : next ∈ kept)
    (h : Outer kept one next) : Outer names one next := by
  have hnames : names.Pairwise fun one next => names.idxOf one < names.idxOf next := by
    rw [List.pairwise_iff_getElem]
    intro i j hi hj hlt
    rwa [hdistinct.idxOf_getElem, hdistinct.idxOf_getElem]
  refine h.imp_right (And.imp_right fun hlt => ?_)
  have hbefore := List.pairwise_iff_getElem.1 (hnames.sublist hkept) _ _
    (List.idxOf_lt_length_of_mem hone) (List.idxOf_lt_length_of_mem hnext) hlt
  rwa [List.getElem_idxOf, List.getElem_idxOf] at hbefore

-- The relative paths of the layouts on the list of a file, outermost first.
def wrappers (found : List FoundFile) (index : Nat) (file : FoundFile) : List String :=
  (dependent found index file).dependencies.filterMap fun layout =>
    found[layout]?.map FoundFile.relative

variable {found left : List FoundFile} {index other : Nat} {file page : FoundFile}

theorem map_absolute_ofFound (found : List FoundFile) :
    (ofFound found).files.map ContentFile.absolute = found.map FoundFile.absolute := by
  refine List.ext_getElem? fun index => ?_
  rw [List.getElem?_map, getElem?_ofFound, List.getElem?_map, Option.map_map]
  rfl

theorem relative_chain (found : List FoundFile) (index : Nat) (file : FoundFile) :
    ((ofFound found).chain (dependent found index file)).map ContentFile.relative =
      wrappers found index file ++ [file.relative] := by
  rw [chain, List.map_append, List.map_filterMap]
  simp only [getElem?_ofFound, Option.map_map]
  rfl

namespace Listing

variable (h : Listing (found.map FoundFile.relative))

include h

theorem relative_found : ∀ file ∈ found, IsRelative file.relative := fun _ hmem =>
  h.relative _ (List.mem_map_of_mem hmem)

theorem free_found : ∀ upper ∈ found, ∀ lower ∈ found,
    Path.segments upper.relative <+: Path.segments lower.relative →
      upper.relative = lower.relative := fun _ hupper _ hlower =>
  h.free _ (List.mem_map_of_mem hupper) _ (List.mem_map_of_mem hlower)

-- The number of a file is where its path is named.
theorem idxOf_relative (hfile : found[index]? = some file) :
    (found.map FoundFile.relative).idxOf file.relative = index := by
  obtain ⟨hindex, rfl⟩ := List.getElem?_eq_some_iff.1 hfile
  have hself := h.distinct.idxOf_getElem index (by simpa using hindex)
  rwa [List.getElem_map] at hself

theorem index_eq_iff (hfile : found[index]? = some file) (hpage : found[other]? = some page) :
    index = other ↔ file.relative = page.relative := by
  rw [← h.idxOf_relative hfile, ← h.idxOf_relative hpage,
    List.idxOf_inj (List.mem_map_of_mem (List.mem_of_getElem? hfile))]

theorem mem_wrappers (hfile : found[index]? = some file) {name : String} :
    name ∈ wrappers found index file ↔ name ∈ found.map FoundFile.relative ∧
      Wraps name file.relative := by
  simp only [wrappers, List.mem_filterMap, Option.map_eq_some_iff, List.mem_map,
    mem_dependencies_ofFound h.relative_found h.free_found hfile]
  constructor
  · rintro ⟨layout, ⟨hne, origin, horigin, hname, hup⟩, _, horigin', rfl⟩
    obtain rfl := Option.some.inj (horigin.symm.trans horigin')
    exact ⟨⟨origin, List.mem_of_getElem? horigin, rfl⟩,
      fun heq => hne ((h.index_eq_iff horigin hfile).2 heq), hname, hup⟩
  · rintro ⟨⟨origin, hmem, rfl⟩, hne, hname, hup⟩
    obtain ⟨layout, horigin⟩ := List.getElem?_of_mem hmem
    exact ⟨layout, ⟨fun heq => hne ((h.index_eq_iff horigin hfile).1 heq), origin, horigin, hname,
      hup⟩, origin, horigin, rfl⟩

theorem pairwise_wrappers (hfile : found[index]? = some file) :
    (wrappers found index file).Pairwise (Outer (found.map FoundFile.relative)) := by
  rw [wrappers, List.pairwise_filterMap]
  refine (pairwise_dependencies_ofFound h.relative_found h.free_found hfile).imp ?_
  rintro one next ⟨outer, inner, houter, hinner, -, horder⟩ name hname name' hname'
  simp only [houter, hinner, Option.map_some, Option.some.injEq] at hname hname'
  subst hname hname'
  rwa [Outer, h.idxOf_relative houter, h.idxOf_relative hinner]

-- What is left of the list of a file when others are left away is its list among those.
theorem wrappers_of_sublist (hleft : left.Sublist found) (hfile : found[index]? = some file)
    (hkept : left[other]? = some file) : wrappers left other file =
      (wrappers found index file).filter (· ∈ left.map FoundFile.relative) := by
  have hnames := hleft.map FoundFile.relative
  have hlisting := h.sublist hnames
  have hsorted : (wrappers left other file).Pairwise (Outer (found.map FoundFile.relative)) :=
    (hlisting.pairwise_wrappers hkept).imp_of_mem fun hone hnext => Outer.of_sublist hnames
      h.distinct ((hlisting.mem_wrappers hkept).1 hone).1 ((hlisting.mem_wrappers hkept).1 hnext).1
  refine hsorted.eq_of_mem_iff ((h.pairwise_wrappers hfile).filter _) fun name => ?_
  rw [hlisting.mem_wrappers hkept, List.mem_filter, h.mem_wrappers hfile, decide_eq_true_iff]
  constructor
  · rintro ⟨hname, hwraps⟩
    exact ⟨⟨hnames.subset hname, hwraps⟩, hname⟩
  · rintro ⟨⟨-, hwraps⟩, hname⟩
    exact ⟨hname, hwraps⟩

-- Where no directory has two layouts, those on one list lie at different depths.
theorem depth_lt_of_outer (hsingle : ∀ one ∈ found, ∀ next ∈ found,
      "~layout".toList <+: (baseName one.relative).toList →
      "~layout".toList <+: (baseName next.relative).toList →
        one.directories = next.directories → one.relative = next.relative)
    (hfile : found[index]? = some file) {names : List String} {one next : String}
    (hone : one ∈ wrappers found index file) (hnext : next ∈ wrappers found index file)
    (horder : Outer names one next) : depth one < depth next := by
  refine horder.resolve_right fun ⟨hdepth, hlt⟩ => ?_
  obtain ⟨hmem, -, hlayout, hup⟩ := (h.mem_wrappers hfile).1 hone
  obtain ⟨hmem', -, hlayout', hup'⟩ := (h.mem_wrappers hfile).1 hnext
  obtain ⟨origin, horigin, rfl⟩ := List.mem_map.1 hmem
  obtain ⟨origin', horigin', rfl⟩ := List.mem_map.1 hmem'
  have hsame : origin.directories = origin'.directories :=
    (List.prefix_of_prefix_length_le hup hup' hdepth.le).eq_of_length hdepth
  rw [hsingle origin horigin origin' horigin' hlayout hlayout' hsame] at hlt
  exact Nat.lt_irrefl _ hlt

-- The files that are remembered for another one are those that it wraps.
theorem mem_dependentPaths
    (hplaces : (found.map FoundFile.absolute).Pairwise fun one next => ¬ one.same next)
    (hgone : page ∈ found) (hfile : found[index]? = some file) :
    file.relative ∈ (ofFound found).dependentPaths page.absolute ↔
      page.relative ∈ wrappers found index file := by
  obtain ⟨layout, hlayout⟩ := List.getElem?_of_mem hgone
  have hcontent : (ofFound found).files[layout]? = some (dependent found layout page) := by
    rw [getElem?_ofFound, hlayout, Option.map_some]
  have hfind := findAbsolute?_of_getElem? (by rwa [map_absolute_ofFound]) hcontent
  rw [show (dependent found layout page).absolute = page.absolute from rfl] at hfind
  rw [(linked_ofFound found).mem_dependentPaths hfind, wrappers, List.mem_filterMap]
  constructor
  · rintro ⟨content, hmem, hdepends, hsame⟩
    obtain ⟨place, hplace⟩ := List.getElem?_of_mem hmem
    obtain ⟨origin, horigin, rfl⟩ := Option.map_eq_some_iff.1 ((getElem?_ofFound ..).symm.trans hplace)
    obtain rfl := (h.index_eq_iff horigin hfile).2 hsame
    obtain rfl := Option.some.inj (horigin.symm.trans hfile)
    exact ⟨layout, hdepends, by rw [hlayout, Option.map_some]⟩
  · rintro ⟨place, hdepends, hsame⟩
    obtain ⟨origin, horigin, hrelative⟩ := Option.map_eq_some_iff.1 hsame
    obtain rfl := (h.index_eq_iff horigin hlayout).2 hrelative
    have hself : (ofFound found).files[index]? = some (dependent found index file) := by
      rw [getElem?_ofFound, hfile, Option.map_some]
    exact ⟨_, List.mem_of_getElem? hself, hdepends, rfl⟩

end Listing

-- The chain of a file that is left when others are deleted is what is left of its chain. So it has
-- changed only if the file depended on one of those.
theorem chain_of_sublist (h : Listing (found.map FoundFile.relative))
    (hleft : left.Sublist found) (hmem : file ∈ left) :
    ∃ before ∈ (ofFound found).files, ∃ after ∈ (ofFound left).files,
      before.relative = file.relative ∧ after.relative = file.relative ∧
      ((ofFound left).chain after).map ContentFile.relative =
        (((ofFound found).chain before).map ContentFile.relative).filter
          (· ∈ left.map FoundFile.relative) ∧
      (((found.map FoundFile.absolute).Pairwise fun one next => ¬ one.same next) →
        (((ofFound left).chain after).map ContentFile.relative ≠
            ((ofFound found).chain before).map ContentFile.relative ↔
          ∃ gone ∈ found, gone ∉ left ∧
            file.relative ∈ (ofFound found).dependentPaths gone.absolute)) := by
  obtain ⟨other, hkept⟩ := List.getElem?_of_mem hmem
  obtain ⟨index, hfile⟩ := List.getElem?_of_mem (hleft.subset hmem)
  have hself : file.relative ∈ left.map FoundFile.relative := List.mem_map_of_mem hmem
  have hbefore : (ofFound found).files[index]? = some (dependent found index file) := by
    rw [getElem?_ofFound, hfile, Option.map_some]
  have hafter : (ofFound left).files[other]? = some (dependent left other file) := by
    rw [getElem?_ofFound, hkept, Option.map_some]
  have hchain := h.wrappers_of_sublist hleft hfile hkept
  refine ⟨_, List.mem_of_getElem? hbefore, _, List.mem_of_getElem? hafter, rfl, rfl, ?_, ?_⟩
  · rw [relative_chain, relative_chain, List.filter_append, hchain]
    rw [List.filter_cons_of_pos (by simpa using hself), List.filter_nil]
  · intro hplaces
    rw [relative_chain, relative_chain, hchain, ne_eq, List.append_left_inj, List.filter_eq_self]
    simp only [decide_eq_true_iff, not_forall]
    constructor
    · rintro ⟨name, hname, hgone⟩
      obtain ⟨gone, hfound, rfl⟩ := List.mem_map.1 ((h.mem_wrappers hfile).1 hname).1
      exact ⟨gone, hfound, fun hin => hgone (List.mem_map_of_mem hin),
        (h.mem_dependentPaths hplaces hfound hfile).2 hname⟩
    · rintro ⟨gone, hfound, hgone, hdependent⟩
      refine ⟨_, (h.mem_dependentPaths hplaces hfound hfile).1 hdependent, fun hname => hgone ?_⟩
      obtain ⟨kept, hin, hsame⟩ := List.mem_map.1 hname
      rwa [← List.inj_on_of_nodup_map h.distinct (hleft.subset hin) hfound hsame]

theorem listing_wrappedTwice : Listing (wrappedTwice.map FoundFile.relative) where
  relative := List.forall_mem_map.2 isRelative_wrappedTwice
  free := by decide
  distinct := by decide

-- Of two layouts in one directory the first one is deleted.
theorem chain_of_sublist_of_wrappedTwice :
    (wrappedTwice.eraseIdx 1).Sublist wrappedTwice ∧
    ∃ before ∈ (ofFound wrappedTwice).files, ∃ after ∈ (ofFound (wrappedTwice.eraseIdx 1)).files,
      after.relative = "blog/page.html" ∧
      ((ofFound wrappedTwice).chain before).map ContentFile.relative =
        ["~layout-a.html", "~layout-b.html", "blog/~layout.html", "blog/page.html"] ∧
      ((ofFound (wrappedTwice.eraseIdx 1)).chain after).map ContentFile.relative =
        ["~layout-b.html", "blog/~layout.html", "blog/page.html"] ∧
      ∃ gone ∈ wrappedTwice, gone ∉ wrappedTwice.eraseIdx 1 ∧
        "blog/page.html" ∈ (ofFound wrappedTwice).dependentPaths gone.absolute := by
  have hleft : (wrappedTwice.eraseIdx 1).Sublist wrappedTwice := List.eraseIdx_sublist _ 1
  obtain ⟨before, hbefore, after, hafter, hname, hname', hchain, hchanged⟩ :=
    chain_of_sublist listing_wrappedTwice hleft
      (show Disk.foundAt ["src"] ["page.html", "blog"] ∈ wrappedTwice.eraseIdx 1 by decide)
  rw [show (Disk.foundAt ["src"] ["page.html", "blog"]).relative = "blog/page.html" by decide]
    at hname hname' hchanged
  have hfiles : (ofFound wrappedTwice).files =
      [⟨"blog/page.html", ⟨"/src/blog/page.html"⟩, false, [1, 2, 3]⟩,
        ⟨"~layout-a.html", ⟨"/src/~layout-a.html"⟩, false, [2]⟩,
        ⟨"~layout-b.html", ⟨"/src/~layout-b.html"⟩, false, [1]⟩,
        ⟨"blog/~layout.html", ⟨"/src/blog/~layout.html"⟩, false, [1, 2]⟩] := by
    cbv
  have hpage : before = ⟨"blog/page.html", ⟨"/src/blog/page.html"⟩, false, [1, 2, 3]⟩ := by
    rw [hfiles] at hbefore
    exact (by decide : ∀ content ∈ _, ContentFile.relative content = "blog/page.html" →
      content = ⟨"blog/page.html", ⟨"/src/blog/page.html"⟩, false, [1, 2, 3]⟩) before hbefore hname
  have hwhole : ((ofFound wrappedTwice).chain before).map ContentFile.relative =
      ["~layout-a.html", "~layout-b.html", "blog/~layout.html", "blog/page.html"] := by
    rw [hpage, chain, hfiles]
    decide
  have hrest : ((ofFound (wrappedTwice.eraseIdx 1)).chain after).map ContentFile.relative =
      ["~layout-b.html", "blog/~layout.html", "blog/page.html"] := by
    rw [hchain, hwhole]
    decide
  refine ⟨hleft, before, hbefore, after, hafter, hname', hwhole, hrest, ?_⟩
  have hplaces : wrappedTwice.map FoundFile.absolute =
      (wrappedTwice.map FoundFile.relative).map fun name => (Location.path ["src"]).join ⟨name⟩ := by
    decide
  rw [hwhole, hrest, hplaces] at hchanged
  exact (hchanged (pairwise_join (by unfold Location.Named; decide) listing_wrappedTwice.relative
    listing_wrappedTwice.distinct)).1 (by decide)

-- The order of the list does not matter to the chains where no directory has two layouts.
theorem chain_of_perm {others : List FoundFile} (h : Listing (found.map FoundFile.relative))
    (hperm : (found.map FoundFile.relative).Perm (others.map FoundFile.relative))
    (hsingle : ∀ one ∈ found, ∀ next ∈ found,
      "~layout".toList <+: (baseName one.relative).toList →
      "~layout".toList <+: (baseName next.relative).toList →
        one.directories = next.directories → one.relative = next.relative) :
    ∀ before ∈ (ofFound found).files, ∃ after ∈ (ofFound others).files,
      after.relative = before.relative ∧
      ((ofFound others).chain after).map ContentFile.relative =
        ((ofFound found).chain before).map ContentFile.relative := by
  intro before hbefore
  obtain ⟨index, hindex⟩ := List.getElem?_of_mem hbefore
  obtain ⟨file, hfile, rfl⟩ := Option.map_eq_some_iff.1 ((getElem?_ofFound ..).symm.trans hindex)
  obtain ⟨page, hpage, hsame⟩ := List.mem_map.1
    (hperm.mem_iff.1 (List.mem_map_of_mem (List.mem_of_getElem? hfile)))
  obtain ⟨other, hother⟩ := List.getElem?_of_mem hpage
  have hafter : (ofFound others).files[other]? = some (dependent others other page) := by
    rw [getElem?_ofFound, hother, Option.map_some]
  have hmem : ∀ name, name ∈ wrappers others other page ↔ name ∈ wrappers found index file := by
    intro name
    rw [(h.perm hperm).mem_wrappers hother, h.mem_wrappers hfile, hperm.mem_iff, hsame]
  have hsorted : (wrappers others other page).Pairwise (Outer (found.map FoundFile.relative)) :=
    ((h.perm hperm).pairwise_wrappers hother).imp_of_mem fun hone hnext horder =>
      .inl (h.depth_lt_of_outer hsingle hfile ((hmem _).1 hone) ((hmem _).1 hnext) horder)
  refine ⟨_, List.mem_of_getElem? hafter, hsame, ?_⟩
  rw [relative_chain, relative_chain, hsame,
    hsorted.eq_of_mem_iff (h.pairwise_wrappers hfile) hmem]

-- A layout in each of two directories. The reversed list names the inner one first.
def wrappedOnce : List FoundFile :=
  [["page.html", "blog"], ["~layout.html"], ["~layout.html", "blog"]].map (Disk.foundAt ["src"])

theorem chain_of_perm_of_reverse :
    (wrappedOnce.map FoundFile.relative).Perm (wrappedOnce.reverse.map FoundFile.relative) ∧
    ∃ after ∈ (ofFound wrappedOnce.reverse).files, after.relative = "blog/page.html" ∧
      ((ofFound wrappedOnce.reverse).chain after).map ContentFile.relative =
        ["~layout.html", "blog/~layout.html", "blog/page.html"] := by
  have hlisting : Listing (wrappedOnce.map FoundFile.relative) := by
    refine ⟨List.forall_mem_map.2 (isRelative_foundAt ?_), by decide, by decide⟩
    unfold Location.Named
    decide
  have hperm : (wrappedOnce.map FoundFile.relative).Perm
      (wrappedOnce.reverse.map FoundFile.relative) := (List.reverse_perm wrappedOnce).symm.map _
  have hfiles : (ofFound wrappedOnce).files =
      [⟨"blog/page.html", ⟨"/src/blog/page.html"⟩, false, [1, 2]⟩,
        ⟨"~layout.html", ⟨"/src/~layout.html"⟩, false, []⟩,
        ⟨"blog/~layout.html", ⟨"/src/blog/~layout.html"⟩, false, [1]⟩] := by
    cbv
  have hchains := chain_of_perm hlisting hperm (by decide)
  rw [hfiles] at hchains
  obtain ⟨after, hafter, hname, hchain⟩ := hchains _ List.mem_cons_self
  refine ⟨hperm, after, hafter, hname, hchain.trans ?_⟩
  rw [chain, hfiles]
  decide

end StaticSite.SourceTree
