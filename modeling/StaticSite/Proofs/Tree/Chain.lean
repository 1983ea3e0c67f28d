import StaticSite.Build.File
import StaticSite.Proofs.Path.Relative
import StaticSite.Proofs.Scan.Found

-- The files that a page is composed of, told by their places below the root of the tree.
namespace StaticSite

namespace Location

variable {layout page : Location}

-- Files whose name starts with a tilde are kept out of the output, and some of them are layouts.
def isHidden (file : Location) : Bool :=
  "~".toList.isPrefixOf (file.headD "").toList

def isLayout (file : Location) : Bool :=
  "~layout".toList.isPrefixOf (file.headD "").toList

-- A layout wraps the other files of its directory and of the directories below.
def wraps (layout page : Location) : Bool :=
  layout.isLayout && (layout != page && Disk.within layout.tail page)

theorem isHidden_of_isLayout {file : Location} (h : file.isLayout = true) :
    file.isHidden = true := by
  rw [isLayout, List.isPrefixOf_iff_prefix] at h
  rw [isHidden, List.isPrefixOf_iff_prefix]
  exact (show "~".toList <+: "~layout".toList by decide).trans h

end Location

namespace Path

theorem dropCommon_fst_eq_nil {α : Type} [DecidableEq α] {left right : List α} :
    (dropCommon left right).1 = [] ↔ left <+: right := by
  induction left generalizing right with
  | nil => simp [dropCommon]
  | cons a left ih =>
      cases right with
      | nil => simp [dropCommon]
      | cons b right =>
          rw [dropCommon]
          split
          · next heq => rw [ih, List.cons_prefix_cons, and_iff_right heq]
          · next hne => simp [List.cons_prefix_cons, hne]

theorem dropCommon_snd_suffix {α : Type} [DecidableEq α] (left right : List α) :
    (dropCommon left right).2 <:+ right := by
  induction left generalizing right with
  | nil => exact List.suffix_rfl
  | cons a left ih =>
      cases right with
      | nil => exact List.suffix_rfl
      | cons b right =>
          rw [dropCommon]
          split
          · exact (ih right).trans (List.suffix_cons _ _)
          · exact List.suffix_rfl

-- The way to a place goes up unless it leads on from the base.
theorem hasParentSegment_relativeTo {base target : Location} (hbase : base.Named)
    (htarget : target.Named) :
    (relativeTo ⟨"/".intercalate base.reverse⟩ ⟨"/".intercalate target.reverse⟩).hasParentSegment =
      !Disk.within base target := by
  rw [relativeTo, Location.normalComponents_names hbase, Location.normalComponents_names htarget]
  dsimp only
  have hsuffix := dropCommon_snd_suffix (base.reverse.map Component.name)
    (target.reverse.map Component.name)
  have hnil : (dropCommon (base.reverse.map Component.name) (target.reverse.map .name)).1 = [] ↔
      base.reverse.map Component.name <+: target.reverse.map .name := dropCommon_fst_eq_nil
  generalize dropCommon (base.reverse.map Component.name) (target.reverse.map Component.name) =
    parts at hsuffix hnil
  obtain ⟨left, right⟩ := parts
  have hright : ∀ part ∈ right, part.IsPlain ∧ part ≠ .up := by
    intro part hmem
    obtain ⟨name, hname, rfl⟩ := List.mem_map.1 (hsuffix.subset hmem)
    exact ⟨.name (htarget name (List.mem_reverse.1 hname)), by simp⟩
  have hhead : right.head? ≠ some .root := by
    intro hroot
    exact (hright .root (List.mem_of_head? hroot)).1.ne_root rfl
  have hplain : ∀ part ∈ left.map (fun _ => Component.up) ++ right, part.IsPlain := by
    intro part hmem
    rcases List.mem_append.1 hmem with hmem | hmem
    · obtain ⟨_, -, rfl⟩ := List.mem_map.1 hmem
      exact .up
    · exact (hright part hmem).1
  have hinj : Function.Injective Component.name := fun _ _ h => Component.name.inj h
  have hwithin : left = [] ↔ Disk.within base target := by
    rw [hnil, List.prefix_map_iff_of_injective hinj, List.reverse_prefix, Disk.within,
      List.isSuffixOf_iff_suffix]
  dsimp only
  rw [if_neg hhead, hasParentSegment, components_ofComponents hplain, Bool.eq_iff_iff,
    List.contains_iff_mem]
  simp only [Bool.not_eq_true', ← Bool.not_eq_true, ← hwithin]
  constructor
  · intro hmem hleft
    subst hleft
    exact (hright .up (by simpa using hmem)).2 rfl
  · intro hne
    obtain ⟨first, rest, rfl⟩ := List.exists_cons_of_ne_nil hne
    simp

end Path

namespace Disk

variable {root file layout page : Location}

-- The file of the tree that lies at a place below the root.
def contentAt (root file : Location) : ContentFile :=
  .ofFound (foundAt root file)

-- The relative path tells the place.
theorem relative_foundAt_inj (root : Location) {other : Location} (hnamed : file.Named)
    (hnamed' : other.Named) :
    (foundAt root file).relative = (foundAt root other).relative ↔ file = other := by
  exact ⟨Location.names_injective hnamed hnamed', fun heq => by rw [heq]⟩

theorem baseName_foundAt (root : Location) (hne : file ≠ []) (hnamed : file.Named) :
    baseName (foundAt root file).relative = file.headD "" := by
  obtain ⟨name, rest, rfl⟩ := List.exists_cons_of_ne_nil hne
  rw [baseName, foundAt, Location.segments_names hne hnamed]
  simp

theorem isHidden_contentAt (hne : file ≠ []) (hnamed : file.Named) :
    (contentAt root file).isHidden = file.isHidden := by
  rw [ContentFile.isHidden, Location.isHidden, ← baseName_foundAt root hne hnamed]
  rfl

theorem isLayout_contentAt (hne : file ≠ []) (hnamed : file.Named) :
    (contentAt root file).isLayout = file.isLayout := by
  rw [ContentFile.isLayout, Location.isLayout, ← baseName_foundAt root hne hnamed]
  rfl

theorem depth_contentAt (hne : file ≠ []) (hnamed : file.Named) :
    (contentAt root file).depth = file.length - 1 := by
  have hrelative : (contentAt root file).relative = "/".intercalate file.reverse := rfl
  rw [ContentFile.depth, hrelative, Location.segments_names hne hnamed, List.length_reverse]

theorem contains_contentAt (hne : layout ≠ []) (hlayout : layout.Named) (hpage : page.Named) :
    (contentAt root layout).contains (contentAt root page) = within layout.tail page := by
  have hrelative : (contentAt root layout).relative = "/".intercalate layout.reverse := rfl
  have hdirectory : (contentAt root layout).directory =
      ⟨"/".intercalate layout.tail.reverse⟩ := by
    rw [ContentFile.directory, hrelative, Location.segments_names hne hlayout,
      List.dropLast_reverse]
  have htail : Location.Named layout.tail := fun name hmem =>
    hlayout name (List.mem_of_mem_tail hmem)
  have hpath : Path.mk (contentAt root page).relative = ⟨"/".intercalate page.reverse⟩ := rfl
  rw [ContentFile.contains, hdirectory, hpath, Path.hasParentSegment_relativeTo htail hpage,
    Bool.not_not]

end Disk

section Places

variable {α β : Type}

theorem filterMap_range (values : List α) :
    (List.range values.length).filterMap (values[·]?) = values := by
  induction values with
  | nil => rfl
  | cons value rest ih =>
      rw [List.length_cons, List.range_succ_eq_map, List.filterMap_cons]
      simp only [List.getElem?_cons_zero, List.filterMap_map]
      exact congrArg (value :: ·) ih

-- The values at the places where a condition holds are the values that meet it.
theorem filterMap_filter_range (values : List α) (p : α → Bool) :
    ((List.range values.length).filter fun index => values[index]?.any p).filterMap (values[·]?) =
      values.filter p := by
  have hfilter := congrArg (List.filter p) (filterMap_range values)
  rw [List.filter_filterMap] at hfilter
  rw [← hfilter, List.filterMap_filter]
  congr 1
  funext index
  cases values[index]? with
  | none => simp
  | some value => cases h : p value <;> simp [h, Option.filter]

theorem map_getD_eq_filterMap {values : List α} {indices : List Nat} (default : α)
    (h : ∀ index ∈ indices, index < values.length) :
    indices.map (fun index => values[index]?.getD default) = indices.filterMap (values[·]?) := by
  induction indices with
  | nil => rfl
  | cons index rest ih =>
      have hindex := h index List.mem_cons_self
      rw [List.map_cons, List.filterMap_cons, List.getElem?_eq_getElem hindex,
        ih fun other hmem => h other (List.mem_cons_of_mem _ hmem)]
      rfl

-- Sorting by a number keeps the order of the list among values of one number.
theorem pairwise_mergeSort_key (key : α → Nat) {R : α → α → Prop} {values : List α}
    (h : values.Pairwise R) :
    (values.mergeSort fun left right => decide (key left ≤ key right)).Pairwise
      fun left right => key left < key right ∨ key left = key right ∧ R left right := by
  have htrans : ∀ a b c, decide (key a ≤ key b) → decide (key b ≤ key c) →
      decide (key a ≤ key c) := by
    simp only [decide_eq_true_iff]
    omega
  have htotal : ∀ a b, decide (key a ≤ key b) || decide (key b ≤ key a) := by
    simp only [Bool.or_eq_true, decide_eq_true_iff]
    omega
  rw [List.pairwise_iff_forall_sublist]
  intro left right hpair
  have hle : key left ≤ key right := by
    have := (List.pairwise_iff_forall_sublist.1
      (List.pairwise_mergeSort htrans htotal values)) hpair
    simpa using this
  by_cases hlt : key left < key right
  · exact .inl hlt
  · have heq : key left = key right := by omega
    refine .inr ⟨heq, ?_⟩
    let level : α → Bool := fun value => key value = key left
    have hsame : (values.filter level).Pairwise fun a b => decide (key a ≤ key b) = true := by
      rw [List.pairwise_iff_forall_sublist]
      intro a b hab
      have ha := List.of_mem_filter (hab.subset List.mem_cons_self)
      have hb := List.of_mem_filter (hab.subset (List.mem_cons_of_mem _ List.mem_cons_self))
      simp only [level, decide_eq_true_iff] at ha hb ⊢
      omega
    have hsub := (List.sublist_mergeSort htrans htotal hsame List.filter_sublist).filter level
    rw [List.filter_filter] at hsub
    simp only [Bool.and_self] at hsub
    have hlength := ((List.mergeSort_perm values
      fun left right => decide (key left ≤ key right)).filter level).length_eq
    have hlevel := hsub.eq_of_length hlength.symm
    have hinside : [left, right].Sublist (values.filter level) := by
      rw [hlevel]
      have := hpair.filter level
      simpa [level, heq] using this
    exact List.pairwise_iff_forall_sublist.1 h (hinside.trans List.filter_sublist)

end Places

namespace Location

-- The layouts, those near the root first and those of one depth in the order of the list.
def layouts (files : List Location) : List Location :=
  (files.filter isLayout).mergeSort fun left right => decide (left.length ≤ right.length)

-- The files a page is composed of, the outermost layout first and the page itself last.
def chain (files : List Location) (page : Location) : List Location :=
  (layouts files).filter (·.wraps page) ++ [page]

-- Nearer to the root, or earlier among places of the same depth.
def Outer (left right : Location) : Prop :=
  left.length < right.length ∨ left.length = right.length ∧ left.Before right

instance : Std.Irrefl Outer where
  irrefl location h := by
    rcases h with h | ⟨-, h⟩
    · exact Nat.lt_irrefl _ h
    · exact Std.Irrefl.irrefl location h

instance : Std.Antisymm Outer where
  antisymm left right h h' := by
    rcases h with h | ⟨heq, h⟩
    · rcases h' with h' | ⟨heq', -⟩ <;> omega
    · rcases h' with h' | ⟨-, h'⟩
      · omega
      · exact Std.Antisymm.antisymm left right h h'

-- The order of sorting keeps the order of the list among places of one depth.
theorem pairwise_layouts {files : List Location} (h : files.Pairwise Before) :
    (layouts files).Pairwise Outer :=
  pairwise_mergeSort_key List.length (h.filter _)

theorem mem_layouts {files : List Location} {layout : Location} :
    layout ∈ layouts files ↔ layout ∈ files ∧ layout.isLayout = true := by
  rw [layouts, List.mem_mergeSort, List.mem_filter]

-- The chain of a page is told by which layouts wrap it.
theorem chain_congr {files others : List Location} {page : Location}
    (hfiles : files.Pairwise Before) (hothers : others.Pairwise Before)
    (h : ∀ layout : Location, layout.wraps page → (layout ∈ files ↔ layout ∈ others)) :
    chain files page = chain others page := by
  have hwraps : ∀ layout, layout ∈ (layouts files).filter (·.wraps page) ↔
      layout ∈ (layouts others).filter (·.wraps page) := by
    intro layout
    rw [List.mem_filter, List.mem_filter, mem_layouts, mem_layouts]
    constructor
    · rintro ⟨⟨hmem, hlayout⟩, hwrap⟩
      exact ⟨⟨(h layout hwrap).1 hmem, hlayout⟩, hwrap⟩
    · rintro ⟨⟨hmem, hlayout⟩, hwrap⟩
      exact ⟨⟨(h layout hwrap).2 hmem, hlayout⟩, hwrap⟩
  rw [chain, chain, ((pairwise_layouts hfiles).filter _).eq_of_mem_iff
    ((pairwise_layouts hothers).filter _) hwraps]

theorem mem_chain {files : List Location} {page file : Location} :
    file ∈ chain files page ↔ file = page ∨ file ∈ files ∧ file.wraps page = true := by
  rw [chain, List.mem_append, List.mem_filter, mem_layouts, List.mem_singleton]
  constructor
  · rintro (⟨⟨hmem, -⟩, hwrap⟩ | heq)
    · exact .inr ⟨hmem, hwrap⟩
    · exact .inl heq
  · rintro (heq | ⟨hmem, hwrap⟩)
    · exact .inr heq
    · have hlayout : file.isLayout = true := (Bool.and_eq_true_iff.1 hwrap).1
      exact .inl ⟨⟨hmem, hlayout⟩, hwrap⟩

end Location

namespace Disk

-- The source that lies at a place below the root, as far as it can be read.
def sourceAt (disk : Disk) (root file : Location) :
    Except Template.ComposeError Template.Source :=
  disk.source (contentAt root file)

-- The page made of a file below the root and those of `files` that wrap it.
def pageAt (disk : Disk) (root : Location) (files : List Location) (page : Location) :
    Except Template.ComposeError (List Char) :=
  (Template.compose (foundAt root page).relative
    ((Location.chain files page).map (disk.sourceAt root))).1

end Disk

namespace SourceTree

variable {root file page : Location} {files : List Location}

-- A file of the tree made of a list, the one of the given number, with its dependencies.
def dependent (found : List FoundFile) (index : Nat) (file : FoundFile) : ContentFile :=
  { ContentFile.ofFound file with
    dependencies := (layoutOrder (found.map .ofFound)).filter fun layout =>
      layout != index &&
        (found.map ContentFile.ofFound)[layout]?.any (·.contains (.ofFound file)) }

theorem getElem?_ofFound (found : List FoundFile) (index : Nat) :
    (ofFound found).files[index]? = found[index]?.map (dependent found index) := by
  rw [ofFound, link, List.getElem?_mapIdx, List.getElem?_map, Option.map_map]
  rfl

-- Places below a root, each once.
def Places (files : List Location) : Prop :=
  files.Nodup ∧ ∀ file ∈ files, file ≠ [] ∧ file.Named

-- The tree of the files at places below the root.
def below (root : Location) (files : List Location) : SourceTree :=
  .ofFound (files.map (Disk.foundAt root))

-- A file of that tree with its dependencies, the one of the given number.
def linked (root : Location) (files : List Location) (index : Nat) (file : Location) :
    ContentFile :=
  { Disk.contentAt root file with
    dependencies := (layoutOrder (files.map (Disk.contentAt root))).filter fun layout =>
      layout != index &&
        (files.map (Disk.contentAt root))[layout]?.any (·.contains (Disk.contentAt root file)) }

theorem getElem?_below (root : Location) (files : List Location) (index : Nat) :
    (below root files).files[index]? = files[index]?.map (linked root files index) := by
  have hlinked : ∀ file, dependent (files.map (Disk.foundAt root)) index (Disk.foundAt root file) =
      linked root files index file := by
    intro file
    rw [dependent, List.map_map]
    rfl
  rw [below, getElem?_ofFound, List.getElem?_map, Option.map_map]
  exact congrArg (files[index]?.map ·) (funext hlinked)

theorem mem_files_below {content : ContentFile} : content ∈ (below root files).files ↔
    ∃ index file, files[index]? = some file ∧ content = linked root files index file := by
  rw [List.mem_iff_getElem?]
  constructor
  · rintro ⟨index, heq⟩
    rw [getElem?_below, Option.map_eq_some_iff] at heq
    obtain ⟨file, hfile, rfl⟩ := heq
    exact ⟨index, file, hfile, rfl⟩
  · rintro ⟨index, file, hfile, rfl⟩
    exact ⟨index, by rw [getElem?_below, hfile, Option.map_some]⟩

theorem eq_of_linked_eq (hfiles : Places files) (hfile : file ∈ files) (hpage : page ∈ files)
    {index other : Nat} (h : linked root files index file = linked root files other page) :
    file = page := by
  exact (Disk.relative_foundAt_inj root (hfiles.2 file hfile).2 (hfiles.2 page hpage).2).1
    (congrArg ContentFile.relative h)

theorem mem_layoutOrder {contents : List ContentFile} {index : Nat} :
    index ∈ layoutOrder contents ↔ ∃ content, contents[index]? = some content ∧
      content.isLayout = true := by
  rw [layoutOrder, List.mem_mergeSort, List.mem_filter, List.mem_range, Option.any_eq_true]
  constructor
  · rintro ⟨-, content, heq, hlayout⟩
    exact ⟨content, heq, hlayout⟩
  · rintro ⟨content, heq, hlayout⟩
    exact ⟨(List.getElem?_eq_some_iff.1 heq).1, content, heq, hlayout⟩

-- The layouts of the tree are those of the places, in the same order.
theorem filterMap_layoutOrder (root : Location) (hfiles : Places files) :
    (layoutOrder (files.map (Disk.contentAt root))).filterMap (files[·]?) =
      Location.layouts files := by
  have hindex : ∀ index ∈ (List.range (files.map (Disk.contentAt root)).length).filter
      (fun index => (files.map (Disk.contentAt root))[index]?.any ContentFile.isLayout),
        index < files.length := by
    intro index hmem
    simpa using (List.mem_filter.1 hmem).1
  have hpages : ((List.range (files.map (Disk.contentAt root)).length).filter
      fun index => (files.map (Disk.contentAt root))[index]?.any ContentFile.isLayout).map
        (fun index => files[index]?.getD []) = files.filter Location.isLayout := by
    rw [map_getD_eq_filterMap _ hindex, List.length_map]
    simp only [List.getElem?_map, Option.any_map]
    rw [filterMap_filter_range]
    refine List.filter_congr fun file hmem => ?_
    exact Disk.isLayout_contentAt (hfiles.2 file hmem).1 (hfiles.2 file hmem).2
  have hlayouts : ∀ index ∈ layoutOrder (files.map (Disk.contentAt root)),
      index < files.length := by
    intro index hmem
    exact hindex index (List.mem_mergeSort.1 hmem)
  rw [← map_getD_eq_filterMap [] hlayouts, layoutOrder, Location.layouts, ← hpages]
  refine List.map_mergeSort fun left hleft right hright => ?_
  have hdepth : ∀ index, index < files.length →
      (((files.map (Disk.contentAt root))[index]?.map ContentFile.depth).getD 0) + 1 =
        (files[index]?.getD []).length := by
    intro index hlt
    have hmem := List.getElem_mem hlt
    obtain ⟨hne, hnamed⟩ := hfiles.2 _ hmem
    rw [List.getElem?_map, List.getElem?_eq_getElem hlt, Option.map_some, Option.map_some,
      Option.getD_some, Option.getD_some, Disk.depth_contentAt hne hnamed]
    have := List.length_pos_iff.2 hne
    omega
  dsimp only
  rw [← hdepth left (hindex left hleft), ← hdepth right (hindex right hright)]
  simp

theorem filterMap_filter_of_agree {α β : Type} {f : α → Option β} {p : α → Bool} {q : β → Bool}
    {values : List α} (h : ∀ value ∈ values, ∀ image, f value = some image → p value = q image) :
    (values.filter p).filterMap f = (values.filterMap f).filter q := by
  rw [List.filterMap_filter, List.filter_filterMap]
  refine List.filterMap_congr fun value hmem => ?_
  cases hvalue : f value with
  | none => simp
  | some image =>
      rw [h value hmem image hvalue]
      cases hq : q image <;> simp [Option.filter, hq]

theorem index_ne_iff (hfiles : Places files) {left right : Nat} {first second : Location}
    (hleft : files[left]? = some first) (hright : files[right]? = some second) :
    (left != right) = (first != second) := by
  obtain ⟨hleftlt, rfl⟩ := List.getElem?_eq_some_iff.1 hleft
  obtain ⟨hrightlt, rfl⟩ := List.getElem?_eq_some_iff.1 hright
  rw [Bool.eq_iff_iff, bne_iff_ne, bne_iff_ne, ne_eq, ne_eq, hfiles.1.getElem_inj_iff]

-- A file depends on the layouts that wrap it.
theorem filterMap_dependencies (root : Location) (hfiles : Places files) {index : Nat}
    (hindex : files[index]? = some page) :
    (linked root files index page).dependencies.filterMap (files[·]?) =
      (Location.layouts files).filter (·.wraps page) := by
  rw [← filterMap_layoutOrder root hfiles, linked]
  refine filterMap_filter_of_agree fun layout hlayout image himage => ?_
  obtain ⟨content, hcontent, hwraps⟩ := mem_layoutOrder.1 hlayout
  rw [List.getElem?_map, himage, Option.map_some, Option.some.injEq] at hcontent
  subst hcontent
  obtain ⟨hne, hnamed⟩ := hfiles.2 image (List.mem_of_getElem? himage)
  obtain ⟨-, hpage⟩ := hfiles.2 page (List.mem_of_getElem? hindex)
  rw [Disk.isLayout_contentAt hne hnamed] at hwraps
  rw [Location.wraps, hwraps, Bool.true_and, index_ne_iff hfiles himage hindex, List.getElem?_map,
    himage, Option.map_some, Option.any_some, Disk.contains_contentAt hne hnamed hpage]

theorem mem_dependencies (hfiles : Places files) {index layout : Nat}
    (hindex : files[index]? = some page) (hlayout : files[layout]? = some file) :
    layout ∈ (linked root files index page).dependencies ↔ file.wraps page = true := by
  have hiff : file ∈ (linked root files index page).dependencies.filterMap (files[·]?) ↔
      file ∈ (Location.layouts files).filter (·.wraps page) := by
    rw [filterMap_dependencies root hfiles hindex]
  rw [List.mem_filterMap, List.mem_filter, Location.mem_layouts] at hiff
  constructor
  · intro hmem
    exact (hiff.1 ⟨layout, hmem, hlayout⟩).2
  · intro hwraps
    have hfile : file.isLayout = true := (Bool.and_eq_true_iff.1 hwraps).1
    obtain ⟨other, hmem, hother⟩ := hiff.2 ⟨⟨List.mem_of_getElem? hlayout, hfile⟩, hwraps⟩
    obtain ⟨hlt, hget⟩ := List.getElem?_eq_some_iff.1 hlayout
    obtain ⟨hlt', hget'⟩ := List.getElem?_eq_some_iff.1 hother
    rwa [← hfiles.1.getElem_inj_iff.1 (hget'.trans hget.symm)]

-- A page of the tree is composed of the sources at the places of its chain.
theorem composePage_below {disk : Disk} (hfiles : Places files) {index : Nat}
    (hindex : files[index]? = some page) :
    disk.composePage (below root files) (linked root files index page) =
      disk.pageAt root files page := by
  have hchain : ((below root files).chain (linked root files index page)).map disk.source =
      (Location.chain files page).map (disk.sourceAt root) := by
    rw [chain, Location.chain, List.map_append, List.map_append,
      ← filterMap_dependencies root hfiles hindex, List.map_filterMap,
      List.map_filterMap]
    refine congrArg₂ (· ++ ·) (List.filterMap_congr fun layout _ => ?_) rfl
    rw [getElem?_below, Option.map_map]
    rfl
  rw [Disk.composePage, Disk.pageAt, hchain]
  rfl

end SourceTree

end StaticSite
