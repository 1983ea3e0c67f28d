import StaticSite.Proofs.Tree.Chain

-- A page is told by its own text and those of the layouts that wrap it.
namespace StaticSite.Disk

variable {disk other : Disk} {root file page : Location} {files : List Location}

theorem mem_pagesBelow : file ∈ disk.pagesBelow root ↔
    file ∈ disk.listed root ∧ isPageName (file.headD "") = true :=
  List.mem_filter

theorem pairwise_pagesBelow (disk : Disk) (root : Location) :
    (disk.pagesBelow root).Pairwise Location.Before :=
  (pairwise_listed disk root).filter _

theorem places_pagesBelow (disk : Disk) (root : Location) :
    SourceTree.Places (disk.pagesBelow root) := by
  refine ⟨(pairwise_pagesBelow disk root).imp ?_, fun file hmem => ?_⟩
  · rintro left right hbefore rfl
    exact Std.Irrefl.irrefl left hbefore
  · have hlisted := (mem_pagesBelow.1 hmem).1
    exact ⟨(mem_listed.1 hlisted).1, (named_of_mem_listed hlisted).of_append_left⟩

theorem pagesBelow_congr (h : ∀ below, disk.file? (below ++ root) = other.file? (below ++ root)) :
    disk.pagesBelow root = other.pagesBelow root := by
  have hlisted : disk.listed root = other.listed root := listed_congr fun below => by rw [h below]
  rw [pagesBelow, pagesBelow, hlisted]

theorem sourceAt_congr (hfollow : Location.Followable (file ++ root))
    (hfile : (disk.file? (file ++ root)).isSome)
    (h : disk.file? (file ++ root) = other.file? (file ++ root)) :
    disk.sourceAt root file = other.sourceAt root file := by
  obtain ⟨content, hcontent⟩ := Option.isSome_iff_exists.1 hfile
  have hnamed : Location.Named (file ++ root) := named_of_kind? (file?_eq_some.1 hcontent)
  have hread := (read_path hnamed).2 ⟨hfollow, hcontent⟩
  have hread' := (read_path hnamed).2 ⟨hfollow, h ▸ hcontent⟩
  have habsolute : (contentAt root file).absolute = Location.path (file ++ root) := rfl
  rw [sourceAt, sourceAt, source, source, habsolute, readText, readText, hread, hread']

-- Two disks make the same page if they agree on all that is a part of it.
theorem pageAt_congr (hpage : page ∈ disk.pagesBelow root)
    (h : ∀ file : Location, file = page ∨ file.wraps page →
      (file ∈ disk.pagesBelow root ↔ file ∈ other.pagesBelow root) ∧
        (file ∈ disk.pagesBelow root →
          disk.file? (file ++ root) = other.file? (file ++ root))) :
    disk.pageAt root (disk.pagesBelow root) page =
      other.pageAt root (other.pagesBelow root) page := by
  have hchain : Location.chain (disk.pagesBelow root) page =
      Location.chain (other.pagesBelow root) page :=
    Location.chain_congr (pairwise_pagesBelow disk root) (pairwise_pagesBelow other root)
      fun layout hwraps => (h layout (.inr hwraps)).1
  rw [pageAt, pageAt, ← hchain]
  congr 2
  refine List.map_congr_left fun file hfile => ?_
  have hpart := Location.mem_chain.1 hfile
  have hmem : file ∈ disk.pagesBelow root := by
    rcases hpart with rfl | ⟨hmem, -⟩
    · exact hpage
    · exact hmem
  obtain ⟨-, hfollow, hsome⟩ := mem_listed.1 (mem_pagesBelow.1 hmem).1
  exact sourceAt_congr hfollow hsome
    ((h file (hpart.imp_right fun hwrapping => hwrapping.2)).2 hmem)

end StaticSite.Disk
