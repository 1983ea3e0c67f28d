import StaticSite.Proofs.Glob.Escape
import StaticSite.Proofs.Scan.Listing
import StaticSite.Proofs.Scan.Root

-- A search below a directory finds the files below it that a disk can follow a path to, in the
-- order in which the directory lists them.
namespace StaticSite

namespace Folder

theorem isName_of_get? {folder : Folder} (hordered : folder.Ordered) {names : List String}
    {entry : Entry} (h : folder.get? names = some entry) : ∀ name ∈ names, IsName name := by
  induction names generalizing folder with
  | nil => exact List.forall_mem_nil _
  | cons first rest ih =>
      rw [get?_cons] at h
      obtain ⟨inner, hfind, hrest⟩ := Option.bind_eq_some_iff.1 h
      obtain ⟨hfirst, hinner⟩ := ordered_of_find? hordered hfind
      refine List.forall_mem_cons.2 ⟨hfirst, ?_⟩
      by_cases hnil : rest = []
      · subst hnil
        exact List.forall_mem_nil _
      · rw [Entry.get?_of_ne_nil hnil] at hrest
        exact ih hinner hrest

theorem named_of_mem_entries {folder : Folder} (hordered : folder.Ordered) {below : Location}
    {entry : Entry} (h : (below, entry) ∈ folder.entries []) : below.Named := by
  obtain ⟨-, hget⟩ := (mem_entries hordered).1 h
  exact fun name hmem => isName_of_get? hordered hget name (List.mem_reverse.2 hmem)

end Folder

namespace Glob

variable {disk : Disk} {base : Path} {above : Location}

-- What a search sees of a place below a directory: its name and its path.
def seen (base : Path) (place : Location) : String × Path :=
  (place.headD "", way base place)

-- A path that no disk follows leads to nothing that matters.
theorem filter_below {keep : String × Path → Bool} {folder : Folder} (hordered : folder.Ordered)
    (hbase : IsSpelled base) (habove : above.Named)
    (hkeep : ∀ place, (way base place).check ≠ .ok () → keep (seen base place) = false) :
    (below (way base above) folder).filter keep =
      ((folder.entries above).map fun pair => seen base pair.1).filter keep := by
  induction folder generalizing above with
  | empty => rfl
  | file name content rest ih =>
      rw [below, Folder.entries, List.map_cons, List.filter_cons, List.filter_cons,
        ih hordered.2.2 habove, ← way_cons]
      rfl
  | directory name inside rest ihinside ihrest =>
      have hchild : Location.Named (name :: above) := habove.cons hordered.1
      have hinside : (if (way base (name :: above)).isTooLong then []
          else below (way base (name :: above)) inside).filter keep =
          ((inside.entries (name :: above)).map fun pair => seen base pair.1).filter keep := by
        split
        · next hlong =>
          symm
          rw [List.filter_nil, List.filter_eq_nil_iff]
          rintro pair hmem
          obtain ⟨⟨place, entry⟩, hplace, rfl⟩ := List.mem_map.1 hmem
          rw [Folder.entries_eq_map] at hplace
          obtain ⟨⟨lower, other⟩, hlower, heq⟩ := List.mem_map.1 hplace
          cases heq
          rw [Bool.not_eq_true]
          refine hkeep _ fun hcheck => ?_
          have hnamed := Folder.named_of_mem_entries hordered.2.2.1 hlower
          rw [way_append] at hcheck
          have hshort := check_of_check_way (isSpelled_way hbase hchild) hnamed hcheck
          have := (Location.check_eq_ok_iff.1 hshort).2.2
          simp only [Path.isTooLong, decide_eq_true_iff] at hlong
          omega
        · exact ihinside hordered.2.2.1 hchild
      rw [below, Folder.entries]
      simp only [← way_cons]
      simp only [List.cons_append, List.map_cons, List.map_append, List.filter_cons,
        List.filter_append, hinside, ihrest hordered.2.2.2 habove]
      rfl

theorem search_deep {step : Step} (hstep : step ≠ .deep) (path : Path) :
    search disk false [.deep, step] path =
      ((below path (disk.inside path)).filter fun pair => step.accepts pair.1).map (·.2) := by
  have hflat : ∀ found : List (String × Path),
      (found.flatMap fun pair =>
        if step.accepts pair.1 then search disk false [] pair.2 else []) =
      (found.filter fun pair => step.accepts pair.1).map (·.2) := by
    intro found
    induction found with
    | nil => rfl
    | cons pair rest ih =>
        rw [List.flatMap_cons, ih, List.filter_cons]
        split <;> simp [search]
  rw [search]
  · exact hflat _
  · exact hstep

end Glob

namespace Disk

variable {disk : Disk} {path base : Path} {trail : Trail}

theorem isFile_of_check (h : path.check ≠ .ok ()) : disk.isFile path = false := by
  rw [isFile, entry?]
  split
  · next spot hfind => exact absurd (check_of_find hfind).1 h
  · rfl

theorem inside_of_isDirectory_eq_false (h : disk.isDirectory path = false) :
    disk.inside path = .empty := by
  rw [isDirectory] at h
  rw [inside]
  cases hentry : disk.entry? path with
  | none => rfl
  | some entry =>
      cases entry with
      | file content => rfl
      | directory inside => simp [hentry, Entry.isDirectory] at h

theorem inside_of_lead (hcheck : path.check = .ok ())
    (hlead : disk.lead path = .ok (.directory trail)) :
    disk.inside path = trail.inside disk := by
  rw [inside, entry?, find_of_lead hcheck hlead fun _ => rfl]
  rfl

-- The files below a directory that a disk can follow the search to, each as the way that leads
-- there from the directory.
def reached (base : Path) (folder : Folder) : List Location :=
  ((folder.entries []).filter fun (below, entry) =>
    !entry.isDirectory && decide ((Glob.way base below).check = .ok ())).map (·.1)

theorem mem_reached {folder : Folder} (hordered : folder.Ordered) {below : Location} :
    below ∈ reached base folder ↔ below ≠ [] ∧ (Glob.way base below).check = .ok () ∧
      ∃ content, folder.get? below.reverse = some (.file content) := by
  simp only [reached, List.mem_map, List.mem_filter, Folder.mem_entries hordered, Prod.exists,
    Bool.and_eq_true, Bool.not_eq_true', decide_eq_true_iff, exists_and_right, exists_eq_right]
  constructor
  · rintro ⟨entry, ⟨hne, hget⟩, hfile, hcheck⟩
    cases entry with
    | directory inside => cases hfile
    | file content => exact ⟨hne, hcheck, content, hget⟩
  · rintro ⟨hne, hcheck, content, hget⟩
    exact ⟨.file content, ⟨hne, hget⟩, rfl, hcheck⟩

theorem named_of_mem_reached {folder : Folder} (hordered : folder.Ordered) {below : Location}
    (h : below ∈ reached base folder) : below.Named := by
  obtain ⟨-, -, content, hget⟩ := (mem_reached hordered).1 h
  exact fun name hmem => Folder.isName_of_get? hordered hget name (List.mem_reverse.2 hmem)

theorem pairwise_reached {folder : Folder} (hordered : folder.Ordered) (base : Path) :
    (reached base folder).Pairwise Location.Before := by
  rw [reached, List.pairwise_map]
  exact (Folder.pairwise_entries hordered).filter _

theorem isFile_way (hbase : Glob.IsSpelled base) (hlead : disk.lead base = .ok (.directory trail))
    (hordered : (trail.inside disk).Ordered) {below : Location} {entry : Entry}
    (h : (below, entry) ∈ (trail.inside disk).entries []) : disk.isFile (Glob.way base below) =
      (!entry.isDirectory && decide ((Glob.way base below).check = .ok ())) := by
  obtain ⟨hne, hget⟩ := (Folder.mem_entries hordered).1 h
  rw [isFile, Glob.entry?_way hbase hlead hne (Folder.named_of_mem_entries hordered h), hget]
  by_cases hfollow : (Glob.way base below).check = .ok () <;> simp [hfollow]

theorem reached_eq_nil (hbase : Glob.IsSpelled base) {folder : Folder}
    (hordered : folder.Ordered) (h : base.check ≠ .ok ()) : reached base folder = [] := by
  rw [List.eq_nil_iff_forall_not_mem]
  intro below hmem
  exact h (Glob.check_of_check_way hbase (named_of_mem_reached hordered hmem)
    ((mem_reached hordered).1 hmem).2.1)

-- What a search at any depth finds below a directory, as far as it is files.
theorem filter_isFile_search_deep {step : Glob.Step} (hstep : step ≠ .deep)
    (hbase : Glob.IsSpelled base) (hlead : disk.lead base = .ok (.directory trail))
    (hordered : (trail.inside disk).Ordered) :
    (Glob.search disk false [.deep, step] base).filter disk.isFile =
      ((reached base (trail.inside disk)).filter fun below => step.accepts (below.headD "")).map
        (Glob.way base) := by
  rw [Glob.search_deep hstep]
  by_cases hcheck : base.check = .ok ()
  · let keep : String × Path → Bool := fun pair => disk.isFile pair.2 && step.accepts pair.1
    have hkeep : ∀ place, (Glob.way base place).check ≠ .ok () →
        keep (Glob.seen base place) = false := by
      intro place hnot
      have hfile : disk.isFile (Glob.way base place) = false := isFile_of_check hnot
      simp [keep, Glob.seen, hfile]
    have hsame : ∀ pair ∈ (trail.inside disk).entries [], keep (Glob.seen base pair.1) =
        (step.accepts (pair.1.headD "") &&
          (!pair.2.isDirectory && decide ((Glob.way base pair.1).check = .ok ()))) := by
      rintro ⟨below, entry⟩ hmem
      simp only [keep, Glob.seen]
      rw [isFile_way hbase hlead hordered hmem, Bool.and_comm]
    have hfilter := @Glob.filter_below base [] keep _ hordered hbase (List.forall_mem_nil _) hkeep
    calc (((Glob.below base (disk.inside base)).filter
            fun pair => step.accepts pair.1).map (·.2)).filter disk.isFile
        = ((Glob.below base (trail.inside disk)).filter keep).map (·.2) := by
          rw [inside_of_lead hcheck hlead, List.filter_map, List.filter_filter]
          rfl
      _ = ((((trail.inside disk).entries []).filter fun pair => keep (Glob.seen base pair.1)).map
            fun pair => Glob.way base pair.1) := by
          rw [show Glob.below base (trail.inside disk) =
            Glob.below (Glob.way base []) (trail.inside disk) from rfl, hfilter,
            List.filter_map, List.map_map]
          rfl
      _ = _ := by
          rw [List.filter_congr hsame, reached, List.filter_map, List.map_map, List.filter_filter]
          rfl
  · have hnot : disk.isDirectory base = false := by
      rw [Bool.eq_false_iff, ne_eq, isDirectory_iff]
      exact fun h => hcheck h.1
    rw [inside_of_isDirectory_eq_false hnot, reached_eq_nil hbase hordered hcheck]
    rfl

end Disk

namespace Folder

theorem nodup_names {folder : Folder} (hordered : folder.Ordered) : folder.names.Nodup := by
  induction hordered using Ordered.induction with
  | empty => exact .nil
  | cons name entry rest hname hentry hlt hrest ihinside ihrest =>
      rw [names_cons, List.nodup_cons]
      exact ⟨fun hmem => String.lt_irrefl name (hlt name hmem), ihrest⟩

theorem mem_names_of_find? {folder : Folder} {name : String} {entry : Entry}
    (h : folder.find? name = some entry) : name ∈ folder.names := by
  by_contra hmem
  rw [find?_eq_none_of_not_mem hmem] at h
  cases h

end Folder

namespace Glob

variable {disk : Disk} {path : Path} {segment : String} {rest : List Step}

theorem flatMap_if_eq {α : Type} {names : List String} {name : String} (hnodup : names.Nodup)
    (found : String → List α) :
    (names.flatMap fun other => if other = name then found other else []) =
      if name ∈ names then found name else [] := by
  induction names with
  | nil => simp
  | cons first rest ih =>
      obtain ⟨hnot, hrest⟩ := List.nodup_cons.1 hnodup
      rw [List.flatMap_cons, ih hrest]
      by_cases heq : first = name
      · subst heq
        simp [hnot]
      · simp [heq, Ne.symm heq]

theorem dots_exactTokens (h : IsName segment) : dots (segment.toList.map exactToken) = [] := by
  unfold dots
  split
  · rw [List.filter_eq_nil_iff]
    intro dot hmem hmatch
    obtain rfl := String.toList_inj.1 ((matchesName_exactTokens _ _).1 hmatch)
    simp only [List.mem_cons, List.not_mem_nil, or_false] at hmem
    rcases hmem with hparent | hsame
    · exact h.2.2.1 hparent
    · exact h.2.1 hsame
  · rfl

theorem flatMap_entries_exactTokens (found : Path → List Path) :
    ((entries path (disk.inside path)).flatMap fun pair =>
        if matchesName (segment.toList.map exactToken) pair.1.toList then found pair.2 else []) =
      if segment ∈ (disk.inside path).names then found (extend path segment) else [] := by
  rw [← flatMap_if_eq (Folder.nodup_names (disk.ordered_inside path))
    fun other => found (extend path other), entries, List.flatMap_map]
  congr 1
  funext other
  have hmatch : matchesName (segment.toList.map exactToken) other.toList = true ↔
      other = segment := by
    rw [matchesName_exactTokens]
    exact String.toList_inj
  by_cases heq : other = segment
  · rw [if_pos heq]
    exact if_pos (hmatch.2 heq)
  · rw [if_neg heq]
    exact if_neg (mt hmatch.1 heq)

theorem mem_names_of_isDirectory_extend (hpath : IsSpelled path) (hname : IsName segment)
    (h : disk.isDirectory (extend path segment) = true) : segment ∈ (disk.inside path).names := by
  have hdirectory := isDirectory_of_isDirectory_extend hpath hname.2.2.2 h
  obtain ⟨-, spot, hlead, -⟩ := Disk.isDirectory_iff.1 h
  rw [lead_extend hpath hname.2.2.2, if_neg hname.1] at hlead
  obtain ⟨above, habove, henter⟩ := bind_eq_ok.1 hlead
  cases above with
  | file trail name content => cases henter
  | removed above => simp [Disk.enter, hname.2.1, hname.2.2.1] at henter
  | directory trail =>
      rw [Disk.inside_of_lead (Disk.isDirectory_iff.1 hdirectory).1 habove]
      simp only [Disk.enter, if_neg hname.2.1, if_neg hname.2.2.1] at henter
      cases hfind : (trail.inside disk).find? segment with
      | none => simp [hfind] at henter
      | some entry => exact Folder.mem_names_of_find? hfind

-- A level that stands for one segment leads to that segment or nowhere, and it leads there
-- wherever there is a directory.
theorem search_exactStep (hpath : IsSpelled path) (hslash : '/' ∉ segment.toList) :
    ∃ found : Bool, search disk false (exactStep segment :: rest) path =
        (if found then search disk false rest (extend path segment) else []) ∧
      (disk.isDirectory (extend path segment) = true → found = true) := by
  rcases exactStep_cases segment with hliteral | hnames
  · refine ⟨if segment = "." ∨ segment = ".." then disk.isDirectory path
      else disk.has (extend path segment), by rw [hliteral, search], fun hdirectory => ?_⟩
    split
    · exact isDirectory_of_isDirectory_extend hpath hslash hdirectory
    · rw [Disk.isDirectory, Option.any_eq_true] at hdirectory
      obtain ⟨entry, hentry, -⟩ := hdirectory
      rw [Disk.has, hentry, Option.isSome_some]
  · have hname : IsName segment := by
      refine ⟨?_, ?_, ?_, hslash⟩ <;> rintro rfl <;> exact absurd hnames (by decide)
    refine ⟨disk.isDirectory path && decide (segment ∈ (disk.inside path).names), ?_, ?_⟩
    · rw [hnames, search, dots_exactTokens hname]
      by_cases hdirectory : disk.isDirectory path = true
      · rw [if_neg (by simp [hdirectory]), hdirectory, Bool.true_and]
        refine (congrArg ([] ++ ·) (flatMap_entries_exactTokens _)).trans ?_
        by_cases hmem : segment ∈ (disk.inside path).names <;> simp [hmem]
      · rw [if_pos (by simpa using hdirectory), Bool.eq_false_iff.2 hdirectory]
        rfl
    · intro hdirectory
      rw [isDirectory_of_isDirectory_extend hpath hslash hdirectory, Bool.true_and,
        decide_eq_true_iff]
      exact mem_names_of_isDirectory_extend hpath hname hdirectory

-- Where the levels do not lead to a directory, nothing is found on either side.
theorem search_exactSteps {step : Step} (hstep : step ≠ .deep) {segments : List String}
    (h : Spells path segments) :
    search disk false (segments.map exactStep ++ [.deep, step]) path =
      search disk false [.deep, step] (segments.foldl extend path) := by
  induction h with
  | stop => rfl
  | @level path segment rest hpath hslash hrest ih =>
      obtain ⟨found, hfound, hdirectory⟩ :=
        @search_exactStep disk path segment (rest.map exactStep ++ [.deep, step]) hpath hslash
      rw [List.map_cons, List.cons_append, hfound, ih, List.foldl_cons]
      cases found with
      | true => rfl
      | false =>
          have hnot : disk.isDirectory (rest.foldl extend (extend path segment)) = false := by
            rw [Bool.eq_false_iff]
            exact fun h => Bool.false_ne_true (hdirectory (hrest.isDirectory h))
          rw [search_deep hstep, Disk.inside_of_isDirectory_eq_false hnot]
          rfl

end Glob

end StaticSite
