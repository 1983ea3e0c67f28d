import StaticSite.Proofs.Disk.Ending
import StaticSite.Proofs.Disk.Same

-- What removing a directory at the end of a straight path comes to, also when the working directory
-- goes with it.
namespace StaticSite

namespace Path

variable {path : Path}

-- The last step of the path is a name.
def EndsInName (path : Path) : Prop :=
  ∃ before name, path.steps = before ++ [name] ∧ IsName name

theorem count_steps (path : Path) : path.steps.count ".." = path.rises := by
  rw [steps, rises, List.count_filter (by decide)]

end Path

-- A straight path goes down from where it has stopped going up.
theorem Location.within_foldl_follow_straight {steps : List String} (hempty : "" ∉ steps)
    (hslash : ∀ step ∈ steps, '/' ∉ step.toList) (hstraight : steps.Pairwise Path.Precedes)
    (start : Location) :
    Disk.within (start.drop (steps.count "..")) (steps.foldl follow start) := by
  induction steps generalizing start with
  | nil => exact Disk.within_refl _
  | cons step rest ih =>
      rw [List.mem_cons, not_or] at hempty
      obtain ⟨hlater, hrest⟩ := List.pairwise_cons.1 hstraight
      have hmore := ih hempty.2 (fun later hmem => hslash later (List.mem_cons_of_mem _ hmem)) hrest
        (start.follow step)
      rw [List.foldl_cons]
      by_cases hup : step = ".."
      · subst hup
        rw [List.count_cons_self, Nat.add_comm, ← List.drop_drop, List.drop_one]
        exact hmore
      · rw [List.count_cons_of_ne hup]
        by_cases hdot : step = "."
        · subst hdot
          exact hmore
        · have hdown : ".." ∉ rest := Path.not_mem_of_precedes
            ⟨Ne.symm hempty.1, hdot, hup, hslash step List.mem_cons_self⟩ hlater
          rw [List.count_eq_zero_of_not_mem hdown, List.drop_zero, ← List.foldl_cons]
          exact within_foldl_follow (by simpa [Ne.symm hup] using hdown) start

namespace Disk

variable {disk next : Disk} {path : Path} {top : Location}

-- From the working directory a straight path leads to a place below the last one that it goes up to.
theorem within_walk_straight (hstraight : path.Straight) (hrelative : path.isAbsolute = false) :
    within (disk.workDir.drop path.rises) (Location.walk disk.workDir path) := by
  rw [walk_eq_foldl_steps, (disk.origin_valid path).2, if_neg (by simp [hrelative]),
    ← path.count_steps]
  exact Location.within_foldl_follow_straight (not_mem_steps path) (fun _ => mem_steps)
    (hstraight.filter _) _

theorem walk_of_endsInName {before : List String} {name : String}
    (hsteps : path.steps = before ++ [name]) (hname : IsName name) :
    Location.walk disk.workDir path =
      name :: before.foldl Location.follow ((disk.origin path).location disk) := by
  rw [walk_eq_foldl_steps, hsteps, List.foldl_append, List.foldl_cons, List.foldl_nil,
    Location.follow, if_neg (not_or.2 ⟨hname.1, hname.2.1⟩), if_neg hname.2.2.1]

-- One that ends in a name leads to a place in a directory there.
theorem within_walk_tail (hstraight : path.Straight) (hrelative : path.isAbsolute = false)
    (hname : path.EndsInName) :
    ∃ name parent, Location.walk disk.workDir path = name :: parent ∧
      within (disk.workDir.drop path.rises) parent := by
  obtain ⟨before, name, hsteps, hname⟩ := hname
  have hsorted : path.steps.Pairwise Path.Precedes := hstraight.filter _
  have hcount := path.count_steps
  rw [hsteps] at hsorted hcount
  rw [List.count_append, List.count_cons_of_ne hname.2.2.1, List.count_nil, Nat.add_zero] at hcount
  refine ⟨name, _, walk_of_endsInName hsteps hname, ?_⟩
  rw [(disk.origin_valid path).2, if_neg (by simp [hrelative]), ← hcount]
  exact Location.within_foldl_follow_straight
    (fun hmem => not_mem_steps path (hsteps ▸ List.mem_append_left _ hmem))
    (fun step hmem => mem_steps (hsteps ▸ List.mem_append_left _ hmem))
    (List.pairwise_append.1 hsorted).1 _

-- Of the directories that have led to the working directory, those that are counted as removed do
-- not stand.
def Adrift (disk : Disk) : Prop :=
  ∀ count < disk.adrift, disk.kind? (disk.workDir.drop count) ≠ some .directory

theorem adrift_of_zero (h : disk.adrift = 0) : disk.Adrift :=
  fun count hcount => absurd hcount (by simp [h])

theorem not_isDirectory_of_lt_missing {root : Folder} {location : Location} {count : Nat}
    (h : count < root.missing location) :
    (root.get? (location.drop count).reverse).any Entry.isDirectory = false := by
  induction location generalizing count with
  | nil => cases h
  | cons name parent ih =>
      rw [Folder.missing] at h
      split at h
      · cases h
      · next hnot =>
        cases count with
        | zero => simpa using hnot
        | succ count => exact ih (Nat.lt_of_succ_lt_succ h)

-- Removing something leaves no other directories than before.
theorem Adrift.become {root : Folder} {ordered : root.Ordered} (h : disk.Adrift)
    (hkind : ∀ location, (disk.become root disk.workDir ordered).kind? location = some .directory →
      disk.kind? location = some .directory) :
    (disk.become root disk.workDir ordered).Adrift := by
  intro count hcount hdirectory
  change count < disk.adrift + root.missing (disk.workDir.drop disk.adrift) at hcount
  change (disk.become root disk.workDir ordered).kind? (disk.workDir.drop count) = _ at hdirectory
  by_cases hless : count < disk.adrift
  · exact h count hless (hkind _ hdirectory)
  · obtain ⟨more, rfl⟩ := Nat.exists_eq_add_of_le (Nat.le_of_not_lt hless)
    have hmissing := not_isDirectory_of_lt_missing (Nat.lt_of_add_lt_add_left hcount)
    obtain ⟨inside, hget⟩ := kind?_eq_directory.1 hdirectory
    rw [List.drop_drop] at hmissing
    rw [get?_become] at hget
    rw [hget] at hmissing
    cases hmissing

theorem Adrift.erase {location : Location} (h : disk.Adrift) : (disk.erase location).Adrift := by
  cases location with
  | nil => exact h
  | cons name parent =>
      have hkind := disk.kind?_erase name parent
      rw [Disk.erase] at hkind ⊢
      refine h.become fun location hdirectory => ?_
      rw [hkind] at hdirectory
      split at hdirectory
      · cases hdirectory
      · exact hdirectory

theorem Adrift.eraseBelow (h : disk.Adrift) (htop : disk.kind? top = some .directory) :
    (disk.eraseBelow top).Adrift := by
  have hkind := kind?_eraseBelow htop
  rw [Disk.eraseBelow] at hkind ⊢
  refine h.become fun location hdirectory => ?_
  rw [hkind] at hdirectory
  split at hdirectory
  · cases hdirectory
  · exact hdirectory

-- Whatever has been removed at and below `top`, a straight path that leads out of there, or to `top`
-- by its name, still starts at a directory that stands, or goes up to one.
theorem grounded_of_adrift (hzero : disk.adrift = 0) (hwork : next.workDir = disk.workDir)
    (hadrift : next.Adrift)
    (hsame : ∀ location, ¬ within top location → next.kind? location = disk.kind? location)
    (hstraight : path.Straight)
    (hplace : ¬ within top (Location.walk disk.workDir path) ∨
      Location.walk disk.workDir path = top ∧ path.EndsInName) : next.Grounded path := by
  rw [Grounded, or_iff_not_imp_left, Bool.not_eq_true]
  intro hrelative
  by_contra hless
  have hgone := hadrift path.rises (Nat.lt_of_not_le hless)
  rw [hwork] at hgone
  have hwithin : within top (disk.workDir.drop path.rises) := by
    by_contra hnot
    have hthere := disk.kind?_workDir_drop
    rw [hzero, List.drop_zero] at hthere
    refine hgone ((hsame _ hnot).trans ?_)
    obtain ⟨below, hbelow⟩ := within_iff.1
      (List.isSuffixOf_iff_suffix.2 (List.drop_suffix path.rises disk.workDir))
    by_cases hnil : below = []
    · rw [hnil, List.nil_append] at hbelow
      rwa [← hbelow]
    · rw [hbelow] at hthere
      exact kind?_above hnil hthere
  rcases hplace with hnot | ⟨rfl, hname⟩
  · exact hnot (within_trans hwithin (within_walk_straight hstraight hrelative))
  · obtain ⟨name, parent, hwalk, hparent⟩ := @within_walk_tail disk path hstraight hrelative hname
    have hself := within_trans hwithin hparent
    rw [hwalk] at hself
    exact not_within_tail hself

theorem sameBase_eraseBelow (htop : disk.kind? top = some .directory)
    (h : ¬ within top (disk.workDir.drop disk.adrift)) : SameBase disk (disk.eraseBelow top) := by
  have hkind := kind?_eraseBelow htop (disk.workDir.drop disk.adrift)
  rw [if_neg fun hboth => h hboth.1, kind?_workDir_drop] at hkind
  exact sameBase_become hkind

theorem sameBase_erase {location : Location} (h : ¬ within location (disk.workDir.drop disk.adrift)) :
    SameBase disk (disk.erase location) := by
  cases location with
  | nil => exact .refl disk
  | cons name parent =>
      have hkind := disk.kind?_erase name parent (disk.workDir.drop disk.adrift)
      rw [if_neg h, kind?_workDir_drop] at hkind
      exact sameBase_become hkind

-- All that was at and below `top` is gone, and nothing else.
structure Clears (top : Location) (before after : Disk) : Prop where
  workDir : after.workDir = before.workDir
  kind? : ∀ location, after.kind? location =
    if within top location then none else before.kind? location

theorem Clears.of_none (h : disk.kind? top = none) : Clears top disk disk := by
  refine ⟨rfl, fun location => ?_⟩
  split
  · next hwithin => exact kind?_within_of_none h hwithin
  · rfl

theorem clears_erase {name : String} {parent : Location}
    (h : disk.kind? (name :: parent) = some .directory) :
    Clears (name :: parent) disk ((disk.eraseBelow (name :: parent)).erase (name :: parent)) := by
  refine ⟨by rw [workDir_erase, workDir_eraseBelow], fun location => ?_⟩
  rw [kind?_erase, kind?_eraseBelow h]
  split
  · rfl
  · next hnot => exact if_neg fun hboth => hnot hboth.1

theorem find_of_directory (hstraight : path.Straight) (hcheck : path.check = .ok ())
    (hgrounded : disk.Grounded path)
    (hkind : disk.kind? (Location.walk disk.workDir path) = some .directory) :
    ∃ trail, disk.find path = .ok (.directory trail) := by
  rw [walk_eq_foldl_steps] at hkind
  obtain ⟨trail, hlead⟩ := (following_path hstraight hgrounded).directory hkind
  exact ⟨trail, by
    simp [find, hcheck, hlead, bind, Except.bind, Spot.entry, Entry.isDirectory, pure,
      Except.pure]⟩

theorem emptyDirectory_of_directory (hstraight : path.Straight) (hcheck : path.check = .ok ())
    (hgrounded : disk.Grounded path)
    (hkind : disk.kind? (Location.walk disk.workDir path) = some .directory) :
    disk.emptyDirectory path = .ok (disk.eraseBelow (Location.walk disk.workDir path)) := by
  obtain ⟨trail, hfind⟩ := find_of_directory hstraight hcheck hgrounded hkind
  have htrail : trail.location = Location.walk disk.workDir path := (find_valid hfind).2
  simp [emptyDirectory, hfind, bind, Except.bind, htrail, pure, Except.pure]

-- A directory is emptied, and its name can be followed to it still.
theorem removeDirectory_of_directory (hstraight : path.Straight) (hname : path.EndsInName)
    (hcheck : path.check = .ok ()) (hgrounded : disk.Grounded path)
    (hemptied : (disk.eraseBelow (Location.walk disk.workDir path)).Grounded path)
    (hkind : disk.kind? (Location.walk disk.workDir path) = some .directory) :
    disk.removeDirectory path = (.ok (), (disk.eraseBelow (Location.walk disk.workDir path)).erase
      (Location.walk disk.workDir path)) := by
  have hempty := emptyDirectory_of_directory hstraight hcheck hgrounded hkind
  obtain ⟨before, name, hsteps, hlast⟩ := hname
  have hreaches := reaches_straight hstraight hemptied hcheck hsteps hlast
  have hwalk := hreaches.walk
  rw [workDir_eraseBelow] at hreaches hwalk
  generalize (Location.walk disk.workDir path).tail = parent at hreaches hwalk
  rw [hwalk] at hkind hempty hreaches ⊢
  have hbelow := kind?_eraseBelow hkind
  have hparent : (disk.eraseBelow (name :: parent)).kind? parent = some .directory := by
    rw [hbelow, if_neg fun hboth => not_within_tail hboth.1]
    exact kind?_parent hkind
  have hthere : (disk.eraseBelow (name :: parent)).get? (name :: parent) ≠ none := by
    rw [Ne, ← kind?_eq_none, hbelow, if_neg fun hboth => hboth.2 rfl, hkind]
    simp
  have hremove : (disk.eraseBelow (name :: parent)).removeEmptied path =
      .ok ((disk.eraseBelow (name :: parent)).erase (name :: parent)) := by
    simp [removeEmptied, hreaches.ending hparent, bind, Except.bind, hthere, pure, Except.pure]
  rw [removeDirectory, hempty]
  dsimp only
  rw [hremove]

-- What is found by a path that does not end in a name is not removed.
theorem removeEmptied_of_not_endsInName {spot : Spot} (hname : ¬ path.EndsInName)
    (hfind : disk.find path = .ok spot) :
    ∃ fault, disk.removeEmptied path = .error fault ∧ fault ≠ .notFound := by
  obtain ⟨hcheck, hfold⟩ := check_of_find hfind
  cases hsteps : path.steps.reverse with
  | nil =>
      have hending : disk.ending path = .ok .root := by rw [ending, hcheck, hsteps]; rfl
      exact ⟨.busy, by rw [removeEmptied, hending]; rfl, by simp⟩
  | cons last before =>
      have hpath : path.steps = before.reverse ++ [last] := by
        rw [← List.reverse_cons, ← hsteps, List.reverse_reverse]
      have hdots : last = "." ∨ last = ".." := by
        have hmem : last ∈ path.steps := hpath ▸ by simp
        by_contra hnot
        rw [not_or] at hnot
        exact hname ⟨_, last, hpath, fun heq => not_mem_steps path (heq ▸ hmem), hnot.1, hnot.2,
          mem_steps hmem⟩
      rw [hpath, List.foldlM_append] at hfold
      obtain ⟨middle, hmiddle, -⟩ := bind_eq_ok.1 hfold
      rw [removeEmptied, ending, hcheck, hsteps]
      simp only [bind, Except.bind, hmiddle]
      by_cases hstands : (middle.entry disk).isDirectory = true
      · rw [hstands]
        rcases hdots with rfl | rfl
        · exact ⟨.invalidArgument, rfl, by simp⟩
        · exact ⟨.notEmpty, rfl, by simp⟩
      · rw [Bool.not_eq_true] at hstands
        rw [hstands]
        exact ⟨.notADirectory, rfl, by simp⟩

-- What is no directory is not removed.
theorem removeDirectory_of_not_directory (hstraight : path.Straight)
    (hgrounded : disk.Grounded path)
    (hkind : disk.kind? (Location.walk disk.workDir path) ≠ some .directory) :
    ∃ fault, disk.removeDirectory path = (.error fault, disk) ∧
      (fault = .notFound ↔ disk.find path = .error .notFound) := by
  rw [removeDirectory, emptyDirectory]
  cases hfind : disk.find path with
  | error fault => exact ⟨fault, rfl, by simp⟩
  | ok spot =>
      have hstands := (following_path hstraight hgrounded).stands spot (check_of_find hfind).2
      obtain ⟨hvalid, hlocation⟩ := find_valid hfind
      cases spot with
      | file trail name content => exact ⟨.notADirectory, rfl, by simp⟩
      | removed above => exact hstands.elim
      | directory trail =>
          rw [← hlocation, kind?, Spot.get?_location hvalid hstands] at hkind
          exact absurd rfl hkind

-- No file is at a place, or on the way to it.
def Open (disk : Disk) (location : Location) : Prop :=
  ∀ above content, within above location → disk.kind? above ≠ some (.file content)

theorem open_of_directory (h : disk.kind? top = some .directory) : disk.Open top := by
  intro above content hwithin hfile
  obtain ⟨below, rfl⟩ := within_iff.1 hwithin
  by_cases hnil : below = []
  · rw [hnil, List.nil_append, hfile] at h
    cases h
  · rw [kind?_above hnil h] at hfile
    cases hfile

theorem open_of_find_notFound (hne : path.text ≠ "") (hstands : (disk.origin path).Stands)
    (hstraight : path.Straight) (h : disk.find path = .error .notFound) :
    disk.Open (Location.walk disk.workDir path) := by
  obtain ⟨name, parent, hparent, hnone, -, hwithin⟩ :=
    missing_of_find_notFound hne hstands hstraight h
  intro above content habove
  rcases within_or_within habove hwithin with hup | hdown
  · rcases List.suffix_cons_iff.1 (List.isSuffixOf_iff_suffix.1 hup) with rfl | hup
    · simp [hnone]
    · exact open_of_directory hparent above content (List.isSuffixOf_iff_suffix.2 hup)
  · simp [kind?_within_of_none hnone hdown]

theorem Open.passable (h : disk.Open top) (hnamed : top.Named)
    (hshort : ∀ name ∈ top, name.utf8ByteSize ≤ longestName) : disk.Passable top := by
  induction top with
  | nil => trivial
  | cons name parent ih =>
      refine ⟨?_, ih (fun above content hwithin => h above content
          (within_trans hwithin (within_append [name] parent)))
        (fun other hmem => hnamed other (List.mem_cons_of_mem _ hmem))
        fun other hmem => hshort other (List.mem_cons_of_mem _ hmem)⟩
      cases hkind : disk.kind? (name :: parent) with
      | none => exact .inr ⟨rfl, hnamed name List.mem_cons_self, hshort name List.mem_cons_self⟩
      | some kind =>
          cases kind with
          | directory => exact .inl rfl
          | file content => exact absurd hkind (h _ content (within_refl _))

theorem find_of_passable (hstraight : path.Straight) (hgrounded : disk.Grounded path)
    (hcheck : path.check = .ok ())
    (hpass : disk.Passable (Location.walk disk.workDir path))
    (hnone : disk.kind? (Location.walk disk.workDir path) = none) :
    disk.find path = .error .notFound := by
  rw [walk_eq_foldl_steps] at hpass hnone
  have hlead := (following_path hstraight hgrounded).missing _ (within_refl _) hnone hpass
  simp [find, hcheck, hlead, bind, Except.bind]

-- A name that is too long is not looked up.
theorem find_of_long {name : String} {parent : Location}
    (hfollow : Location.Followable (name :: parent)) (hname : IsName name)
    (hparent : disk.kind? parent = some .directory) (hnone : disk.kind? (name :: parent) = none)
    (hlong : longestName < name.utf8ByteSize) :
    disk.find (Location.path (name :: parent)) = .error .nameTooLong := by
  have hnamed := named_of_kind? hparent
  obtain ⟨trail, hfold, rfl⟩ := foldlM_enter_directory hparent
  have hstart : Spot.Valid disk (.directory []) := trivial
  have hvalid := (foldlM_enter_valid (fun hmem =>
    (hnamed "" (List.mem_reverse.1 hmem)).1 rfl) hstart hfold).1
  have hfind : (trail.inside disk).find? name = none := by
    have hkind := Trail.kind?_cons hvalid name
    rw [hnone, eq_comm, Option.map_eq_none_iff] at hkind
    exact hkind
  have henter : disk.enter (.directory trail) name = .error .nameTooLong := by
    simp only [enter, if_neg hname.2.1, if_neg hname.2.2.1, hfind, missing, if_pos hlong]
  rw [find, show (Location.path _).check = .ok () from hfollow,
    steps_path (hnamed.cons hname), origin_path, List.reverse_cons,
    List.foldlM_append, hfold]
  simp [bind, Except.bind, henter]

end Disk

end StaticSite
