import StaticSite.Proofs.Disk.Effects
import StaticSite.Proofs.Disk.Named

-- What can be made at a place, given by its path: the way there has to consist of directories, as
-- far as there is something, and the names of the others must not be too long.
namespace StaticSite.Disk

variable {disk : Disk} {location parent : Location} {name : String}

-- A place at which a directory stands or can be made, with those above it.
def Passable (disk : Disk) : Location → Prop
  | [] => True
  | name :: parent => (disk.kind? (name :: parent) = some .directory ∨
      disk.kind? (name :: parent) = none ∧ IsName name ∧ name.utf8ByteSize ≤ longestName) ∧
    disk.Passable parent

theorem Passable.named (h : disk.Passable location) : location.Named := by
  induction location with
  | nil => exact named_of_kind? (disk.kind?_nil)
  | cons name parent ih =>
      rcases h.1 with hkind | ⟨-, hname, -⟩
      · exact named_of_kind? hkind
      · exact (ih h.2).cons hname

theorem foldlM_enter_directory (h : disk.kind? location = some .directory) :
    ∃ trail : Trail, location.reverse.foldlM disk.enter (.directory []) = .ok (.directory trail) ∧
      trail.location = location := by
  obtain ⟨inside, hget⟩ := kind?_eq_directory.1 h
  obtain ⟨spot, hfold, hentry⟩ := foldlM_enter_names hget
  obtain ⟨hlocation, -, hstands⟩ := location_of_foldlM_enter_names (named_of_kind? h) hfold
  cases spot with
  | directory trail => exact ⟨trail, hfold, hlocation⟩
  | file trail name content => cases hentry
  | removed above => exact hstands.elim

-- Where a directory is missing, the way to it ends before.
theorem foldlM_enter_missing (h : disk.Passable location)
    (hmissing : disk.kind? location ≠ some .directory) :
    location.reverse.foldlM disk.enter (.directory []) = .error .notFound := by
  induction location with
  | nil => exact absurd disk.kind?_nil hmissing
  | cons name parent ih =>
      obtain ⟨hkind, hparent⟩ := h
      obtain ⟨hnone, hname, hlength⟩ := hkind.resolve_left hmissing
      rw [List.reverse_cons, List.foldlM_append]
      by_cases hdirectory : disk.kind? parent = some .directory
      · obtain ⟨inside, hget⟩ := kind?_eq_directory.1 hdirectory
        obtain ⟨spot, hfold, hentry⟩ := foldlM_enter_names hget
        obtain ⟨-, -, hstands⟩ :=
          location_of_foldlM_enter_names (named_of_kind? hdirectory) hfold
        have hfind : inside.find? name = none := by
          rw [kind?_eq_none, get?_cons, hget, Option.bind_some] at hnone
          exact hnone
        rw [hfold]
        cases spot with
        | file trail other content => cases hentry
        | removed above => exact hstands.elim
        | directory trail =>
            have hinside : trail.inside disk = inside := Entry.directory.inj hentry
            simp only [bind, Except.bind, List.foldlM_cons, enter, if_neg hname.2.1,
              if_neg hname.2.2.1, hinside, hfind, missing, if_neg (Nat.not_lt.2 hlength)]
      · rw [ih hparent hdirectory]
        rfl

theorem ending_path (hfollow : Location.Followable (name :: parent)) (hname : IsName name)
    (h : disk.kind? parent = some .directory) :
    disk.ending (Location.path (name :: parent)) = .ok (.name parent name) := by
  obtain ⟨trail, hfold, hlocation⟩ := foldlM_enter_directory h
  have hsteps : (Location.path (name :: parent)).steps.reverse = name :: parent := by
    rw [steps_path ((named_of_kind? h).cons hname), List.reverse_reverse]
  unfold ending
  simp only [show (Location.path (name :: parent)).check = .ok () from hfollow, bind, Except.bind,
    hsteps, origin_path, hfold, Spot.entry, Entry.isDirectory, Bool.not_true, Bool.false_eq_true,
    ↓reduceIte, if_neg hname.2.1, if_neg hname.2.2.1, hlocation, pure, Except.pure]

theorem ending_path_of_missing (hfollow : Location.Followable (name :: parent))
    (hname : IsName name) (h : disk.Passable parent)
    (hmissing : disk.kind? parent ≠ some .directory) :
    disk.ending (Location.path (name :: parent)) = .error .notFound := by
  have hsteps : (Location.path (name :: parent)).steps.reverse = name :: parent := by
    rw [steps_path (h.named.cons hname), List.reverse_reverse]
  unfold ending
  simp only [show (Location.path (name :: parent)).check = .ok () from hfollow, bind, Except.bind,
    hsteps, origin_path, foldlM_enter_missing h hmissing]

theorem makeDirectory_path (hfollow : Location.Followable (name :: parent)) (hname : IsName name)
    (h : disk.kind? parent = some .directory) (hfree : disk.kind? (name :: parent) = none)
    (hlength : name.utf8ByteSize ≤ longestName) :
    disk.makeDirectory (Location.path (name :: parent)) = .ok (disk.putDirectory name parent) := by
  rw [kind?_eq_none] at hfree
  simp only [makeDirectory, ending_path hfollow hname h, bind, Except.bind, hfree, Option.isSome_none,
    Bool.false_eq_true, ↓reduceIte, if_neg (Nat.not_lt.2 hlength), pure, Except.pure]

theorem makeDirectory_of_taken {kind : Kind} (hfollow : Location.Followable (name :: parent))
    (h : disk.kind? (name :: parent) = some kind) :
    disk.makeDirectory (Location.path (name :: parent)) = .error .alreadyExists := by
  have hname : IsName name := named_of_kind? h name List.mem_cons_self
  obtain ⟨entry, hget, -⟩ := Option.map_eq_some_iff.1 h
  simp only [makeDirectory, ending_path hfollow hname (kind?_parent h), bind, Except.bind, hget,
    Option.isSome_some, ↓reduceIte, throw, throwThe, MonadExceptOf.throw]

-- The way to a place is made up to the place itself.
theorem makeWay_path (hfollow : location.Followable) (h : disk.Passable location) :
    ∃ next, disk.makeWay (location ++ [""]) = (.ok (), next) ∧
      next.kind? location = some .directory := by
  induction location with
  | nil =>
      refine ⟨disk, ?_, disk.kind?_nil⟩
      have hmake : disk.makeDirectory ⟨"/"⟩ = .error .alreadyExists := rfl
      have hroot : disk.isDirectory ⟨"/"⟩ = true := rfl
      rw [List.nil_append, makeWay, if_neg (by simp)]
      simp [Path.ofSegments, hmake, hroot]
  | cons name parent ih =>
      have hname : IsName name := h.named name List.mem_cons_self
      have hnamed : Location.Named (name :: parent) := h.named
      have hpath : Path.ofSegments (name :: (parent ++ [""])).reverse =
          Location.path (name :: parent) := by
        rw [← Location.ofSegments_root, List.reverse_cons, List.reverse_append]
        simp
      obtain ⟨hkind, hparent⟩ := h
      have hself : ∀ after : Disk, after.kind? parent = some .directory →
          after.kind? (name :: parent) = some .directory ∨
            after.kind? (name :: parent) = none ∧ name.utf8ByteSize ≤ longestName →
          (after.makeDirectory (Location.path (name :: parent)) = .error .alreadyExists ∧
            after.isDirectory (Location.path (name :: parent)) = true ∧
            after.kind? (name :: parent) = some .directory) ∨
          ∃ next, after.makeDirectory (Location.path (name :: parent)) = .ok next ∧
            next.kind? (name :: parent) = some .directory := by
        intro after habove hthere
        rcases hthere with hdirectory | ⟨hnone, hlength⟩
        · exact .inl ⟨makeDirectory_of_taken hfollow hdirectory,
            (isDirectory_path hnamed).2 ⟨hfollow, hdirectory⟩, hdirectory⟩
        · refine .inr ⟨_, makeDirectory_path hfollow hname habove hnone hlength, ?_⟩
          rw [kind?_putDirectory hname habove hnone, if_pos rfl]
      have hthere : disk.kind? (name :: parent) = some .directory ∨
          disk.kind? (name :: parent) = none ∧ name.utf8ByteSize ≤ longestName := by
        rcases hkind with hdirectory | ⟨hnone, -, hlength⟩
        · exact .inl hdirectory
        · exact .inr ⟨hnone, hlength⟩
      rw [List.cons_append, makeWay, if_neg (fun hempty => by
        rcases hempty.1 with heq | heq
        · exact hname.1 heq
        · exact hname.2.1 heq)]
      simp only [hpath]
      by_cases hdirectory : disk.kind? parent = some .directory
      · rcases hself disk hdirectory hthere with ⟨hmake, hstands, hkind⟩ | ⟨next, hmake, hkind⟩
        · exact ⟨disk, by simp only [hmake, hstands, ↓reduceIte], hkind⟩
        · exact ⟨next, by simp only [hmake], hkind⟩
      · have hmissing : disk.makeDirectory (Location.path (name :: parent)) = .error .notFound := by
          simp only [makeDirectory, ending_path_of_missing hfollow hname hparent hdirectory, bind,
            Except.bind]
        obtain ⟨middle, hway, habove⟩ := ih hfollow.tail hparent
        have hgrows : disk.Grows (fun _ => True) (disk.makeWay (parent ++ [""])).2 :=
          makeWay_grows fun _ _ _ _ _ _ _ => trivial
        rw [hway] at hgrows
        have hnone : disk.kind? (name :: parent) = none ∧ name.utf8ByteSize ≤ longestName :=
          hthere.resolve_left fun hkind => hdirectory (kind?_parent hkind)
        have hafter : middle.kind? (name :: parent) = some .directory ∨
            middle.kind? (name :: parent) = none ∧ name.utf8ByteSize ≤ longestName := by
          rcases hgrows.kind? (name :: parent) with heq | ⟨-, -, hkind⟩
          · exact .inr ⟨heq.trans hnone.1, hnone.2⟩
          · exact .inl hkind
        rcases hself middle habove hafter with ⟨hmake, hstands, hkind⟩ | ⟨next, hmake, hkind⟩
        · exact ⟨middle, by simp only [hmissing, hway, hmake, hstands, ↓reduceIte], hkind⟩
        · exact ⟨next, by simp only [hmissing, hway, hmake], hkind⟩

theorem makeDirectories_path (hfollow : location.Followable) (h : disk.Passable location) :
    ∃ next, disk.makeDirectories location.path = (.ok (), next) ∧
      next.kind? location = some .directory := by
  obtain ⟨next, hway, hkind⟩ := makeWay_path hfollow h
  refine ⟨next, ?_, hkind⟩
  have htext : location.path.text ≠ "" := (Location.check_eq_ok_iff.1 hfollow).2.1
  rw [makeDirectories, if_neg htext]
  by_cases hnil : location = []
  · subst hnil
    rw [show (Path.segments (Location.path []).text).reverse = ["", ""] by decide, makeWay,
      if_pos (by simp)]
    exact hway
  · rw [Location.segments_path h.named hnil, List.reverse_cons, List.reverse_reverse]
    exact hway

theorem write_path {content : ByteArray} (hfollow : Location.Followable (name :: parent))
    (hname : IsName name) (h : disk.kind? parent = some .directory)
    (hfree : disk.kind? (name :: parent) ≠ some .directory)
    (hlength : disk.kind? (name :: parent) = none → name.utf8ByteSize ≤ longestName) :
    disk.write (Location.path (name :: parent)) content = .ok (disk.putFile name parent content) := by
  have hslash : (Location.path (name :: parent)).endsInSlash = false := by
    rw [Bool.eq_false_iff]
    exact mt (endsInSlash_path ((named_of_kind? h).cons hname)).1 (List.cons_ne_nil _ _)
  simp only [write, ending_path hfollow hname h, bind, Except.bind, hslash, Bool.false_eq_true,
    ↓reduceIte]
  cases hget : disk.get? (name :: parent) with
  | none =>
      have hnone := hlength (kind?_eq_none.2 hget)
      simp only [if_neg (Nat.not_lt.2 hnone), pure, Except.pure]
  | some entry =>
      cases entry with
      | directory inside => exact absurd (kind?_eq_directory.2 ⟨inside, hget⟩) hfree
      | file other => rfl

theorem copy_path {source : Location} {content : ByteArray}
    (hsource : source.Followable) (hfile : disk.file? source = some content)
    (hfollow : Location.Followable (name :: parent)) (hname : IsName name)
    (hne : source ≠ name :: parent) (h : disk.kind? parent = some .directory)
    (hfree : disk.kind? (name :: parent) ≠ some .directory)
    (hlength : disk.kind? (name :: parent) = none → name.utf8ByteSize ≤ longestName) :
    ∃ next, disk.copy source.path (Location.path (name :: parent)) = .ok next := by
  have hnamed : source.Named := named_of_kind? (file?_eq_some.1 hfile)
  have hread := (read_path hnamed).2 ⟨hsource, hfile⟩
  have hwrite : disk.write (Location.path (name :: parent)) ByteArray.empty =
      .ok (disk.putFile name parent ByteArray.empty) := write_path hfollow hname h hfree hlength
  have hkind : ∀ location, (disk.putFile name parent ByteArray.empty).kind? location =
      if location = name :: parent then some (.file ByteArray.empty) else disk.kind? location :=
    kind?_putFile hname h hfree
  have hmiddle : (disk.putFile name parent ByteArray.empty).file? source = some content := by
    rw [file?_eq_of_kind?_eq (show _ = disk.kind? source by rw [hkind, if_neg hne]), hfile]
  have hlast := (read_path hnamed).2 ⟨hsource, hmiddle⟩
  have habove : (disk.putFile name parent ByteArray.empty).kind? parent = some .directory := by
    rw [hkind, if_neg (List.cons_ne_self name parent).symm, h]
  have hself : (disk.putFile name parent ByteArray.empty).kind? (name :: parent) =
      some (.file ByteArray.empty) := by
    rw [hkind, if_pos rfl]
  have hagain : (disk.putFile name parent ByteArray.empty).write (Location.path (name :: parent))
      content = .ok ((disk.putFile name parent ByteArray.empty).putFile name parent content) :=
    write_path hfollow hname habove (by simp [hself]) (by simp [hself])
  exact ⟨_, by simp only [copy, hread, hwrite, hlast, bind, Except.bind, hagain]; rfl⟩

-- A file is written at a place in a directory, unless it is one itself.
theorem write_made {location : Location} {content : ByteArray} (hfollow : location.Followable)
    (hnamed : location.Named) (hne : location ≠ []) (h : disk.kind? location.tail = some .directory)
    (hfree : disk.kind? location ≠ some .directory)
    (hlength : ∀ name ∈ location.head?, name.utf8ByteSize ≤ longestName) :
    ∃ next, disk.write location.path content = .ok next ∧ ∀ other, next.kind? other =
      if other = location then some (.file content) else disk.kind? other := by
  obtain ⟨name, parent, rfl⟩ := List.exists_cons_of_ne_nil hne
  have hname := hnamed name List.mem_cons_self
  exact ⟨_, write_path hfollow hname h hfree fun _ => hlength name rfl, kind?_putFile hname h hfree⟩

theorem copy_made {source location : Location} {content : ByteArray} (hsource : source.Followable)
    (hfile : disk.file? source = some content) (hfollow : location.Followable)
    (hnamed : location.Named) (hne : location ≠ []) (hapart : source ≠ location)
    (h : disk.kind? location.tail = some .directory) (hfree : disk.kind? location ≠ some .directory)
    (hlength : ∀ name ∈ location.head?, name.utf8ByteSize ≤ longestName) :
    ∃ next, disk.copy source.path location.path = .ok next ∧ ∀ other, next.kind? other =
      if other = location then some (.file content) else disk.kind? other := by
  obtain ⟨name, parent, rfl⟩ := List.exists_cons_of_ne_nil hne
  obtain ⟨next, hcopy⟩ := copy_path hsource hfile hfollow (hnamed name List.mem_cons_self) hapart h
    hfree fun _ => hlength name rfl
  have hkind := file?_eq_some.1 hfile
  refine ⟨next, hcopy, fun other => ?_⟩
  rw [kind?_copy hcopy, Location.walk_path hnamed, Location.walk_path (named_of_kind? hkind), hkind]
  rwa [Location.walk_path hnamed, Location.walk_path (named_of_kind? hkind)]

theorem removeFile_path {content : ByteArray} (hfollow : Location.Followable (name :: parent))
    (h : disk.file? (name :: parent) = some content) :
    disk.removeFile (Location.path (name :: parent)) = .ok (disk.erase (name :: parent)) := by
  have hkind := file?_eq_some.1 h
  have hnamed := named_of_kind? hkind
  have hslash : (Location.path (name :: parent)).endsInSlash = false := by
    rw [Bool.eq_false_iff]
    exact mt (endsInSlash_path hnamed).1 (List.cons_ne_nil _ _)
  simp only [removeFile, ending_path hfollow (hnamed name List.mem_cons_self) (kind?_parent hkind),
    bind, Except.bind, kind?_eq_file.1 hkind, hslash, Bool.false_eq_true, ↓reduceIte, pure,
    Except.pure]

theorem removeDirectory_path (hfollow : Location.Followable (name :: parent))
    (h : disk.kind? (name :: parent) = some .directory) :
    disk.removeDirectory (Location.path (name :: parent)) =
      (.ok (), (disk.eraseBelow (name :: parent)).erase (name :: parent)) := by
  have hname : IsName name := named_of_kind? h name List.mem_cons_self
  obtain ⟨inside, hget⟩ := kind?_eq_directory.1 h
  obtain ⟨spot, hfind, hentry⟩ := find_path hfollow hget
  obtain ⟨-, hlocation, hstands, -⟩ := location_of_find_path (named_of_kind? h) hfind
  have hempty : disk.emptyDirectory (Location.path (name :: parent)) =
      .ok (disk.eraseBelow (name :: parent)) := by
    rw [emptyDirectory, hfind]
    cases spot with
    | directory trail =>
        have hlocation : trail.location = name :: parent := hlocation
        simp only [bind, Except.bind, hlocation, pure, Except.pure]
    | file trail other content => cases hentry
    | removed above => exact hstands.elim
  have hparent : (disk.eraseBelow (name :: parent)).kind? parent = some .directory := by
    rw [kind?_eraseBelow h, if_neg (fun hwithin => not_within_tail hwithin.1), kind?_parent h]
  have hself : (disk.eraseBelow (name :: parent)).kind? (name :: parent) = some .directory := by
    rw [kind?_eraseBelow h, if_neg (fun hwithin => hwithin.2 rfl), h]
  have hsome : ((disk.eraseBelow (name :: parent)).get? (name :: parent)).isNone = false := by
    obtain ⟨inside, hget⟩ := kind?_eq_directory.1 hself
    rw [hget]
    rfl
  have hremove : (disk.eraseBelow (name :: parent)).removeEmptied (Location.path (name :: parent)) =
      .ok ((disk.eraseBelow (name :: parent)).erase (name :: parent)) := by
    simp only [removeEmptied, ending_path hfollow hname hparent, bind, Except.bind, hsome,
      Bool.false_eq_true, ↓reduceIte, pure, Except.pure]
  simp only [removeDirectory, hempty, hremove]

-- What is not found is not there, and no file is on the way to it.
theorem passed_of_find_notFound (hfollow : location.Followable) (hnamed : location.Named)
    (h : disk.find location.path = .error .notFound) {above : Location} {content : ByteArray}
    (hwithin : within above location) : disk.kind? above ≠ some (.file content) := by
  intro hkind
  obtain ⟨lower, rfl⟩ := within_iff.1 hwithin
  cases hlower : lower.reverse with
  | nil =>
      rw [List.reverse_eq_nil_iff] at hlower
      subst hlower
      obtain ⟨spot, hspot, -⟩ := find_path hfollow (kind?_eq_file.1 hkind)
      rw [hspot] at h
      cases h
  | cons next others =>
      -- The first step from the file fails, for another reason.
      obtain ⟨spot, hfold, hentry⟩ := foldlM_enter_names (kind?_eq_file.1 hkind)
      rw [find, show Path.check _ = .ok () from hfollow, steps_path hnamed, origin_path,
        List.reverse_append, List.foldlM_append, hfold, hlower] at h
      cases spot with
      | directory trail => cases hentry
      | removed above => cases hentry
      | file trail name other => cases h

-- Where there is no directory, none is removed.
theorem removeDirectory_of_ne (hne : location ≠ []) (hnamed : location.Named)
    (h : disk.kind? location ≠ some .directory) :
    ∃ fault, disk.removeDirectory location.path = (.error fault, disk) ∧
      (fault = .notFound → location.Followable ∧ disk.kind? location = none ∧
        ∀ above content, within above location → disk.kind? above ≠ some (.file content)) := by
  cases hfind : disk.find location.path with
  | ok spot =>
      obtain ⟨-, -, hstands, hget⟩ := location_of_find_path hnamed hfind
      refine ⟨.notADirectory, ?_, fun heq => by cases heq⟩
      have hempty : disk.emptyDirectory location.path = .error .notADirectory := by
        rw [emptyDirectory, hfind]
        cases spot with
        | directory trail => exact absurd (kind?_of_get? hget) h
        | file trail name content => rfl
        | removed above => exact hstands.elim
      simp only [removeDirectory, hempty]
  | error fault =>
      refine ⟨fault, ?_, fun heq => ?_⟩
      · have hempty : disk.emptyDirectory location.path = .error fault := by
          rw [emptyDirectory, hfind]
          rfl
        simp only [removeDirectory, hempty]
      · subst heq
        have hfollow : location.Followable := by
          cases hcheck : location.path.check with
          | ok _ => exact hcheck
          | error fault =>
              rw [find, hcheck] at hfind
              cases hfind
              have htext : location.path.text ≠ "" := by
                rw [Location.text_path hne]
                simp
              unfold Path.check at hcheck
              rw [if_neg htext] at hcheck
              split at hcheck
              · cases hcheck
              · split at hcheck <;> cases hcheck
        refine ⟨hfollow, ?_, fun _ _ => passed_of_find_notFound hfollow hnamed hfind⟩
        rw [kind?_eq_none]
        cases hget : disk.get? location with
        | none => rfl
        | some entry =>
            obtain ⟨spot, hspot, -⟩ := find_path hfollow hget
            rw [hfind] at hspot
            cases hspot

theorem kind?_removeDirectory (hne : location ≠ []) (hnamed : location.Named) {next : Disk}
    (h : disk.removeDirectory location.path = (.ok (), next)) (other : Location) :
    next.kind? other = if within location other then none else disk.kind? other := by
  by_cases hdirectory : disk.kind? location = some .directory
  · have hfollow : location.Followable := by
      cases hfind : disk.find location.path with
      | ok spot => exact (location_of_find_path hnamed hfind).1
      | error fault =>
          have hempty : disk.emptyDirectory location.path = .error fault := by
            rw [emptyDirectory, hfind]
            rfl
          rw [removeDirectory, hempty] at h
          cases h
    obtain ⟨name, parent, rfl⟩ := List.exists_cons_of_ne_nil hne
    rw [removeDirectory_path hfollow hdirectory] at h
    cases h
    rw [kind?_erase, kind?_eraseBelow hdirectory]
    by_cases hwithin : within (name :: parent) other
    · rw [if_pos hwithin, if_pos hwithin]
    · rw [if_neg hwithin, if_neg hwithin, if_neg fun h => hwithin h.1]
  · obtain ⟨fault, hremove, -⟩ := removeDirectory_of_ne hne hnamed hdirectory
    rw [hremove] at h
    cases h

end StaticSite.Disk
