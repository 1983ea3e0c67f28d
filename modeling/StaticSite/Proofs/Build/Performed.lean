import StaticSite.Proofs.Build.Job
import StaticSite.Proofs.Build.Output
import StaticSite.Proofs.Disk.Straight

-- What the operations of a build do to the disk, also where they fail: a job, and nothing else.
namespace StaticSite

open Disk (within)

namespace Disk

variable {disk : Disk} {location parent : Location} {name : String}

-- Where nothing is missing, nothing is made.
theorem make_eq_self (h : ∀ other, ¬ Scene.Missing disk.kind? location other) :
    Scene.make disk.kind? location = disk.kind? :=
  funext fun other => Scene.make_of_not_missing (h other)

-- A directory in one that is there.
theorem makeDirectory_exact (hfollow : Location.Followable (name :: parent)) (hname : IsName name)
    (h : disk.kind? parent = some .directory) :
    (∃ next, disk.makeDirectory (Location.path (name :: parent)) = .ok next ∧
        Scene.Passable disk.kind? (name :: parent) ∧
        next.kind? = Scene.make disk.kind? (name :: parent)) ∨
      ∃ fault, fault ≠ .notFound ∧
        disk.makeDirectory (Location.path (name :: parent)) = .error fault ∧
        (disk.isDirectory (Location.path (name :: parent)) = true ↔
          Scene.Passable disk.kind? (name :: parent)) ∧
        Scene.make disk.kind? (name :: parent) = disk.kind? := by
  have hnamed : Location.Named (name :: parent) := (named_of_kind? h).cons hname
  have hpass := passable_of_directory h
  have hpassable : Scene.Passable disk.kind? (name :: parent) ↔
      disk.kind? (name :: parent) = some .directory ∨
        disk.kind? (name :: parent) = none ∧ name.utf8ByteSize ≤ longestName := by
    rw [Scene.Passable, and_iff_left hpass, and_iff_right hname]
  have hmissing : ∀ other, Scene.Missing disk.kind? (name :: parent) other →
      other = name :: parent := by
    rintro other ⟨hwithin, -, hnone, -⟩
    rcases List.suffix_cons_iff.1 (List.isSuffixOf_iff_suffix.1 hwithin) with heq | habove
    · exact heq
    · exact absurd hnone (ne_none_of_directory h (List.isSuffixOf_iff_suffix.2 habove))
  cases hkind : disk.kind? (name :: parent) with
  | some kind =>
      refine .inr ⟨.alreadyExists, by simp, makeDirectory_of_taken hfollow hkind, ?_,
        make_eq_self fun other hother => ?_⟩
      · rw [isDirectory_path hnamed, and_iff_right hfollow, hpassable, hkind]
        simp
      · have hnone := hother.2.2.1
        rw [hmissing other hother, hkind] at hnone
        cases hnone
  | none =>
      by_cases hlength : name.utf8ByteSize ≤ longestName
      · have hself : Scene.Passable disk.kind? (name :: parent) := hpassable.2 (.inr ⟨hkind, hlength⟩)
        refine .inl ⟨_, makeDirectory_path hfollow hname h hkind hlength, hself, ?_⟩
        funext other
        rw [kind?_putDirectory hname h hkind]
        by_cases heq : other = name :: parent
        · subst heq
          rw [if_pos rfl, Scene.make_of_missing ⟨within_refl _, hfollow, hkind, hself⟩]
        · rw [if_neg heq, Scene.make_of_not_missing fun hother => heq (hmissing other hother)]
      · have hnot : ¬ Scene.Passable disk.kind? (name :: parent) := by
          rw [hpassable, hkind]
          simpa using hlength
        refine .inr ⟨.nameTooLong, by simp, ?_, ?_, make_eq_self fun other hother => ?_⟩
        · have hget := kind?_eq_none.1 hkind
          simp only [makeDirectory, ending_path hfollow hname h, bind, Except.bind, hget,
            Option.isSome_none, Bool.false_eq_true, ↓reduceIte, if_pos (Nat.lt_of_not_le hlength),
            throw, throwThe, MonadExceptOf.throw]
        · rw [isDirectory_path hnamed, hkind]
          simp [hnot]
        · exact hnot (hmissing other hother ▸ hother.2.2.2)

-- A directory is made, or those above it first if they are missing.
theorem makeWay_cons (hname : IsName name) (disk : Disk) (parent : Location) :
    disk.makeWay (name :: parent ++ [""]) =
      match disk.makeDirectory (Location.path (name :: parent)) with
      | .ok disk => (.ok (), disk)
      | .error .notFound =>
        match disk.makeWay (parent ++ [""]) with
        | (.error fault, disk) => (.error fault, disk)
        | (.ok (), disk) =>
          match disk.makeDirectory (Location.path (name :: parent)) with
          | .ok disk => (.ok (), disk)
          | .error fault =>
            (if disk.isDirectory (Location.path (name :: parent)) then .ok () else .error fault, disk)
      | .error fault =>
        (if disk.isDirectory (Location.path (name :: parent)) then .ok () else .error fault, disk) := by
  have hpath : Path.ofSegments (name :: (parent ++ [""])).reverse =
      Location.path (name :: parent) := by
    rw [← Location.ofSegments_root, List.reverse_cons, List.reverse_append]
    simp
  rw [List.cons_append, makeWay, if_neg fun hempty => hempty.1.elim hname.1 hname.2.1]
  exact hpath ▸ rfl

theorem makeWay_of_fault {fault : Fault} (hname : IsName name) (hfault : fault ≠ .notFound)
    (h : disk.makeDirectory (Location.path (name :: parent)) = .error fault) :
    disk.makeWay (name :: parent ++ [""]) =
      (if disk.isDirectory (Location.path (name :: parent)) then .ok () else .error fault, disk) := by
  rw [makeWay_cons hname, h]
  split
  · next heq => cases heq
  · next heq => cases heq; exact absurd rfl hfault
  · next heq => cases heq; rfl

-- Where something is missing on the way, the way ends there.
theorem makeDirectory_of_missing {other : Location}
    (hfollow : Location.Followable (name :: parent)) (hnamed : Location.Named (name :: parent))
    (h : Scene.Missing disk.kind? parent other) :
    disk.makeDirectory (Location.path (name :: parent)) = .error .notFound := by
  obtain ⟨below, rfl⟩ := within_iff.1 h.1
  have hsteps : (Location.path (name :: (below ++ other))).steps.reverse = name :: (below ++ other) := by
    rw [steps_path hnamed, List.reverse_reverse]
  have hmissing := foldlM_enter_missing (passable_kind?_iff.1 h.2.2.2) (by rw [h.2.2.1]; simp)
  have hfold : (below ++ other).reverse.foldlM disk.enter (.directory []) = .error .notFound := by
    rw [List.reverse_append, List.foldlM_append, hmissing]
    rfl
  simp only [makeDirectory, ending, show (Location.path (name :: (below ++ other))).check = .ok ()
    from hfollow, bind, Except.bind, hsteps, origin_path, hfold]

-- The last directory of a way, once those above it are there.
theorem makeLast_exact (hfollow : Location.Followable (name :: parent)) (hname : IsName name)
    (h : disk.kind? parent = some .directory) {made : Except Fault Unit × Disk}
    (hmade : made = match disk.makeDirectory (Location.path (name :: parent)) with
      | .ok disk => (.ok (), disk)
      | .error fault =>
        (if disk.isDirectory (Location.path (name :: parent)) then .ok () else .error fault, disk)) :
    (made.1 = .ok () ↔ Scene.Passable disk.kind? (name :: parent)) ∧
      made.2.kind? = Scene.make disk.kind? (name :: parent) := by
  subst hmade
  rcases makeDirectory_exact hfollow hname h with
    ⟨next, hmake, hpass, hnext⟩ | ⟨fault, -, hmake, hpass, hsame⟩
  · rw [hmake]
    exact ⟨iff_of_true rfl hpass, hnext⟩
  · rw [hmake]
    refine ⟨?_, hsame.symm⟩
    rw [← hpass]
    dsimp only
    split <;> simp [*]

-- Of a directory that can be made, it is missing itself.
theorem missing_self (hfollow : location.Followable) (h : Scene.Passable disk.kind? location)
    (hmissing : disk.kind? location ≠ some .directory) :
    Scene.Missing disk.kind? location location := by
  refine ⟨within_refl _, hfollow, ?_, h⟩
  cases location with
  | nil => exact absurd disk.kind?_nil hmissing
  | cons name parent => exact (h.1.resolve_left hmissing).1

-- A directory that can be made is there afterwards.
theorem make_self (hfollow : location.Followable) (h : Scene.Passable disk.kind? location) :
    Scene.make disk.kind? location location = some .directory := by
  by_cases hdirectory : disk.kind? location = some .directory
  · rw [Scene.make_of_not_missing fun hmissing => by simpa [hdirectory] using hmissing.2.2.1,
      hdirectory]
  · exact Scene.make_of_missing (missing_self hfollow h hdirectory)

theorem makeDirectory_of_not_followable (disk : Disk) (h : ¬ Location.Followable (name :: parent)) :
    ∃ fault, fault ≠ .notFound ∧
      disk.makeDirectory (Location.path (name :: parent)) = .error fault := by
  have htext : (Location.path (name :: parent)).text ≠ "" := by
    rw [Location.text_path (by simp)]
    simp
  cases hcheck : (Location.path (name :: parent)).check with
  | ok _ => exact absurd hcheck h
  | error fault =>
      refine ⟨fault, Path.ne_notFound_of_check htext hcheck, ?_⟩
      simp only [makeDirectory, ending, hcheck, bind, Except.bind]

-- The way to a place is made as far as it can be, and it is there afterwards if all of it can be.
def MakesWay (disk : Disk) (location : Location) : Prop :=
  ((disk.makeWay (location ++ [""])).1 = .ok () ↔
      location.Followable ∧ Scene.Passable disk.kind? location) ∧
    (disk.makeWay (location ++ [""])).2.kind? = Scene.make disk.kind? location

theorem makesWay_nil (disk : Disk) : disk.MakesWay [] := by
  have hmake : disk.makeDirectory ⟨"/"⟩ = .error .alreadyExists := rfl
  have hroot : disk.isDirectory ⟨"/"⟩ = true := rfl
  have hway : disk.makeWay [""] = (.ok (), disk) := by
    rw [makeWay, if_neg (by simp)]
    simp [Path.ofSegments, hmake, hroot]
  rw [MakesWay, List.nil_append, hway]
  refine ⟨iff_of_true rfl ⟨Location.followable_nil, trivial⟩, (make_eq_self ?_).symm⟩
  exact fun other hother => ne_none_of_directory disk.kind?_nil hother.1 hother.2.2.1

-- In a directory that is there the first attempt decides.
theorem makesWay_of_directory (hfollow : Location.Followable (name :: parent)) (hname : IsName name)
    (h : disk.kind? parent = some .directory) : disk.MakesWay (name :: parent) := by
  rw [MakesWay, and_iff_right hfollow]
  refine makeLast_exact hfollow hname h ?_
  rcases makeDirectory_exact hfollow hname h with ⟨next, hmake, -⟩ | ⟨fault, hfault, hmake, -⟩
  · rw [makeWay_cons hname, hmake]
  · rw [makeWay_of_fault hname hfault hmake, hmake]

-- Otherwise the way above is made first.
theorem makesWay_of_notFound (hfollow : Location.Followable (name :: parent)) (hname : IsName name)
    (hmake : disk.makeDirectory (Location.path (name :: parent)) = .error .notFound)
    (h : disk.MakesWay parent) : disk.MakesWay (name :: parent) := by
  obtain ⟨hreach, hkind⟩ := h
  rw [MakesWay, and_iff_right hfollow, makeWay_cons hname, hmake]
  dsimp only
  generalize disk.makeWay (parent ++ [""]) = way at hreach hkind ⊢
  obtain ⟨result, middle⟩ := way
  dsimp only at hreach hkind
  cases result with
  | ok _ =>
      have habove : middle.kind? parent = some .directory := by
        rw [hkind]
        exact make_self hfollow.tail (hreach.1 rfl).2
      have hlast := makeLast_exact hfollow hname habove rfl
      rwa [hkind, Scene.passable_make, Scene.make_make hfollow] at hlast
  | error other =>
      have hblocked : ¬ Scene.Passable disk.kind? parent := fun hpass => by
        cases hreach.2 ⟨hfollow.tail, hpass⟩
      rw [Scene.make_cons_of_not_passable hfollow hblocked]
      exact ⟨iff_of_false (by simp) fun hpass => hblocked hpass.2, hkind⟩

-- Nothing is made where the attempt fails for another reason.
theorem makesWay_of_blocked {fault : Fault} (hname : IsName name) (hfault : fault ≠ .notFound)
    (hmake : disk.makeDirectory (Location.path (name :: parent)) = .error fault)
    (hstands : ¬ disk.isDirectory (Location.path (name :: parent)) = true)
    (hblocked : ¬ (Location.Followable (name :: parent) ∧
      Scene.Passable disk.kind? (name :: parent)))
    (hsame : Scene.make disk.kind? (name :: parent) = disk.kind?) :
    disk.MakesWay (name :: parent) := by
  rw [MakesWay, makeWay_of_fault hname hfault hmake, if_neg hstands]
  exact ⟨iff_of_false (by simp) hblocked, hsame.symm⟩

theorem makeWay_exact (hnamed : location.Named) (disk : Disk) : disk.MakesWay location := by
  induction location with
  | nil => exact makesWay_nil disk
  | cons name parent ih =>
      have hname : IsName name := hnamed name List.mem_cons_self
      by_cases hfollow : Location.Followable (name :: parent)
      · by_cases hdirectory : disk.kind? parent = some .directory
        · exact makesWay_of_directory hfollow hname hdirectory
        · cases hmake : disk.makeDirectory (Location.path (name :: parent)) with
          | ok next =>
              obtain ⟨_, _, hwalk, -, -, -, habove, -⟩ := makeDirectory_eq_ok hmake
              rw [Location.walk_path hnamed] at hwalk
              obtain ⟨rfl, rfl⟩ := List.cons.inj hwalk
              exact absurd habove hdirectory
          | error fault =>
              by_cases hfault : fault = .notFound
              · subst hfault
                exact makesWay_of_notFound hfollow hname hmake (ih hnamed.tail)
              · have hnone : ∀ other, ¬ Scene.Missing disk.kind? parent other := fun other hmissing =>
                  hfault (Except.error.inj
                    (hmake.symm.trans (makeDirectory_of_missing hfollow hnamed hmissing)))
                have hblocked : ¬ Scene.Passable disk.kind? parent := fun hpass =>
                  hnone parent (missing_self hfollow.tail hpass hdirectory)
                refine makesWay_of_blocked hname hfault hmake ?_ (fun hall => hblocked hall.2.2) ?_
                · exact fun hself => hdirectory (kind?_parent ((isDirectory_path hnamed).1 hself).2)
                · rw [Scene.make_cons_of_not_passable hfollow hblocked, make_eq_self hnone]
      · obtain ⟨fault, hfault, hmake⟩ := makeDirectory_of_not_followable disk hfollow
        refine makesWay_of_blocked hname hfault hmake ?_ (fun hall => hfollow hall.1) ?_
        · exact fun hself => hfollow ((isDirectory_path hnamed).1 hself).1
        · exact make_eq_self fun _ hmissing => hfollow hmissing.2.1

-- What making a directory comes to.
theorem makeDirectories_exact (hne : location ≠ []) (hnamed : location.Named) (disk : Disk) :
    ((disk.makeDirectories location.path).1 = .ok () ↔
        location.Followable ∧ Scene.Passable disk.kind? location) ∧
      (disk.makeDirectories location.path).2.kind? = Scene.make disk.kind? location := by
  have htext : location.path.text ≠ "" := by
    rw [Location.text_path hne]
    simp
  rw [makeDirectories, if_neg htext, Location.segments_path hnamed hne, List.reverse_cons,
    List.reverse_reverse]
  exact makeWay_exact hnamed disk

theorem followable_of_ending {ending : Ending} (h : disk.ending location.path = .ok ending) :
    location.Followable := by
  obtain ⟨_, hcheck, -⟩ := bind_eq_ok.1 h
  exact hcheck

end Disk

namespace Progress

variable {progress : Progress} {source parent : Location} {name : String} {content : ByteArray}

-- A change that puts a file at a place wherever a file can be written there.
theorem place_exact {change : Disk → Except Fault Disk} (hne : parent ≠ [])
    (hnamed : Location.Named (name :: parent))
    (hdone : ∀ middle : Disk, (∀ location, middle.file? location = progress.disk.file? location) →
      Location.Followable (name :: parent) → middle.kind? parent = some .directory →
      middle.kind? (name :: parent) ≠ some .directory →
      (middle.kind? (name :: parent) = none → name.utf8ByteSize ≤ Disk.longestName) →
      ∃ next, change middle = .ok next ∧ ∀ other, next.kind? other =
        if other = name :: parent then some (.file content) else middle.kind? other)
    (hfails : ∀ middle next, change middle = .ok next → Location.Followable (name :: parent) ∧
      middle.kind? (name :: parent) ≠ some .directory ∧
      (middle.kind? (name :: parent) = none → name.utf8ByteSize ≤ Disk.longestName)) :
    (progress.place (Location.path (name :: parent)) change).2.disk.kind? =
      Scene.put progress.disk.kind? (name :: parent) content := by
  obtain ⟨hreach, hkind⟩ := Disk.makeDirectories_exact hne hnamed.tail progress.disk
  have hgrows := @Disk.makeDirectories_grows progress.disk parent.path
  unfold place
  rw [Disk.makeParent_path hnamed]
  generalize progress.disk.makeDirectories parent.path = made at hreach hkind hgrows ⊢
  obtain ⟨result, middle⟩ := made
  dsimp only at hreach hkind hgrows
  have hself : middle.kind? (name :: parent) = progress.disk.kind? (name :: parent) := by
    rw [hkind, Scene.make_of_not_missing fun hmissing => Disk.not_within_tail hmissing.1]
  cases result with
  | error fault =>
      have hblocked : ¬ Scene.Writable progress.disk.kind? (name :: parent) := fun hwritable => by
        cases hreach.2 ⟨hwritable.1.tail, hwritable.2.1⟩
      rw [Scene.put_of_not_writable (by simp) hblocked]
      exact hkind
  | ok _ =>
      obtain ⟨hfollow, hpass⟩ := hreach.1 rfl
      by_cases hwritable : Scene.Writable progress.disk.kind? (name :: parent)
      · obtain ⟨hfollow, -, hfree, hlength⟩ := id hwritable
        have hparent : middle.kind? parent = some .directory := by
          rw [hkind]
          exact Disk.make_self hfollow.tail hpass
        obtain ⟨next, hchange, hnext⟩ := hdone middle hgrows.file?_eq hfollow hparent
          (hself ▸ hfree) fun hnone => hlength (hself ▸ hnone) name rfl
        dsimp only
        rw [hchange, Scene.put_of_writable hwritable]
        funext other
        rw [disk_onDisk, hnext, hkind]
        rfl
      · rw [Scene.put_of_not_writable (by simp) hwritable]
        dsimp only
        cases hchange : change middle with
        | error fault => exact hkind
        | ok next =>
            obtain ⟨hfollow, hfree, hlength⟩ := hfails middle next hchange
            refine absurd ⟨hfollow, hpass, hself ▸ hfree, fun hnone other hother => ?_⟩ hwritable
            obtain rfl := Option.some.inj hother
            exact hlength (hself ▸ hnone)

theorem writeOutput_exact (hne : parent ≠ []) (hnamed : Location.Named (name :: parent)) :
    (progress.writeOutput (Location.path (name :: parent)) content).2.disk.kind? =
      Scene.put progress.disk.kind? (name :: parent) content := by
  have hplace := @place_exact progress parent name content
    (·.write (Location.path (name :: parent)) content) hne hnamed
    (fun middle _ hfollow hparent hfree hlength => ⟨_,
      Disk.write_path hfollow (hnamed name List.mem_cons_self) hparent hfree hlength,
      Disk.kind?_putFile (hnamed name List.mem_cons_self) hparent hfree⟩)
    (fun middle next hwrite => by
      obtain ⟨_, _, hwalk, hfollow, -, -, hfree, hlength, -⟩ := Disk.write_eq_ok hwrite
      rw [Location.walk_path hnamed] at hwalk
      obtain ⟨rfl, rfl⟩ := List.cons.inj hwalk
      exact ⟨hfollow, hfree, hlength⟩)
  unfold writeOutput
  split
  · next heq =>
    rw [heq] at hplace
    exact hplace
  · next heq =>
    rw [heq] at hplace
    exact hplace

theorem copyOutput_exact (hne : parent ≠ []) (hnamed : Location.Named (name :: parent))
    (hsource : source.Followable) (hfile : progress.disk.file? source = some content)
    (hapart : source ≠ name :: parent) :
    (progress.copyOutput source.path (Location.path (name :: parent))).2.disk.kind? =
      Scene.put progress.disk.kind? (name :: parent) content := by
  have hplace := @place_exact progress parent name content
    (·.copy source.path (Location.path (name :: parent))) hne hnamed
    (fun middle hsame hfollow hparent hfree hlength => by
      have hthere : middle.file? source = some content := (hsame source).trans hfile
      obtain ⟨next, hcopy⟩ := Disk.copy_path hsource hthere hfollow
        (hnamed name List.mem_cons_self) hapart hparent hfree hlength
      have hkind := Disk.file?_eq_some.1 hthere
      refine ⟨next, hcopy, fun other => ?_⟩
      have hwalk := Location.walk_path (Disk.named_of_kind? hkind) middle.workDir
      rw [Disk.kind?_copy hcopy (by rwa [hwalk, Location.walk_path hnamed]), hwalk,
        Location.walk_path hnamed, hkind])
    (fun middle next hcopy => by
      obtain ⟨_, _, _, -, hwrite, -, -⟩ := Disk.copy_eq_ok hcopy
      obtain ⟨_, _, hwalk, hfollow, -, -, hfree, hlength, -⟩ := Disk.write_eq_ok hwrite
      rw [Location.walk_path hnamed] at hwalk
      obtain ⟨rfl, rfl⟩ := List.cons.inj hwalk
      exact ⟨hfollow, hfree, hlength⟩)
  unfold copyOutput
  split
  · next heq =>
    rw [heq] at hplace
    exact hplace
  · next heq =>
    rw [heq] at hplace
    exact hplace

theorem removeOutput_exact (hnamed : Location.Named (name :: parent)) :
    (progress.removeOutput (Location.path (name :: parent))).2.disk.kind? =
      Scene.take progress.disk.kind? (name :: parent) := by
  unfold removeOutput
  cases hremove : progress.disk.removeFile (Location.path (name :: parent)) with
  | ok next =>
      have hkind := Disk.kind?_removeFile hremove
      obtain ⟨content, hfile, -⟩ := Disk.removeFile_eq_ok hremove
      obtain ⟨ending, hending, -⟩ := bind_eq_ok.1 hremove
      simp only [Location.walk_path hnamed] at hkind hfile
      have hremovable : Scene.Removable progress.disk.kind? (name :: parent) :=
        ⟨Disk.followable_of_ending hending, by simp [hfile], by simp [hfile]⟩
      funext other
      rw [disk_onDisk, hkind, Scene.take]
      simp [hremovable]
  | error fault =>
      rw [Scene.take_eq_self]
      · rfl
      · rintro ⟨hfollow, hsome, hfree⟩
        cases hkind : progress.disk.kind? (name :: parent) with
        | none => exact hsome hkind
        | some kind =>
            cases kind with
            | directory => exact hfree hkind
            | file content =>
                rw [Disk.removeFile_path hfollow (Disk.file?_eq_some.2 hkind)] at hremove
                cases hremove

variable {below top : Location}

-- The same for what lies below a directory.
theorem writeOutput_put (hbelow : below ≠ []) (htop : top ≠ [])
    (hnamed : Location.Named (below ++ top)) :
    (progress.writeOutput (Location.path (below ++ top)) content).2.disk.kind? =
      Scene.put progress.disk.kind? (below ++ top) content := by
  obtain ⟨name, rest, rfl⟩ := List.exists_cons_of_ne_nil hbelow
  rw [List.cons_append] at hnamed ⊢
  exact writeOutput_exact (by simp [htop]) hnamed

theorem copyOutput_put (hbelow : below ≠ []) (htop : top ≠ [])
    (hnamed : Location.Named (below ++ top)) (hsource : source.Followable)
    (hfile : progress.disk.file? source = some content) (hapart : source ≠ below ++ top) :
    (progress.copyOutput source.path (Location.path (below ++ top))).2.disk.kind? =
      Scene.put progress.disk.kind? (below ++ top) content := by
  obtain ⟨name, rest, rfl⟩ := List.exists_cons_of_ne_nil hbelow
  rw [List.cons_append] at hnamed hapart ⊢
  exact copyOutput_exact (by simp [htop]) hnamed hsource hfile hapart

theorem removeOutput_take (hbelow : below ≠ []) (hnamed : Location.Named (below ++ top)) :
    (progress.removeOutput (Location.path (below ++ top))).2.disk.kind? =
      Scene.take progress.disk.kind? (below ++ top) := by
  obtain ⟨name, rest, rfl⟩ := List.exists_cons_of_ne_nil hbelow
  exact removeOutput_exact hnamed

end Progress

end StaticSite
