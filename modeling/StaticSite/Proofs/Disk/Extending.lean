import StaticSite.Proofs.Disk.Ending
import StaticSite.Proofs.Disk.Same

-- A disk on which more has been made since. What a path came to on it, it comes to again, and what
-- could not be done there for another reason than that something was missing, cannot be done now.
namespace StaticSite

namespace Spot

-- Spots of two disks that are at one place.
def Matches : Spot → Spot → Prop
  | .directory trail, .directory other => other.location = trail.location
  | .file _ _ _, .file _ _ _ => True
  | .removed above, .removed other => other = above
  | _, _ => False

theorem Matches.isDirectory {disk later : Disk} {spot other : Spot} (h : spot.Matches other) :
    (other.entry later).isDirectory = (spot.entry disk).isDirectory := by
  cases spot <;> cases other <;> first | rfl | exact h.elim

end Spot

namespace Disk

variable {disk middle later next : Disk} {path : Path} {location : Location}

-- What stood on a disk stands on the other, and no name that is new there is too long. Files can
-- have got another content.
structure Extends (before after : Disk) : Prop where
  base : SameBase before after
  directory : ∀ location, before.kind? location = some .directory →
    after.kind? location = some .directory
  file : ∀ location content, before.kind? location = some (.file content) →
    ∃ other, after.kind? location = some (.file other)
  new : ∀ location, before.kind? location = none →
    after.kind? location = none ∨ ∀ name ∈ location.head?, name.utf8ByteSize ≤ longestName

namespace Extends

theorem refl (disk : Disk) : Extends disk disk :=
  ⟨.refl disk, fun _ h => h, fun _ content h => ⟨content, h⟩, fun _ h => .inl h⟩

theorem trans (h : Extends disk middle) (h' : Extends middle later) : Extends disk later := by
  refine ⟨h.base.trans h'.base,
    fun location hkind => h'.directory location (h.directory location hkind),
    fun location content hkind => ?_, fun location hnone => ?_⟩
  · obtain ⟨other, hother⟩ := h.file location content hkind
    exact h'.file location other hother
  · rcases h.new location hnone with hsame | hnew
    · exact h'.new location hsame
    · exact .inr hnew

theorem of_grows (hbase : SameBase disk later) (h : disk.Grows
    (fun location => ∀ name ∈ location.head?, name.utf8ByteSize ≤ longestName) later) :
    Extends disk later := by
  refine ⟨hbase, fun _ hkind => h.kind?_of_some hkind,
    fun _ content hkind => ⟨content, h.kind?_of_some hkind⟩, fun location hnone => ?_⟩
  rcases h.kind? location with heq | ⟨hnew, -, -⟩
  · exact .inl (heq.trans hnone)
  · exact .inr hnew

theorem ne_directory (h : Extends disk later) (hkind : later.kind? location ≠ some .directory) :
    disk.kind? location ≠ some .directory :=
  fun hdirectory => hkind (h.directory location hdirectory)

end Extends

-- What a way comes to on two disks, unless something is missing on the first.
def Repeats (first second : Except Fault Spot) : Prop :=
  match first with
  | .ok spot => ∃ other, second = .ok other ∧ spot.Matches other
  | .error fault => fault = .notFound ∨ second = .error fault

theorem Extends.trail (h : Extends disk later) :
    (later.trail (later.workDir.drop later.adrift)).location =
      (disk.trail (disk.workDir.drop disk.adrift)).location := by
  rw [(trail_of_kind? disk.kind?_workDir_drop).2, (trail_of_kind? later.kind?_workDir_drop).2,
    h.base.workDir, h.base.adrift]

theorem Extends.enter (h : Extends disk later) {spot other : Spot} (hvalid : spot.Valid disk)
    (hvalid' : other.Valid later) (hmatch : spot.Matches other) (step : String) :
    Repeats (disk.enter spot step) (later.enter other step) := by
  cases spot with
  | file trail name content =>
      cases other with
      | file trail' name' content' => exact .inr rfl
      | _ => exact hmatch.elim
  | removed above =>
      cases other with
      | removed above' =>
          obtain rfl : above' = above := hmatch
          simp only [Disk.enter]
          split
          · exact ⟨_, rfl, rfl⟩
          · split
            · cases above' with
              | zero => exact ⟨_, rfl, h.trail⟩
              | succ above => exact ⟨_, rfl, rfl⟩
            · exact .inl rfl
      | _ => exact hmatch.elim
  | directory trail =>
      cases other with
      | directory trail' =>
          have hlocation : trail'.location = trail.location := hmatch
          have hkind := Trail.kind?_cons hvalid step
          have hkind' := Trail.kind?_cons hvalid' step
          rw [hlocation] at hkind'
          simp only [Disk.enter]
          split
          · exact ⟨_, rfl, hlocation⟩
          · split
            · refine ⟨_, rfl, ?_⟩
              change Trail.location trail'.tail = Trail.location trail.tail
              rw [Trail.location, Trail.location, List.map_tail, List.map_tail]
              exact congrArg List.tail hlocation
            · cases hfind : (trail.inside disk).find? step with
              | none =>
                  rw [hfind] at hkind
                  by_cases hlong : longestName < step.utf8ByteSize
                  · right
                    have hnone := (h.new _ hkind).resolve_right fun hshort =>
                      Nat.not_lt.2 (hshort step rfl) hlong
                    rw [hnone, eq_comm, Option.map_eq_none_iff] at hkind'
                    rw [hkind']
                  · left
                    rw [missing, if_neg hlong]
              | some entry =>
                  rw [hfind] at hkind
                  cases entry with
                  | directory inside =>
                      rw [h.directory _ hkind] at hkind'
                      obtain ⟨entry, hentry, hsame⟩ := Option.map_eq_some_iff.1 hkind'.symm
                      rw [hentry]
                      cases entry with
                      | file content => cases hsame
                      | directory inside' =>
                          exact ⟨_, rfl, congrArg (List.cons step) hlocation⟩
                  | file content =>
                      obtain ⟨last, hlast⟩ := h.file _ _ hkind
                      rw [hlast] at hkind'
                      obtain ⟨entry, hentry, hsame⟩ := Option.map_eq_some_iff.1 hkind'.symm
                      rw [hentry]
                      cases entry with
                      | directory inside => cases hsame
                      | file content' => exact ⟨_, rfl, trivial⟩
      | _ => exact hmatch.elim

theorem Extends.foldlM_enter (h : Extends disk later) {steps : List String} {spot other : Spot}
    (hsteps : "" ∉ steps) (hvalid : spot.Valid disk) (hvalid' : other.Valid later)
    (hmatch : spot.Matches other) :
    Repeats (steps.foldlM disk.enter spot) (steps.foldlM later.enter other) := by
  induction steps generalizing spot other with
  | nil => exact ⟨other, rfl, hmatch⟩
  | cons step rest ih =>
      rw [List.mem_cons, not_or] at hsteps
      have hone := h.enter hvalid hvalid' hmatch step
      rw [List.foldlM_cons, List.foldlM_cons]
      cases hnext : disk.enter spot step with
      | error fault =>
          rw [hnext] at hone
          refine hone.imp_right fun heq => ?_
          rw [heq]
          rfl
      | ok next =>
          rw [hnext] at hone
          obtain ⟨next', hnext', hmatch'⟩ := hone
          rw [hnext']
          exact ih hsteps.2 (enter_valid (Ne.symm hsteps.1) hvalid hnext).1
            (enter_valid (Ne.symm hsteps.1) hvalid' hnext').1 hmatch'

theorem Extends.origin (h : Extends disk later) (path : Path) :
    (disk.origin path).Matches (later.origin path) := by
  have htrail := h.trail
  rw [h.base.workDir, h.base.adrift] at htrail
  rw [Disk.origin, Disk.origin, h.base.adrift, h.base.workDir]
  split
  · rfl
  · cases hadrift : disk.adrift with
    | succ above => rfl
    | zero =>
        rw [hadrift] at htrail
        exact htrail

theorem Extends.way (h : Extends disk later) (path : Path) :
    Repeats (disk.way path) (later.way path) :=
  h.foldlM_enter (fun hmem => not_mem_steps path (List.dropLast_subset _ hmem))
    (disk.origin_valid path).1 (later.origin_valid path).1 (h.origin path)

theorem finish_eq {spot other : Spot} (h : spot.Matches other) (last : String) :
    later.finish other last = disk.finish spot last := by
  simp only [Disk.finish, @Spot.Matches.isDirectory disk later spot other h]
  cases spot with
  | directory trail =>
      cases other with
      | directory trail' => simp only [show trail'.location = trail.location from h]
      | _ => exact h.elim
  | file trail name content =>
      cases other with
      | file trail' name' content' => rfl
      | _ => exact h.elim
  | removed above =>
      cases other with
      | removed above' => rfl
      | _ => exact h.elim

-- A path ends as before, unless something was missing on the way.
theorem Extends.ending (h : Extends disk later) (path : Path) :
    later.ending path = disk.ending path ∨
      disk.way path = .error .notFound ∧ disk.ending path = .error .notFound := by
  cases hcheck : path.check with
  | error fault => exact .inl (by rw [ending_of_check hcheck, ending_of_check hcheck])
  | ok _ =>
      rcases List.eq_nil_or_concat' path.steps with hnil | ⟨before, last, hconcat⟩
      · exact .inl (by rw [ending_of_nil hcheck hnil, ending_of_nil hcheck hnil])
      · have hway := h.way path
        rw [ending_of_concat hcheck hconcat, ending_of_concat hcheck hconcat]
        cases hdisk : disk.way path with
        | error fault =>
            rw [hdisk] at hway
            rcases hway with rfl | hlater
            · exact .inr ⟨rfl, rfl⟩
            · exact .inl (by rw [hlater]; rfl)
        | ok spot =>
            rw [hdisk] at hway
            obtain ⟨other, hother, hmatch⟩ := hway
            rw [hother]
            exact .inl (finish_eq hmatch last)

namespace Extends

theorem isDirectory (h : Extends disk later) (hdirectory : disk.isDirectory path = true) :
    later.isDirectory path = true := by
  obtain ⟨ending, hending, hkind⟩ := isDirectory_iff_ending.1 hdirectory
  refine isDirectory_iff_ending.2 ⟨ending, ?_, fun parent name heq =>
    h.directory _ (hkind parent name heq)⟩
  rcases h.ending path with hsame | ⟨-, hmissing⟩
  · exact hsame.trans hending
  · rw [hmissing] at hending
    cases hending

theorem makeDirectory (h : disk.makeDirectory path = .ok next) : Extends disk next := by
  refine of_grows (sameBase_makeDirectory h) (grows_of_makeDirectory h ?_)
  rintro - name parent - hlength
  simpa using hlength

theorem makeWay (disk : Disk) (segments : List String) : Extends disk (disk.makeWay segments).2 := by
  refine of_grows (disk.sameBase_makeWay segments) (makeWay_grows ?_)
  rintro above - - name parent - hlength
  simpa using hlength

end Extends

-- What has been made is there.
theorem isDirectory_of_makeDirectory (hmake : disk.makeDirectory path = .ok next)
    (h : Extends next later) : later.isDirectory path = true := by
  refine h.isDirectory ?_
  have hextends := Extends.makeDirectory hmake
  obtain ⟨ending, hending, hdone⟩ := bind_eq_ok.1 hmake
  have hagain : next.ending path = .ok ending := by
    rcases hextends.ending path with hsame | ⟨-, hmissing⟩
    · exact hsame.trans hending
    · rw [hmissing] at hending
      cases hending
  refine isDirectory_iff_ending.2 ⟨ending, hagain, ?_⟩
  rintro parent name rfl
  obtain ⟨last, above, hwalk, -, hname, -, hparent, hnone, rfl⟩ := makeDirectory_eq_ok hmake
  rw [(ending_eq_name hending).2.2.2.trans hwalk.symm, kind?_putDirectory hname hparent hnone,
    if_pos rfl]

-- What cannot be made where nothing is missing on the way cannot be made later.
theorem makeDirectory_fails {fault : Fault} (h : Extends disk later)
    (hending : later.ending path = disk.ending path)
    (hmake : disk.makeDirectory path = .error fault) (hnot : ¬ disk.isDirectory path = true) :
    later.makeDirectory path = .error fault ∧ ¬ later.isDirectory path = true := by
  rw [isDirectory_iff_ending] at hnot ⊢
  unfold makeDirectory at hmake ⊢
  rw [hending]
  cases hdisk : disk.ending path with
  | error other =>
      rw [hdisk] at hmake
      exact ⟨hmake, by simp⟩
  | ok ending =>
      rw [hdisk] at hmake hnot
      cases ending with
      | name parent name =>
          have hfree : disk.kind? (name :: parent) ≠ some .directory := by simpa using hnot
          simp only [bind, Except.bind] at hmake ⊢
          cases hkind : disk.kind? (name :: parent) with
          | none =>
              have hget := kind?_eq_none.1 hkind
              simp only [hget, Option.isSome_none, Bool.false_eq_true, ↓reduceIte] at hmake
              split at hmake
              · next hlong =>
                have hnone := (h.new _ hkind).resolve_right fun hshort =>
                  Nat.not_lt.2 (hshort name rfl) hlong
                rw [kind?_eq_none.1 hnone, if_pos hlong]
                exact ⟨hmake, by simp [hnone]⟩
              · cases hmake
          | some kind =>
              cases kind with
              | directory => exact absurd hkind hfree
              | file content =>
                  obtain ⟨other, hother⟩ := h.file _ _ hkind
                  rw [kind?_eq_file.1 hkind] at hmake
                  rw [kind?_eq_file.1 hother]
                  exact ⟨hmake, by simp [hother]⟩
      | _ => exact absurd ⟨_, rfl, by simp⟩ hnot

-- A path to the name of a file that is there or can be made.
def Takes (disk : Disk) (path : Path) : Prop :=
  path.endsInSlash = false ∧ ∃ parent name, disk.ending path = .ok (.name parent name) ∧
    disk.kind? (name :: parent) ≠ some .directory ∧
    (disk.kind? (name :: parent) = none → name.utf8ByteSize ≤ longestName)

theorem write_of_takes (h : disk.Takes path) (content : ByteArray) :
    ∃ next, disk.write path content = .ok next := by
  obtain ⟨hslash, parent, name, hending, hfree, hlength⟩ := h
  simp only [write, hending, bind, Except.bind, hslash, Bool.false_eq_true, ↓reduceIte]
  cases hget : disk.get? (name :: parent) with
  | none => exact ⟨_, if_neg (Nat.not_lt.2 (hlength (kind?_eq_none.2 hget)))⟩
  | some entry =>
      cases entry with
      | directory inside => exact absurd (kind?_eq_directory.2 ⟨inside, hget⟩) hfree
      | file other => exact ⟨_, rfl⟩

theorem takes_of_write {content : ByteArray} (h : disk.write path content = .ok next) :
    disk.Takes path := by
  obtain ⟨name, parent, hwalk, -, -, -, hfree, hlength, -⟩ := write_eq_ok h
  obtain ⟨ending, hending, hdone⟩ := bind_eq_ok.1 h
  cases ending with
  | name above last =>
      have hplace := (ending_eq_name hending).2.2.2.trans hwalk.symm
      obtain ⟨rfl, rfl⟩ := List.cons.inj hplace
      refine ⟨?_, above, last, hending, hfree, hlength⟩
      by_contra hslash
      simp only [Bool.not_eq_false] at hslash
      simp only [hslash, ↓reduceIte] at hdone
      cases hdone
  | _ => cases hdone

-- A file that cannot be put there cannot be put there later.
theorem Extends.takes (h : Extends disk later) (hending : later.ending path = disk.ending path)
    (htakes : later.Takes path) : disk.Takes path := by
  obtain ⟨hslash, parent, name, hname, hfree, hlength⟩ := htakes
  refine ⟨hslash, parent, name, hending ▸ hname, h.ne_directory hfree, fun hnone => ?_⟩
  rcases h.new _ hnone with hsame | hshort
  · exact hlength hsame
  · exact hshort name rfl

-- A change that puts a file at the end of a path, wherever the path ends at a name for it and the
-- disk is ready for the change, as it is still when directories have been made.
structure Stores (path : Path) (content : ByteArray) (ready : Disk → Prop)
    (change : Disk → Except Fault Disk) : Prop where
  grows : ∀ disk next, disk.Grows (fun _ => True) next → ready disk → ready next
  takes : ∀ disk, ready disk → ((∃ next, change disk = .ok next) ↔ disk.Takes path)
  base : ∀ disk next, change disk = .ok next → SameBase disk next
  kind? : ∀ disk next, ready disk → change disk = .ok next → ∀ location, next.kind? location =
    if location = Location.walk disk.workDir path then some (.file content) else disk.kind? location

theorem stores_write (path : Path) (content : ByteArray) :
    Stores path content (fun _ => True) (·.write path content) :=
  ⟨fun _ _ _ _ => trivial, fun _ _ => ⟨fun ⟨_, h⟩ => takes_of_write h, fun h => write_of_takes h content⟩,
    fun _ _ h => sameBase_write h, fun _ _ _ h => kind?_write h⟩

namespace Stores

variable {content : ByteArray} {ready : Disk → Prop} {change : Disk → Except Fault Disk}

theorem extension (hstores : Stores path content ready change) (hready : ready disk)
    (h : change disk = .ok next) : Extends disk next := by
  obtain ⟨-, parent, name, hending, hfree, hlength⟩ := (hstores.takes disk hready).1 ⟨next, h⟩
  have hkind := hstores.kind? disk next hready h
  rw [← (ending_eq_name hending).2.2.2] at hkind
  refine ⟨hstores.base disk next h, fun location hdirectory => ?_, fun location other hfile => ?_,
    fun location hnone => ?_⟩
  · rw [hkind, if_neg, hdirectory]
    rintro rfl
    exact hfree hdirectory
  · rw [hkind]
    split
    · exact ⟨content, rfl⟩
    · exact ⟨other, hfile⟩
  · rw [hkind]
    split
    · next heq =>
      subst heq
      exact .inr (by simpa using hlength hnone)
    · exact .inl hnone

-- A file that has been put there can be put there again.
theorem takes_again (hstores : Stores path content ready change) (hready : ready disk)
    (hchange : change disk = .ok next) (h : Extends next later) : later.Takes path := by
  obtain ⟨hslash, parent, name, hending, -⟩ := (hstores.takes disk hready).1 ⟨next, hchange⟩
  obtain ⟨other, hother⟩ := h.file (name :: parent) content (by
    rw [hstores.kind? disk next hready hchange, (ending_eq_name hending).2.2.2, if_pos rfl])
  refine ⟨hslash, parent, name, ?_, by simp [hother], by simp [hother]⟩
  rcases ((hstores.extension hready hchange).trans h).ending path with hsame | ⟨-, hmissing⟩
  · exact hsame.trans hending
  · rw [hmissing] at hending
    cases hending

end Stores

-- A file that stands where a path ends can be read along the path.
theorem read_of_takes {content : ByteArray} (h : disk.Takes path)
    (hfile : disk.file? (Location.walk disk.workDir path) = some content) :
    disk.read path = .ok content := by
  obtain ⟨hslash, parent, name, hending, -⟩ := h
  obtain ⟨hcheck, -, -, hwalk⟩ := ending_eq_name hending
  rw [← hwalk, file?_eq_some] at hfile
  rcases List.eq_nil_or_concat' path.steps with hnil | ⟨before, last, hconcat⟩
  · rw [ending_of_nil hcheck hnil] at hending
    cases hending
  · rw [ending_of_concat hcheck hconcat] at hending
    have hlead := @lead_of_concat disk path before last hconcat
    cases hway : disk.way path with
    | error fault =>
        rw [hway] at hending
        cases hending
    | ok spot =>
        have hvalid := (foldlM_enter_valid (fun hmem => not_mem_steps path (List.dropLast_subset _ hmem))
          (disk.origin_valid path).1 hway).1
        rw [hway] at hending hlead
        obtain ⟨trail, rfl, rfl, rfl, hdot, hup⟩ := finish_eq_name hending
        rw [Trail.kind?_cons hvalid, Option.map_eq_some_iff] at hfile
        obtain ⟨entry, hfind, hkind⟩ := hfile
        cases entry with
        | directory inside => cases hkind
        | file other =>
            cases hkind
            simp only [Except.bind, enter, if_neg hdot, if_neg hup, hfind] at hlead
            rw [read, find_of_lead hcheck hlead (by simp [hslash])]
            rfl

-- What has been written can be read.
theorem read_write {content : ByteArray} (h : disk.write path content = .ok next) :
    next.read path = .ok content := by
  refine read_of_takes ((stores_write path content).takes_again trivial h (.refl next)) ?_
  rw [file?_eq_some, kind?_write h, workDir_write h, if_pos rfl]

theorem stores_copy {source : Location} (hsource : source.Followable) (path : Path)
    (content : ByteArray) :
    Stores path content
      (fun disk => disk.file? source = some content ∧ source ≠ Location.walk disk.workDir path)
      (·.copy source.path path) := by
  have hread : ∀ {disk : Disk}, disk.file? source = some content →
      disk.read source.path = .ok content := fun hfile =>
    (read_path (named_of_kind? (file?_eq_some.1 hfile))).2 ⟨hsource, hfile⟩
  refine ⟨fun disk next hgrows hready => ?_, fun disk hready => ⟨fun hcopy => ?_, fun htakes => ?_⟩,
    fun _ _ h => sameBase_copy h, fun disk next hready hcopy location => ?_⟩
  · rw [hgrows.file?_eq, hgrows.workDir]
    exact hready
  · obtain ⟨next, hcopy⟩ := hcopy
    obtain ⟨_, _, _, -, hwrite, -⟩ := copy_eq_ok hcopy
    exact takes_of_write hwrite
  · -- The file is emptied first, which does not keep it from being written.
    obtain ⟨middle, hmiddle⟩ := write_of_takes htakes ByteArray.empty
    have hfile : middle.file? source = some content := by
      rw [file?_eq_of_kind?_eq ((kind?_write hmiddle source).trans (if_neg hready.2)), hready.1]
    obtain ⟨next, hnext⟩ := write_of_takes
      ((stores_write path ByteArray.empty).takes_again trivial hmiddle (.refl middle)) content
    refine ⟨next, ?_⟩
    simp only [copy, hread hready.1, hmiddle, hread hfile, bind, Except.bind, hnext]
  · have hwalk := Location.walk_path (named_of_kind? (file?_eq_some.1 hready.1)) disk.workDir
    rw [kind?_copy hcopy (by rw [hwalk]; exact hready.2), hwalk, file?_eq_some.1 hready.1]

end Disk

end StaticSite
