import StaticSite.Proofs.Disk.Clearing
import StaticSite.Proofs.Disk.Making

-- Where straight paths lead, from the root or from the working directory: what is found there is
-- told by what stands at the places on the way.
namespace StaticSite

namespace Path

-- Segments in the order in which a straight path has them.
def Precedes (earlier later : String) : Prop :=
  later = ".." → earlier = "" ∨ earlier = "." ∨ earlier = ".."

-- How often a path goes up.
def rises (path : Path) : Nat :=
  (segments path.text).count ".."

theorem Descends.straight {path : Path} (h : path.Descends) : path.Straight := by
  refine List.pairwise_of_forall_mem_list fun earlier _ later hmem hup => ?_
  exact absurd (hup ▸ hmem) h

theorem Descends.rises_eq {path : Path} (h : path.Descends) : path.rises = 0 :=
  List.count_eq_zero_of_not_mem h

theorem ne_notFound_of_check {path : Path} {fault : Fault} (hne : path.text ≠ "")
    (h : path.check = .error fault) : fault ≠ .notFound := by
  rintro rfl
  rw [check, if_neg hne] at h
  split at h
  · cases h
  · split at h <;> cases h

theorem not_mem_of_precedes {step : String} {rest : List String} (hstep : IsName step)
    (h : ∀ later ∈ rest, Precedes step later) : ".." ∉ rest := by
  intro hmem
  rcases h ".." hmem rfl with heq | heq | heq
  · exact hstep.1 heq
  · exact hstep.2.1 heq
  · exact hstep.2.2.1 heq

end Path

namespace Spot

-- A directory, or one that has been removed and is left by going up so often.
def Climbs (count : Nat) : Spot → Prop
  | .directory _ => True
  | .file _ _ _ => False
  | .removed above => above < count

end Spot

namespace Disk

variable {disk : Disk} {path : Path} {location parent : Location} {name : String}

theorem Passable.above {below : Location} (h : disk.Passable (below ++ location)) :
    disk.Passable location := by
  induction below with
  | nil => exact h
  | cons name rest ih => exact ih h.2

-- A path that starts at a directory that stands, or goes up to one.
def Grounded (disk : Disk) (path : Path) : Prop :=
  path.isAbsolute = true ∨ disk.adrift ≤ path.rises

theorem Grounded.climbs (h : disk.Grounded path) :
    (disk.origin path).Climbs (path.steps.count "..") := by
  have hcount : path.steps.count ".." = path.rises := List.count_filter (by decide)
  rw [hcount, origin]
  split
  · trivial
  · next hrelative =>
    have hadrift := h.resolve_left hrelative
    split
    · trivial
    · next above heq => exact Nat.lt_of_succ_le (heq ▸ hadrift)

-- What the steps of a straight path come to. `missing` is a place on the way at which there is
-- nothing, and no file before it.
structure Following (disk : Disk) (steps : List String) (spot : Spot) : Prop where
  directory : disk.kind? (steps.foldl Location.follow (spot.location disk)) = some .directory →
    ∃ trail, steps.foldlM disk.enter spot = .ok (.directory trail)
  missing : ∀ missing, within missing (steps.foldl Location.follow (spot.location disk)) →
    disk.kind? missing = none → disk.Passable missing →
      steps.foldlM disk.enter spot = .error .notFound
  stands : ∀ last, steps.foldlM disk.enter spot = .ok last → last.Stands

theorem Following.cons {steps : List String} {step : String} {spot next : Spot}
    (hnext : disk.enter spot step = .ok next)
    (hlocation : next.location disk = (spot.location disk).follow step)
    (h : disk.Following steps next) : disk.Following (step :: steps) spot := by
  have hfold : (step :: steps).foldlM disk.enter spot = steps.foldlM disk.enter next := by
    rw [List.foldlM_cons, hnext]
    rfl
  obtain ⟨hdirectory, hmissing, hstands⟩ := h
  rw [hlocation] at hdirectory hmissing
  exact ⟨hfold ▸ hdirectory, hfold ▸ hmissing, hfold ▸ hstands⟩

-- The first name that does not lead to a directory.
theorem following_of_not_directory {steps : List String} {trail : Trail} {step : String}
    (hvalid : trail.Valid disk) (hstep : IsName step) (hdown : ".." ∉ steps)
    (hfind : ∀ inside, (trail.inside disk).find? step ≠ some (.directory inside)) :
    disk.Following (step :: steps) (.directory trail) := by
  have hkind : disk.kind? (step :: trail.location) =
      ((trail.inside disk).find? step).map Entry.kind := by
    rw [kind?, get?_cons, Trail.get?_location hvalid]
    rfl
  have hfold : (step :: steps).foldl Location.follow trail.location =
      steps.foldl Location.follow (step :: trail.location) := by
    rw [List.foldl_cons, Location.follow, if_neg (not_or.2 ⟨hstep.1, hstep.2.1⟩),
      if_neg hstep.2.2.1]
  have hwithin := Location.within_foldl_follow hdown (step :: trail.location)
  have hblocked : disk.kind? (step :: trail.location) ≠ some .directory := by
    rw [hkind]
    cases hentry : (trail.inside disk).find? step with
    | none => simp
    | some entry =>
        cases entry with
        | directory inside => exact absurd hentry (hfind inside)
        | file content => simp [Entry.kind]
  have hparent := Trail.kind?_location hvalid
  -- A missing place on the way is at this name or beyond it.
  have hbeyond : ∀ missing, within missing (steps.foldl Location.follow (step :: trail.location)) →
      disk.kind? missing = none → within (step :: trail.location) missing := by
    intro missing hmissing hnone
    rcases within_or_within hmissing hwithin with habove | hbelow
    · rcases List.suffix_cons_iff.1 (List.isSuffixOf_iff_suffix.1 habove) with heq | hsuffix
      · exact heq ▸ within_refl _
      · obtain ⟨below, hbelow⟩ := hsuffix
        rw [← hbelow] at hparent
        cases below with
        | nil =>
            rw [List.nil_append, hnone] at hparent
            cases hparent
        | cons first rest =>
            rw [kind?_above (List.cons_ne_nil first rest) hparent] at hnone
            cases hnone
    · exact hbelow
  refine ⟨fun hdirectory => ?_, fun missing hmissing hnone hpass => ?_, fun last hlast => ?_⟩
  · rw [show (Spot.directory trail).location disk = trail.location from rfl, hfold] at hdirectory
    obtain ⟨below, hbelow⟩ := within_iff.1 hwithin
    rw [hbelow] at hdirectory
    cases below with
    | nil => exact absurd hdirectory hblocked
    | cons first rest =>
        exact absurd (kind?_above (List.cons_ne_nil first rest) hdirectory) hblocked
  · rw [show (Spot.directory trail).location disk = trail.location from rfl, hfold] at hmissing
    obtain ⟨below, rfl⟩ := within_iff.1 (hbeyond missing hmissing hnone)
    obtain ⟨hfree, -, hlength⟩ := hpass.above.1.resolve_left hblocked
    have hnothing : (trail.inside disk).find? step = none := by simpa [hkind] using hfree
    simp only [List.foldlM_cons, enter, if_neg hstep.2.1, if_neg hstep.2.2.1, hnothing, Disk.missing,
      if_neg (Nat.not_lt.2 hlength)]
    rfl
  · rw [List.foldlM_cons] at hlast
    simp only [enter, if_neg hstep.2.1, if_neg hstep.2.2.1] at hlast
    cases hentry : (trail.inside disk).find? step with
    | none =>
        rw [hentry] at hlast
        cases hlast
    | some entry =>
        cases entry with
        | directory inside => exact absurd hentry (hfind inside)
        | file content =>
            rw [hentry] at hlast
            cases steps with
            | nil => cases hlast; trivial
            | cons next rest => cases hlast

theorem following_straight {steps : List String} {spot : Spot} (hempty : "" ∉ steps)
    (hslash : ∀ step ∈ steps, '/' ∉ step.toList) (hstraight : steps.Pairwise Path.Precedes)
    (hvalid : spot.Valid disk) (hclimbs : spot.Climbs (steps.count "..")) :
    disk.Following steps spot := by
  induction steps generalizing spot with
  | nil =>
      cases spot with
      | file trail name content => exact hclimbs.elim
      | removed above => exact absurd hclimbs (Nat.not_lt_zero above)
      | directory trail =>
          refine ⟨fun _ => ⟨trail, rfl⟩, fun missing hmissing hnone _ => ?_, fun last hlast => ?_⟩
          · obtain ⟨below, hbelow⟩ := within_iff.1 hmissing
            have hkind := Trail.kind?_location hvalid
            rw [show trail.location = _ from hbelow] at hkind
            cases below with
            | nil =>
                rw [List.nil_append, hnone] at hkind
                cases hkind
            | cons first rest =>
                rw [kind?_above (List.cons_ne_nil first rest) hkind] at hnone
                cases hnone
          · cases hlast
            trivial
  | cons step rest ih =>
      rw [List.mem_cons, not_or] at hempty
      obtain ⟨hlater, hrest⟩ := List.pairwise_cons.1 hstraight
      have hbelow := fun other hmem => hslash other (List.mem_cons_of_mem step hmem)
      have hgo : ∀ next, disk.enter spot step = .ok next → next.Climbs (rest.count "..") →
          disk.Following (step :: rest) spot := fun next hnext hclimbs => by
        obtain ⟨hvalid', hlocation⟩ := enter_valid (Ne.symm hempty.1) hvalid hnext
        exact (ih hempty.2 hbelow hrest hvalid' hclimbs).cons hnext hlocation
      by_cases hdot : step = "."
      · subst hdot
        rw [List.count_cons_of_ne (by decide)] at hclimbs
        refine hgo spot ?_ hclimbs
        cases spot with
        | file trail name content => exact hclimbs.elim
        | removed above => rfl
        | directory trail => rfl
      · by_cases hup : step = ".."
        · subst hup
          rw [List.count_cons_self] at hclimbs
          cases spot with
          | file trail name content => exact hclimbs.elim
          | directory trail => exact hgo (.directory trail.tail) rfl trivial
          | removed above =>
              cases above with
              | zero => exact hgo _ rfl trivial
              | succ above => exact hgo (.removed above) rfl (Nat.lt_of_succ_lt_succ hclimbs)
        · have hname : IsName step :=
            ⟨Ne.symm hempty.1, hdot, hup, hslash step List.mem_cons_self⟩
          have hdown := Path.not_mem_of_precedes hname hlater
          cases spot with
          | file trail name content => exact hclimbs.elim
          | removed above =>
              rw [List.count_cons_of_ne hup, List.count_eq_zero_of_not_mem hdown] at hclimbs
              exact absurd hclimbs (Nat.not_lt_zero above)
          | directory trail =>
              by_cases hthere : ∃ inside, (trail.inside disk).find? step = some (.directory inside)
              · obtain ⟨inside, hfind⟩ := hthere
                refine hgo (.directory ((step, inside) :: trail)) ?_ trivial
                simp only [enter, if_neg hdot, if_neg hup, hfind]
              · exact following_of_not_directory hvalid hname hdown (not_exists.1 hthere)

theorem mem_steps {step : String} (h : step ∈ path.steps) : '/' ∉ step.toList :=
  Path.not_mem_of_mem_segments (List.mem_of_mem_filter h)

-- What a straight path leads to.
theorem following_path (hstraight : path.Straight) (hgrounded : disk.Grounded path) :
    disk.Following path.steps (disk.origin path) :=
  following_straight (not_mem_steps path) (fun _ => mem_steps) (hstraight.filter _)
    (disk.origin_valid path).1 hgrounded.climbs

theorem isDirectory_straight (hstraight : path.Straight) (hgrounded : disk.Grounded path) :
    disk.isDirectory path = true ↔
      path.check = .ok () ∧ disk.kind? (Location.walk disk.workDir path) = some .directory := by
  have hfollowing := following_path hstraight hgrounded
  rw [isDirectory_iff, walk_eq_foldl_steps]
  refine and_congr_right fun _ => ⟨?_, fun hkind => ?_⟩
  · rintro ⟨spot, hlead, hdirectory⟩
    obtain ⟨hvalid, hlocation, -⟩ :=
      foldlM_enter_valid (not_mem_steps path) (disk.origin_valid path).1 hlead
    rw [← hlocation, kind?, Spot.get?_location hvalid (hfollowing.stands spot hlead),
      Option.map_some, Entry.isDirectory_iff.1 hdirectory]
  · obtain ⟨trail, hlead⟩ := hfollowing.directory hkind
    exact ⟨.directory trail, hlead, rfl⟩

-- A path to a name in a directory, and how the disk comes to the directory.
structure Reaches (disk : Disk) (path : Path) (name : String) (parent : Location) : Prop where
  isName : IsName name
  walk : Location.walk disk.workDir path = name :: parent
  check : path.check = .ok ()
  ending : disk.kind? parent = some .directory → disk.ending path = .ok (.name parent name)
  missing : ∀ missing, within missing parent → disk.kind? missing = none →
    disk.Passable missing → disk.ending path = .error .notFound
  isDirectory : disk.isDirectory path = true ↔ disk.kind? (name :: parent) = some .directory

theorem reaches_straight {before : List String} (hstraight : path.Straight)
    (hgrounded : disk.Grounded path) (hcheck : path.check = .ok ())
    (hsteps : path.steps = before ++ [name]) (hname : IsName name) :
    disk.Reaches path name (Location.walk disk.workDir path).tail := by
  have hsorted : path.steps.Pairwise Path.Precedes := hstraight.filter _
  have hclimbs := hgrounded.climbs
  rw [hsteps] at hsorted hclimbs
  rw [List.count_append, List.count_cons_of_ne hname.2.2.1, List.count_nil, Nat.add_zero] at hclimbs
  have hfollowing : disk.Following before (disk.origin path) := by
    refine following_straight ?_ ?_ (List.pairwise_append.1 hsorted).1 (disk.origin_valid path).1
      hclimbs
    · exact fun hmem => not_mem_steps path (hsteps ▸ List.mem_append_left _ hmem)
    · exact fun step hmem => mem_steps (hsteps ▸ List.mem_append_left _ hmem)
  have hwalk : Location.walk disk.workDir path =
      name :: before.foldl Location.follow ((disk.origin path).location disk) := by
    rw [walk_eq_foldl_steps, hsteps, List.foldl_append, List.foldl_cons, List.foldl_nil,
      Location.follow, if_neg (not_or.2 ⟨hname.1, hname.2.1⟩), if_neg hname.2.2.1]
  have hreverse : path.steps.reverse = name :: before.reverse := by
    rw [hsteps, List.reverse_concat]
  have hdirectory := isDirectory_straight hstraight hgrounded
  rw [hwalk] at hdirectory ⊢
  rw [List.tail_cons]
  refine ⟨hname, hwalk, hcheck, fun hkind => ?_, fun missing hmissing hnone hpass => ?_,
    hdirectory.trans (and_iff_right hcheck)⟩
  · obtain ⟨trail, hlead⟩ := hfollowing.directory hkind
    have hempty : "" ∉ before := fun hmem =>
      not_mem_steps path (hsteps ▸ List.mem_append_left _ hmem)
    obtain ⟨-, hlocation, -⟩ := foldlM_enter_valid hempty (disk.origin_valid path).1 hlead
    unfold Disk.ending
    simp only [hcheck, bind, Except.bind, hreverse, List.reverse_reverse, hlead, Spot.entry,
      Entry.isDirectory, Bool.not_true, Bool.false_eq_true, ↓reduceIte, if_neg hname.2.1,
      if_neg hname.2.2.1, pure, Except.pure]
    exact congrArg (fun parent => Except.ok (Ending.name parent name)) hlocation
  · unfold Disk.ending
    simp only [hcheck, bind, Except.bind, hreverse, List.reverse_reverse,
      hfollowing.missing missing hmissing hnone hpass]

end Disk

end StaticSite
