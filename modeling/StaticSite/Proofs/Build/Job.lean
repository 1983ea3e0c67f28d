import Mathlib.Data.List.Dedup
import StaticSite.Proofs.Disk.Making

-- The jobs that a build comes to: files that are put into the output or taken out of it. What a
-- job does is told by what stands at each place, also where it cannot be done.
namespace StaticSite

open Disk (within)

-- What stands at each place.
abbrev Scene := Location → Option Kind

-- Two places of which none is above the other.
def Location.Apart (left right : Location) : Prop :=
  ¬ within left right ∧ ¬ within right left

instance (left right : Location) : Decidable (left.Apart right) := by
  unfold Location.Apart; infer_instance

theorem Location.Apart.symm {left right : Location} (h : left.Apart right) : right.Apart left :=
  ⟨h.2, h.1⟩

theorem Location.Apart.append {left right : Location} (h : left.Apart right) (top : Location) :
    Apart (left ++ top) (right ++ top) :=
  ⟨mt Disk.within_append_right_iff.1 h.1, mt Disk.within_append_right_iff.1 h.2⟩

namespace Scene

-- A place at which a directory stands or can be made, with those above it.
def Passable (scene : Scene) : Location → Prop
  | [] => True
  | name :: parent => (scene (name :: parent) = some .directory ∨
      scene (name :: parent) = none ∧ IsName name ∧ name.utf8ByteSize ≤ Disk.longestName) ∧
    scene.Passable parent

instance decidablePassable (scene : Scene) :
    (location : Location) → Decidable (scene.Passable location)
  | [] => .isTrue trivial
  | _ :: parent =>
    have := decidablePassable scene parent
    inferInstanceAs (Decidable (_ ∧ _))

-- A place at which a file can be written, once the directories that lead there are made.
def Writable (scene : Scene) (place : Location) : Prop :=
  place.Followable ∧ scene.Passable place.tail ∧ scene place ≠ some .directory ∧
    (scene place = none → ∀ name ∈ place.head?, name.utf8ByteSize ≤ Disk.longestName)

-- What is missing of a directory and of the way there, as far as it can be made.
def Missing (scene : Scene) (directory location : Location) : Prop :=
  within location directory ∧ directory.Followable ∧ scene location = none ∧
    scene.Passable location

-- A file that can be removed.
def Removable (scene : Scene) (place : Location) : Prop :=
  place.Followable ∧ scene place ≠ none ∧ scene place ≠ some .directory

instance (scene : Scene) (place : Location) : Decidable (scene.Writable place) := by
  unfold Writable; infer_instance

instance (scene : Scene) (directory location : Location) :
    Decidable (scene.Missing directory location) := by
  unfold Missing; infer_instance

instance (scene : Scene) (place : Location) : Decidable (scene.Removable place) := by
  unfold Removable; infer_instance

-- What stands where after a directory has been made, with those above it. They are made as far
-- as that goes.
def make (scene : Scene) (directory : Location) : Scene := fun location =>
  if scene.Missing directory location then some .directory else scene location

-- What stands where after a file has been put at a place. The directory that it lies in is made
-- also where the file cannot be written.
def put (scene : Scene) (place : Location) (content : ByteArray) : Scene := fun location =>
  if location = place then if scene.Writable place then some (.file content) else scene place
  else scene.make place.tail location

-- What stands where after the file at a place has been removed, if there is one.
def take (scene : Scene) (place : Location) : Scene := fun location =>
  if location = place ∧ scene.Removable place then none else scene location

variable {scene : Scene} {place target location : Location} {content other : ByteArray}

theorem within_of_tail (h : within location place.tail) : within location place := by
  cases place with
  | nil => exact h
  | cons name parent => exact Disk.within_trans h (Disk.within_append [name] parent)

theorem ne_of_not_within (h : ¬ within place location) : location ≠ place := by
  rintro rfl
  exact h (Disk.within_refl _)

theorem Missing.within (h : scene.Missing place.tail location) : within location place :=
  within_of_tail h.1

theorem make_of_missing (h : scene.Missing target location) :
    scene.make target location = some .directory :=
  if_pos h

theorem make_of_not_missing (h : ¬ scene.Missing target location) :
    scene.make target location = scene location :=
  if_neg h

-- Only the place itself changes, and what is on the way to it.
theorem put_of_not_within (h : ¬ within location place) :
    scene.put place content location = scene location := by
  rw [put, if_neg, make_of_not_missing fun hmissing => h hmissing.within]
  rintro rfl
  exact h (Disk.within_refl _)

theorem put_self : scene.put place content place =
    if scene.Writable place then some (.file content) else scene place :=
  if_pos rfl

theorem put_of_missing (hne : location ≠ place) (h : scene.Missing place.tail location) :
    scene.put place content location = some .directory := by
  rw [put, if_neg hne, make_of_missing h]

theorem put_of_not_missing (hne : location ≠ place) (h : ¬ scene.Missing place.tail location) :
    scene.put place content location = scene location := by
  rw [put, if_neg hne, make_of_not_missing h]

theorem put_of_writable (h : scene.Writable place) : scene.put place content = fun location =>
    if location = place then some (.file content) else scene.make place.tail location := by
  funext location
  rw [put, if_pos h]

-- Where the file cannot be written, the directory that it would lie in is made all the same.
theorem put_of_not_writable (hne : place ≠ []) (h : ¬ scene.Writable place) :
    scene.put place content = scene.make place.tail := by
  obtain ⟨name, parent, rfl⟩ := List.exists_cons_of_ne_nil hne
  funext location
  by_cases heq : location = name :: parent
  · subst heq
    rw [put_self, if_neg h, List.tail_cons,
      make_of_not_missing fun hmissing => Disk.not_within_tail hmissing.1]
  · rw [put, if_neg heq]

theorem take_of_ne (h : location ≠ place) : scene.take place location = scene location :=
  if_neg fun heq => h heq.1

theorem take_eq_self (h : ¬ scene.Removable place) : scene.take place = scene :=
  funext fun _ => if_neg fun hboth => h hboth.2

theorem passable_congr {scene' : Scene}
    (h : ∀ above, within above location → scene above = scene' above) :
    scene.Passable location ↔ scene'.Passable location := by
  induction location with
  | nil => exact Iff.rfl
  | cons name parent ih =>
      rw [Passable, Passable, h _ (Disk.within_refl _),
        ih fun above habove => h above (within_of_tail habove)]

-- A directory that is made can be passed as before.
theorem passable_make : (scene.make target).Passable location ↔ scene.Passable location := by
  induction location with
  | nil => exact Iff.rfl
  | cons name parent ih =>
      rw [Passable, Passable, ih]
      by_cases hmissing : scene.Missing target (name :: parent)
      · rw [make_of_missing hmissing]
        exact ⟨fun _ => hmissing.2.2.2, fun hpass => ⟨.inl rfl, hpass.2⟩⟩
      · rw [make_of_not_missing hmissing]

theorem missing_cons {name : String} {parent : Location}
    (hfollow : Location.Followable (name :: parent)) :
    scene.Missing (name :: parent) location ↔ scene.Missing parent location ∨
      location = name :: parent ∧ scene location = none ∧ scene.Passable location := by
  have hwithin : within location (name :: parent) = true ↔
      location = name :: parent ∨ within location parent = true := by
    simp only [Disk.within, List.isSuffixOf_iff_suffix, List.suffix_cons_iff]
  simp only [Missing, hwithin, hfollow, hfollow.tail, true_and, or_and_right]
  exact or_comm

-- A directory is made after those above it.
theorem make_make {name : String} {parent : Location}
    (hfollow : Location.Followable (name :: parent)) :
    (scene.make parent).make (name :: parent) = scene.make (name :: parent) := by
  funext other
  by_cases hmissing : scene.Missing parent other
  · have hmade : scene.make parent other = some .directory := make_of_missing hmissing
    rw [make_of_not_missing fun hagain => by simpa [hmade] using hagain.2.2.1, hmade,
      make_of_missing ((missing_cons hfollow).2 (.inl hmissing))]
  · have hsame : scene.make parent other = scene other := make_of_not_missing hmissing
    simp only [make.eq_def _ (name :: parent), Missing, hsame, passable_make]

theorem make_cons_of_not_passable {name : String} {parent : Location}
    (hfollow : Location.Followable (name :: parent)) (h : ¬ scene.Passable parent) :
    scene.make (name :: parent) = scene.make parent := by
  funext other
  have hmissing : scene.Missing (name :: parent) other ↔ scene.Missing parent other := by
    rw [missing_cons hfollow]
    refine or_iff_left ?_
    rintro ⟨rfl, -, hpass⟩
    exact h hpass.2
  simp only [make, hmissing]

theorem passable_put (h : ¬ within place location) :
    (scene.put place content).Passable location ↔ scene.Passable location := by
  have hmake : (scene.make place.tail).Passable location ↔ scene.Passable location := passable_make
  refine Iff.trans (passable_congr fun above habove => if_neg ?_) hmake
  rintro rfl
  exact h habove

theorem passable_take (h : ¬ within place location) :
    (scene.take place).Passable location ↔ scene.Passable location := by
  refine passable_congr fun above habove => take_of_ne ?_
  rintro rfl
  exact h habove

theorem not_within_tail_of_not_within (h : ¬ within place target) : ¬ within place target.tail :=
  fun habove => h (within_of_tail habove)

theorem writable_put (h : place.Apart target) :
    (scene.put place content).Writable target ↔ scene.Writable target := by
  rw [Writable, Writable, put_of_not_within h.2,
    passable_put (not_within_tail_of_not_within h.1)]

theorem writable_take (h : ¬ within place target) :
    (scene.take place).Writable target ↔ scene.Writable target := by
  rw [Writable, Writable, take_of_ne (ne_of_not_within h),
    passable_take (not_within_tail_of_not_within h)]

theorem missing_take (h : ¬ within place target) :
    (scene.take place).Missing target.tail location ↔ scene.Missing target.tail location := by
  refine and_congr_right fun hwithin => and_congr_right fun _ => ?_
  have hnot : ¬ within place location := fun habove =>
    h (Disk.within_trans habove (within_of_tail hwithin))
  rw [take_of_ne (ne_of_not_within hnot), passable_take hnot]

-- What is missing on the way to one place is still missing when a file has been put at another
-- one, unless it has been made for that.
theorem missing_put (h : place.Apart target) :
    (scene.put place content).Missing target.tail location ↔
      scene.Missing target.tail location ∧ ¬ scene.Missing place.tail location := by
  constructor
  · rintro ⟨hwithin, hfollow, hnone, hpass⟩
    have hnot : ¬ within place location := fun habove =>
      h.1 (Disk.within_trans habove (within_of_tail hwithin))
    have hne := ne_of_not_within hnot
    by_cases hmissing : scene.Missing place.tail location
    · rw [put_of_missing hne hmissing] at hnone
      cases hnone
    · rw [put_of_not_missing hne hmissing] at hnone
      exact ⟨⟨hwithin, hfollow, hnone, (passable_put hnot).1 hpass⟩, hmissing⟩
  · rintro ⟨⟨hwithin, hfollow, hnone, hpass⟩, hmissing⟩
    have hnot : ¬ within place location := fun habove =>
      h.1 (Disk.within_trans habove (within_of_tail hwithin))
    have hne := ne_of_not_within hnot
    exact ⟨hwithin, hfollow, (put_of_not_missing hne hmissing).trans hnone,
      (passable_put hnot).2 hpass⟩

-- Files can be put at two places in any order, if none of the places is above the other.
theorem put_put_comm (h : place.Apart target) :
    (scene.put place content).put target other = (scene.put target other).put place content := by
  funext location
  by_cases hplace : location = place
  · subst hplace
    rw [put_of_not_within h.1]
    simp only [put_self, writable_put h.symm, put_of_not_within h.1]
  · by_cases htarget : location = target
    · subst htarget
      rw [put_of_not_within h.2]
      simp only [put_self, writable_put h, put_of_not_within h.2]
    · -- Elsewhere directories are made for either of them.
      by_cases hmissing : scene.Missing place.tail location <;>
        by_cases hmissing' : scene.Missing target.tail location <;>
        simp [put, make, hplace, htarget, missing_put, h, h.symm, hmissing, hmissing']

-- A file can be removed before or after another is put, unless it is in the way of that.
theorem put_take_comm (h : ¬ within place target) :
    (scene.take place).put target content = (scene.put target content).take place := by
  have hne : place ≠ target := (ne_of_not_within h).symm
  have hmissing : ¬ scene.Missing target.tail place := fun hmissing => h hmissing.within
  have hremovable : (scene.put target content).Removable place ↔ scene.Removable place := by
    rw [Removable, Removable, put_of_not_missing hne hmissing]
  funext location
  by_cases hplace : location = place
  · subst hplace
    rw [put_of_not_missing hne (mt (missing_take h).1 hmissing)]
    simp only [take, hremovable, put_of_not_missing hne hmissing]
  · simp only [take_of_ne hplace, put, make, writable_take h, missing_take h,
      take_of_ne (ne_of_not_within h)]

theorem take_take_comm : (scene.take place).take target = (scene.take target).take place := by
  by_cases heq : place = target
  · rw [heq]
  · have hremovable : (scene.take place).Removable target ↔ scene.Removable target := by
      rw [Removable, Removable, take_of_ne (Ne.symm heq)]
    have hremovable' : (scene.take target).Removable place ↔ scene.Removable place := by
      rw [Removable, Removable, take_of_ne heq]
    funext location
    simp only [take, hremovable, hremovable']
    split <;> split <;> rfl

-- Nothing more happens when the same is done again.
theorem put_put_self (hne : place ≠ []) :
    (scene.put place content).put place content = scene.put place content := by
  obtain ⟨name, parent, rfl⟩ := List.exists_cons_of_ne_nil hne
  have hpass : (scene.put (name :: parent) content).Passable parent ↔ scene.Passable parent :=
    passable_put Disk.not_within_tail
  funext location
  by_cases hplace : location = name :: parent
  · subst hplace
    rw [put_self, put_self]
    by_cases hwritable : scene.Writable (name :: parent)
    · rw [if_pos hwritable, ite_self]
    · have hagain : ¬ (scene.put (name :: parent) content).Writable (name :: parent) := by
        rw [Writable, put_self, if_neg hwritable, List.tail_cons, hpass]
        exact hwritable
      rw [if_neg hagain]
  · have hmissing : ¬ (scene.put (name :: parent) content).Missing parent location := by
      rintro ⟨hwithin, hfollow, hnone, hlast⟩
      have hnot : ¬ within (name :: parent) location := fun habove =>
        Disk.not_within_tail (Disk.within_trans habove hwithin)
      by_cases hmissing : scene.Missing parent location
      · rw [put_of_missing hplace hmissing] at hnone
        cases hnone
      · rw [put_of_not_missing hplace hmissing] at hnone
        exact hmissing ⟨hwithin, hfollow, hnone, (passable_put hnot).1 hlast⟩
    rw [put_of_not_missing hplace hmissing]

theorem not_removable_take : ¬ (scene.take place).Removable place := by
  intro h
  by_cases hremovable : scene.Removable place
  · exact h.2.1 (if_pos ⟨rfl, hremovable⟩)
  · rw [take_eq_self hremovable] at h
    exact hremovable h

theorem take_take_self : (scene.take place).take place = scene.take place :=
  take_eq_self not_removable_take

end Scene

-- What is done to the output of one file, at its place.
inductive Job where
  | put (place : Location) (content : ByteArray)
  | take (place : Location)
deriving DecidableEq

namespace Job

def place : Job → Location
  | .put place _ | .take place => place

-- What stands where after a job in the directory `out`.
def act (out : Location) : Job → Scene → Scene
  | .put place content, scene => scene.put (place ++ out) content
  | .take place, scene => scene.take (place ++ out)

def run (out : Location) (jobs : List Job) (scene : Scene) : Scene :=
  jobs.foldl (fun scene job => job.act out scene) scene

variable {out : Location} {jobs others : List Job} {left right job : Job} {scene : Scene}

@[simp]
theorem run_nil (out : Location) (scene : Scene) : run out [] scene = scene := rfl

@[simp]
theorem run_cons (out : Location) (job : Job) (jobs : List Job) (scene : Scene) :
    run out (job :: jobs) scene = run out jobs (job.act out scene) := rfl

theorem run_append (out : Location) (jobs others : List Job) (scene : Scene) :
    run out (jobs ++ others) scene = run out others (run out jobs scene) :=
  List.foldl_append

theorem act_of_not_within {location : Location} (h : ¬ within location (job.place ++ out)) :
    job.act out scene location = scene location := by
  cases job with
  | put place content => exact Scene.put_of_not_within h
  | take place => exact Scene.take_of_ne fun heq => h (heq ▸ Disk.within_refl _)

-- Jobs change nothing but what is at their places and on the way there.
theorem run_of_not_within {location : Location}
    (h : ∀ job ∈ jobs, ¬ within location (job.place ++ out)) :
    run out jobs scene location = scene location := by
  induction jobs generalizing scene with
  | nil => rfl
  | cons job rest ih =>
      rw [run_cons, ih fun other hmem => h other (List.mem_cons_of_mem _ hmem),
        act_of_not_within (h job List.mem_cons_self)]

theorem act_comm (h : left.place.Apart right.place) :
    left.act out (right.act out scene) = right.act out (left.act out scene) := by
  have h := h.append out
  cases left with
  | put place content =>
      cases right with
      | put target other => exact (Scene.put_put_comm h).symm
      | take target => exact Scene.put_take_comm h.2
  | take place =>
      cases right with
      | put target other => exact (Scene.put_take_comm h.1).symm
      | take target => exact Scene.take_take_comm

theorem act_act (hout : out ≠ []) : job.act out (job.act out scene) = job.act out scene := by
  cases job with
  | put place content => exact Scene.put_put_self (by simp [hout])
  | take place => exact Scene.take_take_self

theorem act_run_comm (h : ∀ other ∈ jobs, job.place.Apart other.place) :
    run out jobs (job.act out scene) = job.act out (run out jobs scene) := by
  induction jobs generalizing scene with
  | nil => rfl
  | cons other rest ih =>
      rw [run_cons, run_cons, ← act_comm (h other List.mem_cons_self),
        ih fun next hmem => h next (List.mem_cons_of_mem _ hmem)]

-- Jobs at places that are apart from one another can be done in any order.
theorem run_comm (h : ∀ left ∈ jobs, ∀ right ∈ others, left.place.Apart right.place) :
    run out jobs (run out others scene) = run out others (run out jobs scene) := by
  induction jobs generalizing scene with
  | nil => rfl
  | cons job rest ih =>
      rw [run_cons, run_cons, ← act_run_comm fun other => h job List.mem_cons_self other,
        ih fun left hleft => h left (List.mem_cons_of_mem _ hleft)]

-- Jobs that do not get in the way of one another: of two jobs, they are the same, or none of
-- their places is above the other.
def Agreeing (jobs : List Job) : Prop :=
  ∀ left ∈ jobs, ∀ right ∈ jobs, left = right ∨ left.place.Apart right.place

theorem Agreeing.comm (h : Agreeing jobs) (hleft : left ∈ jobs) (hright : right ∈ jobs)
    (scene : Scene) : left.act out (right.act out scene) = right.act out (left.act out scene) := by
  rcases h left hleft right hright with rfl | hapart
  · rfl
  · exact act_comm hapart

theorem Agreeing.act_run_comm (h : Agreeing jobs) (hmem : job ∈ jobs)
    (hothers : ∀ other ∈ others, other ∈ jobs) (scene : Scene) :
    run out others (job.act out scene) = job.act out (run out others scene) := by
  induction others generalizing scene with
  | nil => rfl
  | cons other rest ih =>
      rw [run_cons, run_cons, ← h.comm hmem (hothers other List.mem_cons_self),
        ih fun next hnext => hothers next (List.mem_cons_of_mem _ hnext)]

-- Once done, a job has nothing to do any more.
theorem Agreeing.act_run (h : Agreeing jobs) (hout : out ≠ []) (hmem : job ∈ jobs)
    (scene : Scene) : job.act out (run out jobs scene) = run out jobs scene := by
  obtain ⟨front, back, rfl⟩ := List.append_of_mem hmem
  rw [run_append, run_cons, ← h.act_run_comm hmem (by simp +contextual), act_act hout]

theorem Agreeing.run_dedup (h : Agreeing jobs) (hout : out ≠ []) (scene : Scene) :
    run out jobs.dedup scene = run out jobs scene := by
  induction jobs generalizing scene with
  | nil => rfl
  | cons job rest ih =>
      have hrest : Agreeing rest := fun left hleft right hright =>
        h left (List.mem_cons_of_mem _ hleft) right (List.mem_cons_of_mem _ hright)
      by_cases hagain : job ∈ rest
      · rw [List.dedup_cons_of_mem hagain, ih hrest, run_cons,
          h.act_run_comm List.mem_cons_self fun other hother => List.mem_cons_of_mem _ hother,
          hrest.act_run hout hagain]
      · rw [List.dedup_cons_of_notMem hagain, run_cons, run_cons, ih hrest]

-- What such jobs do is told by which jobs there are.
theorem Agreeing.run_eq (h : Agreeing jobs) (hout : out ≠ [])
    (hmem : ∀ job, job ∈ jobs ↔ job ∈ others) (scene : Scene) :
    run out jobs scene = run out others scene := by
  have hothers : Agreeing others := fun left hleft right hright =>
    h left ((hmem left).2 hleft) right ((hmem right).2 hright)
  have hperm : jobs.dedup.Perm others.dedup :=
    (List.perm_ext_iff_of_nodup jobs.nodup_dedup others.nodup_dedup).2 fun job => by
      rw [List.mem_dedup, List.mem_dedup, hmem]
  rw [← h.run_dedup hout, ← hothers.run_dedup hout, run, run]
  refine hperm.foldl_eq' (fun left hleft right hright scene => ?_) scene
  exact (h.comm (List.mem_dedup.1 hright) (List.mem_dedup.1 hleft) scene)

end Job

namespace Disk

variable {disk : Disk} {location parent : Location}

theorem passable_kind?_iff : Scene.Passable disk.kind? location ↔ disk.Passable location := by
  induction location with
  | nil => exact Iff.rfl
  | cons name parent ih => exact and_congr_right fun _ => ih

theorem passable_of_directory (h : disk.kind? location = some .directory) :
    Scene.Passable disk.kind? location := by
  induction location with
  | nil => trivial
  | cons name parent ih => exact ⟨.inl h, ih (kind?_parent h)⟩

theorem ne_none_of_directory (h : disk.kind? parent = some .directory)
    (hwithin : within location parent) : disk.kind? location ≠ none := by
  obtain ⟨below, rfl⟩ := within_iff.1 hwithin
  by_cases hbelow : below = []
  · subst hbelow
    rw [show disk.kind? location = _ from h]
    simp
  · rw [kind?_above hbelow h]
    simp

end Disk

end StaticSite
