import StaticSite.Proofs.Watch.Reordering

-- A queue that leaves out repetitions: what the events that are left out would do has been done,
-- as long as nothing has been removed of it.
namespace StaticSite

open Disk (within)

namespace Job

variable {out file place : Location} {content : ByteArray} {files : List Location} {scene : Scene}
  {job other : Job} {jobs : List Job}

-- Removing files takes away those that can be removed.
theorem run_takes (out : Location) (files : List Location) (scene : Scene) :
    run out (files.map .take) scene = fun location =>
      if (∃ file ∈ files, location = file ++ out) ∧ scene.Removable location then none
      else scene location := by
  induction files generalizing scene with
  | nil => simp
  | cons file rest ih =>
      funext location
      rw [List.map_cons, run_cons, ih]
      by_cases heq : location = file ++ out
      · subst heq
        by_cases hremovable : scene.Removable (file ++ out)
        · simp [act, Scene.take, hremovable]
        · simp [act, Scene.take_eq_self hremovable, hremovable]
      · have hsame : Scene.Removable (act out (.take file) scene) location ↔
            scene.Removable location := by
          rw [Scene.Removable, Scene.Removable, act, Scene.take_of_ne heq]
        simp only [hsame, List.exists_mem_cons_iff, heq, false_or]
        rw [act, Scene.take_of_ne heq]

theorem not_removable_run_takes (h : file ∈ files ∨ ¬ scene.Removable (file ++ out)) :
    ¬ (run out (files.map .take) scene).Removable (file ++ out) := by
  rw [run_takes, Scene.Removable]
  by_cases hremovable : scene.Removable (file ++ out)
  · rw [if_pos ⟨⟨file, h.resolve_right (not_not.2 hremovable), rfl⟩, hremovable⟩]
    simp
  · rw [if_neg fun hboth => hremovable hboth.2]
    exact hremovable

theorem removable_run_of_apart (h : ∀ job ∈ jobs, job.place.Apart file) :
    (run out jobs scene).Removable (file ++ out) ↔ scene.Removable (file ++ out) := by
  rw [Scene.Removable, Scene.Removable,
    run_of_not_within fun job hmem => ((h job hmem).append out).2]

theorem run_eq_self (h : ∀ job ∈ jobs, job.act out scene = scene) : run out jobs scene = scene := by
  induction jobs with
  | nil => rfl
  | cons job rest ih =>
      rw [run_cons, h job List.mem_cons_self,
        ih fun other hmem => h other (List.mem_cons_of_mem _ hmem)]

-- A file that stands as it has been put there stands so after jobs that put it again, that are
-- done elsewhere, or that remove what is not in its way.
theorem put_run_of_put (hout : out ≠ []) (hidle : (put place content).act out scene = scene)
    (h : ∀ other ∈ jobs, other = put place content ∨ other.place.Apart place ∨
      ∃ file, other = take file ∧ ¬ within file place) :
    (put place content).act out (run out jobs scene) = run out jobs scene := by
  induction jobs generalizing scene with
  | nil => exact hidle
  | cons other rest ih =>
      refine ih ?_ fun next hmem => h next (List.mem_cons_of_mem _ hmem)
      rcases h other List.mem_cons_self with rfl | hapart | ⟨file, rfl, hnot⟩
      · exact act_act hout
      · rw [← act_comm hapart, hidle]
      · have hnot : ¬ within (file ++ out) (place ++ out) := mt Disk.within_append_right_iff.1 hnot
        exact (Scene.put_take_comm hnot).trans (congrArg (Scene.take · (file ++ out)) hidle)

end Job

namespace Disk

variable {disk : Disk} {roots : Roots} {tree : Tree} {known : List Location} {event : Event}
  {path : Path} {file place : Location}

theorem covered_of_within (hnamed : Location.Named (place ++ roots.tree tree))
    (hwithin : within file place) (h : Covered roots tree path file) :
    Covered roots tree path place := by
  obtain ⟨below, rfl⟩ := within_iff.1 hwithin
  rw [List.append_assoc] at hnamed
  have hstarts := (Location.startsWith_path_iff hnamed hnamed.of_append_right).2
    (within_append below _)
  rw [Covered, List.append_assoc]
  rw [Path.startsWith, List.isPrefixOf_iff_prefix] at hstarts
  rw [Covered, Path.startsWith, List.isPrefixOf_iff_prefix] at h
  exact List.isPrefixOf_iff_prefix.2 (h.trans hstarts)

-- What is known at or below a path that has been reported as gone is there all the same.
theorem mem_present_of_covered (hkind : event.kind = .unlink)
    (hmem : file ∈ (disk.answer roots tree known event).known)
    (hcovered : Covered roots tree event.path.normalize file) : file ∈ disk.present roots tree := by
  by_cases hany : ∃ other ∈ known, Covered roots tree event.path.normalize other
  · rw [answer_of_exists hkind hany] at hmem
    cases tree with
    | source => exact hmem
    | static =>
        obtain ⟨hknown, hnot⟩ := mem_known_answerGone.1 hmem
        exact absurd (List.mem_filter.2 ⟨hknown, hcovered⟩) hnot
  · rw [answer_of_forall hkind fun other hother hcover => hany ⟨other, hother, hcover⟩] at hmem
    exact absurd ⟨file, hmem, hcovered⟩ hany

-- That no known asset lies at or below a path makes no difference to what is answered.
theorem answer_static_unlink (known : List Location) (hkind : event.kind = .unlink) :
    disk.answer roots .static known event = disk.answerGone roots .static known
      (known.filter (Covered roots .static event.path.normalize)) := by
  by_cases hany : ∃ file ∈ known, Covered roots .static event.path.normalize file
  · exact answer_of_exists hkind hany
  · have hnone : ∀ file ∈ known, ¬ Covered roots .static event.path.normalize file :=
      fun file hmem hcovered => hany ⟨file, hmem, hcovered⟩
    rw [answer_of_forall hkind hnone, List.filter_eq_nil_iff.2 hnone]
    simp [answerGone, Answer.idle]

theorem mem_known_answerGone_filter : file ∈ (disk.answerGone roots .static known
    (known.filter (Covered roots .static path))).known ↔
      file ∈ known ∧ ¬ Covered roots .static path file := by
  rw [mem_known_answerGone, List.mem_filter]
  exact and_congr_right fun hmem => not_congr (and_iff_right hmem)

end Disk

namespace Course

variable {disk : Disk} {roots : Roots} {known full kept : Tree → List Location} {scene : Scene}
  {earlier : List (Tree × Event)} {entry old : Tree × Event} {tree : Tree} {event : Event}
  {files fewer : List Location} {jobs : List Job} {job : Job}

-- What is left of a scan of a tree, in what is known of it: the pages of the scan, or those of its
-- assets whose output has not been removed.
def Scanned (disk : Disk) (roots : Roots) (scene : Scene) : Tree → List Location → Prop
  | .source, files => files = disk.present roots .source
  | .static, files => (∀ file ∈ files, file ∈ disk.present roots .static) ∧
      ∀ file ∈ disk.present roots .static, file ∉ files → ¬ scene.Removable (file ++ roots.out)

theorem scanned_present (disk : Disk) (roots : Roots) (scene : Scene) (tree : Tree) :
    Scanned disk roots scene tree (disk.present roots tree) := by
  cases tree with
  | source => rfl
  | static => exact ⟨fun _ => id, fun file hmem hnot => absurd hmem hnot⟩

theorem Scanned.run (h : Scanned disk roots scene tree files)
    (hapart : ∀ job ∈ jobs, ∀ file ∈ disk.present roots tree, job.place.Apart file) :
    Scanned disk roots (Job.run roots.out jobs scene) tree files := by
  cases tree with
  | source => exact h
  | static =>
      refine ⟨h.1, fun file hmem hnot => ?_⟩
      rw [Job.removable_run_of_apart fun job hjob => hapart job hjob file hmem]
      exact h.2 file hmem hnot

theorem jobs_static (known gone : List Location) :
    (disk.answerGone roots .static known gone).jobs disk roots .static = gone.map .take := by
  rw [Answer.jobs, Disk.answerGone, List.flatMap_nil, List.append_nil, List.map_eq_flatMap]
  rfl

theorem Scanned.answer (h : Scanned disk roots scene tree files) (event : Event) :
    Scanned disk roots
      (Job.run roots.out ((disk.answer roots tree files event).jobs disk roots tree) scene) tree
      (disk.answer roots tree files event).known := by
  rcases disk.answer_cases roots tree files event with heq | ⟨hkind, heq⟩ | ⟨-, answer, hcome, heq⟩ <;>
    rw [heq]
  · exact h
  · cases tree with
    | source => exact scanned_present ..
    | static =>
        rw [jobs_static]
        refine ⟨fun file hmem => h.1 file (List.mem_of_mem_filter hmem), fun file hmem hnot => ?_⟩
        refine Job.not_removable_run_takes (or_iff_not_imp_left.2 fun hkept => ?_)
        exact h.2 file hmem fun hknown => hnot (Disk.mem_known_answerGone.2 ⟨hknown, hkept⟩)
  · rw [(Disk.answerCome_eq_some hcome).1]
    exact scanned_present ..

theorem Scanned.step (h : Scanned disk roots scene tree (known tree))
    (hsplit : Split disk roots known) (entry : Tree × Event) :
    Scanned disk roots
      (Job.run roots.out ((respond disk roots known entry).jobs disk roots entry.1) scene) tree
      (learn disk roots known entry tree) := by
  by_cases htree : tree = entry.1
  · subst htree
    rw [learn_self]
    exact h.answer entry.2
  · rw [learn_of_ne htree]
    exact h.run fun job hjob file hmem => hsplit.apart (Ne.symm htree)
      (List.mem_append.2 (Disk.place_of_mem_jobs hjob)) (List.mem_append_right _ hmem)

-- What holds after events none of which has failed, the latest one first.
structure Past (disk : Disk) (roots : Roots) (earlier : List (Tree × Event))
    (known : Tree → List Location) (scene : Scene) : Prop where
  split : Split disk roots known
  -- All that has come has been found.
  tracked : ∀ entry ∈ earlier, entry.2.kind ≠ .unlink →
    ∀ answer ∈ disk.answerCome roots entry.1 entry.2, answer.untracked = none
  -- A tree of which something has come has been scanned.
  scanned : ∀ entry ∈ earlier, entry.2.kind ≠ .unlink →
    (disk.answerCome roots entry.1 entry.2).isSome → Scanned disk roots scene entry.1 (known entry.1)
  -- What has been reported as gone is known only where it is there.
  gone : ∀ entry ∈ earlier, entry.2.kind = .unlink → ∀ file ∈ known entry.1,
    Disk.Covered roots entry.1 entry.2.path.normalize file → file ∈ disk.present roots entry.1
  -- What has been put for what has come stands, unless it has been reported as gone since.
  done : ∀ later entry rest, earlier = later ++ entry :: rest → entry.2.kind ≠ .unlink →
    ∀ job ∈ come disk roots entry, (∀ other ∈ later, other.1 = entry.1 → other.2.kind = .unlink →
      ¬ Disk.Covered roots other.1 other.2.path.normalize job.place) →
        job.act roots.out scene = scene

theorem past_nil (h : Split disk roots known) (scene : Scene) : Past disk roots [] known scene :=
  ⟨h, by simp, by simp, by simp, by simp⟩

-- An event of a tree leaves alone what has been put for another one, unless it says that it is gone.
theorem act_run_of_come (hsplit : Split disk roots known) (hjob : job ∈ come disk roots old)
    (hidle : job.act roots.out scene = scene)
    (hspared : entry.1 = old.1 → entry.2.kind = .unlink →
      ¬ Disk.Covered roots entry.1 entry.2.path.normalize job.place) :
    job.act roots.out
        (Job.run roots.out ((respond disk roots known entry).jobs disk roots entry.1) scene) =
      Job.run roots.out ((respond disk roots known entry).jobs disk roots entry.1) scene := by
  obtain ⟨place, hplace, hmakes⟩ := exists_of_mem_come hjob
  obtain ⟨content, rfl⟩ := Disk.place_of_mem_makes hmakes
  refine Job.put_run_of_put roots.out_ne_nil hidle fun other hother => ?_
  by_cases htree : entry.1 = old.1
  · rw [← htree] at hplace hmakes
    rcases Answer.mem_jobs_iff.1 hother with ⟨file, hgone, htakes⟩ | ⟨file, hbuilt, hmade⟩
    · obtain ⟨hkind, -, hcovered⟩ := Disk.mem_gone_answer hgone
      have hnamed := ((disk.places_present roots entry.1).2 place hplace).2.append
        (roots.tree_keeps entry.1).2.1
      exact .inr (.inr ⟨file, Disk.eq_of_mem_takes htakes, fun hwithin =>
        hspared htree hkind (Disk.covered_of_within hnamed hwithin hcovered)⟩)
    · rcases eq_or_apart_of_mem_makes (Disk.mem_built_answer hbuilt) hmade hplace hmakes with
        heq | hapart
      · exact .inl heq
      · exact .inr (.inl hapart)
  · exact .inr (.inl (hsplit.apart htree (List.mem_append.2 (Disk.place_of_mem_jobs hother))
      (List.mem_append_right _ hplace)))

theorem jobs_respond_come (known : Tree → List Location) (hkind : entry.2.kind ≠ .unlink) :
    (respond disk roots known entry).jobs disk roots entry.1 = come disk roots entry := by
  have htasks : tasks disk roots known [entry] = [entry].flatMap (come disk roots) :=
    tasks_come known (by simpa)
  simpa [tasks] using htasks

theorem Past.step (h : Past disk roots earlier known scene)
    (hok : (respond disk roots known entry).untracked = none) :
    Past disk roots (entry :: earlier) (learn disk roots known entry)
      (Job.run roots.out ((respond disk roots known entry).jobs disk roots entry.1) scene) := by
  refine ⟨h.split.learn entry, ?_, ?_, ?_, ?_⟩
  · refine List.forall_mem_cons.2 ⟨fun hkind answer hcome => ?_, h.tracked⟩
    rw [respond_come known hkind, Option.mem_def.1 hcome] at hok
    exact hok
  · refine List.forall_mem_cons.2 ⟨fun hkind hsome => ?_, fun old hmem hkind hsome =>
      (h.scanned old hmem hkind hsome).step h.split entry⟩
    obtain ⟨answer, hcome⟩ := Option.isSome_iff_exists.1 hsome
    rw [learn_self, Disk.answer_of_ne _ hkind, hcome, Option.getD_some,
      (Disk.answerCome_eq_some hcome).1]
    exact scanned_present ..
  · refine List.forall_mem_cons.2 ⟨fun hkind file hmem hcovered => ?_, fun old hmem hkind file hfile
      hcovered => ?_⟩
    · rw [learn_self] at hmem
      exact Disk.mem_present_of_covered hkind hmem hcovered
    · rcases mem_learn hfile with hfile | hfile
      · exact h.gone old hmem hkind file hfile hcovered
      · exact hfile
  · intro later old rest heq hkind job hjob hspared
    cases later with
    | nil =>
        obtain ⟨rfl, rfl⟩ := List.cons.inj heq
        rw [jobs_respond_come known hkind]
        have hagreeing : Job.Agreeing (come disk roots entry) := by
          have hthere : Split disk roots fun _ => [] := fun page hpage file hfile =>
            h.split page (List.mem_append_right _ hpage) file (List.mem_append_right _ hfile)
          simpa using agreeing_come hthere [entry]
        exact hagreeing.act_run roots.out_ne_nil hjob scene
    | cons first later =>
        obtain ⟨rfl, hrest⟩ := List.cons.inj heq
        have hidle := h.done later old rest hrest hkind job hjob fun other hmem =>
          hspared other (List.mem_cons_of_mem _ hmem)
        exact act_run_of_come h.split hjob hidle (hspared entry List.mem_cons_self)

-- How the watchers that get fewer events lag behind: they know all the pages, and all the assets
-- but those whose output is gone.
structure Lags (roots : Roots) (scene : Scene) (full kept : Tree → List Location) : Prop where
  source : kept .source = full .source
  fewer : ∀ file ∈ kept .static, file ∈ full .static
  gone : ∀ file ∈ full .static, file ∉ kept .static → ¬ scene.Removable (file ++ roots.out)

theorem lags_refl (roots : Roots) (scene : Scene) (known : Tree → List Location) :
    Lags roots scene known known :=
  ⟨rfl, fun _ => id, fun _ hmem hnot => absurd hmem hnot⟩

-- Once they have scanned the assets, both know the same.
theorem lags_update (h : kept .source = full .source) (files : List Location) (scene : Scene) :
    Lags roots scene (Function.update full .static files) (Function.update kept .static files) := by
  have hsource : ∀ known : Tree → List Location,
      Function.update known .static files .source = known .source :=
    fun known => Function.update_of_ne (by decide) _ _
  refine ⟨by rw [hsource, hsource, h], fun file hmem => ?_, fun file hmem hnot => ?_⟩
  · rwa [Function.update_self] at hmem ⊢
  · rw [Function.update_self] at hmem hnot
    exact absurd hmem hnot

-- Of what has been reported as gone, the output of what only one of them knows is gone already.
theorem run_takes_of_gone {path : Path} (hfewer : ∀ file ∈ fewer, file ∈ files)
    (hgone : ∀ file ∈ files, file ∉ fewer → ¬ scene.Removable (file ++ roots.out)) :
    Job.run roots.out ((fewer.filter (Disk.Covered roots tree path)).map .take) scene =
      Job.run roots.out ((files.filter (Disk.Covered roots tree path)).map .take) scene := by
  rw [Job.run_takes, Job.run_takes]
  funext location
  refine if_congr (and_congr_left fun hremovable => ?_) rfl rfl
  constructor
  · rintro ⟨file, hmem, heq⟩
    obtain ⟨hknown, hcovered⟩ := List.mem_filter.1 hmem
    exact ⟨file, List.mem_filter.2 ⟨hfewer file hknown, hcovered⟩, heq⟩
  · rintro ⟨file, hmem, rfl⟩
    obtain ⟨hknown, hcovered⟩ := List.mem_filter.1 hmem
    have hboth : file ∈ fewer := by
      by_contra hnot
      exact hgone file hknown hnot hremovable
    exact ⟨file, List.mem_filter.2 ⟨hboth, hcovered⟩, rfl⟩

-- An event of the source tree that both get.
theorem Lags.step_source (h : Lags roots scene full kept) (hsplit : Split disk roots full)
    (event : Event) :
    respond disk roots kept (.source, event) = respond disk roots full (.source, event) ∧
      Lags roots
        (Job.run roots.out ((respond disk roots full (.source, event)).jobs disk roots .source) scene)
        (learn disk roots full (.source, event)) (learn disk roots kept (.source, event)) := by
  have hne : Tree.source ≠ Tree.static := nofun
  have hstatic : ∀ known : Tree → List Location,
      learn disk roots known (.source, event) .static = known .static :=
    fun known => learn_of_ne hne.symm
  refine ⟨by rw [respond, respond, h.source], ?_, ?_, ?_⟩
  · rw [learn_self, learn_self, h.source]
  · rw [hstatic, hstatic]
    exact h.fewer
  · rw [hstatic, hstatic]
    intro file hmem hnot
    refine mt (Job.removable_run_of_apart fun job hjob => ?_).1 (h.gone file hmem hnot)
    exact hsplit.apart hne (List.mem_append.2 (Disk.place_of_mem_jobs hjob))
      (List.mem_append_left _ hmem)

-- Assets that are reported as gone to both.
theorem Lags.step_unlink (h : Lags roots scene full kept) (hkind : event.kind = .unlink) :
    Job.run roots.out ((respond disk roots kept (.static, event)).jobs disk roots .static) scene =
        Job.run roots.out ((respond disk roots full (.static, event)).jobs disk roots .static) scene ∧
      Lags roots
        (Job.run roots.out ((respond disk roots full (.static, event)).jobs disk roots .static) scene)
        (learn disk roots full (.static, event)) (learn disk roots kept (.static, event)) := by
  have hne : Tree.source ≠ Tree.static := nofun
  have hrespond : ∀ known, respond disk roots known (.static, event) =
      disk.answerGone roots .static (known .static)
        ((known .static).filter (Disk.Covered roots .static event.path.normalize)) :=
    fun known => Disk.answer_static_unlink (known .static) hkind
  have hmem : ∀ known file, file ∈ learn disk roots known (.static, event) .static ↔
      file ∈ known .static ∧ ¬ Disk.Covered roots .static event.path.normalize file := by
    intro known file
    rw [learn_self, Disk.answer_static_unlink (known .static) hkind, Disk.mem_known_answerGone_filter]
  simp only [hrespond, jobs_static]
  refine ⟨run_takes_of_gone h.fewer h.gone, ?_, ?_, ?_⟩
  · rw [learn_of_ne hne, learn_of_ne hne, h.source]
  · intro file hkept
    rw [hmem] at hkept ⊢
    exact ⟨h.fewer file hkept.1, hkept.2⟩
  · intro file hfull hnot
    rw [hmem] at hfull hnot
    exact Job.not_removable_run_takes
      (.inr (h.gone file hfull.1 fun hkept => hnot ⟨hkept, hfull.2⟩))

-- An event that both get has the same effect, and they stay as far apart.
theorem Lags.step (h : Lags roots scene full kept) (hsplit : Split disk roots full)
    (entry : Tree × Event) :
    (respond disk roots kept entry).untracked = (respond disk roots full entry).untracked ∧
      Job.run roots.out ((respond disk roots kept entry).jobs disk roots entry.1) scene =
        Job.run roots.out ((respond disk roots full entry).jobs disk roots entry.1) scene ∧
      Lags roots (Job.run roots.out ((respond disk roots full entry).jobs disk roots entry.1) scene)
        (learn disk roots full entry) (learn disk roots kept entry) := by
  obtain ⟨tree, event⟩ := entry
  cases tree with
  | source =>
      obtain ⟨hrespond, hlags⟩ := h.step_source hsplit event
      exact ⟨by rw [hrespond], by rw [hrespond], hlags⟩
  | static =>
      by_cases hkind : event.kind = .unlink
      · obtain ⟨hrun, hlags⟩ := @Lags.step_unlink disk roots full kept scene event h hkind
        refine ⟨?_, hrun, hlags⟩
        rw [respond, respond, Disk.answer_static_unlink _ hkind, Disk.answer_static_unlink _ hkind]
        rfl
      · have hrespond : ∀ known, respond disk roots known (.static, event) =
            (disk.answerCome roots .static event).getD (.idle (known .static)) :=
          fun known => respond_come known hkind
        cases hcome : disk.answerCome roots .static event with
        | none =>
            have hlearn : ∀ known, learn disk roots known (.static, event) = known := by
              intro known
              rw [learn, hrespond, hcome, Option.getD_none, Answer.idle, Function.update_eq_self]
            rw [hrespond, hrespond, hcome, hlearn, hlearn]
            exact ⟨rfl, rfl, h⟩
        | some answer =>
            have hlearn : ∀ known, learn disk roots known (.static, event) =
                Function.update known .static answer.known := by
              intro known
              rw [learn, hrespond, hcome, Option.getD_some]
            rw [hrespond, hrespond, hcome, hlearn, hlearn]
            exact ⟨rfl, rfl, lags_update h.source answer.known _⟩

-- A scan of a tree that has been scanned before finds no file that only the watchers with all the
-- events know and whose output is still there.
theorem Lags.scan (h : Lags roots scene full kept)
    (hscanned : Scanned disk roots scene tree (full tree)) :
    Lags roots scene (Function.update full tree (disk.present roots tree)) kept := by
  cases tree with
  | source =>
      rw [← show full .source = disk.present roots .source from hscanned, Function.update_eq_self]
      exact h
  | static =>
      have hsource : Function.update full .static (disk.present roots .static) .source =
          full .source := Function.update_of_ne (by decide) _ _
      refine ⟨h.source.trans hsource.symm, fun file hmem => ?_, fun file hmem hnot => ?_⟩
      · rw [Function.update_self]
        exact hscanned.1 file (h.fewer file hmem)
      · rw [Function.update_self] at hmem
        by_cases hfull : file ∈ full .static
        · exact h.gone file hfull hnot
        · exact hscanned.2 file hmem hfull

-- Doing a repetition would change nothing: of what is reported as gone nothing is there, and
-- nothing of what has come has been reported as gone in between.
def Spared (disk : Disk) (roots : Roots) (between : List (Tree × Event)) (entry : Tree × Event) :
    Prop :=
  if entry.2.kind = .unlink then
    ∀ file ∈ disk.present roots entry.1, ¬ Disk.Covered roots entry.1 entry.2.path.normalize file
  else ∀ job ∈ come disk roots entry, ∀ other ∈ between, other.1 = entry.1 →
    other.2.kind = .unlink → ¬ Disk.Covered roots other.1 other.2.path.normalize job.place

theorem respond_of_spared_unlink {between rest : List (Tree × Event)} {twin : Tree × Event}
    (h : Past disk roots (between ++ twin :: rest) full scene) (htwin : Event.Repeats twin entry)
    (hkind : entry.2.kind = .unlink)
    (hspared : ∀ file ∈ disk.present roots entry.1,
      ¬ Disk.Covered roots entry.1 entry.2.path.normalize file) :
    respond disk roots full entry = .idle (full entry.1) := by
  obtain ⟨htree, hsame, hplace⟩ := htwin
  refine Disk.answer_of_forall hkind fun file hmem hcovered => hspared file ?_ hcovered
  have hgone := h.gone twin (by simp) (hsame.trans hkind)
  rw [htree, Path.normalize_eq_of_same hplace] at hgone
  exact hgone file hmem hcovered

-- Handling a repetition that is spared changes nothing but what is known of assets.
theorem Past.repeated {between : List (Tree × Event)} (h : Past disk roots earlier full scene)
    (hlags : Lags roots scene full kept) (hsince : Event.since? entry earlier = some between)
    (hspared : Spared disk roots between entry) :
    (respond disk roots full entry).untracked = none ∧
      Job.run roots.out ((respond disk roots full entry).jobs disk roots entry.1) scene = scene ∧
      Lags roots scene (learn disk roots full entry) kept := by
  obtain ⟨twin, rest, rfl, htwin⟩ := Event.exists_of_since? hsince
  have hidle (hrespond : respond disk roots full entry = .idle (full entry.1)) :
      (respond disk roots full entry).untracked = none ∧
        Job.run roots.out ((respond disk roots full entry).jobs disk roots entry.1) scene = scene ∧
        Lags roots scene (learn disk roots full entry) kept := by
    rw [learn, hrespond]
    refine ⟨rfl, rfl, ?_⟩
    rwa [Answer.idle, Function.update_eq_self]
  rw [Spared] at hspared
  split at hspared
  · next hkind => exact hidle (respond_of_spared_unlink h htwin hkind hspared)
  · next hkind =>
    have hcome : disk.answerCome roots twin.1 twin.2 = disk.answerCome roots entry.1 entry.2 :=
      Disk.answerCome_of_repeats htwin
    have hkind' : twin.2.kind ≠ .unlink := htwin.2.1 ▸ hkind
    have hrespond : respond disk roots full entry =
        (disk.answerCome roots entry.1 entry.2).getD (.idle (full entry.1)) := respond_come full hkind
    cases hanswer : disk.answerCome roots entry.1 entry.2 with
    | none =>
        rw [hanswer] at hrespond
        exact hidle hrespond
    | some answer =>
        rw [hanswer] at hcome
        have htracked := h.tracked twin (by simp) hkind' answer hcome
        have hscanned := h.scanned twin (by simp) hkind' (by rw [hcome]; rfl)
        have hdone : ∀ job ∈ come disk roots entry, job.act roots.out scene = scene := by
          intro job hjob
          refine h.done between twin rest rfl hkind' job (come_of_repeats htwin ▸ hjob) ?_
          exact fun other hmem htree => hspared job hjob other hmem (htree.trans htwin.1)
        rw [htwin.1] at hscanned
        rw [hanswer, Option.getD_some] at hrespond
        rw [jobs_respond_come full hkind, learn, hrespond, (Disk.answerCome_eq_some hanswer).1]
        exact ⟨htracked, Job.run_eq_self hdone, hlags.scan hscanned⟩

-- How far all events have come, and how far those that are left.
structure Abreast (disk : Disk) (roots : Roots) (earlier : List (Tree × Event))
    (full kept : Course) : Prop where
  result : kept.result = full.result
  scene : kept.scene = full.scene
  ok : full.result = .ok () → Past disk roots earlier full.known full.scene ∧
    Lags roots full.scene full.known kept.known

namespace Abreast

variable {all left : Course}

theorem both (h : Abreast disk roots earlier all left) (entry : Tree × Event) :
    Abreast disk roots (entry :: earlier) (all.handle disk roots entry)
      (left.handle disk roots entry) := by
  obtain ⟨full, _, _⟩ := all
  obtain ⟨kept, scene, result⟩ := left
  obtain ⟨hresult, hscene, hok⟩ := h
  dsimp only at hresult hscene hok
  subst hresult hscene
  cases result with
  | error error =>
      rw [handle_of_error rfl, handle_of_error rfl]
      exact ⟨rfl, rfl, nofun⟩
  | ok _ =>
      obtain ⟨hpast, hlags⟩ := hok rfl
      obtain ⟨huntracked, hrun, hnext⟩ := hlags.step hpast.split entry
      rw [handle_of_ok, handle_of_ok]
      refine ⟨by rw [Answer.result, Answer.result, huntracked], hrun, fun hresult => ⟨?_, hnext⟩⟩
      refine hpast.step (Option.eq_none_iff_forall_ne_some.2 fun path hpath => ?_)
      dsimp only at hresult
      rw [Answer.result, hpath] at hresult
      cases hresult

theorem repeated {between : List (Tree × Event)} (h : Abreast disk roots earlier all left)
    (hsince : Event.since? entry earlier = some between) (hspared : Spared disk roots between entry) :
    Abreast disk roots (entry :: earlier) (all.handle disk roots entry) left := by
  obtain ⟨full, _, _⟩ := all
  obtain ⟨kept, scene, result⟩ := left
  obtain ⟨hresult, hscene, hok⟩ := h
  dsimp only at hresult hscene hok
  subst hresult hscene
  cases result with
  | error error =>
      rw [handle_of_error rfl]
      exact ⟨rfl, rfl, nofun⟩
  | ok _ =>
      obtain ⟨hpast, hlags⟩ := hok rfl
      obtain ⟨huntracked, hrun, hnext⟩ := hpast.repeated hlags hsince hspared
      have hstep := hpast.step huntracked
      rw [hrun] at hstep
      rw [handle_of_ok, hrun, Answer.result, huntracked]
      exact ⟨rfl, rfl, fun _ => ⟨hstep, hnext⟩⟩

end Abreast

-- All events and those that a queue leaves over come equally far.
theorem abreast_pushEach (hsplit : Split disk roots known) (scene : Scene)
    (timed : List (Nat × Tree × Event))
    (hspared : ∀ repetition ∈ Event.repetitions (timed.map (·.2)).reverse,
      Spared disk roots repetition.1 repetition.2) :
    Abreast disk roots (timed.map (·.2)).reverse
      (handleEach disk roots ⟨known, scene, .ok ()⟩ (timed.map (·.2)))
      (handleEach disk roots ⟨known, scene, .ok ()⟩ (EventQueue.empty.pushEach timed).pending) := by
  induction timed using List.reverseRecOn with
  | nil => exact ⟨rfl, rfl, fun _ => ⟨past_nil hsplit scene, lags_refl roots scene known⟩⟩
  | append_singleton timed last ih =>
      rw [List.map_append, List.map_singleton, List.reverse_concat, Event.repetitions] at hspared
      have hrest := ih fun repetition hmem => hspared repetition (List.mem_append_right _ hmem)
      rw [List.map_append, List.map_singleton, List.reverse_concat, handleEach_append,
        EventQueue.pending_pushEach_concat]
      cases hsince : Event.since? last.2 (timed.map (·.2)).reverse with
      | none =>
          rw [if_neg (by simp), handleEach_append]
          exact hrest.both last.2
      | some between =>
          rw [Option.isSome_some, if_pos rfl]
          exact hrest.repeated hsince (hspared (between, last.2) (by simp [hsince]))

end Course

-- What is built for an event of what has come is reported.
theorem Disk.untracked_of_mem_built {disk : Disk} {roots : Roots} {tree : Tree} {event : Event}
    {answer : Answer} {place : Location} (h : disk.answerCome roots tree event = some answer)
    (hmem : place ∈ answer.built) : answer.untracked = none := by
  unfold answerCome at h
  dsimp only at h
  split at h
  · cases h
    rfl
  · split at h
    · cases h
      unfold answerFile at hmem ⊢
      split
      · rfl
      · next hnone =>
        rw [hnone] at hmem
        cases hmem
    · cases h

theorem Answer.Gives.exists_rebuild {ω : Type} {disk : Disk} {roots : Roots} {tree : Tree}
    {answer : Answer} {progress : Progress} {watcher : ω} {reaction : Reaction ω} {place : Location}
    (h : answer.Gives disk roots tree progress watcher reaction) (hok : answer.untracked = none)
    (hmem : place ∈ answer.built) :
    ∃ rebuild ∈ reaction.result.toOption.getD [], rebuild.file = place.relative := by
  obtain ⟨next, rebuilds, rfl, hfiles, -⟩ := h
  have hfile : place.relative ∈ rebuilds.map Rebuild.file := by
    rw [hfiles]
    exact List.mem_map_of_mem (List.mem_append_right _ hmem)
  obtain ⟨rebuild, hrebuild, heq⟩ := List.mem_map.1 hfile
  rw [Answer.result, hok]
  exact ⟨rebuild, hrebuild, heq⟩

namespace Session

variable {progress later : Progress} {config : Config} {session : Session}
  {timed : List (Nat × Tree × Event)} {between : List (Tree × Event)} {entry : Tree × Event}
  {roots : Roots} {known : Tree → List Location} {place : Location}

def rootOf (session : Session) : Tree → Path
  | .source => session.source.root
  | .static => session.assets.root

-- A file of the tree of an event lies at or below the path of the event.
def Reaches (session : Session) (entry : Tree × Event) (file : String) : Prop :=
  ((session.rootOf entry.1).join ⟨file⟩).startsWith entry.2.path.normalize = true

instance (session : Session) (entry : Tree × Event) (file : String) :
    Decidable (session.Reaches entry file) := by
  unfold Reaches; infer_instance

-- A repetition that can be left out: of what it reports as gone no file is there, and of the files
-- that are built for what has come, none has been reported as gone in between.
def Harmless (session : Session) (later : Progress) (between : List (Tree × Event))
    (entry : Tree × Event) : Prop :=
  if entry.2.kind = .unlink then
    ∀ file ∈ session.found later.disk entry.1, ¬ session.Reaches entry file
  else ∀ rebuild ∈ dispatchBuilds session.source session.assets later [entry],
    ∀ other ∈ between, other.1 = entry.1 → other.2.kind = .unlink →
      ¬ session.Reaches other rebuild.file

instance (session : Session) (later : Progress) (between : List (Tree × Event))
    (entry : Tree × Event) : Decidable (session.Harmless later between entry) := by
  unfold Harmless; infer_instance

theorem reaches_recalling (known : Tree → List Location) (hne : place ≠ []) (hnamed : place.Named) :
    (recalling roots known).Reaches entry place.relative ↔
      Disk.Covered roots entry.1 entry.2.path.normalize place := by
  have hroot : (recalling roots known).rootOf entry.1 = (roots.tree entry.1).path := by
    cases entry.1 <;> rfl
  obtain ⟨hrootNe, hrootNamed, -⟩ := roots.tree_keeps entry.1
  rw [Reaches, hroot, Location.relative, Location.join_path hrootNe hrootNamed hne hnamed]
  rfl

theorem exists_rebuild (hknown : ∀ tree, SourceTree.Places (known tree)) {answer : Answer}
    (hkind : entry.2.kind ≠ .unlink)
    (hcome : later.disk.answerCome roots entry.1 entry.2 = some answer)
    (hmem : place ∈ answer.built) :
    ∃ rebuild ∈ dispatchBuilds (recalling roots known).source (recalling roots known).assets later
      [entry], rebuild.file = place.relative := by
  have hok := Disk.untracked_of_mem_built hcome hmem
  have hanswer : later.disk.answer roots entry.1 (known entry.1) entry.2 = answer := by
    rw [Disk.answer_of_ne _ hkind, hcome, Option.getD_some]
  obtain ⟨tree, event⟩ := entry
  have hsame := Disk.SameTrees.refl roots later.disk
  cases tree with
  | source =>
      have hgives := SourceWatcher.handle_gives (hknown .source) hsame event
      rw [hanswer] at hgives
      obtain ⟨rebuild, hrebuild, hfile⟩ := hgives.exists_rebuild hok hmem
      exact ⟨rebuild, List.mem_append_left _ hrebuild, hfile⟩
  | static =>
      have hgives := StaticWatcher.handle_gives (hknown .static) hsame event
      rw [hanswer] at hgives
      obtain ⟨rebuild, hrebuild, hfile⟩ := hgives.exists_rebuild hok hmem
      exact ⟨rebuild, List.mem_append_left _ hrebuild, hfile⟩

theorem spared_of_harmless (hknown : ∀ tree, SourceTree.Places (known tree))
    (h : (recalling roots known).Harmless later between entry) :
    Course.Spared later.disk roots between entry := by
  have hplaces : ∀ tree, ∀ file ∈ later.disk.present roots tree, file ≠ [] ∧ file.Named :=
    fun tree => (later.disk.places_present roots tree).2
  rw [Harmless] at h
  rw [Course.Spared]
  split at h
  · next hkind =>
    rw [if_pos hkind]
    intro file hmem
    obtain ⟨hne, hnamed⟩ := hplaces entry.1 file hmem
    rw [← reaches_recalling known hne hnamed]
    refine h _ ?_
    rw [found_recalling]
    exact List.mem_map_of_mem hmem
  · next hkind =>
    rw [if_neg hkind]
    intro job hjob other hother htree hunlink
    obtain ⟨answer, hcome, place, hbuilt, hmakes⟩ := Course.exists_built_of_mem_come hjob
    obtain ⟨content, rfl⟩ := Disk.place_of_mem_makes hmakes
    obtain ⟨hne, hnamed⟩ := hplaces entry.1 place ((Disk.answerCome_eq_some hcome).2.2 place hbuilt)
    obtain ⟨rebuild, hrebuild, hfile⟩ := exists_rebuild hknown hkind hcome hbuilt
    rw [Job.place, ← reaches_recalling known hne hnamed, ← hfile]
    exact h rebuild hrebuild other hother htree hunlink

-- Handling what a queue leaves over of events has the same outcome as handling them all, as long as
-- the repetitions can be left out and no file of one tree gets in the way of one of the other.
theorem flush_eq_react (h : (start progress config).1 = .ok session) (hapart : session.Apart)
    (later : Progress) (hdisjoint : session.Disjoint later.disk)
    (hharmless : ∀ repetition ∈ Event.repetitions (timed.map (·.2)).reverse,
      session.Harmless later repetition.1 repetition.2) :
    (session.flush later timed).result = (session.react later (timed.map (·.2))).result ∧
      (session.flush later timed).progress.disk.kind? =
        (session.react later (timed.map (·.2))).progress.disk.kind? := by
  obtain ⟨roots, known, rfl, hknown⟩ := hapart.exists_recalling h
  have hsame := Disk.SameTrees.refl roots later.disk
  have hall := dispatch_ends hknown hsame (timed.map (·.2))
  have hleft : ((recalling roots known).flush later timed).Ends roots _ :=
    dispatch_ends hknown hsame (EventQueue.empty.pushEach timed).pending
  have habreast := Course.abreast_pushEach ((disjoint_recalling hknown).1 hdisjoint)
    later.disk.kind? timed fun repetition hmem => spared_of_harmless hknown (hharmless repetition hmem)
  exact ⟨hleft.result.trans (habreast.result.trans hall.result.symm),
    hleft.scene.trans (habreast.scene.trans hall.scene.symm)⟩

-- A page gets another name, which is told twice, with a new stylesheet in between.
def renameTwice : List (Nat × Tree × Event) :=
  [(0, .source, ⟨.unlink, ⟨"/src/a.html"⟩⟩), (0, .source, ⟨.add, ⟨"/src/b.html"⟩⟩),
    (1, .static, ⟨.add, ⟨"/static/t.css"⟩⟩), (2, .source, ⟨.unlink, ⟨"/src//a.html"⟩⟩),
    (2, .source, ⟨.add, ⟨"/src/b.html"⟩⟩)]

theorem flush_eq_react_of_rename : started.1 = .ok opened ∧ opened.Disjoint rewritten ∧
    (EventQueue.empty.pushEach renameTwice).pending.length = 3 ∧
    (∀ repetition ∈ Event.repetitions (renameTwice.map (·.2)).reverse,
      opened.Harmless (.start rewritten) repetition.1 repetition.2) ∧
    (opened.flush (.start rewritten) renameTwice).progress.disk.kind? ["b.html", "dist"] =
      some (.file "w".toUTF8) ∧
    (opened.flush (.start rewritten) renameTwice).progress.disk.kind? =
      (opened.react (.start rewritten) (renameTwice.map (·.2))).progress.disk.kind? := by
  obtain ⟨hsession, hapart, hdisjoint, hlength, hharmless, hpage⟩ : started.1 = .ok opened ∧
      opened.Apart ∧ opened.Disjoint rewritten ∧
      (EventQueue.empty.pushEach renameTwice).pending.length = 3 ∧
      (∀ repetition ∈ Event.repetitions (renameTwice.map (·.2)).reverse,
        opened.Harmless (.start rewritten) repetition.1 repetition.2) ∧
      (opened.flush (.start rewritten) renameTwice).progress.disk.kind? ["b.html", "dist"] =
        some (.file "w".toUTF8) := by
    decide +kernel
  obtain ⟨-, hkind⟩ := flush_eq_react hsession hapart (.start rewritten) hdisjoint hharmless
  exact ⟨hsession, hdisjoint, hlength, hharmless, hpage, hkind⟩

-- A project with a page in a directory, and no asset.
def startedDeep : Except WatchError Session × Progress :=
  start (.start ((((Disk.blank.putDirectory "src" []).putDirectory "d" ["src"]).putFile "p.html"
    ["d", "src"] "p".toUTF8).putDirectory "static" [])) site

def openedDeep : Session :=
  startedDeep.1.toOption.getD opened

def stacked : Disk :=
  (startedDeep.2.disk.putDirectory "d" ["static"]).putFile "p.html" ["d", "static"] "q".toUTF8

-- The page is written again, and its directory is reported as gone in between.
def rewrittenTwice : List (Nat × Tree × Event) :=
  [(0, .source, ⟨.change, ⟨"/src/d/p.html"⟩⟩), (0, .source, ⟨.unlink, ⟨"/src/d"⟩⟩),
    (0, .source, ⟨.change, ⟨"/src/d/p.html"⟩⟩)]

-- The directory is reported as gone again, and the page has been written in between.
def goneTwice : List (Nat × Tree × Event) :=
  [(0, .source, ⟨.unlink, ⟨"/src/d"⟩⟩), (0, .source, ⟨.change, ⟨"/src/d/p.html"⟩⟩),
    (0, .source, ⟨.unlink, ⟨"/src/d"⟩⟩)]

-- The page is written again, and an asset of the same name in between.
def overwritten : List (Nat × Tree × Event) :=
  [(0, .source, ⟨.change, ⟨"/src/d/p.html"⟩⟩), (0, .static, ⟨.change, ⟨"/static/d/p.html"⟩⟩),
    (0, .source, ⟨.change, ⟨"/src/d/p.html"⟩⟩)]

theorem flush_ne_react : startedDeep.1 = .ok openedDeep ∧ openedDeep.Apart ∧
    (openedDeep.Disjoint startedDeep.2.disk ∧
      (openedDeep.react (.start startedDeep.2.disk) (rewrittenTwice.map (·.2))).progress.disk.file?
        ["p.html", "d", "dist"] = some "p".toUTF8 ∧
      (openedDeep.flush (.start startedDeep.2.disk) rewrittenTwice).progress.disk.file?
        ["p.html", "d", "dist"] = none) ∧
    ((openedDeep.react (.start startedDeep.2.disk) (goneTwice.map (·.2))).progress.disk.file?
        ["p.html", "d", "dist"] = none ∧
      (openedDeep.flush (.start startedDeep.2.disk) goneTwice).progress.disk.file?
        ["p.html", "d", "dist"] = some "p".toUTF8) ∧
    ((openedDeep.react (.start stacked) (overwritten.map (·.2))).progress.disk.file?
        ["p.html", "d", "dist"] = some "p".toUTF8 ∧
      (openedDeep.flush (.start stacked) overwritten).progress.disk.file?
        ["p.html", "d", "dist"] = some "q".toUTF8) := by
  decide +kernel

end Session

end StaticSite
