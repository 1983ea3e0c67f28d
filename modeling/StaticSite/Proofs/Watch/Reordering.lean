import StaticSite.Proofs.Watch.Course
import StaticSite.Proofs.Watch.Flush
import StaticSite.Proofs.Watch.Repetition

-- Events of what has come can be handled in any order, and more than once.
namespace StaticSite

open Disk (within)

-- All that events say is said by others.
def Event.Among (events others : List (Tree × Event)) : Prop :=
  ∀ entry ∈ events, ∃ other ∈ others, Event.Repeats other entry

instance (events others : List (Tree × Event)) : Decidable (Event.Among events others) := by
  unfold Event.Among; infer_instance

namespace Disk

variable {disk : Disk} {roots : Roots} {tree : Tree} {place other : Location}

theorem answerCome_of_repeats {repeated entry : Tree × Event} (h : Event.Repeats repeated entry) :
    disk.answerCome roots repeated.1 repeated.2 = disk.answerCome roots entry.1 entry.2 := by
  obtain ⟨htree, hkind, hplace⟩ := h
  rw [answerCome, answerCome, htree, hkind, Path.normalize_eq_of_same hplace]

-- Of two files of a tree none lies below the other.
theorem apart_of_present (hplace : place ∈ disk.present roots tree)
    (hother : other ∈ disk.present roots tree) (hne : place ≠ other) : place.Apart other := by
  have hlisted : ∀ file ∈ disk.present roots tree, file ∈ disk.listed (roots.tree tree) := by
    intro file hmem
    cases tree with
    | source => exact (mem_pagesBelow.1 hmem).1
    | static => exact hmem
  have hsome : ∀ file ∈ disk.present roots tree, (disk.file? (file ++ roots.tree tree)).isSome :=
    fun file hmem => (mem_listed.1 (hlisted file hmem)).2.2
  exact ⟨fun hwithin => hne (eq_of_within_file (hsome place hplace) (hlisted other hother) hwithin).symm,
    fun hwithin => hne (eq_of_within_file (hsome other hother) (hlisted place hplace) hwithin)⟩

end Disk

namespace Course

variable {disk : Disk} {roots : Roots} {known : Tree → List Location} {scene : Scene}
  {events left right : List (Tree × Event)} {entry : Tree × Event} {tree : Tree} {job : Job}

-- What is done for an event of what has come.
def come (disk : Disk) (roots : Roots) (entry : Tree × Event) : List Job :=
  ((disk.answerCome roots entry.1 entry.2).map (Answer.jobs disk roots entry.1)).getD []

theorem exists_built_of_mem_come (h : job ∈ come disk roots entry) :
    ∃ answer, disk.answerCome roots entry.1 entry.2 = some answer ∧
      ∃ place ∈ answer.built, job ∈ disk.makes roots entry.1 place := by
  rw [come] at h
  cases hcome : disk.answerCome roots entry.1 entry.2 with
  | none =>
      rw [hcome] at h
      cases h
  | some answer =>
      rw [hcome] at h
      rcases Answer.mem_jobs_iff.1 h with ⟨file, hmem, -⟩ | ⟨file, hmem, hjob⟩
      · rw [(Disk.answerCome_eq_some hcome).2.1] at hmem
        cases hmem
      · exact ⟨answer, rfl, file, hmem, hjob⟩

theorem exists_of_mem_come (h : job ∈ come disk roots entry) :
    ∃ place ∈ disk.present roots entry.1, job ∈ disk.makes roots entry.1 place := by
  obtain ⟨answer, hcome, place, hbuilt, hjob⟩ := exists_built_of_mem_come h
  exact ⟨place, (Disk.answerCome_eq_some hcome).2.2 place hbuilt, hjob⟩

theorem respond_come (known : Tree → List Location) (hkind : entry.2.kind ≠ .unlink) :
    respond disk roots known entry =
      (disk.answerCome roots entry.1 entry.2).getD (.idle (known entry.1)) :=
  Disk.answer_of_ne (known entry.1) hkind

-- What is done for such events does not depend on what is known before.
theorem tasks_come (known : Tree → List Location) (hcome : ∀ entry ∈ events, entry.2.kind ≠ .unlink) :
    tasks disk roots known events = events.flatMap (come disk roots) := by
  induction events generalizing known with
  | nil => rfl
  | cons entry rest ih =>
      rw [tasks, respond_come known (hcome entry List.mem_cons_self),
        ih _ fun other hmem => hcome other (List.mem_cons_of_mem _ hmem), List.flatMap_cons, come]
      cases disk.answerCome roots entry.1 entry.2 <;> rfl

theorem tracked_come (hcome : ∀ entry ∈ events, entry.2.kind ≠ .unlink) :
    Tracked disk roots known events ↔ ∀ entry ∈ events,
      ∀ answer ∈ disk.answerCome roots entry.1 entry.2, answer.untracked = none := by
  induction events generalizing known with
  | nil => exact iff_of_true trivial (by simp)
  | cons entry rest ih =>
      rw [Tracked, respond_come known (hcome entry List.mem_cons_self),
        ih fun other hmem => hcome other (List.mem_cons_of_mem _ hmem), List.forall_mem_cons]
      refine and_congr_left fun _ => ?_
      cases disk.answerCome roots entry.1 entry.2 with
      | none => exact iff_of_true rfl (by simp)
      | some answer => simp

-- Of a tree of which anything has come, all that is there is known afterwards.
theorem foldl_learn_come (known : Tree → List Location)
    (hcome : ∀ entry ∈ events, entry.2.kind ≠ .unlink) (tree : Tree) :
    events.foldl (learn disk roots) known tree =
      if ∃ entry ∈ events, entry.1 = tree ∧ (disk.answerCome roots entry.1 entry.2).isSome then
        disk.present roots tree else known tree := by
  induction events generalizing known with
  | nil => simp
  | cons entry rest ih =>
      have hlearn : learn disk roots known entry tree =
          if entry.1 = tree ∧ (disk.answerCome roots entry.1 entry.2).isSome then
            disk.present roots tree else known tree := by
        by_cases htree : entry.1 = tree
        · subst htree
          rw [learn_self, Disk.answer_of_ne _ (hcome entry List.mem_cons_self)]
          cases hfound : disk.answerCome roots entry.1 entry.2 with
          | none => simp [Answer.idle]
          | some answer => simpa using (Disk.answerCome_eq_some hfound).1
        · rw [learn_of_ne (Ne.symm htree), if_neg fun h => htree h.1]
      rw [List.foldl_cons, ih _ fun other hmem => hcome other (List.mem_cons_of_mem _ hmem), hlearn]
      simp only [List.exists_mem_cons_iff]
      by_cases hrest : ∃ other ∈ rest, other.1 = tree ∧ (disk.answerCome roots other.1 other.2).isSome
      · rw [if_pos hrest, if_pos (.inr hrest)]
      · rw [if_neg hrest]
        simp only [hrest, or_false]

-- What is done for files of one tree is done at places apart, and what is done at one place is
-- always the same.
theorem eq_or_apart_of_mem_makes {left right : Job} {place other : Location}
    (hplace : place ∈ disk.present roots tree) (hleft : left ∈ disk.makes roots tree place)
    (hother : other ∈ disk.present roots tree) (hright : right ∈ disk.makes roots tree other) :
    left = right ∨ left.place.Apart right.place := by
  by_cases heq : place = other
  · subst heq
    exact .inl (Disk.eq_of_mem_makes hleft hright)
  · obtain ⟨_, rfl⟩ := Disk.place_of_mem_makes hleft
    obtain ⟨_, rfl⟩ := Disk.place_of_mem_makes hright
    exact .inr (Disk.apart_of_present hplace hother heq)

theorem agreeing_come (hsplit : Split disk roots fun _ => []) (events : List (Tree × Event)) :
    Job.Agreeing (events.flatMap (come disk roots)) := by
  intro left hleft right hright
  obtain ⟨first, -, hleft⟩ := List.mem_flatMap.1 hleft
  obtain ⟨second, -, hright⟩ := List.mem_flatMap.1 hright
  obtain ⟨place, hplace, hleft⟩ := exists_of_mem_come hleft
  obtain ⟨other, hother, hright⟩ := exists_of_mem_come hright
  by_cases htree : first.1 = second.1
  · rw [← htree] at hother hright
    exact eq_or_apart_of_mem_makes hplace hleft hother hright
  · obtain ⟨_, rfl⟩ := Disk.place_of_mem_makes hleft
    obtain ⟨_, rfl⟩ := Disk.place_of_mem_makes hright
    exact .inr (hsplit.apart htree hplace hother)

theorem come_of_repeats {other : Tree × Event} (h : Event.Repeats other entry) :
    come disk roots other = come disk roots entry := by
  rw [come, come, Disk.answerCome_of_repeats h, h.1]

theorem mem_come_of_among (h : Event.Among left right) (hjob : job ∈ left.flatMap (come disk roots)) :
    job ∈ right.flatMap (come disk roots) := by
  obtain ⟨entry, hentry, hmem⟩ := List.mem_flatMap.1 hjob
  obtain ⟨other, hother, hrepeats⟩ := h entry hentry
  exact List.mem_flatMap.2 ⟨other, hother, come_of_repeats hrepeats ▸ hmem⟩

theorem exists_come_of_among (h : Event.Among left right)
    (hfound : ∃ entry ∈ left, entry.1 = tree ∧ (disk.answerCome roots entry.1 entry.2).isSome) :
    ∃ entry ∈ right, entry.1 = tree ∧ (disk.answerCome roots entry.1 entry.2).isSome := by
  obtain ⟨entry, hentry, htree, hsome⟩ := hfound
  obtain ⟨other, hother, hrepeats⟩ := h entry hentry
  exact ⟨other, hother, hrepeats.1.trans htree, Disk.answerCome_of_repeats hrepeats ▸ hsome⟩

end Course

namespace Session

variable {progress : Progress} {config : Config} {session : Session}
  {left right : List (Tree × Event)}

-- Events of what has come leave the same output in any order and with any repetitions, and the
-- watchers know the same files, as long as no page gets in the way of an asset.
theorem react_reordered (h : (start progress config).1 = .ok session) (hapart : session.Apart)
    (later : Progress)
    (hseparate : Separate (session.found later.disk .source) (session.found later.disk .static))
    (hcome : ∀ entry ∈ left, entry.2.kind ≠ .unlink) (hleft : Event.Among left right)
    (hright : Event.Among right left) (hok : (session.react later left).result = .ok ()) :
    (session.react later right).result = .ok () ∧
      (session.react later right).source = (session.react later left).source ∧
      (session.react later right).assets = (session.react later left).assets ∧
      (session.react later right).progress.disk.kind? =
        (session.react later left).progress.disk.kind? := by
  obtain ⟨roots, known, rfl, hknown⟩ := hapart.exists_recalling h
  rw [found_recalling, found_recalling, separate_iff
    (fun page hmem => ((later.disk.places_present roots .source).2 page hmem).2)
    fun file hmem => ((later.disk.places_present roots .static).2 file hmem).2] at hseparate
  have hcome' : ∀ entry ∈ right, entry.2.kind ≠ .unlink := fun entry hmem => by
    obtain ⟨other, hother, hrepeats⟩ := hright entry hmem
    exact hrepeats.2.1 ▸ hcome other hother
  have hends := dispatch_ends hknown (Disk.SameTrees.refl roots later.disk) left
  have hends' := dispatch_ends hknown (Disk.SameTrees.refl roots later.disk) right
  rw [hends.result, Course.result_eq_ok_iff] at hok
  have hok' : Course.Tracked later.disk roots known right := by
    rw [Course.tracked_come hcome']
    intro entry hmem
    obtain ⟨other, hother, hrepeats⟩ := hright entry hmem
    rw [← Disk.answerCome_of_repeats hrepeats]
    exact (Course.tracked_come hcome).1 hok other hother
  have hlearn : right.foldl (Course.learn later.disk roots) known =
      left.foldl (Course.learn later.disk roots) known := by
    funext tree
    rw [Course.foldl_learn_come known hcome, Course.foldl_learn_come known hcome']
    simp only [show (∃ entry ∈ right, entry.1 = tree ∧ (later.disk.answerCome roots entry.1
      entry.2).isSome) ↔ _ from ⟨Course.exists_come_of_among hright, Course.exists_come_of_among hleft⟩]
  rw [Course.handleEach_of_tracked hok] at hends
  rw [Course.handleEach_of_tracked hok', hlearn] at hends'
  refine ⟨hends'.result, hends'.source.trans hends.source.symm,
    hends'.assets.trans hends.assets.symm, ?_⟩
  rw [hends'.scene, hends.scene, Course.tasks_come known hcome, Course.tasks_come known hcome']
  exact (Course.agreeing_come hseparate right).run_eq roots.out_ne_nil
    (fun job => ⟨Course.mem_come_of_among hright, Course.mem_come_of_among hleft⟩) _

-- A page and a stylesheet have come, and another stylesheet has changed. Some of it is told
-- twice, and the path of the page is spelled in two ways.
def pageTwice : List (Tree × Event) :=
  [(.source, ⟨.add, ⟨"/src/b.html"⟩⟩), (.static, ⟨.add, ⟨"/static/t.css"⟩⟩),
    (.static, ⟨.change, ⟨"/static/s.css"⟩⟩), (.source, ⟨.add, ⟨"/src/./b.html"⟩⟩)]

def styleTwice : List (Tree × Event) :=
  [(.static, ⟨.change, ⟨"/static/s.css"⟩⟩), (.source, ⟨.add, ⟨"/src//b.html"⟩⟩),
    (.static, ⟨.change, ⟨"/static/s.css"⟩⟩), (.static, ⟨.add, ⟨"/static/t.css"⟩⟩)]

theorem react_reordered_of_repeats : started.1 = .ok opened ∧
    Separate (opened.found rewritten .source) (opened.found rewritten .static) ∧
    Event.Among pageTwice styleTwice ∧ Event.Among styleTwice pageTwice ∧
    (opened.react (.start rewritten) pageTwice).result = .ok () ∧
    (opened.react (.start rewritten) pageTwice).progress.disk.kind? ["b.html", "dist"] =
      some (.file "w".toUTF8) ∧
    (opened.react (.start rewritten) styleTwice).progress.disk.kind? =
      (opened.react (.start rewritten) pageTwice).progress.disk.kind? := by
  obtain ⟨hsession, hapart, hseparate, hleft, hright, hok, hpage⟩ : started.1 = .ok opened ∧
      opened.Apart ∧ Separate (opened.found rewritten .source) (opened.found rewritten .static) ∧
      Event.Among pageTwice styleTwice ∧ Event.Among styleTwice pageTwice ∧
      (opened.react (.start rewritten) pageTwice).result = .ok () ∧
      (opened.react (.start rewritten) pageTwice).progress.disk.kind? ["b.html", "dist"] =
        some (.file "w".toUTF8) := by
    decide +kernel
  obtain ⟨-, -, -, hkind⟩ := react_reordered hsession hapart (.start rewritten) hseparate
    (by decide) hleft hright hok
  exact ⟨hsession, hseparate, hleft, hright, hok, hpage, hkind⟩

-- Where the search for pages goes through the output, only the first page is built.
def paired : Disk :=
  (trimmedStart.2.disk.putFile "a.html" ["\\", "s"] "a".toUTF8).putFile "b.html" ["\\", "s"]
    "b".toUTF8

theorem react_depends_on_order : trimmedStart.1 = .ok trimmed ∧
    ([trimmed.source.root, trimmed.assets.root, trimmed.source.out].Pairwise fun left right =>
      ¬ left.startsWith right ∧ ¬ right.startsWith left) ∧
    Separate (trimmed.found paired .source) (trimmed.found paired .static) ∧
    (trimmed.react (.start paired) [(.source, ⟨.add, ⟨"/s/\\/a.html"⟩⟩),
      (.source, ⟨.add, ⟨"/s/\\/b.html"⟩⟩)]).result = .ok () ∧
    (trimmed.react (.start paired) [(.source, ⟨.add, ⟨"/s/\\/b.html"⟩⟩),
      (.source, ⟨.add, ⟨"/s/\\/a.html"⟩⟩)]).result = .ok () ∧
    (trimmed.react (.start paired) [(.source, ⟨.add, ⟨"/s/\\/a.html"⟩⟩),
      (.source, ⟨.add, ⟨"/s/\\/b.html"⟩⟩)]).progress.disk.file? ["a.html", "dist", "s"] =
        some "a".toUTF8 ∧
    (trimmed.react (.start paired) [(.source, ⟨.add, ⟨"/s/\\/b.html"⟩⟩),
      (.source, ⟨.add, ⟨"/s/\\/a.html"⟩⟩)]).progress.disk.file? ["a.html", "dist", "s"] = none := by
  decide +kernel

end Session

end StaticSite
