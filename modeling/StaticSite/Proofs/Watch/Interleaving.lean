import StaticSite.Proofs.Watch.Course
import StaticSite.Proofs.Watch.Flush

-- The trees of a session do not get in each other's way: how their events are interleaved makes
-- no difference.
namespace StaticSite

-- The events of one tree, in their order.
def Event.ofTree (tree : Tree) (events : List (Tree × Event)) : List Event :=
  (events.filter (·.1 = tree)).map (·.2)

namespace Disk

-- The answers to events of one tree, one after another.
def answers (disk : Disk) (roots : Roots) (tree : Tree) (known : List Location) :
    List Event → List Answer
  | [] => []
  | event :: rest =>
    let answer := disk.answer roots tree known event
    answer :: disk.answers roots tree answer.known rest

variable {disk : Disk} {roots : Roots} {tree : Tree} {known : List Location}

theorem place_of_mem_jobs_answers {events : List Event} {answer : Answer} {job : Job}
    (hmem : answer ∈ disk.answers roots tree known events) (hjob : job ∈ answer.jobs disk roots tree) :
    job.place ∈ known ∨ job.place ∈ disk.present roots tree := by
  induction events generalizing known with
  | nil => cases hmem
  | cons event rest ih =>
      rcases List.mem_cons.1 hmem with rfl | hmem
      · exact place_of_mem_jobs hjob
      · rcases ih hmem with hknown | hthere
        · exact mem_known_answer hknown
        · exact .inr hthere

end Disk

-- What is known after all of the answers, and what they do to the output.
def Answer.last (known : List Location) (answers : List Answer) : List Location :=
  answers.foldl (fun _ answer => answer.known) known

namespace Course

variable {disk : Disk} {roots : Roots} {known : Tree → List Location} {scene : Scene}
  {events : List (Tree × Event)} {tree other : Tree} {event : Event} {job : Job}

-- The answers to the events of a tree among others.
def answersOf (disk : Disk) (roots : Roots) (known : Tree → List Location)
    (events : List (Tree × Event)) (tree : Tree) : List Answer :=
  disk.answers roots tree (known tree) (Event.ofTree tree events)

theorem answersOf_cons_self : answersOf disk roots known ((tree, event) :: events) tree =
    respond disk roots known (tree, event) ::
      answersOf disk roots (learn disk roots known (tree, event)) events tree := by
  rw [answersOf, answersOf, learn_self]
  simp [Event.ofTree, Disk.answers, respond]

theorem answersOf_cons_of_ne (h : other ≠ tree) :
    answersOf disk roots known ((tree, event) :: events) other =
      answersOf disk roots (learn disk roots known (tree, event)) events other := by
  rw [answersOf, answersOf, learn_of_ne h]
  simp [Event.ofTree, Ne.symm h]

-- All that is done for the events of a tree.
def tasksOf (disk : Disk) (roots : Roots) (known : Tree → List Location)
    (events : List (Tree × Event)) (tree : Tree) : List Job :=
  (answersOf disk roots known events tree).flatMap (Answer.jobs disk roots tree)

theorem place_of_mem_tasksOf (h : job ∈ tasksOf disk roots known events tree) :
    job.place ∈ known tree ++ disk.present roots tree := by
  obtain ⟨answer, hmem, hjob⟩ := List.mem_flatMap.1 h
  exact List.mem_append.2 (Disk.place_of_mem_jobs_answers hmem hjob)

-- Nothing fails if nothing fails in either tree.
theorem tracked_iff : Tracked disk roots known events ↔
    ∀ tree, ∀ answer ∈ answersOf disk roots known events tree, answer.untracked = none := by
  induction events generalizing known with
  | nil => exact iff_of_true trivial (by simp [answersOf, Event.ofTree, Disk.answers])
  | cons entry rest ih =>
      obtain ⟨tree, event⟩ := entry
      rw [Tracked, ih]
      constructor
      · rintro ⟨hfirst, hrest⟩ other answer hmem
        by_cases hother : other = tree
        · subst hother
          rw [answersOf_cons_self] at hmem
          rcases List.mem_cons.1 hmem with rfl | hmem
          · exact hfirst
          · exact hrest other answer hmem
        · rw [answersOf_cons_of_ne hother] at hmem
          exact hrest other answer hmem
      · refine fun hall => ⟨hall tree _ (answersOf_cons_self ▸ List.mem_cons_self),
          fun other answer hmem => hall other answer ?_⟩
        by_cases hother : other = tree
        · subst hother
          rw [answersOf_cons_self]
          exact List.mem_cons_of_mem _ hmem
        · rw [answersOf_cons_of_ne hother]
          exact hmem

-- What is known of a tree is told by its own events.
theorem foldl_learn_apply (known : Tree → List Location) (events : List (Tree × Event)) (tree : Tree) :
    events.foldl (learn disk roots) known tree =
      Answer.last (known tree) (answersOf disk roots known events tree) := by
  induction events generalizing known with
  | nil => rfl
  | cons entry rest ih =>
      obtain ⟨other, event⟩ := entry
      rw [List.foldl_cons, ih]
      by_cases htree : tree = other
      · subst htree
        rw [answersOf_cons_self, learn_self]
        rfl
      · rw [answersOf_cons_of_ne htree, learn_of_ne htree]

-- The output is as if what is done for the source tree had been done first, and then what is done
-- for the static tree.
theorem run_tasks (hsplit : Split disk roots known) :
    Job.run roots.out (tasks disk roots known events) scene =
      Job.run roots.out (tasksOf disk roots known events .static)
        (Job.run roots.out (tasksOf disk roots known events .source) scene) := by
  induction events generalizing known scene with
  | nil => rfl
  | cons entry rest ih =>
      obtain ⟨tree, event⟩ := entry
      have hother : Tree.source ≠ Tree.static := nofun
      rw [tasks, Job.run_append, ih (hsplit.learn (tree, event))]
      cases tree with
      | source =>
          rw [tasksOf, tasksOf, tasksOf, tasksOf, answersOf_cons_self,
            answersOf_cons_of_ne hother.symm, List.flatMap_cons, Job.run_append]
      | static =>
          have hpages : tasksOf disk roots known ((.static, event) :: rest) .source =
              tasksOf disk roots (learn disk roots known (.static, event)) rest .source := by
            rw [tasksOf, tasksOf, answersOf_cons_of_ne hother]
          have hfiles : tasksOf disk roots known ((.static, event) :: rest) .static =
              (respond disk roots known (.static, event)).jobs disk roots .static ++
                tasksOf disk roots (learn disk roots known (.static, event)) rest .static := by
            rw [tasksOf, tasksOf, answersOf_cons_self, List.flatMap_cons]
          -- What is done for the event can wait until all is done for the other tree.
          rw [hfiles, Job.run_append, ← hpages]
          congr 1
          exact Job.run_comm fun page hpage file hfile => hsplit page.place
            (place_of_mem_tasksOf hpage) file.place (List.mem_append.2 (Disk.place_of_mem_jobs hfile))

end Course

namespace Session

variable {progress : Progress} {config : Config} {session : Session}
  {left right : List (Tree × Event)}

-- However the events of the trees are interleaved, they leave the same output, and the watchers
-- know the same files, as long as no file of one tree gets in the way of one of the other.
theorem react_interleaved (h : (start progress config).1 = .ok session) (hapart : session.Apart)
    (later : Progress) (hdisjoint : session.Disjoint later.disk)
    (hsame : ∀ tree, Event.ofTree tree left = Event.ofTree tree right)
    (hok : (session.react later left).result = .ok ()) :
    (session.react later right).result = .ok () ∧
      (session.react later right).source = (session.react later left).source ∧
      (session.react later right).assets = (session.react later left).assets ∧
      (session.react later right).progress.disk.kind? =
        (session.react later left).progress.disk.kind? := by
  obtain ⟨roots, known, rfl, hknown⟩ := hapart.exists_recalling h
  have hsplit : Course.Split later.disk roots known := (disjoint_recalling hknown).1 hdisjoint
  have hanswers : Course.answersOf later.disk roots known right =
      Course.answersOf later.disk roots known left :=
    funext fun tree => by rw [Course.answersOf, Course.answersOf, hsame]
  have hleft := dispatch_ends hknown (Disk.SameTrees.refl roots later.disk) left
  have hright := dispatch_ends hknown (Disk.SameTrees.refl roots later.disk) right
  rw [hleft.result, Course.result_eq_ok_iff] at hok
  have hok' : Course.Tracked later.disk roots known right :=
    Course.tracked_iff.2 (hanswers ▸ Course.tracked_iff.1 hok)
  rw [Course.handleEach_of_tracked hok] at hleft
  rw [Course.handleEach_of_tracked hok'] at hright
  refine ⟨hright.result, ?_, ?_, ?_⟩
  · rw [hright.source, hleft.source]
    dsimp only
    rw [Course.foldl_learn_apply, Course.foldl_learn_apply, hanswers]
  · rw [hright.assets, hleft.assets]
    dsimp only
    rw [Course.foldl_learn_apply, Course.foldl_learn_apply, hanswers]
  · rw [hright.scene, hleft.scene, Course.run_tasks hsplit, Course.run_tasks hsplit, Course.tasksOf,
      Course.tasksOf, Course.tasksOf, Course.tasksOf, hanswers]

-- A page gets another name, a stylesheet is reported as gone, and another one has come.
def pageFirst : List (Tree × Event) :=
  [(.source, ⟨.unlink, ⟨"/src/a.html"⟩⟩), (.static, ⟨.unlink, ⟨"/static/s.css"⟩⟩),
    (.source, ⟨.add, ⟨"/src/b.html"⟩⟩), (.static, ⟨.add, ⟨"/static/t.css"⟩⟩)]

def stylesFirst : List (Tree × Event) :=
  [(.static, ⟨.unlink, ⟨"/static/s.css"⟩⟩), (.static, ⟨.add, ⟨"/static/t.css"⟩⟩),
    (.source, ⟨.unlink, ⟨"/src/a.html"⟩⟩), (.source, ⟨.add, ⟨"/src/b.html"⟩⟩)]

theorem react_interleaved_of_rename : started.1 = .ok opened ∧ opened.Disjoint rewritten ∧
    (∀ tree, Event.ofTree tree pageFirst = Event.ofTree tree stylesFirst) ∧
    (opened.react (.start rewritten) pageFirst).result = .ok () ∧
    (opened.react (.start rewritten) pageFirst).progress.disk.kind? ["b.html", "dist"] =
      some (.file "w".toUTF8) ∧
    (opened.react (.start rewritten) pageFirst).progress.disk.kind? ["s.css", "dist"] = none ∧
    (opened.react (.start rewritten) stylesFirst).progress.disk.kind? =
      (opened.react (.start rewritten) pageFirst).progress.disk.kind? := by
  obtain ⟨hsession, hapart, hdisjoint, hok, hpage, hgone⟩ : started.1 = .ok opened ∧
      opened.Apart ∧ opened.Disjoint rewritten ∧
      (opened.react (.start rewritten) pageFirst).result = .ok () ∧
      (opened.react (.start rewritten) pageFirst).progress.disk.kind? ["b.html", "dist"] =
        some (.file "w".toUTF8) ∧
      (opened.react (.start rewritten) pageFirst).progress.disk.kind? ["s.css", "dist"] = none := by
    decide +kernel
  have hsame : ∀ tree, Event.ofTree tree pageFirst = Event.ofTree tree stylesFirst := by
    rintro (_ | _) <;> decide
  obtain ⟨-, -, -, hkind⟩ := react_interleaved hsession hapart (.start rewritten)
    hdisjoint hsame hok
  exact ⟨hsession, hdisjoint, hsame, hok, hpage, hgone, hkind⟩

-- Where the search for pages goes through the output, a page is not built any more once another
-- file has been copied there.
def grown : Disk :=
  (trimmedStart.2.disk.putFile "a.html" ["\\", "s"] "a".toUTF8).putFile "x.html" ["static"] "x".toUTF8

theorem react_depends_on_interleaving : trimmedStart.1 = .ok trimmed ∧
    ([trimmed.source.root, trimmed.assets.root, trimmed.source.out].Pairwise fun left right =>
      ¬ left.startsWith right ∧ ¬ right.startsWith left) ∧
    trimmed.Disjoint grown ∧
    (trimmed.react (.start grown) [(.source, ⟨.add, ⟨"/s/\\/a.html"⟩⟩),
      (.static, ⟨.add, ⟨"/static/x.html"⟩⟩)]).result = .ok () ∧
    (trimmed.react (.start grown) [(.static, ⟨.add, ⟨"/static/x.html"⟩⟩),
      (.source, ⟨.add, ⟨"/s/\\/a.html"⟩⟩)]).result = .ok () ∧
    (trimmed.react (.start grown) [(.source, ⟨.add, ⟨"/s/\\/a.html"⟩⟩),
      (.static, ⟨.add, ⟨"/static/x.html"⟩⟩)]).progress.disk.file? ["a.html", "dist", "s"] =
        some "a".toUTF8 ∧
    (trimmed.react (.start grown) [(.static, ⟨.add, ⟨"/static/x.html"⟩⟩),
      (.source, ⟨.add, ⟨"/s/\\/a.html"⟩⟩)]).progress.disk.file? ["a.html", "dist", "s"] = none := by
  decide +kernel

end Session

end StaticSite
