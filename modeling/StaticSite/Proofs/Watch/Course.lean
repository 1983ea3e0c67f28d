import Mathlib.Logic.Function.Basic
import StaticSite.Proofs.Watch.Answering
import StaticSite.Proofs.Watch.Recall

-- Events handled one after another while the trees stay as they are: what the watchers know, and
-- what stands where.
namespace StaticSite

-- How far events have come: what is known of each tree, what stands where, and whether one of
-- them has failed.
structure Course where
  known : Tree → List Location
  scene : Scene
  result : Except WatchError Unit

namespace Course

-- The answer to an event of either tree.
def respond (disk : Disk) (roots : Roots) (known : Tree → List Location) (entry : Tree × Event) :
    Answer :=
  disk.answer roots entry.1 (known entry.1) entry.2

-- What is known after it.
def learn (disk : Disk) (roots : Roots) (known : Tree → List Location) (entry : Tree × Event) :
    Tree → List Location :=
  Function.update known entry.1 (respond disk roots known entry).known

-- One event is handled. After a failure no event is.
def handle (disk : Disk) (roots : Roots) (course : Course) (entry : Tree × Event) : Course :=
  match course.result with
  | .error _ => course
  | .ok () =>
    let answer := respond disk roots course.known entry
    ⟨learn disk roots course.known entry,
      Job.run roots.out (answer.jobs disk roots entry.1) course.scene, answer.result entry.1⟩

def handleEach (disk : Disk) (roots : Roots) (course : Course) (events : List (Tree × Event)) :
    Course :=
  events.foldl (handle disk roots) course

-- All that is done for events.
def tasks (disk : Disk) (roots : Roots) (known : Tree → List Location) :
    List (Tree × Event) → List Job
  | [] => []
  | entry :: rest => (respond disk roots known entry).jobs disk roots entry.1 ++
      tasks disk roots (learn disk roots known entry) rest

-- None of the events fails.
def Tracked (disk : Disk) (roots : Roots) (known : Tree → List Location) :
    List (Tree × Event) → Prop
  | [] => True
  | entry :: rest => (respond disk roots known entry).untracked = none ∧
      Tracked disk roots (learn disk roots known entry) rest

variable {disk : Disk} {roots : Roots} {course : Course} {known : Tree → List Location}
  {scene : Scene} {events more : List (Tree × Event)} {entry : Tree × Event} {tree : Tree}
  {file : Location}

theorem learn_self (known : Tree → List Location) (tree : Tree) (event : Event) :
    learn disk roots known (tree, event) tree =
      (disk.answer roots tree (known tree) event).known :=
  Function.update_self ..

theorem learn_of_ne (h : tree ≠ entry.1) : learn disk roots known entry tree = known tree :=
  Function.update_of_ne h _ _

theorem places_learn (h : ∀ tree, SourceTree.Places (known tree)) (entry : Tree × Event)
    (tree : Tree) : SourceTree.Places (learn disk roots known entry tree) := by
  by_cases htree : tree = entry.1
  · subst htree
    rw [learn_self]
    exact Disk.places_answer (h entry.1) entry.2
  · rw [learn_of_ne htree]
    exact h tree

theorem mem_learn (h : file ∈ learn disk roots known entry tree) :
    file ∈ known tree ∨ file ∈ disk.present roots tree := by
  by_cases htree : tree = entry.1
  · subst htree
    rw [learn_self] at h
    exact Disk.mem_known_answer h
  · rw [learn_of_ne htree] at h
    exact .inl h

-- The files of the two trees, known or there, are apart from each other.
def Split (disk : Disk) (roots : Roots) (known : Tree → List Location) : Prop :=
  ∀ page ∈ known .source ++ disk.present roots .source,
    ∀ file ∈ known .static ++ disk.present roots .static, page.Apart file

theorem Split.learn (h : Split disk roots known) (entry : Tree × Event) :
    Split disk roots (Course.learn disk roots known entry) := by
  have hmem : ∀ tree, ∀ file ∈ Course.learn disk roots known entry tree ++ disk.present roots tree,
      file ∈ known tree ++ disk.present roots tree := by
    intro tree file hfile
    rcases List.mem_append.1 hfile with hfile | hfile
    · exact List.mem_append.2 (mem_learn hfile)
    · exact List.mem_append_right _ hfile
  exact fun page hpage file hfile => h page (hmem .source page hpage) file (hmem .static file hfile)

theorem Split.apart {other : Tree} (h : Split disk roots known) (hne : tree ≠ other)
    {left right : Location} (hleft : left ∈ known tree ++ disk.present roots tree)
    (hright : right ∈ known other ++ disk.present roots other) : left.Apart right := by
  cases tree with
  | source =>
      cases other with
      | source => exact absurd rfl hne
      | static => exact h left hleft right hright
  | static =>
      cases other with
      | source => exact (h right hright left hleft).symm
      | static => exact absurd rfl hne

@[simp]
theorem handleEach_nil (disk : Disk) (roots : Roots) (course : Course) :
    course.handleEach disk roots [] = course := rfl

@[simp]
theorem handleEach_cons (disk : Disk) (roots : Roots) (course : Course) (entry : Tree × Event)
    (events : List (Tree × Event)) : course.handleEach disk roots (entry :: events) =
      (course.handle disk roots entry).handleEach disk roots events := rfl

theorem handleEach_append (disk : Disk) (roots : Roots) (course : Course)
    (events more : List (Tree × Event)) : course.handleEach disk roots (events ++ more) =
      (course.handleEach disk roots events).handleEach disk roots more :=
  List.foldl_append

theorem handle_of_ok (known : Tree → List Location) (scene : Scene) (entry : Tree × Event) :
    handle disk roots ⟨known, scene, .ok ()⟩ entry = ⟨learn disk roots known entry,
      Job.run roots.out ((respond disk roots known entry).jobs disk roots entry.1) scene,
      (respond disk roots known entry).result entry.1⟩ := rfl

theorem handle_of_error {error : WatchError} (h : course.result = .error error)
    (entry : Tree × Event) : course.handle disk roots entry = course := by
  rw [handle, h]

theorem handleEach_of_error {error : WatchError} (h : course.result = .error error)
    (events : List (Tree × Event)) : course.handleEach disk roots events = course := by
  induction events with
  | nil => rfl
  | cons entry rest ih => rw [handleEach_cons, handle_of_error h, ih]

-- As long as nothing fails, what is done for the events is done.
theorem handleEach_of_tracked (h : Tracked disk roots known events) :
    handleEach disk roots ⟨known, scene, .ok ()⟩ events =
      ⟨events.foldl (learn disk roots) known,
        Job.run roots.out (tasks disk roots known events) scene, .ok ()⟩ := by
  induction events generalizing known scene with
  | nil => rfl
  | cons entry rest ih =>
      obtain ⟨hfirst, hrest⟩ := h
      rw [handleEach_cons, handle_of_ok, Answer.result, hfirst, tasks, Job.run_append]
      exact ih hrest

theorem result_eq_ok_iff :
    (handleEach disk roots ⟨known, scene, .ok ()⟩ events).result = .ok () ↔
      Tracked disk roots known events := by
  refine ⟨fun h => ?_, fun h => by rw [handleEach_of_tracked h]⟩
  induction events generalizing known scene with
  | nil => trivial
  | cons entry rest ih =>
      rw [handleEach_cons, handle_of_ok, Answer.result] at h
      cases hfirst : (respond disk roots known entry).untracked with
      | none =>
          rw [hfirst] at h
          exact ⟨hfirst, ih h⟩
      | some path =>
          rw [hfirst, handleEach_of_error rfl] at h
          cases h

end Course

-- The session after events of both trees, which are handled in order.
def Session.react (session : Session) (progress : Progress) (events : List (Tree × Event)) :
    Dispatch SourceWatcher StaticWatcher :=
  dispatch session.source session.assets progress events

-- Handled events have come as far as a course says.
structure Dispatch.Ends (roots : Roots) (course : Course)
    (last : Dispatch SourceWatcher StaticWatcher) : Prop where
  source : last.source = .knowing roots (course.known .source)
  assets : last.assets = .knowing roots (course.known .static)
  result : last.result = course.result
  scene : last.progress.disk.kind? = course.scene

open Course

variable {roots : Roots} {disk : Disk} {progress : Progress} {known : Tree → List Location}

-- Handling events is such a course.
theorem Session.dispatch_ends (hknown : ∀ tree, SourceTree.Places (known tree))
    (hsame : Disk.SameTrees roots disk progress.disk) (events : List (Tree × Event)) :
    ((recalling roots known).react progress events).Ends roots
      (Course.handleEach disk roots ⟨known, progress.disk.kind?, .ok ()⟩ events) := by
  induction events generalizing known progress with
  | nil => exact ⟨rfl, rfl, rfl, rfl⟩
  | cons entry rest ih =>
      obtain ⟨tree, event⟩ := entry
      rw [handleEach_cons, handle_of_ok]
      have hnext : ∀ other, SourceTree.Places (learn disk roots known (tree, event) other) :=
        places_learn hknown (tree, event)
      cases tree with
      | source =>
          obtain ⟨later, hreceive, hlater⟩ : ∃ later, Handler.receive (recalling roots known).source
              event progress = ((recalling roots (learn disk roots known (.source, event))).source,
                later, (respond disk roots known (.source, event)).result .source) ∧ _ :=
            (SourceWatcher.handle_gives (hknown .source) hsame event).receive
          have hrest := @ih later _ hnext (hsame.of_run hlater)
          have hscene : later.disk.kind? = Job.run roots.out ((respond disk roots known
            (.source, event)).jobs disk roots .source) progress.disk.kind? := hlater
          rw [react, dispatch, hreceive, ← hscene]
          cases (respond disk roots known (.source, event)).result .source with
          | error error =>
              rw [handleEach_of_error rfl]
              exact ⟨rfl, rfl, rfl, rfl⟩
          | ok _ => exact hrest
      | static =>
          obtain ⟨later, hreceive, hlater⟩ : ∃ later, Handler.receive (recalling roots known).assets
              event progress = ((recalling roots (learn disk roots known (.static, event))).assets,
                later, (respond disk roots known (.static, event)).result .static) ∧ _ :=
            (StaticWatcher.handle_gives (hknown .static) hsame event).receive
          have hrest := @ih later _ hnext (hsame.of_run hlater)
          have hscene : later.disk.kind? = Job.run roots.out ((respond disk roots known
            (.static, event)).jobs disk roots .static) progress.disk.kind? := hlater
          rw [react, dispatch, hreceive, ← hscene]
          cases (respond disk roots known (.static, event)).result .static with
          | error error =>
              rw [handleEach_of_error rfl]
              exact ⟨rfl, rfl, rfl, rfl⟩
          | ok _ => exact hrest

end StaticSite
