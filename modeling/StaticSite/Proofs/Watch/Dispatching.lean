import StaticSite.Watch.Session

-- What becomes of a batch of events, whatever the two watchers make of each.
namespace StaticSite

-- That a tree cannot be scanned ends one event. Any other error ends the batch.
def WatchError.IsFatal : WatchError → Prop
  | .scan _ => False
  | _ => True

-- A note on an event that has ended alone.
def Note.isRefusal : Note → Bool
  | .notHandled _ _ _ => true
  | _ => false

-- Such notes are written by no watcher of this kind.
def Handler.Discreet (ω : Type) [Handler ω] : Prop :=
  ∀ (watcher : ω) (event : Event) (progress : Progress),
    (Handler.handle watcher event progress).progress.notes.filter Note.isRefusal =
      progress.notes.filter Note.isRefusal

-- Two watchers, and how far their work has come.
structure Crew (σ τ : Type) where
  source : σ
  assets : τ
  progress : Progress

namespace Crew

variable {σ τ : Type} [Handler σ] [Handler τ]

-- An event is handled by the watcher of its tree. The other watcher takes no part in it.
def handle (crew : Crew σ τ) (entry : Tree × Event) :
    Crew σ τ × Except WatchError (List Rebuild) :=
  match entry.1 with
  | .source =>
    let reaction := Handler.handle crew.source entry.2 crew.progress
    (⟨reaction.watcher, crew.assets, reaction.progress⟩, reaction.result)
  | .static =>
    let reaction := Handler.handle crew.assets entry.2 crew.progress
    (⟨crew.source, reaction.watcher, reaction.progress⟩, reaction.result)

-- What the watcher of a tree calls its tree.
def treeOf (crew : Crew σ τ) : Tree → Tree
  | .source => Handler.tree crew.source
  | .static => Handler.tree crew.assets

-- The note on an event whose tree cannot be scanned.
def refusal? (crew : Crew σ τ) (entry : Tree × Event) : Option Note :=
  match crew.handle entry with
  | (after, .error (.scan error)) => some (.notHandled (after.treeOf entry.1) entry.2.path error)
  | _ => none

-- The crew after an event, with the note on it if there is one.
def step (crew : Crew σ τ) (entry : Tree × Event) : Crew σ τ :=
  let after := (crew.handle entry).1
  { after with progress := (crew.refusal? entry).elim after.progress after.progress.note }

-- The crew after all of the events, whatever has come of each.
def run (crew : Crew σ τ) (events : List (Tree × Event)) : Crew σ τ :=
  events.foldl step crew

-- The notes on the events that have ended alone, in their order.
def refusals (crew : Crew σ τ) : List (Tree × Event) → List Note
  | [] => []
  | entry :: rest => (crew.refusal? entry).toList ++ (crew.step entry).refusals rest

-- After the events before it, the event at an index is handled with an error that ends the batch.
def FailsAt (crew : Crew σ τ) (events : List (Tree × Event)) (index : Nat) (error : WatchError) :
    Prop :=
  ∃ entry, events[index]? = some entry ∧
    ((crew.run (events.take index)).handle entry).2 = .error error ∧ error.IsFatal

-- The batch is over.
def ended (crew : Crew σ τ) (result : Except WatchError Unit) : Dispatch σ τ :=
  ⟨crew.source, crew.assets, crew.progress, result⟩

variable {crew : Crew σ τ} {entry : Tree × Event} {rest events : List (Tree × Event)}
  {index : Nat} {error : WatchError}

theorem failsAt_zero :
    crew.FailsAt (entry :: rest) 0 error ↔
      (crew.handle entry).2 = .error error ∧ error.IsFatal := by
  simp [FailsAt, run]

theorem failsAt_succ :
    crew.FailsAt (entry :: rest) (index + 1) error ↔ (crew.step entry).FailsAt rest index error :=
  Iff.rfl

-- An error that is fatal ends the batch after its event. Whatever else comes of the event, the next
-- one follows.
theorem dispatch_cons (crew : Crew σ τ) (entry : Tree × Event) (rest : List (Tree × Event)) :
    dispatch crew.source crew.assets crew.progress (entry :: rest) =
      match (crew.handle entry).2 with
      | .ok _ | .error (.scan _) =>
        dispatch (crew.step entry).source (crew.step entry).assets (crew.step entry).progress rest
      | .error error => (crew.step entry).ended (.error error) := by
  obtain ⟨tree, event⟩ := entry
  cases tree with
  | source =>
      rcases hreaction : Handler.handle crew.source event crew.progress with
        ⟨watcher, progress, (_ | _ | _ | _ | _) | _⟩ <;>
        simp [dispatch, Handler.receive, handle, step, refusal?, treeOf, ended, hreaction]
  | static =>
      rcases hreaction : Handler.handle crew.assets event crew.progress with
        ⟨watcher, progress, (_ | _ | _ | _ | _) | _⟩ <;>
        simp [dispatch, Handler.receive, handle, step, refusal?, treeOf, ended, hreaction]

theorem dispatch_cons_of_failsAt (h : crew.FailsAt (entry :: rest) 0 error) :
    dispatch crew.source crew.assets crew.progress (entry :: rest) =
      (crew.step entry).ended (.error error) := by
  obtain ⟨hresult, hfatal⟩ := failsAt_zero.1 h
  rw [dispatch_cons, hresult]
  cases error with
  | scan error => exact absurd hfatal id
  | untracked tree path => rfl
  | notify reason => rfl
  | build error => rfl
  | disk fault => rfl

theorem dispatch_cons_of_not_failsAt (h : ∀ error, ¬ crew.FailsAt (entry :: rest) 0 error) :
    dispatch crew.source crew.assets crew.progress (entry :: rest) =
      dispatch (crew.step entry).source (crew.step entry).assets (crew.step entry).progress
        rest := by
  rw [dispatch_cons]
  split
  · rfl
  · rfl
  · next error hscan hresult =>
    refine absurd (failsAt_zero.2 ⟨hresult, ?_⟩) (h error)
    cases error with
    | scan error => exact absurd rfl (hscan error)
    | _ => trivial

-- Up to the first failure, and with it, all events are handled.
theorem dispatch_of_failsAt (hfails : crew.FailsAt events index error)
    (hfirst : ∀ earlier < index, ∀ other, ¬ crew.FailsAt events earlier other) :
    dispatch crew.source crew.assets crew.progress events =
      (crew.run (events.take (index + 1))).ended (.error error) := by
  induction events generalizing crew index with
  | nil =>
      obtain ⟨entry, hentry, -⟩ := hfails
      cases hentry
  | cons entry rest ih =>
      cases index with
      | zero => exact dispatch_cons_of_failsAt hfails
      | succ index =>
          rw [dispatch_cons_of_not_failsAt (hfirst 0 index.succ_pos)]
          refine ih (failsAt_succ.1 hfails) fun earlier hearlier other hother => ?_
          exact hfirst (earlier + 1) (Nat.succ_lt_succ hearlier) other (failsAt_succ.2 hother)

theorem dispatch_of_not_failsAt (h : ∀ index error, ¬ crew.FailsAt events index error) :
    dispatch crew.source crew.assets crew.progress events = (crew.run events).ended (.ok ()) := by
  induction events generalizing crew with
  | nil => rfl
  | cons entry rest ih =>
      rw [dispatch_cons_of_not_failsAt (h 0)]
      exact ih fun index => h (index + 1)

theorem filter_notes_step (hsource : Handler.Discreet σ) (hassets : Handler.Discreet τ)
    (crew : Crew σ τ) (entry : Tree × Event) :
    (crew.step entry).progress.notes.filter Note.isRefusal =
      crew.progress.notes.filter Note.isRefusal ++ (crew.refusal? entry).toList := by
  have hhandle : (crew.handle entry).1.progress.notes.filter Note.isRefusal =
      crew.progress.notes.filter Note.isRefusal := by
    unfold handle
    split
    · exact hsource crew.source entry.2 crew.progress
    · exact hassets crew.assets entry.2 crew.progress
  have hrefusal : ∀ note ∈ crew.refusal? entry, note.isRefusal = true := by
    unfold refusal?
    split <;> simp [Note.isRefusal]
  unfold step
  cases hnote : crew.refusal? entry with
  | none => simpa using hhandle
  | some note => simp [Progress.note, hhandle, hrefusal note hnote]

theorem filter_notes_run (hsource : Handler.Discreet σ) (hassets : Handler.Discreet τ)
    (crew : Crew σ τ) (events : List (Tree × Event)) :
    (crew.run events).progress.notes.filter Note.isRefusal =
      crew.progress.notes.filter Note.isRefusal ++ crew.refusals events := by
  induction events generalizing crew with
  | nil => exact (List.append_nil _).symm
  | cons entry rest ih =>
      rw [run, List.foldl_cons, ← run, ih, filter_notes_step hsource hassets, refusals,
        List.append_assoc]

theorem severity_of_mem_refusals {note : Note} (h : note ∈ crew.refusals events) :
    note.severity = .error := by
  induction events generalizing crew with
  | nil => cases h
  | cons entry rest ih =>
      rcases List.mem_append.1 h with h | h
      · unfold refusal? at h
        split at h
        · obtain rfl := Option.some.inj (Option.mem_toList.1 h)
          rfl
        · cases h
      · exact ih h

-- A batch is handled up to the first event that fails for good, each event by the watcher of its
-- tree in order, and that failure is what comes of the batch. Where there is none, all events are
-- handled and the batch succeeds. Each event before that has ended alone is noted once as an error,
-- among whatever else the watchers note.
theorem dispatch_until_failure (crew : Crew σ τ) (events : List (Tree × Event)) :
    (∀ index error, crew.FailsAt events index error →
      (∀ earlier < index, ∀ other, ¬ crew.FailsAt events earlier other) →
      dispatch crew.source crew.assets crew.progress events =
        (crew.run (events.take (index + 1))).ended (.error error)) ∧
    ((∀ index error, ¬ crew.FailsAt events index error) →
      dispatch crew.source crew.assets crew.progress events = (crew.run events).ended (.ok ())) ∧
    ∀ handled, (∀ note ∈ crew.refusals handled, note.severity = .error) ∧
      (Handler.Discreet σ → Handler.Discreet τ →
        (crew.run handled).progress.notes.filter Note.isRefusal =
          crew.progress.notes.filter Note.isRefusal ++ crew.refusals handled) :=
  ⟨fun _ _ => dispatch_of_failsAt, dispatch_of_not_failsAt, fun handled =>
    ⟨fun _ => severity_of_mem_refusals, fun hsource hassets =>
      filter_notes_run hsource hassets crew handled⟩⟩

end Crew

-- A watcher that remembers what it has been told. It cannot scan its tree for a change, and it
-- knows of no file that is gone.
structure Mock where
  tree : Tree
  seen : List String
deriving DecidableEq

instance : Handler Mock where
  tree := Mock.tree
  handle mock event progress :=
    ⟨⟨mock.tree, mock.seen ++ [event.path.text]⟩, progress.note (.vanished event.path),
      match event.kind with
      | .add => .ok []
      | .change => .error (.scan (.escape event.path ⟨"/"⟩))
      | .unlink => .error (.untracked mock.tree event.path)⟩

namespace Crew

theorem dispatch_until_failure_of_mocks :
    let crew : Crew Mock Mock := ⟨⟨.source, []⟩, ⟨.static, []⟩, .start .blank⟩
    let events := [(Tree.source, Event.mk .change ⟨"a"⟩), (.static, ⟨.add, ⟨"b"⟩⟩),
      (.static, ⟨.change, ⟨"c"⟩⟩), (.source, ⟨.unlink, ⟨"d"⟩⟩), (.static, ⟨.unlink, ⟨"e"⟩⟩)]
    let last := dispatch crew.source crew.assets crew.progress events
    crew.FailsAt events 3 (.untracked .source ⟨"d"⟩) ∧
      (∀ earlier < 3, ∀ other, ¬ crew.FailsAt events earlier other) ∧
      Handler.Discreet Mock ∧
      last.result = .error (.untracked .source ⟨"d"⟩) ∧
      last.source.seen = ["a", "d"] ∧ last.assets.seen = ["b", "c"] ∧
      last.progress.notes.filter Note.isRefusal =
        [.notHandled .source ⟨"a"⟩ (.escape ⟨"a"⟩ ⟨"/"⟩),
          .notHandled .static ⟨"c"⟩ (.escape ⟨"c"⟩ ⟨"/"⟩)] ∧
      -- Without the two files that are gone, all is handled.
      (∀ index error, ¬ crew.FailsAt (events.take 3) index error) ∧
      (dispatch crew.source crew.assets crew.progress (events.take 3)).result = .ok () := by
  intro crew events last
  have hfails : crew.FailsAt events 3 (.untracked .source ⟨"d"⟩) := ⟨_, rfl, rfl, trivial⟩
  have hfirst : ∀ earlier < 3, ∀ other, ¬ crew.FailsAt events earlier other := by
    rintro (_ | _ | _ | earlier) hlt other ⟨entry, hentry, hresult, hfatal⟩
    · cases hentry; cases hresult; exact hfatal
    · cases hentry; cases hresult
    · cases hentry; cases hresult; exact hfatal
    · omega
  have hnone : ∀ index error, ¬ crew.FailsAt (events.take 3) index error := by
    rintro (_ | _ | _ | index) error ⟨entry, hentry, hresult, hfatal⟩
    · cases hentry; cases hresult; exact hfatal
    · cases hentry; cases hresult
    · cases hentry; cases hresult; exact hfatal
    · cases hentry
  have hdiscreet : Handler.Discreet Mock := fun mock event progress => by
    simp [Handler.handle, Progress.note, Note.isRefusal]
  have hlast := (dispatch_until_failure crew events).1 3 _ hfails hfirst
  have hnotes := ((dispatch_until_failure crew events).2.2 (events.take 4)).2 hdiscreet hdiscreet
  have hall := (dispatch_until_failure crew (events.take 3)).2.1 hnone
  exact ⟨hfails, hfirst, hdiscreet, congrArg Dispatch.result hlast,
    congrArg (·.source.seen) hlast, congrArg (·.assets.seen) hlast,
    (congrArg (·.progress.notes.filter Note.isRefusal) hlast).trans hnotes, hnone,
    congrArg Dispatch.result hall⟩

end Crew

end StaticSite
