import Mathlib.Data.List.Destutter
import StaticSite.Proofs.Watch.Repetition

-- What a queue gives when it is taken from: of all events that have been pushed, those that change
-- what is known of their place.
namespace StaticSite

namespace Event

-- Of the events before, the nearest one of the same place is missing or of another kind. The events
-- are given with the oldest one first.
def isNews (earlier : List (Tree × Event)) (entry : Tree × Event) : Bool :=
  (earlier.reverse.find? (alike entry)).all fun nearest => nearest.2.kind ≠ entry.2.kind

-- The events that are news after those before them, in their order.
def news (pushed : List (Tree × Event)) : List (Tree × Event) :=
  (pushed.zipIdx.filter fun (entry, index) => isNews (pushed.take index) entry).map (·.1)

def Differ (left right : Tree × Event) : Prop :=
  left.2.kind ≠ right.2.kind

instance : DecidableRel Differ := fun _ _ => inferInstanceAs (Decidable (_ ≠ _))

theorem news_concat (pushed : List (Tree × Event)) (last : Tree × Event) :
    news (pushed ++ [last]) = news pushed ++ if isNews pushed last then [last] else [] := by
  -- What stands before an event is the same without the last one.
  have hbefore : (pushed.zipIdx.filter fun (entry, index) =>
        isNews ((pushed ++ [last]).take index) entry) =
      pushed.zipIdx.filter fun (entry, index) => isNews (pushed.take index) entry := by
    refine List.filter_congr fun (entry, index) hmem => ?_
    have hindex : index ≤ pushed.length := by
      have := List.snd_lt_of_mem_zipIdx hmem
      omega
    simp only [List.take_append_of_le_length hindex]
  rw [news, news, List.zipIdx_append, List.filter_append, hbefore, List.map_append]
  by_cases hnews : isNews pushed last <;> simp [hnews]

theorem isNews_eq_not_isSome (earlier : List (Tree × Event)) (entry : Tree × Event) :
    isNews earlier entry = !(since? entry earlier.reverse).isSome := by
  rw [isSome_since?, isNews]
  cases earlier.reverse.find? (alike entry) <;> simp

-- The nearest event of a place is the last one of all events of that place.
theorem isNews_eq_getLast? (earlier : List (Tree × Event)) (entry : Tree × Event) :
    isNews earlier entry =
      (earlier.filter (alike entry)).getLast?.all fun nearest => Differ nearest entry := by
  rw [isNews, List.getLast?_filter]
  rfl

-- Whether a run goes on is seen from its last event as well as from its first one, since they are
-- of the same kind.
theorem destutter'_concat (first : Tree × Event) (entries : List (Tree × Event))
    (last : Tree × Event) : (entries ++ [last]).destutter' Differ first =
      entries.destutter' Differ first ++
        if Differ (entries.getLastD first) last then [last] else [] := by
  induction entries generalizing first with
  | nil => by_cases hdiffer : Differ first last <;> simp [hdiffer]
  | cons next rest ih =>
      rw [List.cons_append, List.getLastD_cons]
      by_cases hdiffer : Differ first next
      · rw [List.destutter'_cons_pos _ hdiffer, List.destutter'_cons_pos _ hdiffer, ih,
          List.cons_append]
      · rw [List.destutter'_cons_neg _ hdiffer, List.destutter'_cons_neg _ hdiffer, ih]
        have hkind : first.2.kind = next.2.kind := not_not.1 hdiffer
        cases rest with
        | nil =>
            have hiff : Differ first last ↔ Differ next last := by rw [Differ, Differ, hkind]
            rw [List.getLastD_nil, List.getLastD_nil, if_congr hiff rfl rfl]
        | cons other rest => rfl

theorem destutter_concat (entries : List (Tree × Event)) (last : Tree × Event) :
    (entries ++ [last]).destutter Differ =
      entries.destutter Differ ++
        if entries.getLast?.all fun nearest => Differ nearest last then [last] else [] := by
  cases entries with
  | nil => rfl
  | cons first rest =>
      rw [List.cons_append, List.destutter_cons', List.destutter_cons', destutter'_concat,
        List.getLast?_cons, List.getLastD_eq_getLast?]
      simp

theorem head?_destutter' (first : Tree × Event) (entries : List (Tree × Event)) :
    (entries.destutter' Differ first).head? = some first := by
  induction entries with
  | nil => rfl
  | cons next rest ih => by_cases hdiffer : Differ first next <;> simp [hdiffer, ih]

-- The news of a place are its events without those that go on with a run of one kind.
theorem filter_news (pushed : List (Tree × Event)) (entry : Tree × Event) :
    (news pushed).filter (alike entry) = (pushed.filter (alike entry)).destutter Differ := by
  induction pushed using List.reverseRecOn with
  | nil => rfl
  | append_singleton pushed last ih =>
      rw [news_concat, List.filter_append, List.filter_append, ih]
      cases halike : alike entry last with
      | false => split <;> simp [halike]
      | true =>
          rw [isNews_eq_getLast?, alike_eq halike, List.filter_singleton, halike, cond_true,
            destutter_concat]
          split <;> simp [halike]

-- The first event of a place is news.
theorem find?_news (pushed : List (Tree × Event)) (entry : Tree × Event) :
    (news pushed).find? (alike entry) = pushed.find? (alike entry) := by
  rw [← List.head?_filter, ← List.head?_filter, filter_news]
  cases pushed.filter (alike entry) with
  | nil => rfl
  | cons first rest => rw [List.destutter_cons', head?_destutter', List.head?_cons]

end Event

namespace EventQueue

-- The queue is taken from after each batch of events. What it has given each time is returned with
-- the queue that is left.
def takeEach (queue : EventQueue) :
    List (List (Nat × Tree × Event)) → List (List (Tree × Event)) × EventQueue
  | [] => ([], queue)
  | timed :: rest =>
    let taken := (queue.pushEach timed).take
    let others := taken.2.takeEach rest
    (taken.1 :: others.1, others.2)

-- The queue compares an event with what is pending, which is not all that has been pushed.
theorem pending_pushEach_eq (timed : List (Nat × Tree × Event)) :
    (empty.pushEach timed).pending = Event.news (timed.map (·.2)) := by
  induction timed using List.reverseRecOn with
  | nil => rfl
  | append_singleton timed last ih =>
      rw [pending_pushEach_concat, List.map_append, List.map_singleton, Event.news_concat,
        Event.isNews_eq_not_isSome, ih]
      cases (Event.since? last.2 (timed.map (·.2)).reverse).isSome <;> simp

-- Taking gives the news among the events since the last time and leaves nothing behind, so that the
-- next batch is taken as by a new queue. Of each place, the news are its events with runs of one
-- kind told by their first event, and the first event of all is among them.
theorem takeEach_eq_news (batches : List (List (Nat × Tree × Event))) :
    empty.takeEach batches = (batches.map fun timed => Event.news (timed.map (·.2)), empty) ∧
      ∀ (pushed : List (Tree × Event)) (entry : Tree × Event),
        (Event.news pushed).filter (Event.alike entry) =
            (pushed.filter (Event.alike entry)).destutter Event.Differ ∧
          (Event.news pushed).find? (Event.alike entry) = pushed.find? (Event.alike entry) := by
  refine ⟨?_, fun pushed entry => ⟨Event.filter_news pushed entry, Event.find?_news pushed entry⟩⟩
  induction batches with
  | nil => rfl
  | cons timed rest ih =>
      simp only [takeEach, take, pending_pushEach_eq, ih, List.map_cons]

end EventQueue

end StaticSite
