import StaticSite.Watch.Queue

-- What waits in a queue: all that has been pushed, but for repetitions.
namespace StaticSite.EventQueue

variable {queue : EventQueue} {tree : Tree} {event : Event}

-- Events pushed one after the other, each at its moment.
def pushEach (queue : EventQueue) : List (Nat × Tree × Event) → EventQueue
  | [] => queue
  | (now, tree, event) :: rest => (queue.push now tree event).pushEach rest

-- An event of the tree waits that says the same of the same place.
def Holds (queue : EventQueue) (tree : Tree) (event : Event) : Prop :=
  ∃ earlier, (tree, earlier) ∈ queue.pending ∧ earlier.kind = event.kind ∧
    earlier.samePlace event = true

theorem mem_of_latest? {found : Tree × Event} (h : queue.latest? tree event = some found) :
    found ∈ queue.pending ∧ found.1 = tree ∧ found.2.samePlace event = true := by
  have hfound := List.find?_some h
  rw [Bool.and_eq_true, decide_eq_true_iff] at hfound
  exact ⟨List.mem_reverse.1 (List.mem_of_find?_eq_some h), hfound⟩

-- An event is dropped only where another one stands for it.
theorem pending_push (queue : EventQueue) (now : Nat) (tree : Tree) (event : Event) :
    (queue.push now tree event).pending = queue.pending ++ [(tree, event)] ∨
      (queue.push now tree event).pending = queue.pending ∧ queue.Holds tree event := by
  unfold push
  split
  · next h =>
    refine .inr ⟨rfl, ?_⟩
    cases hlatest : queue.latest? tree event with
    | none =>
        rw [hlatest] at h
        cases h
    | some found =>
        obtain ⟨hmem, rfl, hplace⟩ := mem_of_latest? hlatest
        rw [hlatest, Option.any_some, decide_eq_true_iff] at h
        exact ⟨found.2, hmem, h, hplace⟩
  · exact .inl rfl

-- What waits after a number of events: what has waited before, and some of the events, such that
-- each of them is stood for.
theorem pending_pushEach (queue : EventQueue) (timed : List (Nat × Tree × Event)) :
    ∃ kept, (queue.pushEach timed).pending = queue.pending ++ kept ∧
      kept.Sublist (timed.map (·.2)) ∧
      ∀ entry ∈ timed.map (·.2), (queue.pushEach timed).Holds entry.1 entry.2 := by
  induction timed generalizing queue with
  | nil => exact ⟨[], (List.append_nil _).symm, .slnil, by simp⟩
  | cons first rest ih =>
      obtain ⟨kept, hpending, hkept, hholds⟩ := ih (queue.push first.1 first.2.1 first.2.2)
      have hmore : (queue.pushEach (first :: rest)).pending =
          (queue.push first.1 first.2.1 first.2.2).pending ++ kept := hpending
      have hall (hfirst : (queue.pushEach (first :: rest)).Holds first.2.1 first.2.2) :
          ∀ entry ∈ (first :: rest).map (·.2),
            (queue.pushEach (first :: rest)).Holds entry.1 entry.2 := by
        intro entry hmem
        rcases List.mem_cons.1 hmem with rfl | hmem
        · exact hfirst
        · exact hholds entry hmem
      rcases queue.pending_push first.1 first.2.1 first.2.2 with hpush | ⟨hpush, hheld⟩
      · rw [hpush, List.append_assoc] at hmore
        refine ⟨first.2 :: kept, hmore, hkept.cons_cons _, hall ⟨first.2.2, ?_, rfl, ?_⟩⟩
        · rw [hmore]
          simp
        · simp [Event.samePlace, Path.same]
      · rw [hpush] at hmore
        obtain ⟨earlier, hmem, hsame⟩ := hheld
        refine ⟨kept, hmore, hkept.cons _, hall ⟨earlier, ?_, hsame⟩⟩
        rw [hmore]
        exact List.mem_append_left _ hmem

-- Nothing waits in a new queue but what is pushed.
theorem pending_sublist (timed : List (Nat × Tree × Event)) :
    (empty.pushEach timed).pending.Sublist (timed.map (·.2)) := by
  obtain ⟨kept, hpending, hkept, -⟩ := empty.pending_pushEach timed
  rw [hpending]
  exact hkept

end StaticSite.EventQueue
