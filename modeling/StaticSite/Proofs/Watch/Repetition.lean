import Mathlib.Data.List.Induction
import StaticSite.Proofs.Watch.Queue

-- Which events a queue leaves out, told by all events that have come before.
namespace StaticSite

theorem Path.normalize_eq_of_same {left right : Path} (h : left.same right = true) :
    left.normalize = right.normalize := by
  rw [same, decide_eq_true_iff] at h
  rw [normalize, normalize, normalComponents, normalComponents, h]

namespace Event

-- An event that says the same of the same place of the same tree.
def Repeats (other entry : Tree × Event) : Prop :=
  other.1 = entry.1 ∧ other.2.kind = entry.2.kind ∧ other.2.samePlace entry.2 = true

instance (other entry : Tree × Event) : Decidable (Repeats other entry) := by
  unfold Repeats; infer_instance

-- An event of the same place of the same tree.
def alike (entry other : Tree × Event) : Bool :=
  other.1 = entry.1 && other.2.samePlace entry.2

-- What has come since the last event of the same place, if that one is of the same kind. The
-- events that have come before are given with the latest one first.
def since? (entry : Tree × Event) : List (Tree × Event) → Option (List (Tree × Event))
  | [] => none
  | other :: earlier =>
    if alike entry other then if other.2.kind = entry.2.kind then some [] else none
    else (since? entry earlier).map (other :: ·)

-- The events that say again what the last event of the same place has said, each with what has
-- come in between. The events are given with the latest one first.
def repetitions : List (Tree × Event) → List (List (Tree × Event) × Tree × Event)
  | [] => []
  | entry :: earlier =>
    ((since? entry earlier).map fun between => (between, entry)).toList ++ repetitions earlier

variable {entry other : Tree × Event} {earlier between : List (Tree × Event)}

theorem alike_eq (h : alike entry other = true) : alike other = alike entry := by
  rw [alike, Bool.and_eq_true, decide_eq_true_iff, samePlace, Path.same, decide_eq_true_iff] at h
  funext next
  simp only [alike, samePlace, Path.same, h]

theorem exists_of_since? (h : since? entry earlier = some between) :
    ∃ twin rest, earlier = between ++ twin :: rest ∧ Repeats twin entry := by
  induction earlier generalizing between with
  | nil => cases h
  | cons other earlier ih =>
      rw [since?] at h
      split at h
      · next halike =>
        rw [alike, Bool.and_eq_true, decide_eq_true_iff] at halike
        split at h
        · next hkind =>
          cases h
          exact ⟨other, earlier, rfl, halike.1, hkind, halike.2⟩
        · cases h
      · obtain ⟨before, hbefore, rfl⟩ := Option.map_eq_some_iff.1 h
        obtain ⟨twin, rest, rfl, htwin⟩ := ih hbefore
        exact ⟨twin, rest, rfl, htwin⟩

theorem isSome_since? : (since? entry earlier).isSome =
    (earlier.find? (alike entry)).any fun last => last.2.kind = entry.2.kind := by
  induction earlier with
  | nil => rfl
  | cons other earlier ih =>
      rw [since?, List.find?_cons]
      cases alike entry other with
      | true => by_cases hkind : other.2.kind = entry.2.kind <;> simp [hkind]
      | false => simpa using ih

end Event

namespace EventQueue

variable {timed : List (Nat × Tree × Event)}

theorem pushEach_concat (queue : EventQueue) (timed : List (Nat × Tree × Event))
    (last : Nat × Tree × Event) : queue.pushEach (timed ++ [last]) =
      (queue.pushEach timed).push last.1 last.2.1 last.2.2 := by
  induction timed generalizing queue with
  | nil => rfl
  | cons first rest ih => exact ih _

theorem latest?_eq (queue : EventQueue) (entry : Tree × Event) :
    queue.latest? entry.1 entry.2 = queue.pending.reverse.find? (Event.alike entry) := rfl

-- The latest pending event of a place is of the same kind as the latest one of all.
theorem kind_latest? (timed : List (Nat × Tree × Event)) (entry : Tree × Event) :
    ((empty.pushEach timed).latest? entry.1 entry.2).map (·.2.kind) =
      ((timed.map (·.2)).reverse.find? (Event.alike entry)).map (·.2.kind) := by
  induction timed using List.reverseRecOn generalizing entry with
  | nil => rfl
  | append_singleton timed last ih =>
      rw [pushEach_concat, List.map_append, List.map_singleton, List.reverse_concat,
        List.find?_cons, push]
      split
      · next hdropped =>
        -- The last event is not pending, but another one that says the same.
        have hlatest : ((empty.pushEach timed).latest? last.2.1 last.2.2).map (·.2.kind) =
            some last.2.2.kind := by
          cases hfound : (empty.pushEach timed).latest? last.2.1 last.2.2 with
          | none => simp [hfound] at hdropped
          | some found => simpa [hfound] using hdropped
        cases halike : Event.alike entry last.2 with
        | false => exact ih entry
        | true =>
            rw [latest?_eq, Event.alike_eq halike] at hlatest
            exact hlatest
      · rw [latest?_eq, List.reverse_concat, List.find?_cons]
        cases Event.alike entry last.2 with
        | false => exact ih entry
        | true => rfl

-- The queue leaves out an event that repeats the latest one of the same place, whether that one is
-- pending or left out itself.
theorem pending_pushEach_concat (timed : List (Nat × Tree × Event)) (last : Nat × Tree × Event) :
    (empty.pushEach (timed ++ [last])).pending =
      if (Event.since? last.2 (timed.map (·.2)).reverse).isSome then
        (empty.pushEach timed).pending else (empty.pushEach timed).pending ++ [last.2] := by
  have hkind := kind_latest? timed last.2
  have hany : ((empty.pushEach timed).latest? last.2.1 last.2.2).any
      (fun found => found.2.kind = last.2.2.kind) =
        (Event.since? last.2 (timed.map (·.2)).reverse).isSome := by
    rw [Event.isSome_since?]
    have hmap : ∀ found : Option (Tree × Event), found.any (fun found => found.2.kind = last.2.2.kind) =
        (found.map (·.2.kind)).any fun kind => kind = last.2.2.kind := by
      rintro (_ | found) <;> rfl
    rw [hmap, hmap, hkind]
  rw [pushEach_concat, push, ← hany]
  split <;> rfl

end EventQueue

end StaticSite
