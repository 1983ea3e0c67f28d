import StaticSite.Proofs.Watch.Queue

-- However a platform tells of a rename, the same events wait for it.
namespace StaticSite

-- The ways in which it can be told that `old` has become `new`: at once, by its halves, by its
-- halves and then at once, or by two notices that do not say which half they are.
inductive Notice.Renames (old new : Path) : List (Notice × List Path) → Prop where
  | whole : Renames old new [(.renamedBoth, [old, new])]
  | halves : Renames old new [(.renamedFrom, [old]), (.renamedTo, [new])]
  | halvesAndWhole : Renames old new
      [(.renamedFrom, [old]), (.renamedTo, [new]), (.renamedBoth, [old, new])]
  | unpaired : Renames old new [(.renamed, [old]), (.renamed, [new])]

-- The events that a number of notices stand for, when the disk is as it is now.
def Event.ofNotices (disk : Disk) (notices : List (Notice × List Path)) : List Event :=
  notices.flatMap fun (notice, paths) => ofNotice disk notice paths

-- On a disk where the rename has been done, every way of telling stands for a removal and an
-- addition, which can come twice.
theorem Notice.Renames.ofNotices_eq {disk : Disk} {old new : Path}
    {notices : List (Notice × List Path)} (h : Renames old new notices)
    (hold : disk.has old = false) (hnew : disk.has new = true) :
    Event.ofNotices disk notices = [⟨.unlink, old⟩, ⟨.add, new⟩] ∨
      Event.ofNotices disk notices =
        [⟨.unlink, old⟩, ⟨.add, new⟩, ⟨.unlink, old⟩, ⟨.add, new⟩] := by
  cases h with
  | whole => exact .inl rfl
  | halves => exact .inl rfl
  | halvesAndWhole => exact .inr rfl
  | unpaired => exact .inl (by simp [Event.ofNotices, Event.ofNotice, hold, hnew])

namespace EventQueue

variable {queue : EventQueue} {now : Nat} {tree : Tree} {event other : Event}

-- Whether an event repeats the latest one of its place that is pending.
def repeated (queue : EventQueue) (tree : Tree) (event : Event) : Bool :=
  (queue.latest? tree event).any fun latest => latest.2.kind = event.kind

-- What an event adds to the pending ones.
def addition (queue : EventQueue) (tree : Tree) (event : Event) : List (Tree × Event) :=
  if queue.repeated tree event then [] else [(tree, event)]

theorem pending_push_eq (queue : EventQueue) (now : Nat) (tree : Tree) (event : Event) :
    (queue.push now tree event).pending = queue.pending ++ queue.addition tree event := by
  unfold push addition repeated
  split
  · exact (List.append_nil _).symm
  · rfl

-- A push says what its event says, whether the event is kept or not.
theorem repeated_push (queue : EventQueue) (now : Nat) (tree : Tree) (event : Event) :
    (queue.push now tree event).repeated tree event = true := by
  unfold push
  split
  · next h => exact h
  · simp [repeated, latest?, Event.samePlace, Path.same]

-- A push says nothing of other places.
theorem latest?_push_of_ne (h : other.samePlace event = false) :
    (queue.push now tree other).latest? tree event = queue.latest? tree event := by
  unfold push
  split
  · rfl
  · simp [latest?, h]

theorem repeated_push_of_ne (h : other.samePlace event = false) :
    (queue.push now tree other).repeated tree event = queue.repeated tree event := by
  rw [repeated, latest?_push_of_ne h, repeated]

theorem pending_push_of_repeated (h : queue.repeated tree event = true) :
    (queue.push now tree event).pending = queue.pending := by
  rw [pending_push_eq, addition, if_pos h, List.append_nil]

-- Two events of different places, pushed one after the other, and what they say then.
theorem push_push (queue : EventQueue) (first second : Nat) (tree : Tree)
    (hevent : other.samePlace event = false) (hother : event.samePlace other = false) :
    ((queue.push first tree other).push second tree event).pending =
        queue.pending ++ queue.addition tree other ++ queue.addition tree event ∧
      ((queue.push first tree other).push second tree event).repeated tree other = true ∧
      ((queue.push first tree other).push second tree event).repeated tree event = true := by
  have hsecond : (queue.push first tree other).addition tree event = queue.addition tree event := by
    rw [addition, addition, repeated_push_of_ne hevent]
  refine ⟨?_, ?_, repeated_push _ second tree event⟩
  · rw [pending_push_eq, pending_push_eq, hsecond]
  · rw [repeated_push_of_ne hother, repeated_push]

-- Pushed once more, they change nothing.
theorem push_push_again (queue : EventQueue) (third fourth : Nat) (tree : Tree)
    (hevent : other.samePlace event = false) (hrepeated : queue.repeated tree other = true)
    (hlater : queue.repeated tree event = true) :
    ((queue.push third tree other).push fourth tree event).pending = queue.pending := by
  rw [← repeated_push_of_ne hevent] at hlater
  rw [pending_push_of_repeated hlater, pending_push_of_repeated hrepeated]

theorem kind_latest?_of_repeated (h : queue.repeated tree event = true) :
    (queue.latest? tree event).map (·.2.kind) = some event.kind := by
  obtain ⟨latest, hlatest, hkind⟩ := Option.any_eq_true _ _ |>.1 h
  rw [hlatest, Option.map_some, of_decide_eq_true hkind]

-- In whatever way a rename is told, and whenever its events come, the removal and the addition
-- wait, unless they repeat what has waited before, and they are the last that is known of the two
-- paths.
theorem pending_of_rename (queue : EventQueue) (tree : Tree) {disk : Disk} {old new : Path}
    (hne : old.same new = false) (hold : disk.has old = false) (hnew : disk.has new = true)
    {notices : List (Notice × List Path)} (hnotices : Notice.Renames old new notices)
    {timed : List (Nat × Tree × Event)}
    (htimed : timed.map (·.2) = (Event.ofNotices disk notices).map (tree, ·)) :
    (queue.pushEach timed).pending =
        queue.pending ++ queue.addition tree ⟨.unlink, old⟩ ++ queue.addition tree ⟨.add, new⟩ ∧
      ((queue.pushEach timed).latest? tree ⟨.unlink, old⟩).map (·.2.kind) = some .unlink ∧
      ((queue.pushEach timed).latest? tree ⟨.add, new⟩).map (·.2.kind) = some .add := by
  have hnew' : Event.samePlace ⟨.unlink, old⟩ ⟨.add, new⟩ = false := hne
  have hold' : Event.samePlace ⟨.add, new⟩ ⟨.unlink, old⟩ = false := by
    simpa [Event.samePlace, Path.same, eq_comm] using hne
  suffices h : (queue.pushEach timed).pending =
      queue.pending ++ queue.addition tree ⟨.unlink, old⟩ ++ queue.addition tree ⟨.add, new⟩ ∧
      (queue.pushEach timed).repeated tree ⟨.unlink, old⟩ = true ∧
      (queue.pushEach timed).repeated tree ⟨.add, new⟩ = true from
    ⟨h.1, kind_latest?_of_repeated h.2.1, kind_latest?_of_repeated h.2.2⟩
  rcases hnotices.ofNotices_eq hold hnew with hevents | hevents
  · simp only [hevents, List.map_cons, List.map_nil, List.map_eq_cons_iff, List.map_eq_nil_iff]
      at htimed
    obtain ⟨⟨first, _⟩, _, rfl, rfl, ⟨second, _⟩, _, rfl, rfl, rfl⟩ := htimed
    exact queue.push_push first second tree hnew' hold'
  · simp only [hevents, List.map_cons, List.map_nil, List.map_eq_cons_iff, List.map_eq_nil_iff]
      at htimed
    obtain ⟨⟨first, _⟩, _, rfl, rfl, ⟨second, _⟩, _, rfl, rfl, ⟨third, _⟩, _, rfl, rfl,
      ⟨fourth, _⟩, _, rfl, rfl, rfl⟩ := htimed
    obtain ⟨hpending, hunlink, hadd⟩ := queue.push_push first second tree hnew' hold'
    obtain ⟨-, hunlink', hadd'⟩ :=
      ((queue.push first tree ⟨.unlink, old⟩).push second tree ⟨.add, new⟩).push_push third fourth
        tree hnew' hold'
    exact ⟨(push_push_again _ third fourth tree hnew' hunlink hadd).trans hpending, hunlink', hadd'⟩

-- A page has been renamed, and the queue knows that the old one is gone and that the new one has
-- been there and is gone. The rename is told by its halves and then at once, with the paths spelt
-- in different ways.
theorem pending_of_rename_of_halves :
    let disk := (Disk.blank.putDirectory "src" []).putFile "b.html" ["src"] .empty
    let queue : EventQueue := ⟨[(.source, ⟨.unlink, ⟨"/src/a.html"⟩⟩),
      (.source, ⟨.add, ⟨"/src/b.html"⟩⟩), (.source, ⟨.unlink, ⟨"/src//b.html"⟩⟩)], some 5⟩
    let timed : List (Nat × Tree × Event) := [(6, .source, ⟨.unlink, ⟨"/src/./a.html"⟩⟩),
      (7, .source, ⟨.add, ⟨"/src/b.html"⟩⟩), (9, .source, ⟨.unlink, ⟨"/src/./a.html"⟩⟩),
      (9, .source, ⟨.add, ⟨"/src/b.html"⟩⟩)]
    Path.same ⟨"/src/./a.html"⟩ ⟨"/src/b.html"⟩ = false ∧ disk.has ⟨"/src/./a.html"⟩ = false ∧
      disk.has ⟨"/src/b.html"⟩ = true ∧
      (queue.pushEach timed).pending = queue.pending ++ [(.source, ⟨.add, ⟨"/src/b.html"⟩⟩)] ∧
      ((queue.pushEach timed).latest? .source ⟨.unlink, ⟨"/src/./a.html"⟩⟩).map (·.2.kind) =
        some .unlink ∧
      ((queue.pushEach timed).latest? .source ⟨.add, ⟨"/src/b.html"⟩⟩).map (·.2.kind) =
        some .add := by
  intro disk queue timed
  obtain ⟨hne, hold, hnew⟩ : Path.same ⟨"/src/./a.html"⟩ ⟨"/src/b.html"⟩ = false ∧
      disk.has ⟨"/src/./a.html"⟩ = false ∧ disk.has ⟨"/src/b.html"⟩ = true := by
    decide +kernel
  obtain ⟨hpending, hlast⟩ :=
    @pending_of_rename queue .source disk _ _ hne hold hnew _ .halvesAndWhole timed rfl
  exact ⟨hne, hold, hnew, hpending.trans (by decide +kernel), hlast⟩

end EventQueue

end StaticSite
