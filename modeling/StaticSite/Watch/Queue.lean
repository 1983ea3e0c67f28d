import StaticSite.Progress
import StaticSite.Watch.Event

namespace StaticSite

-- The events that wait for the trees to be quiet, the oldest first, and the moment of the
-- last one. Moments are in milliseconds.
structure EventQueue where
  pending : List (Tree × Event)
  last : Option Nat
deriving DecidableEq, Repr

namespace EventQueue

-- How long the trees have to be quiet before their events are handled.
def quietPeriod : Nat := 100

def empty : EventQueue := ⟨[], none⟩

def isEmpty (queue : EventQueue) : Bool :=
  queue.pending.isEmpty

-- The latest pending event of the same tree and path.
def latest? (queue : EventQueue) (tree : Tree) (event : Event) : Option (Tree × Event) :=
  queue.pending.reverse.find? fun (other, earlier) => other = tree && earlier.samePlace event

-- An event is dropped if the latest one of its path is of the same kind.
-- Dropped or not, it disturbs the quiet.
def push (queue : EventQueue) (now : Nat) (tree : Tree) (event : Event) : EventQueue :=
  if (queue.latest? tree event).any fun (_, earlier) => earlier.kind = event.kind then
    { queue with last := some now }
  else ⟨queue.pending ++ [(tree, event)], some now⟩

-- Whether there is something to handle and nothing has come for as long as `quiet`.
def isDue (queue : EventQueue) (now quiet : Nat) : Bool :=
  queue.last.any fun moment => !queue.isEmpty && quiet ≤ now - moment

-- The pending events, and the queue without them.
def take (queue : EventQueue) : List (Tree × Event) × EventQueue :=
  (queue.pending, empty)

end EventQueue

end StaticSite
