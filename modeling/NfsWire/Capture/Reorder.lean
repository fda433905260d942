/-!
# Putting items back in order

Items arrive with sequence numbers, not quite in order. The buffer releases an item when all
before it were released or given up. It holds at most a window of items: when one more is
held than fits, the numbers missing before the first held item are given up.

**Late items.** An item whose number was released or given up already is returned at once and
alone. An item whose number is held already takes the place of the held one.
-/

namespace NfsWire

/-- Items that wait for those before them. -/
structure Reorder (α : Type) where
  /-- The number to be released next, or none before the first item of a buffer that starts
  wherever its items do. -/
  next : Option Nat
  /-- Held items in the order of their numbers. -/
  held : List (Nat × α)
  /-- The most items that are held. -/
  window : Nat
  deriving DecidableEq, Repr

namespace Reorder

variable {α : Type}

/-- A buffer that starts at number `first`, or at the first item's number if there is none. -/
def new (first : Option Nat) (window : Nat) : Reorder α :=
  { next := first, held := [], window := max window 1 }

/-- The number of held items. -/
def length (b : Reorder α) : Nat := b.held.length

def isEmpty (b : Reorder α) : Bool := b.held.isEmpty

/-- Put an item in its place, instead of the one of its number. -/
def hold (seq : Nat) (x : α) : List (Nat × α) → List (Nat × α)
  | [] => [(seq, x)]
  | (s, y) :: rest =>
    if seq < s then (seq, x) :: (s, y) :: rest
    else if seq = s then (seq, x) :: rest
    else (s, y) :: hold seq x rest

/-- The items with the numbers `next`, `next + 1` and so on, the number after them, and the
items left. -/
def consecutive : (next : Nat) → List (Nat × α) → List α × Nat × List (Nat × α)
  | next, [] => ([], next, [])
  | next, (s, x) :: rest =>
    if s = next then
      let (out, n, left) := consecutive (next + 1) rest
      (x :: out, n, left)
    else ([], next, (s, x) :: rest)

theorem length_consecutive (next : Nat) (held : List (Nat × α)) :
    (consecutive next held).2.2.length ≤ held.length := by
  induction held generalizing next with
  | nil => simp [consecutive]
  | cons p rest ih =>
    unfold consecutive
    split
    · exact Nat.le_succ_of_le (ih _)
    · exact Nat.le_refl _

/-- While more items are held than fit the window, give up the numbers before the first and
release from there. -/
def giveUp (window : Nat) : (next : Nat) → List (Nat × α) → List α × Nat × List (Nat × α)
  | next, [] => ([], next, [])
  | next, (s, x) :: rest =>
    if window < rest.length + 1 then
      let (out, n, left) := giveUp window (consecutive (s + 1) rest).2.1
        (consecutive (s + 1) rest).2.2
      (x :: (consecutive (s + 1) rest).1 ++ out, n, left)
    else ([], next, (s, x) :: rest)
termination_by _ held => held.length
decreasing_by
  have := length_consecutive (s + 1) rest
  simp only [List.length_cons]
  omega

/-- Add an item. The answer has the items that are in order now. -/
def push (b : Reorder α) (seq : Nat) (x : α) : Reorder α × List α :=
  let next := b.next.getD seq
  if seq < next then ({ b with next := some next }, [x])
  else
    let (out, n, held) := consecutive next (hold seq x b.held)
    let (more, n, held) := giveUp b.window n held
    ({ b with next := some n, held }, out ++ more)

/-- All held items in order. What is missing before them is given up. -/
def flush (b : Reorder α) : Reorder α × List α :=
  ({ b with
      next := (b.held.getLast?.map (·.1 + 1)).or b.next
      held := [] },
    b.held.map (·.2))

end Reorder

end NfsWire
