import NfsWire.Proofs.Capture.Reordering
import NfsWire.Proofs.Guarded.Reader

/-!
# A guarded reorder buffer

A buffer counts on from the numbers of the items it lets go, and a number is one word. It never
counts on from anything but an item that it holds, so it stays within words as long as the number
after each held item does (`Reorder.Countable`). What asks for no more is that items are let go off
the front: what is left was held before.
-/

namespace NfsWire

variable {α : Type}

/-- Each held item has a number after it. -/
def Reorder.Countable (b : Reorder α) : Prop := ∀ p ∈ b.held, p.1 + 1 < UInt64.size

namespace Guarded

/-- The items with the numbers `next`, `next + 1` and so on, the number after them, and the
items left. -/
def consecutive : (next : Nat) → List (Nat × α) → Option (List α × Nat × List (Nat × α))
  | next, [] => some ([], next, [])
  | next, (s, x) :: rest =>
    if s = next then do
      let (out, n, left) ← consecutive (← word (next + 1)) rest
      return (x :: out, n, left)
    else some ([], next, (s, x) :: rest)

/-- While more items are held than fit the window, give up the numbers before the first and
release from there. It comes to an end within `fuel` times. -/
def giveUp (window : Nat) : (fuel next : Nat) → List (Nat × α) →
    Option (List α × Nat × List (Nat × α))
  | 0, _, _ => none
  | _ + 1, next, [] => some ([], next, [])
  | fuel + 1, next, (s, x) :: rest =>
    if window < rest.length + 1 then do
      let (out, n, left) ← consecutive (← word (s + 1)) rest
      let (more, n, left) ← giveUp window fuel n left
      return (x :: out ++ more, n, left)
    else some ([], next, (s, x) :: rest)

/-- Add an item. The answer has the items that are in order now. -/
def push (b : Reorder α) (seq : Nat) (x : α) : Option (Reorder α × List α) :=
  let next := b.next.getD seq
  if seq < next then some ({ b with next := some next }, [x])
  else do
    let (out, n, held) ← consecutive next (Reorder.hold seq x b.held)
    let (more, n, held) ← giveUp b.window (held.length + 1) n held
    return ({ b with next := some n, held }, out ++ more)

/-- All held items in order. What is missing before them is given up. -/
def flush (b : Reorder α) : Option (Reorder α × List α) :=
  let out := b.held.map (·.2)
  match b.held.getLast? with
  | none => some ({ b with held := [] }, out)
  | some (last, _) => do return ({ b with next := some (← word (last + 1)), held := [] }, out)

end Guarded

/-! ## What is left was held -/

namespace Reorder

variable {window next seq fuel : Nat} {x : α} {held : List (Nat × α)} {b : Reorder α}

theorem consecutive_suffix (next : Nat) (held : List (Nat × α)) :
    (consecutive next held).2.2 <:+ held := by
  induction held generalizing next with
  | nil => exact List.suffix_refl _
  | cons p rest ih =>
    unfold consecutive
    split
    · exact (ih _).trans (List.suffix_cons ..)
    · exact List.suffix_refl _

theorem giveUp_suffix (window next : Nat) (held : List (Nat × α)) :
    (giveUp window next held).2.2 <:+ held := by
  fun_induction giveUp window next held with
  | case1 next => exact List.suffix_refl _
  | case2 next s x rest hfull out n left hleft ih =>
    rw [hleft] at ih
    have hrest := ih.trans (consecutive_suffix (s + 1) rest)
    exact hrest.trans (List.suffix_cons ..)
  | case3 next s x rest hfits => exact List.suffix_refl _

theorem countable_hold (h : b.Countable) (hseq : seq + 1 < UInt64.size) :
    ∀ p ∈ hold seq x b.held, p.1 + 1 < UInt64.size := by
  intro p hp
  rcases mem_hold hp with rfl | hp
  · exact hseq
  · exact h p hp

theorem Countable.new (first : Option Nat) (window : Nat) :
    (Reorder.new first window : Reorder α).Countable := nofun

theorem Countable.push (h : b.Countable) (hseq : seq + 1 < UInt64.size) (x : α) :
    (b.push seq x).1.Countable := by
  unfold Reorder.push
  dsimp only
  split
  · exact h
  · intro p hp
    have hleft := (giveUp_suffix ..).subset hp
    exact countable_hold h hseq p ((consecutive_suffix ..).subset hleft)

theorem Countable.flush (b : Reorder α) : b.flush.1.Countable := nofun

end Reorder

/-! ## The numbers are words -/

namespace Guarded

variable {window next seq fuel : Nat} {held : List (Nat × α)} {b : Reorder α}

theorem consecutive_eq (h : ∀ p ∈ held, p.1 + 1 < UInt64.size) (next : Nat) :
    consecutive next held = some (Reorder.consecutive next held) := by
  induction held generalizing next with
  | nil => rfl
  | cons p rest ih =>
    obtain ⟨hp, hrest⟩ := List.forall_mem_cons.mp h
    rw [consecutive, Reorder.consecutive]
    split
    next hnext =>
      rw [word_of_lt (hnext ▸ hp)]
      simp only [Option.bind_eq_bind, Option.bind_some, ih hrest]
      rfl
    next => rfl

/-- Each time there is one held item fewer at least, so giving up comes to an end. -/
theorem giveUp_eq (h : ∀ p ∈ held, p.1 + 1 < UInt64.size) (hfuel : held.length < fuel)
    (window next : Nat) :
    giveUp window fuel next held = some (Reorder.giveUp window next held) := by
  induction fuel generalizing next held with
  | zero => omega
  | succ fuel ih =>
    cases held with
    | nil =>
      rw [giveUp, Reorder.giveUp]
    | cons p rest =>
      obtain ⟨s, x⟩ := p
      obtain ⟨hp, hrest⟩ := List.forall_mem_cons.mp h
      rw [giveUp, Reorder.giveUp]
      split
      · have hleft := Reorder.consecutive_suffix (s + 1) rest
        have hlength := hleft.length_le
        rw [List.length_cons] at hfuel
        rw [word_of_lt hp]
        simp only [Option.bind_eq_bind, Option.bind_some, consecutive_eq hrest]
        rw [ih (fun q hq => hrest q (hleft.subset hq)) (by omega)]
        rfl
      · rfl

/-- **Counting on stays within words**, whatever is added. -/
theorem push_eq (h : b.Countable) (hseq : seq + 1 < UInt64.size) (x : α) :
    push b seq x = some (b.push seq x) := by
  unfold push Reorder.push
  dsimp only
  split
  · rfl
  · have hheld := Reorder.countable_hold (x := x) h hseq
    have hleft := Reorder.consecutive_suffix (b.next.getD seq) (Reorder.hold seq x b.held)
    simp only [consecutive_eq hheld, Option.bind_eq_bind, Option.bind_some]
    rw [giveUp_eq (fun p hp => hheld p (hleft.subset hp)) (Nat.lt_succ_self _)]
    rfl

theorem flush_eq (h : b.Countable) : flush b = some b.flush := by
  unfold flush Reorder.flush
  cases hlast : b.held.getLast? with
  | none => rfl
  | some last =>
    dsimp only
    rw [word_of_lt (h last (List.mem_of_getLast? hlast))]
    rfl

end Guarded

end NfsWire
