import NfsWire.Proofs.Capture.Reordering

/-!
# What becomes of the items of a reorder buffer

Items go in one at a time, with any numbers, and the buffer may be flushed at any moment. Each item
that went in has then come out once, or is held, or was *displaced*: it was held when another item
of its number went in, and the buffer has one place for each number (`items_accounted`). Nothing
else comes out and nothing else is held.

An item cannot be displaced in another way. Items that come late, the numbers they have being
released or given up, go straight through; and the numbers that are held are all ahead of the next
one to be released (`Sound`), so a late item meets none of them.
-/

namespace NfsWire.Reorder

variable {α : Type}

/-! ## Operations -/

/-- What is done with a buffer. -/
inductive Operation (α : Type) where
  /-- An item of this number goes in. -/
  | push (seq : Nat) (x : α)
  | flush
  deriving DecidableEq, Repr

/-- The buffer after an operation, and what comes out. -/
def act (b : Reorder α) : Operation α → Reorder α × List α
  | .push seq x => b.push seq x
  | .flush => b.flush

/-- The buffer after operations, and what came out at each. -/
def run (b : Reorder α) : List (Operation α) → Reorder α × List (List α)
  | [] => (b, [])
  | op :: rest =>
    let (b, out) := b.act op
    let (b, outs) := b.run rest
    (b, out :: outs)

/-- The item that an operation puts in. -/
def Operation.item? : Operation α → Option α
  | .push _ x => some x
  | .flush => none

/-- The items that are held. -/
def items (b : Reorder α) : List α := b.held.map (·.2)

/-- The held item whose place is taken. -/
def displaced (b : Reorder α) : Operation α → List α
  | .push seq _ => (b.held.filter (·.1 == seq)).map (·.2)
  | .flush => []

/-- All items whose places are taken. -/
def lost (b : Reorder α) : List (Operation α) → List α
  | [] => []
  | op :: rest => b.displaced op ++ (b.act op).1.lost rest

/-! ## Numbers that are held -/

/-- The held items are in order, and ahead of the next one to be released. -/
structure Sound (b : Reorder α) : Prop where
  ascending : Ascending b.held
  above : ∀ p ∈ b.held, ∃ next, b.next = some next ∧ next < p.1

variable {b : Reorder α} {seq : Nat} {held : List (Nat × α)}

theorem Sound.new (first : Option Nat) (window : Nat) :
    (new first window : Reorder α).Sound where
  ascending := .nil
  above := nofun

theorem Sound.started (h : b.Sound) (seq : Nat) :
    ∀ p ∈ b.held, b.next.getD seq < p.1 := by
  intro p hp
  obtain ⟨next, hnext, hlt⟩ := h.above p hp
  rwa [hnext]

/-- What adding an item does. -/
theorem Sound.push_cases (h : b.Sound) (seq : Nat) (x : α) :
    (seq < b.next.getD seq ∧ b.push seq x = ({ b with next := some (b.next.getD seq) }, [x])) ∨
      ∃ taken stop left,
        b.push seq x = ({ b with next := some stop, held := left }, taken.map (·.2)) ∧
          Advance b.window (b.next.getD seq) (hold seq x b.held) taken stop left ∧
          left.length ≤ b.window := by
  by_cases hlate : seq < b.next.getD seq
  · refine .inl ⟨hlate, ?_⟩
    simp only [push, if_pos hlate]
  · right
    have hspec := push_spec (b := { b with next := some (b.next.getD seq) }) x rfl
      (Nat.le_of_not_lt hlate) h.ascending (h.started seq)
    exact hspec

theorem Sound.act (h : b.Sound) (op : Operation α) : (b.act op).1.Sound := by
  cases op with
  | push seq x =>
    show (b.push seq x).1.Sound
    rcases h.push_cases seq x with ⟨-, hpush⟩ | ⟨taken, stop, left, hpush, hadvance, -⟩
    · rw [hpush]
      exact ⟨h.ascending, fun p hp => ⟨_, rfl, h.started seq p hp⟩⟩
    · rw [hpush]
      refine ⟨?_, fun p hp => ⟨stop, rfl, hadvance.above p hp⟩⟩
      exact (List.pairwise_append.mp (hadvance.split ▸ h.ascending.hold)).2.1
  | flush => exact ⟨.nil, nofun⟩

/-! ## Where items are -/

/-- The item that goes in takes the place of the one of its number. -/
theorem hold_perm_displaced (x : α) (h : Ascending held) :
    (hold seq x held ++ held.filter (·.1 == seq)).Perm ((seq, x) :: held) := by
  induction held with
  | nil => exact .refl _
  | cons q rest ih =>
    obtain ⟨hq, hrest⟩ := List.pairwise_cons.mp h
    have hnone (hle : seq ≤ q.1) : rest.filter (·.1 == seq) = [] := by
      refine List.filter_eq_nil_iff.mpr fun p hp heq => ?_
      have hbehind := hq p hp
      rw [beq_iff_eq] at heq
      omega
    simp only [hold]
    split
    next hlt =>
      rw [List.filter_cons_of_neg (by simpa using (Nat.ne_of_lt hlt).symm),
        hnone (Nat.le_of_lt hlt), List.append_nil]
    next hle =>
      split
      next heq =>
        rw [List.filter_cons_of_pos (by simp [heq]), hnone (Nat.le_of_eq heq)]
        exact (List.perm_append_singleton q rest).cons _
      next hne =>
        rw [List.filter_cons_of_neg (by simpa using Ne.symm hne)]
        exact ((ih hrest).cons q).trans (.swap (seq, x) q rest)

/-- **An operation loses nothing but what it displaces.** -/
theorem Sound.act_perm (h : b.Sound) (op : Operation α) :
    ((b.act op).2 ++ (b.act op).1.items ++ b.displaced op).Perm
      (op.item?.toList ++ b.items) := by
  cases op with
  | flush =>
    show (b.items ++ [] ++ []).Perm b.items
    rw [List.append_nil, List.append_nil]
  | push seq x =>
    show ((b.push seq x).2 ++ (b.push seq x).1.items ++ b.displaced (.push seq x)).Perm
      (x :: b.items)
    rcases h.push_cases seq x with ⟨hlate, hpush⟩ | ⟨taken, stop, left, hpush, hadvance, -⟩
    · -- What is held is ahead of an item that comes late.
      have hnone : b.held.filter (·.1 == seq) = [] := by
        refine List.filter_eq_nil_iff.mpr fun p hp heq => ?_
        have habove := h.started seq p hp
        rw [beq_iff_eq] at heq
        omega
      rw [hpush, displaced, hnone, List.map_nil, List.append_nil]
      exact .refl _
    · have hsplit : taken.map (·.2) ++ left.map (·.2) = (hold seq x b.held).map (·.2) := by
        rw [hadvance.split, List.map_append]
      rw [hpush]
      show (taken.map (·.2) ++ left.map (·.2) ++ (b.held.filter (·.1 == seq)).map (·.2)).Perm
        (((seq, x) :: b.held).map (·.2))
      rw [hsplit, ← List.map_append]
      exact (hold_perm_displaced x h.ascending).map _

theorem pushed_cons (op : Operation α) (rest : List (Operation α)) :
    (op :: rest).filterMap Operation.item? = op.item?.toList ++ rest.filterMap Operation.item? := by
  cases op <;> rfl

theorem Sound.run_perm (h : b.Sound) (ops : List (Operation α)) :
    ((b.run ops).2.flatten ++ (b.run ops).1.items ++ b.lost ops).Perm
      (ops.filterMap Operation.item? ++ b.items) := by
  classical
  induction ops generalizing b with
  | nil =>
    show (b.items ++ []).Perm b.items
    rw [List.append_nil]
  | cons op rest ih =>
    -- What the first operation leaves is what the others start from.
    have hfirst := h.act_perm op
    have hthen := ih (h.act op)
    rw [pushed_cons, run, lost, List.flatten_cons]
    rw [List.perm_iff_count] at hfirst hthen ⊢
    intro x
    have hx := hfirst x
    have hx' := hthen x
    simp only [List.count_append] at hx hx' ⊢
    omega

theorem displaced_eq_nil_iff {op : Operation α} :
    b.displaced op = [] ↔ ∀ seq x, op = .push seq x → ∀ p ∈ b.held, p.1 ≠ seq := by
  cases op with
  | push seq x =>
    rw [displaced, List.map_eq_nil_iff, List.filter_eq_nil_iff]
    constructor
    · rintro h _ _ ⟨⟩ p hp
      simpa using h p hp
    · intro h p hp
      simpa using h seq x rfl p hp
  | flush => exact iff_of_true rfl nofun

/-- Nothing is displaced as long as no item goes in while another one of its number is held. -/
theorem lost_eq_nil_iff {ops : List (Operation α)} :
    b.lost ops = [] ↔ ∀ before seq x after, ops = before ++ .push seq x :: after →
      ∀ p ∈ (b.run before).1.held, p.1 ≠ seq := by
  induction ops generalizing b with
  | nil => exact iff_of_true rfl fun before seq x after h => by cases before <;> cases h
  | cons op rest ih =>
    rw [lost, List.append_eq_nil_iff, displaced_eq_nil_iff, ih]
    constructor
    · intro ⟨hfirst, hrest⟩ before seq x after h
      cases before with
      | nil =>
        obtain ⟨rfl, rfl⟩ := List.cons.inj h
        exact hfirst seq x rfl
      | cons op' before =>
        obtain ⟨rfl, hafter⟩ := List.cons.inj h
        exact hrest before seq x after hafter
    · intro h
      refine ⟨?_, fun before seq x after hafter => ?_⟩
      · rintro seq x rfl
        exact h [] seq x rest rfl
      · exact h (op :: before) seq x after (congrArg (op :: ·) hafter)

/-! ## Accounting -/

/-- **Each item that went in has come out once, or is held once, or was displaced**, and nothing
else came out or is held. No item is displaced if none goes in while another one of its number is
held, whatever else their numbers are. -/
theorem items_accounted (first : Option Nat) (window : Nat) (ops : List (Operation α)) :
    let b : Reorder α := new first window
    ((b.run ops).2.flatten ++ (b.run ops).1.items ++ b.lost ops).Perm
        (ops.filterMap Operation.item?) ∧
      (b.lost ops = [] ↔ ∀ before seq x after, ops = before ++ .push seq x :: after →
        ∀ p ∈ (b.run before).1.held, p.1 ≠ seq) := by
  intro b
  have hperm := (Sound.new first window : b.Sound).run_perm ops
  rw [show b.items = [] from rfl, List.append_nil] at hperm
  exact ⟨hperm, lost_eq_nil_iff⟩

/-- Of two items with the number 1 the first is held when the second goes in, and never comes
out. -/
theorem displaced_never_comes_out :
    let ops : List (Operation String) := [.push 1 "a", .push 1 "b", .flush]
    (new (some 0) 8).run ops = ({ next := some 2, held := [], window := 8 }, [[], [], ["b"]]) ∧
      ¬ (((new (some 0) 8).run ops).2.flatten ++ ((new (some 0) 8).run ops).1.items).Perm
        (ops.filterMap Operation.item?) := by
  intro ops
  have hrun : (new (some 0) 8).run ops =
      ({ next := some 2, held := [], window := 8 }, [[], [], ["b"]]) := by decide +kernel
  refine ⟨hrun, ?_⟩
  rw [hrun]
  decide

end NfsWire.Reorder
