import Mathlib.Logic.Relation
import NfsWire.Proofs.Capture.Comparison
import NfsWire.Proofs.Capture.Holding

/-!
# Items in turn

Items of any numbers go into a reorder buffer, and it may be flushed at any moment. What is held is
then always ahead of the next number, and never more than fits (`Orderly`). The next number moves by
releasing items, by giving up on missing ones and by a flush, and only ever onward.

An item that is behind the next number goes straight through. All others come out in turn: an
operation lets items go that are at the next number or ahead of it, and leaves the next number
ahead of them (`LetsGo`), so over a run the numbers go up (`inTurn_ascending`). The buffer hands out
items and not their numbers. To speak of these, each item is labelled with its number when it goes
in, which makes no difference to what comes out (`inTurn_labelled`).

Adding an item is a loop within a loop. `Loop.Turn` has the turns of both: no row of turns goes on
for ever (`Loop.wellFounded_turn`), and where no turn is left the buffer has what it lets go and
what it keeps (`Sound.push_turns`).
-/

namespace NfsWire.Reorder

open Relation (ReflTransGen)

variable {α : Type} {seq next window limit : Nat} {x : α} {b : Reorder α}
  {held taken : List (Nat × α)} {out : List α}

/-! ## What is held -/

/-- Whether an operation puts in an item whose number was released or given up. -/
def isLate (b : Reorder α) : Operation α → Bool
  | .push seq _ => b.next.any (seq < ·)
  | .flush => false

/-- What is held is in order, ahead of the next number, and no more than fits. -/
structure Orderly (limit : Nat) (b : Reorder α) : Prop where
  sound : b.Sound
  window_eq : b.window = limit
  fits : b.held.length ≤ limit

theorem Orderly.new (first : Option Nat) (window : Nat) :
    (new first window : Reorder α).Orderly (max window 1) where
  sound := .new first window
  window_eq := rfl
  fits := Nat.zero_le _

theorem isLate_push_iff :
    b.isLate (.push seq x) = true ↔ ∃ next, b.next = some next ∧ seq < next := by
  cases hnext : b.next <;> simp [isLate, hnext]

/-- An item that is not late is at the next number or ahead of it. -/
theorem getD_next_le (hlate : b.isLate (.push seq x) = false) : b.next.getD seq ≤ seq := by
  cases hnext : b.next with
  | none => exact Nat.le_refl _
  | some next =>
    refine Nat.le_of_not_lt fun hbehind => ?_
    rw [isLate_push_iff.mpr ⟨next, hnext, hbehind⟩] at hlate
    cases hlate

theorem push_late (hnext : b.next = some next) (hlate : seq < next) (x : α) :
    b.push seq x = (b, [x]) := by
  simp only [push, hnext, Option.getD_some, if_pos hlate]
  rw [← hnext]

/-- What adding an item does, if it is not late. -/
theorem Sound.push_onTime (h : b.Sound) (hlate : b.isLate (.push seq x) = false) :
    ∃ taken stop left,
      b.push seq x = ({ b with next := some stop, held := left }, taken.map (·.2)) ∧
        Advance b.window (b.next.getD seq) (hold seq x b.held) taken stop left ∧
        left.length ≤ b.window := by
  rcases h.push_cases seq x with ⟨hbehind, -⟩ | honTime
  · exact absurd hbehind (Nat.not_lt_of_le (getD_next_le hlate))
  · exact honTime

/-- **No operation leaves more than fits**, or anything that is not ahead. -/
theorem Orderly.act (h : b.Orderly limit) (op : Operation α) : (b.act op).1.Orderly limit := by
  have hsound := h.sound.act op
  cases op with
  | flush => exact ⟨hsound, h.window_eq, Nat.zero_le _⟩
  | push seq x =>
    show (b.push seq x).1.Orderly limit
    cases hlate : b.isLate (.push seq x) with
    | true =>
      obtain ⟨next, hnext, hbehind⟩ := isLate_push_iff.mp hlate
      rw [push_late hnext hbehind]
      exact h
    | false =>
      obtain ⟨taken, stop, left, hpush, -, hfits⟩ := h.sound.push_onTime hlate
      refine ⟨hsound, ?_, ?_⟩
      · rw [hpush]
        exact h.window_eq
      · rw [hpush]
        exact h.window_eq ▸ hfits

theorem Orderly.run (h : b.Orderly limit) (ops : List (Operation α)) :
    (b.run ops).1.Orderly limit := by
  induction ops generalizing b with
  | nil => exact h
  | cons op rest ih => exact ih (h.act op)

/-! ## What goes out -/

/-- What an operation lets go in turn, with its numbers. -/
structure LetsGo (b : Reorder α) (op : Operation α) (taken : List (Nat × α)) : Prop where
  out : (b.act op).2 = taken.map (·.2)
  ascending : Ascending taken
  origin : ∀ p ∈ taken, p ∈ b.held ∨ op = .push p.1 p.2
  from_next : ∀ next, b.next = some next → ∀ p ∈ taken, next ≤ p.1
  below : ∀ p ∈ taken, ∃ stop, (b.act op).1.next = some stop ∧ p.1 < stop

/-- The last of the held items is the farthest one. -/
theorem Ascending.le_getLast {p q : Nat × α} (h : Ascending held) (hp : p ∈ held)
    (hlast : held.getLast? = some q) : p.1 ≤ q.1 := by
  obtain ⟨front, rfl⟩ := List.getLast?_eq_some_iff.mp hlast
  rcases List.mem_append.mp hp with hp | hp
  · exact Nat.le_of_lt ((List.pairwise_append.mp h).2.2 p hp q List.mem_cons_self)
  · exact Nat.le_of_eq (congrArg (·.1) (List.mem_singleton.mp hp))

theorem Sound.letsGo_flush (h : b.Sound) : b.LetsGo .flush b.held where
  out := rfl
  ascending := h.ascending
  origin p hp := .inl hp
  from_next next hnext p hp := by
    obtain ⟨next', hnext', hlt⟩ := h.above p hp
    rw [hnext] at hnext'
    cases hnext'
    exact Nat.le_of_lt hlt
  below p hp := by
    have hsome : b.held ≠ [] := List.ne_nil_of_mem hp
    have hlast := List.getLast?_eq_some_getLast hsome
    refine ⟨(b.held.getLast hsome).1 + 1, ?_, Nat.lt_succ_of_le (h.ascending.le_getLast hp hlast)⟩
    show (b.held.getLast?.map (·.1 + 1)).or b.next = _
    rw [hlast]
    rfl

/-- **An operation lets items go in turn**, unless it puts in one that is late. -/
theorem Sound.exists_letsGo (h : b.Sound) {op : Operation α} (hlate : b.isLate op = false) :
    ∃ taken, b.LetsGo op taken := by
  cases op with
  | flush => exact ⟨_, h.letsGo_flush⟩
  | push seq x =>
    obtain ⟨taken, stop, left, hpush, hadvance, -⟩ := h.push_onTime hlate
    have horigin : ∀ p ∈ taken, p = (seq, x) ∨ p ∈ b.held := fun p hp =>
      mem_hold (hadvance.split ▸ List.mem_append_left left hp)
    have hordered : Ascending (taken ++ left) := hadvance.split ▸ h.ascending.hold
    refine ⟨taken, ?_, (List.pairwise_append.mp hordered).1, ?_, ?_, fun p hp => ⟨stop, ?_, ?_⟩⟩
    · show (b.push seq x).2 = _
      rw [hpush]
    · intro p hp
      rcases horigin p hp with rfl | hheld
      · exact .inr rfl
      · exact .inl hheld
    · intro next hnext p hp
      rcases horigin p hp with rfl | hheld
      · simpa [hnext] using getD_next_le hlate
      · exact h.letsGo_flush.from_next next hnext p hheld
    · show (b.push seq x).1.next = _
      rw [hpush]
    · exact hadvance.below p hp

/-- The next number never goes back. -/
theorem Sound.next_le_act (h : b.Sound) (op : Operation α) (hnext : b.next = some next) :
    ∃ stop, (b.act op).1.next = some stop ∧ next ≤ stop := by
  cases op with
  | flush =>
    show ∃ stop, (b.held.getLast?.map (·.1 + 1)).or b.next = some stop ∧ next ≤ stop
    cases hlast : b.held.getLast? with
    | none => exact ⟨next, hnext, Nat.le_refl _⟩
    | some last =>
      have hfrom := h.letsGo_flush.from_next next hnext last (List.mem_of_getLast? hlast)
      exact ⟨_, rfl, Nat.le_succ_of_le hfrom⟩
  | push seq x =>
    show ∃ stop, (b.push seq x).1.next = some stop ∧ next ≤ stop
    rcases h.push_cases seq x with ⟨-, hpush⟩ | ⟨taken, stop, left, hpush, hadvance, -⟩
    · rw [hpush, hnext]
      exact ⟨next, rfl, Nat.le_refl _⟩
    · rw [hpush]
      exact ⟨stop, rfl, by simpa [hnext] using hadvance.le⟩

/-! ## Labels -/

/-- An operation that puts in the item together with its number. -/
def Operation.labelled : Operation α → Operation (Nat × α)
  | .push seq x => .push seq (seq, x)
  | .flush => .flush

/-- All that operations let go in turn, which leaves out late items. -/
def inTurn (b : Reorder α) : List (Operation α) → List α
  | [] => []
  | op :: rest => (if b.isLate op then [] else (b.act op).2) ++ (b.act op).1.inTurn rest

/-- Each item that is held has its number as its label. -/
def Labelled (b : Reorder (Nat × α)) : Prop := ∀ p ∈ b.held, p.2.1 = p.1

/-- The item is the other one without its label. -/
def Unlabelled (x : α) (y : Nat × α) : Prop := x = y.2

section Labels

variable {b' : Reorder (Nat × α)}

theorem Labelled.act (h : b'.Sound) (hlabels : b'.Labelled) (op : Operation α) :
    (b'.act op.labelled).1.Labelled := by
  cases op with
  | flush => exact nofun
  | push seq x =>
    show (b'.push seq (seq, x)).1.Labelled
    rcases h.push_cases seq (seq, x) with ⟨-, hpush⟩ | ⟨taken, stop, left, hpush, hadvance, -⟩
    · rw [hpush]
      exact hlabels
    · rw [hpush]
      intro p hp
      rcases mem_hold (hadvance.split ▸ List.mem_append_right taken hp) with rfl | hheld
      · rfl
      · exact hlabels p hheld

/-- What is let go in turn has its numbers as labels. -/
theorem LetsGo.labels {op : Operation α} {taken : List (Nat × Nat × α)}
    (h : b'.LetsGo op.labelled taken) (hlabels : b'.Labelled) :
    ∀ p ∈ taken, p.2.1 = p.1 := by
  intro p hp
  rcases h.origin p hp with hheld | hpushed
  · exact hlabels p hheld
  · cases op with
    | flush => cases hpushed
    | push seq x =>
      obtain ⟨hseq, hitem⟩ := Operation.push.inj hpushed
      rw [← hitem, hseq]

/-- **Over a run the numbers go up**, from the next one on. -/
theorem inTurn_ascending (h : b'.Sound) (hlabels : b'.Labelled) (ops : List (Operation α)) :
    (b'.inTurn (ops.map Operation.labelled)).Pairwise (·.1 < ·.1) ∧
      ∀ next, b'.next = some next → ∀ y ∈ b'.inTurn (ops.map Operation.labelled), next ≤ y.1 := by
  induction ops generalizing b' with
  | nil => exact ⟨.nil, nofun⟩
  | cons op rest ih =>
    obtain ⟨hascending, hfrom⟩ := ih (h.act op.labelled) (hlabels.act h op)
    -- What goes out later is from the next number on that this operation leaves.
    have hlater : ∀ next, b'.next = some next →
        ∀ y ∈ (b'.act op.labelled).1.inTurn (rest.map Operation.labelled), next ≤ y.1 := by
      intro next hnext y hy
      obtain ⟨stop, hstop, hle⟩ := h.next_le_act op.labelled hnext
      exact Nat.le_trans hle (hfrom stop hstop y hy)
    rw [List.map_cons, inTurn]
    split
    next => exact ⟨hascending, hlater⟩
    next hlate =>
      obtain ⟨taken, hgo⟩ := h.exists_letsGo ((Bool.not_eq_true _).mp hlate)
      have hlabel := hgo.labels hlabels
      rw [hgo.out]
      constructor
      · refine List.pairwise_append.mpr ⟨?_, hascending, ?_⟩
        · refine List.pairwise_map.mpr (hgo.ascending.imp_of_mem fun hp hq hlt => ?_)
          rwa [hlabel _ hp, hlabel _ hq]
        · intro y hy z hz
          obtain ⟨p, hp, rfl⟩ := List.mem_map.mp hy
          obtain ⟨stop, hstop, hbelow⟩ := hgo.below p hp
          rw [hlabel p hp]
          exact Nat.lt_of_lt_of_le hbelow (hfrom stop hstop z hz)
      · intro next hnext
        refine List.forall_mem_append.mpr ⟨fun y hy => ?_, hlater next hnext⟩
        obtain ⟨p, hp, rfl⟩ := List.mem_map.mp hy
        rw [hlabel p hp]
        exact hgo.from_next next hnext p hp

theorem Alike.act (h : b.Alike Unlabelled b') (op : Operation α) :
    (b.act op).1.Alike Unlabelled (b'.act op.labelled).1 ∧
      List.Forall₂ Unlabelled (b.act op).2 (b'.act op.labelled).2 := by
  cases op with
  | flush => exact h.flush
  | push seq x => exact h.push seq rfl

/-- **Labels make no difference.** -/
theorem inTurn_labelled (h : b.Alike Unlabelled b') (ops : List (Operation α)) :
    b.inTurn ops = (b'.inTurn (ops.map Operation.labelled)).map (·.2) := by
  induction ops generalizing b b' with
  | nil => rfl
  | cons op rest ih =>
    obtain ⟨hnext, hout⟩ := h.act op
    have hlate : b.isLate op = b'.isLate op.labelled := by
      cases op with
      | flush => rfl
      | push seq x => rw [isLate, Operation.labelled, isLate, h.next]
    have heq : (b.act op).2 = (b'.act op.labelled).2.map (·.2) := by
      rw [← List.forall₂_eq_eq_eq, List.forall₂_map_right_iff]
      exact hout
    rw [List.map_cons, inTurn, inTurn, List.map_append, ← ih hnext, hlate, heq]
    split <;> rfl

end Labels

/-! ## Turns of the loops -/

/-- A loop that lets items go: the next number, the held items and those that are out. -/
structure Loop (α : Type) where
  next : Nat
  held : List (Nat × α)
  out : List α

namespace Loop

/-- One turn. -/
inductive Turn (window : Nat) : Loop α → Loop α → Prop where
  /-- The inner loop lets the item of the next number go. -/
  | release (next : Nat) (x : α) (before after : List (Nat × α)) (out : List α) :
      Turn window ⟨next, before ++ (next, x) :: after, out⟩ ⟨next + 1, before ++ after, out ++ [x]⟩
  /-- The item of the next number is not held, and more are held than fit. The outer loop gives up
  the numbers before the first of them. -/
  | giveUp (next : Nat) (first : Nat × α) (rest : List (Nat × α)) (out : List α) :
      (∀ p ∈ first :: rest, p.1 ≠ next) → window < rest.length + 1 →
      Turn window ⟨next, first :: rest, out⟩ ⟨first.1, first :: rest, out⟩

/-- No turn is left. -/
def Done (window : Nat) (l : Loop α) : Prop := ∀ l', ¬ Turn window l l'

/-- The most turns that may be left: each item that is held goes out, and numbers in front of it may
have to be given up first. -/
def turnsLeft (l : Loop α) : Nat :=
  2 * l.held.length + if l.next ∈ l.held.map (·.1) then 0 else 1

theorem Turn.turnsLeft_lt {l l' : Loop α} (h : Turn window l l') :
    l'.turnsLeft < l.turnsLeft := by
  cases h with
  | release next x before after out =>
    have hnext : next ∈ (before ++ (next, x) :: after).map (·.1) := by simp
    simp only [turnsLeft, if_pos hnext, List.length_append, List.length_cons]
    split <;> omega
  | giveUp next first rest out hmissing _ =>
    have hnext : next ∉ (first :: rest).map (·.1) := fun hmem => by
      obtain ⟨p, hp, heq⟩ := List.mem_map.mp hmem
      exact hmissing p hp heq
    have hfirst : first.1 ∈ (first :: rest).map (·.1) := List.mem_map_of_mem List.mem_cons_self
    simp only [turnsLeft, if_neg hnext, if_pos hfirst]
    omega

/-- **No row of turns goes on for ever.** -/
theorem wellFounded_turn (window : Nat) :
    WellFounded fun (l' l : Loop α) => Turn window l l' :=
  Subrelation.wf (fun h => h.turnsLeft_lt) (measure turnsLeft).wf

theorem done_of_fits (habove : ∀ p ∈ held, next < p.1) (hfits : held.length ≤ window) :
    Done window ⟨next, held, out⟩ := by
  intro l' h
  cases h with
  | release _ x before after =>
    exact Nat.lt_irrefl _ (habove (next, x) (List.mem_append_right _ List.mem_cons_self))
  | giveUp _ first rest _ _ hfull =>
    rw [List.length_cons] at hfits
    omega

/-- The inner loop releases all items whose numbers follow each other. -/
theorem turns_consecutive (window next : Nat) (held : List (Nat × α)) (out : List α) :
    ReflTransGen (Turn window) ⟨next, held, out⟩
      ⟨(consecutive next held).2.1, (consecutive next held).2.2,
        out ++ (consecutive next held).1⟩ := by
  induction held generalizing next out with
  | nil =>
    rw [consecutive, List.append_nil]
  | cons p rest ih =>
    obtain ⟨s, x⟩ := p
    rw [consecutive]
    split
    next heq =>
      subst heq
      have hmore := ih (s + 1) (out ++ [x])
      rw [List.append_assoc] at hmore
      exact .head (.release s x [] rest out) hmore
    next => rw [List.append_nil]

/-- The outer loop gives up and releases until what is held fits. -/
theorem turns_giveUp (hheld : Ascending held) (habove : ∀ p ∈ held, next < p.1) (out : List α) :
    ReflTransGen (Turn window) ⟨next, held, out⟩
      ⟨(giveUp window next held).2.1, (giveUp window next held).2.2,
        out ++ (giveUp window next held).1⟩ := by
  induction next, held using giveUp.induct window generalizing out with
  | case1 next => rw [giveUp, List.append_nil]
  | case2 next s x rest hfull _ _ _ _ ih =>
    obtain ⟨hs, hrest⟩ := List.pairwise_cons.mp hheld
    have hmissing : ∀ p ∈ (s, x) :: rest, p.1 ≠ next := fun p hp =>
      Nat.ne_of_gt (habove p hp)
    obtain ⟨_, -, hadvance⟩ := advance_consecutive window hrest fun p hp => hs p hp
    have hleft : Ascending (consecutive (s + 1) rest).2.2 :=
      (List.pairwise_append.mp (hadvance.split ▸ hrest)).2.1
    have hmore := ih hleft hadvance.above (out ++ [x] ++ (consecutive (s + 1) rest).1)
    rw [giveUp, if_pos hfull]
    rw [List.append_assoc, List.append_assoc] at hmore
    exact .head (.giveUp next (s, x) rest out hmissing hfull) <|
      .head (.release s x [] rest out) <|
        (turns_consecutive window (s + 1) rest (out ++ [x])).trans (by simpa using hmore)
  | case3 next s x rest hfits =>
    rw [giveUp, if_neg hfits, List.append_nil]

end Loop

/-- **Adding an item is to make turns until none is left.** -/
theorem Sound.push_turns (h : b.Sound) (hlate : b.isLate (.push seq x) = false) :
    ∃ stop, (b.push seq x).1.next = some stop ∧
      ReflTransGen (Loop.Turn b.window) ⟨b.next.getD seq, hold seq x b.held, []⟩
        ⟨stop, (b.push seq x).1.held, (b.push seq x).2⟩ ∧
      Loop.Done b.window ⟨stop, (b.push seq x).1.held, (b.push seq x).2⟩ := by
  have hnext := getD_next_le hlate
  have hfrom : ∀ p ∈ hold seq x b.held, b.next.getD seq ≤ p.1 := by
    intro p hp
    rcases mem_hold hp with rfl | hheld
    · exact hnext
    · exact Nat.le_of_lt (h.started seq p hheld)
  obtain ⟨_, -, hadvance⟩ := advance_consecutive b.window h.ascending.hold hfrom
  have hleft := (List.pairwise_append.mp (hadvance.split ▸ h.ascending.hold)).2.1
  obtain ⟨hfits, _, -, hadvance'⟩ := advance_giveUp b.window hleft hadvance.above
  have hturns := (Loop.turns_consecutive b.window _ (hold seq x b.held) []).trans
    (Loop.turns_giveUp hleft hadvance.above _)
  simp only [push, if_neg (Nat.not_lt_of_le hnext)]
  exact ⟨_, rfl, hturns, Loop.done_of_fits hadvance'.above hfits⟩

/-! ## Runs -/

/-- What an operation does to a buffer with room for `limit` items. -/
structure Handled (limit : Nat) (b : Reorder α) (op : Operation α) : Prop where
  ahead : ∀ p ∈ (b.act op).1.held, ∃ next, (b.act op).1.next = some next ∧ next < p.1
  fits : (b.act op).1.held.length ≤ limit
  onward : ∀ next, b.next = some next → ∃ stop, (b.act op).1.next = some stop ∧ next ≤ stop
  /-- A late item comes out alone, and the buffer is as it was. -/
  late : ∀ seq x next, op = .push seq x → b.next = some next → seq < next → b.act op = (b, [x])
  /-- The loops end, and what goes out and what is held is what they leave. -/
  turns : ∀ seq x, op = .push seq x → b.isLate op = false →
    ∃ stop, (b.act op).1.next = some stop ∧
      ReflTransGen (Loop.Turn limit) ⟨b.next.getD seq, hold seq x b.held, []⟩
        ⟨stop, (b.act op).1.held, (b.act op).2⟩ ∧
      Loop.Done limit ⟨stop, (b.act op).1.held, (b.act op).2⟩

theorem Orderly.handled (h : b.Orderly limit) (op : Operation α) : b.Handled limit op where
  ahead := (h.act op).sound.above
  fits := (h.act op).fits
  onward _ hnext := h.sound.next_le_act op hnext
  late seq x next hop hnext hbehind := by
    subst hop
    exact push_late hnext hbehind x
  turns seq x hop hlate := by
    subst hop
    rw [← h.window_eq]
    exact h.sound.push_turns hlate

/-- **Whatever goes into a buffer, and whenever it is flushed, items come out in turn.** After any
operations, each further one leaves what is held ahead of the next number and within the window, and
does not take the next number back. A late item goes straight through. The numbers of all other
items that come out go up, over the whole run. And the loops by which items are let go end. -/
theorem items_in_turn (first : Option Nat) (window : Nat) (ops : List (Operation α)) :
    let b : Reorder α := new first window
    let labelled : List (Nat × α) := (new first window).inTurn (ops.map Operation.labelled)
    (∀ op, ((b.run ops).1).Handled (max window 1) op) ∧
      (b.inTurn ops = labelled.map (·.2) ∧ labelled.Pairwise (·.1 < ·.1)) ∧
      WellFounded fun (l' l : Loop α) => Loop.Turn (max window 1) l l' := by
  intro b labelled
  have hstart : b.Alike Unlabelled (new first window) := ⟨rfl, rfl, .nil⟩
  have horderly : b.Orderly (max window 1) := .new first window
  refine ⟨(horderly.run ops).handled, ⟨inTurn_labelled hstart ops, ?_⟩,
    Loop.wellFounded_turn (max window 1)⟩
  exact (inTurn_ascending (.new first window) nofun ops).1

/-- In a window of two the numbers 0 and 4 are given up, and go straight through when they come. A
flush lets 9 go. -/
example :
    let ops : List (Operation String) := [.push 2 "c", .push 1 "b", .push 3 "d", .push 0 "a",
      .push 6 "g", .push 9 "j", .push 5 "f", .push 4 "e", .flush]
    (new (some 0) 2).inTurn ops = ["b", "c", "d", "f", "g", "j"] ∧
      ((new (some 0) 2).run ops).2 =
        [[], [], ["b", "c", "d"], ["a"], [], [], ["f", "g"], ["e"], ["j"]] := by
  decide +kernel

end NfsWire.Reorder
