import NfsWire.Capture.Reorder
import NfsWire.Proofs.Lists

/-!
# Order restored

Items may come out of their order, and some may never come. If no item comes after more than a
window of items that belong behind it, the buffer puts all of them in order (`drain_eq_mergeSort`).

A number is passed over only to make room, and then more items behind it are held than fit the
window (`Advance.missing`). An item of that number would come after all of these, too late to be
allowed. So no item is late, and what went out, followed by what is held, is at every moment
all that came, in order (`InOrder`).
-/

namespace NfsWire.Reorder

variable {α : Type} {seq next stop window first : Nat} {x : α}
  {b : Reorder α} {held taken left past gone items : List (Nat × α)}

/-- Items in the order of their numbers, each number once. -/
def Ascending (items : List (Nat × α)) : Prop := items.Pairwise (·.1 < ·.1)

/-! ## Holding an item -/

theorem mem_hold {p : Nat × α} (h : p ∈ hold seq x held) : p = (seq, x) ∨ p ∈ held := by
  induction held with
  | nil => exact .inl (List.mem_singleton.mp h)
  | cons q rest ih =>
    simp only [hold] at h
    split at h
    · exact List.mem_cons.mp h
    · split at h
      · exact (List.mem_cons.mp h).imp_right (List.mem_cons_of_mem _)
      · rcases List.mem_cons.mp h with rfl | h
        · exact .inr List.mem_cons_self
        · exact (ih h).imp_right (List.mem_cons_of_mem _)

theorem Ascending.hold (h : Ascending held) : Ascending (hold seq x held) := by
  induction held with
  | nil => exact List.pairwise_singleton _ _
  | cons q rest ih =>
    obtain ⟨hq, hrest⟩ := List.pairwise_cons.mp h
    simp only [Reorder.hold]
    split
    next hlt =>
      refine List.pairwise_cons.mpr ⟨List.forall_mem_cons.mpr ⟨hlt, fun p hp => ?_⟩, h⟩
      exact Nat.lt_trans hlt (hq p hp)
    next hle =>
      split
      next heq => exact List.pairwise_cons.mpr ⟨fun p hp => heq ▸ hq p hp, hrest⟩
      next hne =>
        refine List.pairwise_cons.mpr ⟨fun p hp => ?_, ih hrest⟩
        rcases mem_hold hp with rfl | hp
        · exact Nat.lt_of_le_of_ne (Nat.le_of_not_lt hle) (Ne.symm hne)
        · exact hq p hp

/-- An item whose number is new takes nobody's place. -/
theorem hold_perm (h : ∀ p ∈ held, p.1 ≠ seq) : (hold seq x held).Perm ((seq, x) :: held) := by
  induction held with
  | nil => exact .refl _
  | cons q rest ih =>
    obtain ⟨hq, hrest⟩ := List.forall_mem_cons.mp h
    simp only [hold]
    split
    · exact .refl _
    · rw [if_neg (Ne.symm hq)]
      exact ((ih hrest).cons q).trans (.swap (seq, x) q rest)

/-! ## Letting items go -/

/-- Items are taken off the front of the held ones, up to a number. -/
structure Advance (window next : Nat) (held taken : List (Nat × α)) (stop : Nat)
    (left : List (Nat × α)) : Prop where
  split : held = taken ++ left
  le : next ≤ stop
  below : ∀ p ∈ taken, p.1 < stop
  above : ∀ p ∈ left, stop < p.1
  /-- A number is passed over only while more items behind it are held than fit. -/
  missing : ∀ n, next ≤ n → n < stop → n ∉ taken.map (·.1) → window < held.countP (n < ·.1)

theorem Advance.refl (h : ∀ p ∈ held, next < p.1) : Advance window next held [] next held where
  split := rfl
  le := Nat.le_refl _
  below := nofun
  above := h
  missing _ hle hlt := absurd hlt (Nat.not_lt_of_le hle)

/-- One after the other. -/
theorem Advance.trans {stop' : Nat} {taken' left' : List (Nat × α)}
    (h : Advance window next held taken stop left)
    (h' : Advance window stop left taken' stop' left') :
    Advance window next held (taken ++ taken') stop' left' where
  split := by rw [h.split, h'.split, List.append_assoc]
  le := Nat.le_trans h.le h'.le
  below := by
    refine List.forall_mem_append.mpr ⟨fun p hp => ?_, h'.below⟩
    exact Nat.lt_of_lt_of_le (h.below p hp) h'.le
  above := h'.above
  missing n hle hlt hn := by
    rw [List.map_append, List.mem_append, not_or] at hn
    by_cases hstop : n < stop
    · exact h.missing n hle hstop hn.1
    · have hleft := h'.missing n (Nat.le_of_not_lt hstop) hlt hn.2
      rw [h.split, List.countP_append]
      omega

/-- To go on from the first of too many held items passes over the numbers before it. -/
theorem Advance.skip (h : Advance window seq held taken stop left) (hle : next ≤ seq)
    (hfirst : ∀ p ∈ held, seq ≤ p.1) (hfull : window < held.length) :
    Advance window next held taken stop left where
  split := h.split
  le := Nat.le_trans hle h.le
  below := h.below
  above := h.above
  missing n _ hlt hn := by
    by_cases hseq : n < seq
    · have hall : held.countP (n < ·.1) = held.length := by
        refine List.countP_eq_length.mpr fun p hp => ?_
        exact decide_eq_true (Nat.lt_of_lt_of_le hseq (hfirst p hp))
      omega
    · exact h.missing n (Nat.le_of_not_lt hseq) hlt hn

theorem advance_consecutive (window : Nat) (hheld : Ascending held)
    (hfrom : ∀ p ∈ held, next ≤ p.1) : ∃ taken, (consecutive next held).1 = taken.map (·.2) ∧
      Advance window next held taken (consecutive next held).2.1 (consecutive next held).2.2 := by
  induction held generalizing next with
  | nil => exact ⟨[], rfl, .refl nofun⟩
  | cons q rest ih =>
    obtain ⟨hq, hrest⟩ := List.pairwise_cons.mp hheld
    simp only [consecutive]
    split
    next heq =>
      have hbehind : ∀ p ∈ rest, next + 1 ≤ p.1 := heq ▸ hq
      obtain ⟨taken, hout, hadvance⟩ := ih hrest hbehind
      refine ⟨q :: taken, by rw [List.map_cons, hout], ?_⟩
      constructor
      case split => exact congrArg (q :: ·) hadvance.split
      case le => exact Nat.le_of_succ_le hadvance.le
      case below => exact List.forall_mem_cons.mpr ⟨heq ▸ hadvance.le, hadvance.below⟩
      case above => exact hadvance.above
      case missing =>
        intro n hle hlt hn
        rw [List.map_cons, List.mem_cons, not_or] at hn
        have hcount := hadvance.missing n (by omega) hlt hn.2
        rw [List.countP_cons]
        omega
    next hne =>
      have hlt : next < q.1 :=
        Nat.lt_of_le_of_ne (hfrom q List.mem_cons_self) (Ne.symm hne)
      refine ⟨[], rfl, .refl (List.forall_mem_cons.mpr ⟨hlt, fun p hp => ?_⟩)⟩
      exact Nat.lt_trans hlt (hq p hp)

/-- Afterwards the held items fit. -/
theorem advance_giveUp (window : Nat) (hheld : Ascending held) (habove : ∀ p ∈ held, next < p.1) :
    (giveUp window next held).2.2.length ≤ window ∧
      ∃ taken, (giveUp window next held).1 = taken.map (·.2) ∧
        Advance window next held taken (giveUp window next held).2.1
          (giveUp window next held).2.2 := by
  induction next, held using giveUp.induct window with
  | case1 next =>
    rw [giveUp]
    exact ⟨Nat.zero_le _, [], rfl, .refl habove⟩
  | case2 next s x rest hfull _ _ _ _ ih =>
    rw [giveUp, if_pos hfull]
    have hfrom : ∀ p ∈ (s, x) :: rest, s ≤ p.1 := List.forall_mem_cons.mpr
      ⟨Nat.le_refl _, fun p hp => Nat.le_of_lt ((List.pairwise_cons.mp hheld).1 p hp)⟩
    obtain ⟨taken, hout, hadvance⟩ := advance_consecutive window hheld hfrom
    rw [consecutive, if_pos rfl] at hout hadvance
    have hleft : Ascending (consecutive (s + 1) rest).2.2 :=
      (List.pairwise_append.mp (hadvance.split ▸ hheld)).2.1
    obtain ⟨hfits, taken', hout', hadvance'⟩ := ih hleft hadvance.above
    have hle : next ≤ s := Nat.le_of_lt (habove _ List.mem_cons_self)
    refine ⟨hfits, taken ++ taken', ?_, (hadvance.skip hle hfrom hfull).trans hadvance'⟩
    rw [List.map_append, ← hout, ← hout']
  | case3 next s x rest hfits =>
    rw [giveUp, if_neg hfits]
    exact ⟨Nat.le_of_not_lt hfits, [], rfl, .refl habove⟩

/-- What adding an item does, if it is not late. -/
theorem push_spec (x : α) (hnext : b.next = some next) (hseq : next ≤ seq)
    (hheld : Ascending b.held) (habove : ∀ p ∈ b.held, next < p.1) :
    ∃ taken stop left,
      b.push seq x = ({ b with next := some stop, held := left }, taken.map (·.2)) ∧
        Advance b.window next (hold seq x b.held) taken stop left ∧ left.length ≤ b.window := by
  have hfrom : ∀ p ∈ hold seq x b.held, next ≤ p.1 := by
    intro p hp
    rcases mem_hold hp with rfl | hp
    · exact hseq
    · exact Nat.le_of_lt (habove p hp)
  obtain ⟨taken, hout, hadvance⟩ := advance_consecutive b.window hheld.hold hfrom
  have hleft := (List.pairwise_append.mp (hadvance.split ▸ hheld.hold)).2.1
  obtain ⟨hfits, taken', hout', hadvance'⟩ := advance_giveUp b.window hleft hadvance.above
  refine ⟨taken ++ taken', _, _, ?_, hadvance.trans hadvance', hfits⟩
  simp only [push, hnext, Option.getD_some, if_neg (Nat.not_lt_of_le hseq), hout, hout',
    List.map_append]

/-! ## Adding all items -/

/-- Add items in turn. The answer has all that is released on the way. -/
def pushAll (b : Reorder α) : List (Nat × α) → Reorder α × List α
  | [] => (b, [])
  | (seq, x) :: rest =>
    let (b, out) := b.push seq x
    let (b, more) := b.pushAll rest
    (b, out ++ more)

/-- All that comes out of the buffer when items are added in turn and it is flushed then. -/
def drain (b : Reorder α) (items : List (Nat × α)) : List α :=
  (b.pushAll items).2 ++ (b.pushAll items).1.flush.2

/-- No two items have the same number, and none comes after more than `window` items that belong
behind it. -/
structure NearlyOrdered (window : Nat) (items : List (Nat × α)) : Prop where
  distinct : (items.map (·.1)).Nodup
  near : ∀ i (h : i < items.length), (items.take i).countP (items[i].1 < ·.1) ≤ window

/-- What went out and what is held, together, are the items of the past in order. -/
structure InOrder (first : Nat) (past gone : List (Nat × α)) (next : Nat) (b : Reorder α) :
    Prop where
  next_eq : b.next = some next
  perm : (gone ++ b.held).Perm past
  ascending : Ascending (gone ++ b.held)
  below : ∀ p ∈ gone, p.1 < next
  above : ∀ p ∈ b.held, next < p.1
  /-- What was passed over without its item belongs before more items than fit the window. -/
  missing : ∀ n, first ≤ n → n < next → n ∉ past.map (·.1) → b.window < past.countP (n < ·.1)

theorem InOrder.new (first window : Nat) :
    InOrder (α := α) first [] [] first (new (some first) window) where
  next_eq := rfl
  perm := .refl _
  ascending := .nil
  below := nofun
  above := nofun
  missing _ hle hlt := absurd hlt (Nat.not_lt_of_le hle)

theorem InOrder.push (h : InOrder first past gone next b) (x : α)
    (hfirst : first ≤ seq) (hfresh : seq ∉ past.map (·.1))
    (hnear : past.countP (seq < ·.1) ≤ b.window) :
    ∃ taken stop, InOrder first (past ++ [(seq, x)]) (gone ++ taken) stop (b.push seq x).1 ∧
      (b.push seq x).2 = taken.map (·.2) ∧ (b.push seq x).1.window = b.window := by
  have hseq : next ≤ seq := by
    refine Nat.le_of_not_lt fun hlate => ?_
    exact absurd (h.missing seq hfirst hlate hfresh) (Nat.not_lt_of_le hnear)
  have hheld : Ascending b.held := (List.pairwise_append.mp h.ascending).2.1
  obtain ⟨taken, stop, left, hpush, hadvance, -⟩ := push_spec x h.next_eq hseq hheld h.above
  have hnew : ∀ p ∈ b.held, p.1 ≠ seq := fun p hp heq =>
    hfresh (heq ▸ List.mem_map_of_mem (h.perm.mem_iff.mp (List.mem_append_right _ hp)))
  have hperm : (gone ++ hold seq x b.held).Perm (past ++ [(seq, x)]) := by
    calc gone ++ hold seq x b.held
      _ |>.Perm (gone ++ (seq, x) :: b.held) := (hold_perm hnew).append_left gone
      _ |>.Perm ((seq, x) :: (gone ++ b.held)) := List.perm_middle
      _ |>.Perm ((seq, x) :: past) := h.perm.cons _
      _ |>.Perm (past ++ [(seq, x)]) := (List.perm_append_singleton _ _).symm
  refine ⟨taken, stop, ?_, by rw [hpush], by rw [hpush]⟩
  rw [hpush]
  constructor
  case next_eq => rfl
  case perm => rwa [List.append_assoc, ← hadvance.split]
  case ascending =>
    rw [List.append_assoc, ← hadvance.split]
    refine List.pairwise_append.mpr
      ⟨(List.pairwise_append.mp h.ascending).1, hheld.hold, fun p hp q hq => ?_⟩
    rcases mem_hold hq with rfl | hq
    · exact Nat.lt_of_lt_of_le (h.below p hp) hseq
    · exact Nat.lt_trans (h.below p hp) (h.above q hq)
  case below =>
    refine List.forall_mem_append.mpr ⟨fun p hp => ?_, hadvance.below⟩
    exact Nat.lt_of_lt_of_le (h.below p hp) hadvance.le
  case above => exact hadvance.above
  case missing =>
    intro n hle hlt hn
    by_cases hnext : n < next
    · rw [List.map_append, List.mem_append, not_or] at hn
      have hcount := h.missing n hle hnext hn.1
      rw [List.countP_append]
      exact Nat.lt_add_right _ hcount
    · have htaken : n ∉ taken.map (·.1) := by
        intro hmem
        obtain ⟨p, hp, rfl⟩ := List.mem_map.mp hmem
        have hp : p ∈ hold seq x b.held := hadvance.split ▸ List.mem_append_left _ hp
        exact hn (List.mem_map_of_mem (hperm.mem_iff.mp (List.mem_append_right _ hp)))
      have hcount := hadvance.missing n (Nat.le_of_not_lt hnext) hlt htaken
      rw [← hperm.countP_eq, List.countP_append]
      exact Nat.lt_add_left _ hcount

theorem InOrder.pushAll {all : List (Nat × α)} (hall : NearlyOrdered window all)
    (hfirst : ∀ p ∈ all, first ≤ p.1) (h : InOrder first past gone next b)
    (hwindow : b.window = window) (hpast : past ++ items = all) :
    ∃ taken stop, InOrder first all (gone ++ taken) stop (b.pushAll items).1 ∧
      (b.pushAll items).2 = taken.map (·.2) := by
  induction items generalizing past gone next b with
  | nil =>
    rw [List.append_nil] at hpast
    exact ⟨[], next, by rwa [List.append_nil, ← hpast], rfl⟩
  | cons p rest ih =>
    have hfresh : p.1 ∉ past.map (·.1) := by
      have hdistinct := hall.distinct
      rw [← hpast, List.map_append, List.map_cons] at hdistinct
      intro hmem
      exact (List.nodup_append.mp hdistinct).2.2 _ hmem _ List.mem_cons_self rfl
    have hnear : past.countP (p.1 < ·.1) ≤ b.window := by
      have hnear := hall.near past.length (by simp [← hpast])
      simpa [← hpast, hwindow] using hnear
    obtain ⟨taken, stop, hin, hout, hsame⟩ :=
      h.push p.2 (hfirst p (by simp [← hpast])) hfresh hnear
    obtain ⟨taken', stop', hin', hout'⟩ := ih hin (hsame.trans hwindow) (by simp [← hpast])
    refine ⟨taken ++ taken', stop', List.append_assoc .. ▸ hin', ?_⟩
    rw [Reorder.pushAll, List.map_append, ← hout, ← hout']

/-! ## The order of the numbers -/

theorem ascending_mergeSort (h : (items.map (·.1)).Nodup) :
    Ascending (items.mergeSort (fun p q => p.1 ≤ q.1)) := by
  have hsorted := pairwise_mergeSort_key (·.1) items
  have hdistinct := (List.mergeSort_perm items fun p q => p.1 ≤ q.1).map (·.1) |>.nodup_iff.mpr h
  refine (hsorted.and (List.pairwise_map.mp hdistinct)).imp fun ⟨hle, hne⟩ => ?_
  exact Nat.lt_of_le_of_ne hle hne

theorem Ascending.eq_of_perm {items' : List (Nat × α)} (h : Ascending items)
    (h' : Ascending items') (hperm : items.Perm items') : items = items' :=
  hperm.eq_of_pairwise (fun _ _ _ _ hlt hgt => absurd hgt (Nat.lt_asymm hlt)) h h'

/-- **Bounded disorder is put in order**, with the items each once and whatever numbers are
missing, if the buffer does not start behind any of them. -/
theorem drain_eq_mergeSort {first : Option Nat} {window : Nat} {items : List (Nat × α)}
    (hnear : NearlyOrdered (max window 1) items)
    (hfirst : ∀ n ∈ first.or (items.head?.map (·.1)), ∀ p ∈ items, n ≤ p.1) :
    (new first window).drain items =
      (items.mergeSort (fun p q => p.1 ≤ q.1)).map (·.2) := by
  -- Without items nothing comes out; else a buffer that starts anywhere starts at the first.
  obtain ⟨start, hstart, hsame⟩ : ∃ start, (∀ p ∈ items, start ≤ p.1) ∧
      (new first window).drain items = (new (some start) window).drain items := by
    cases first with
    | some n => exact ⟨n, hfirst n rfl, rfl⟩
    | none =>
      cases items with
      | nil => exact ⟨0, nofun, rfl⟩
      | cons p rest => exact ⟨p.1, hfirst p.1 rfl, rfl⟩
  obtain ⟨gone, stop, hin, hout⟩ :=
    (InOrder.new start window).pushAll hnear hstart rfl (List.nil_append items)
  have hsorted : gone ++ ((new (some start) window).pushAll items).1.held =
      items.mergeSort (fun p q => p.1 ≤ q.1) :=
    hin.ascending.eq_of_perm (ascending_mergeSort hnear.distinct)
      (hin.perm.trans (List.mergeSort_perm _ _).symm)
  rw [hsame, drain, hout, flush, ← hsorted, List.map_append]

/-- In a window of two the number 3 is given up, and 9 is held to the end. -/
theorem drain_eq_mergeSort_with_gap :
    (new (some 1) 2).drain [(4, "d"), (2, "b"), (1, "a"), (9, "i"), (6, "f"), (5, "e")] =
      ([(4, "d"), (2, "b"), (1, "a"), (9, "i"), (6, "f"), (5, "e")].mergeSort
        (fun p q => p.1 ≤ q.1)).map (·.2) :=
  drain_eq_mergeSort ⟨by decide, by decide⟩ (by decide)

end NfsWire.Reorder
