/-!
# Lists

Sorting by a number, undoing a map, maps that may fail, and lists of lists.
-/

namespace NfsWire

variable {β γ δ : Type}

theorem pairwise_mergeSort_key (key : β → Nat) (xs : List β) :
    (xs.mergeSort fun a b => key a ≤ key b).Pairwise fun a b => key a ≤ key b := by
  have htrans : ∀ a b c : β, decide (key a ≤ key b) = true → decide (key b ≤ key c) = true →
      decide (key a ≤ key c) = true := by
    intro a b c hab hbc
    rw [decide_eq_true_eq] at *
    exact Nat.le_trans hab hbc
  have htotal : ∀ a b : β, (decide (key a ≤ key b) || decide (key b ≤ key a)) = true := by
    intro a b
    rw [Bool.or_eq_true, decide_eq_true_eq, decide_eq_true_eq]
    exact Nat.le_total (key a) (key b)
  exact (List.pairwise_mergeSort htrans htotal xs).imp of_decide_eq_true

theorem mapM_map {f : β → γ} {g : γ → Option β} (h : ∀ x, g (f x) = some x) (xs : List β) :
    (xs.map f).mapM g = some xs := by
  induction xs with
  | nil => rfl
  | cons x xs ih => simp [h, ih]

theorem mapM_eq_some_iff {f : β → Option γ} {xs : List β} {ys : List γ} :
    xs.mapM f = some ys ↔ xs.map f = ys.map some := by
  induction xs generalizing ys with
  | nil => cases ys <;> simp
  | cons x xs ih =>
    simp only [List.mapM_cons, Option.bind_eq_bind, Option.bind_eq_some_iff, ih]
    constructor
    · rintro ⟨z, hz, zs, hzs, hys⟩
      cases hys
      rw [List.map_cons, List.map_cons, hz, hzs]
    · intro h
      cases ys with
      | nil => cases h
      | cons y ys =>
        obtain ⟨hy, hys⟩ := List.cons.inj h
        exact ⟨y, hy, ys, hys, rfl⟩

theorem mapM_eq_none_iff {f : β → Option γ} {xs : List β} :
    xs.mapM f = none ↔ ∃ x ∈ xs, f x = none := by
  induction xs with
  | nil => simp
  | cons x xs ih =>
    simp only [List.mapM_cons, List.mem_cons, exists_eq_or_imp, ← ih]
    cases f x with
    | none => simp
    | some y => cases xs.mapM f <;> simp

/-- Elements that are spread over lists by an index `k` are all there. -/
theorem flatMap_perm_of_index {f : β → List γ} {g : δ → γ} {xs : List β} {cs : List δ}
    {k : δ → Nat}
    (h : ∀ i x, xs[i]? = some x → (f x).Perm ((cs.filter fun c => k c == i).map g))
    (hlt : ∀ c ∈ cs, k c < xs.length) : (xs.flatMap f).Perm (cs.map g) := by
  induction xs generalizing cs k with
  | nil =>
    have hnone : cs = [] := List.eq_nil_iff_forall_not_mem.mpr fun c hc =>
      absurd (hlt c hc) (Nat.not_lt_zero _)
    rw [hnone]
    exact .refl _
  | cons x xs ih =>
    have hhead := h 0 x rfl
    -- The others are spread over the rest by an index that is one less.
    have htail : (xs.flatMap f).Perm ((cs.filter fun c => !(k c == 0)).map g) := by
      refine ih (k := fun c => k c - 1) (fun i y hy => ?_) fun c hc => ?_
      · have hperm := h (i + 1) y hy
        rw [List.filter_filter]
        refine hperm.trans (.of_eq (congrArg _ (List.filter_congr fun c _ => ?_)))
        rw [Bool.eq_iff_iff]
        simp only [beq_iff_eq, Bool.and_eq_true, Bool.not_eq_true', beq_eq_false_iff_ne]
        omega
      · obtain ⟨hc, hpos⟩ := List.mem_filter.mp hc
        have hlt := hlt c hc
        simp only [Bool.not_eq_true', beq_eq_false_iff_ne, List.length_cons] at hpos hlt
        omega
    rw [List.flatMap_cons]
    refine (hhead.append htail).trans ?_
    rw [← List.map_append]
    exact (List.filter_append_perm _ cs).map g

end NfsWire
