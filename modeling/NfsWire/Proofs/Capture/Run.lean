import NfsWire.Capture.Matcher

/-!
# Runs of the matcher

A run is a list of steps, each with the observation at which it is taken. Nothing forces these
observations into an order. Those of a capture that is read from front to back are in
`InCaptureOrder`: numbers never decrease, times never decrease as far as they are known, and one
number stands for one observation.
-/

namespace NfsWire

/-- Something that is done with a matcher before the capture ends. -/
inductive Step (α : Type) where
  | call (flow : Flow) (xid : UInt32) (call : α) (seen : Observation)
  | reply (flow : Flow) (xid : UInt32) (seen : Observation)
  | expire (now : Observation)
  deriving DecidableEq, Repr

/-- The observation of a step. -/
def Step.at {α : Type} : Step α → Observation
  | .call _ _ _ seen => seen
  | .reply _ _ seen => seen
  | .expire now => now

namespace Matcher

variable {α : Type}

/-- Take one step. -/
def step (m : Matcher α) : Step α → Matcher α × List (MatchEvent α)
  | .call flow xid call seen => m.onCall flow xid call seen
  | .reply flow xid seen => m.onReply flow xid seen
  | .expire now => m.expire now

/-- The matcher after some steps. -/
def after (settings : MatcherSettings) (steps : List (Step α)) : Matcher α :=
  steps.foldl (fun m s => (m.step s).1) (new settings)

end Matcher

/-! ## Capture order -/

/-- As far as both say it, the first observation is not the later one. -/
structure Observation.Before (o o' : Observation) : Prop where
  seq : o.seq ≤ o'.seq
  time : ∀ t ∈ o.time, ∀ t' ∈ o'.time, t.nanoseconds ≤ t'.nanoseconds
  same : o.seq = o'.seq → o.time = o'.time

theorem Observation.before_iff {o o' : Observation} :
    o.Before o' ↔ o.seq ≤ o'.seq ∧
      (∀ t ∈ o.time, ∀ t' ∈ o'.time, t.nanoseconds ≤ t'.nanoseconds) ∧
        (o.seq = o'.seq → o.time = o'.time) :=
  ⟨fun h => ⟨h.seq, h.time, h.same⟩, fun h => ⟨h.1, h.2.1, h.2.2⟩⟩

instance (o o' : Observation) : Decidable (o.Before o') :=
  decidable_of_iff' _ Observation.before_iff

/-- Observations in the order of a capture. -/
def InCaptureOrder (observations : List Observation) : Prop :=
  observations.Pairwise Observation.Before

instance (observations : List Observation) : Decidable (InCaptureOrder observations) :=
  inferInstanceAs (Decidable (observations.Pairwise Observation.Before))

theorem Observation.Before.refl (o : Observation) : o.Before o := by
  refine ⟨Nat.le_refl _, fun t ht t' ht' => ?_, fun _ => rfl⟩
  cases Option.mem_unique ht ht'
  exact Nat.le_refl _

/-- One number stands for one observation. -/
theorem Observation.Before.eq {o o' : Observation} (h : o.Before o') (hseq : o.seq = o'.seq) :
    o = o' := by
  obtain ⟨seq, time⟩ := o
  obtain ⟨seq', time'⟩ := o'
  cases hseq
  cases h.same rfl
  rfl

namespace InCaptureOrder

variable {past : List Observation} {o o' now : Observation}

theorem before_or (h : InCaptureOrder past) (ho : o ∈ past) (ho' : o' ∈ past) :
    o.Before o' ∨ o'.Before o := by
  induction past with
  | nil => cases ho
  | cons a past ih =>
    obtain ⟨hfirst, hrest⟩ := List.pairwise_cons.mp h
    rcases List.mem_cons.mp ho with rfl | hmem
    · rcases List.mem_cons.mp ho' with rfl | hmem'
      · exact .inl (.refl _)
      · exact .inl (hfirst o' hmem')
    · rcases List.mem_cons.mp ho' with rfl | hmem'
      · exact .inr (hfirst o hmem)
      · exact ih hrest hmem hmem'

/-- Numbers tell the order of observations. -/
theorem before (h : InCaptureOrder past) (ho : o ∈ past) (ho' : o' ∈ past)
    (hseq : o.seq ≤ o'.seq) : o.Before o' := by
  rcases h.before_or ho ho' with hbefore | hafter
  · exact hbefore
  · have heq : o' = o := hafter.eq (Nat.le_antisymm hafter.seq hseq)
    rw [heq]
    exact .refl o

theorem eq_of_seq (h : InCaptureOrder past) (ho : o ∈ past) (ho' : o' ∈ past)
    (hseq : o.seq = o'.seq) : o = o' :=
  (h.before ho ho' (Nat.le_of_eq hseq)).eq hseq

theorem before_last (h : InCaptureOrder (past ++ [now])) (ho : o ∈ past) : o.Before now :=
  (List.pairwise_append.mp h).2.2 o ho now (List.mem_singleton.mpr rfl)

theorem of_append {later : List Observation} (h : InCaptureOrder (past ++ later)) :
    InCaptureOrder past :=
  (List.pairwise_append.mp h).1

end InCaptureOrder

end NfsWire
