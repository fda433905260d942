import NfsWire.Proofs.Capture.Run

/-!
# A matcher without laziness

What pairing calls with replies means, said as plainly as possible: a *roster* is one list of the
waiting calls in order of arrival. Before anything else is done at an observation, every overdue
call is taken out of the list and reported; then the call or reply is looked up in what is left.

There are no tickets and no counter, and nothing depends on how observations are ordered. This is
what the matcher is compared with, so the meaning of being overdue is said here once more, without
subtraction.
-/

namespace NfsWire

/-! ## Being overdue -/

/-- Whether a call first seen at `seen` waits too long as of `now`. -/
def Aging.overdue (aging : Aging) (seen now : Observation) : Bool :=
  match aging with
  | .disabled => false
  | .packets max => decide (seen.seq + max < now.seq)
  | .time max =>
    match seen.time, now.time with
    | some t, some t' => decide (t.nanoseconds + max.nanoseconds < t'.nanoseconds)
    | _, _ => false

theorem Matcher.isOverdue_eq {α : Type} (m : Matcher α) (call : Pending α) (now : Observation) :
    m.isOverdue call now = m.settings.aging.overdue call.seen now := by
  unfold isOverdue Aging.overdue
  cases m.settings.aging with
  | disabled => rfl
  | packets max =>
    have h : max < now.seq - call.seen.seq ↔ call.seen.seq + max < now.seq := by omega
    simp only [h]
  | time max =>
    cases call.seen.time with
    | none => rfl
    | some t =>
      cases now.time with
      | none => rfl
      | some t' =>
        have h : max.nanoseconds < t'.nanoseconds - t.nanoseconds ↔
            t.nanoseconds + max.nanoseconds < t'.nanoseconds := by omega
        simp only [h]

/-! ## Rosters -/

/-- A waiting call and its flow. -/
structure Waiting (α : Type) where
  flow : Flow
  call : Pending α
  deriving DecidableEq, Repr

/-- Whether the call is the one of that flow and transaction id. -/
def Waiting.is {α : Type} (c : Waiting α) (flow : Flow) (xid : UInt32) : Bool :=
  c.flow == flow && c.call.xid == xid

/-- The event of a call that is given up. -/
def Waiting.timeout {α : Type} (c : Waiting α) : MatchEvent α := .timeout c.flow c.call

/-- Count a retransmission, if it is one of this call. -/
def Waiting.recount {α : Type} (c : Waiting α) (flow : Flow) (xid : UInt32) : Waiting α :=
  if c.is flow xid then
    { c with call := { c.call with retransmissions := c.call.retransmissions + 1 } }
  else c

theorem Waiting.is_iff {α : Type} {c : Waiting α} {flow : Flow} {xid : UInt32} :
    c.is flow xid = true ↔ c.flow = flow ∧ c.call.xid = xid := by
  simp [Waiting.is]

section Recount

variable {α : Type} (c : Waiting α) (flow : Flow) (xid : UInt32)

@[simp] theorem Waiting.flow_recount : (c.recount flow xid).flow = c.flow := by
  unfold recount
  split <;> rfl

@[simp] theorem Waiting.xid_recount : (c.recount flow xid).call.xid = c.call.xid := by
  unfold recount
  split <;> rfl

@[simp] theorem Waiting.seen_recount : (c.recount flow xid).call.seen = c.call.seen := by
  unfold recount
  split <;> rfl

@[simp] theorem Waiting.is_recount (f : Flow) (x : UInt32) :
    (c.recount flow xid).is f x = c.is f x := by
  simp [Waiting.is]

end Recount

/-- Waiting calls in order of arrival. -/
structure Roster (α : Type) where
  aging : Aging
  calls : List (Waiting α)

namespace Roster

variable {α : Type}

/-- A roster without calls. -/
def new (aging : Aging) : Roster α := { aging, calls := [] }

def length (r : Roster α) : Nat := r.calls.length

/-- The waiting call of a flow and transaction id. -/
def get? (r : Roster α) (flow : Flow) (xid : UInt32) : Option (Pending α) :=
  (r.calls.find? (·.is flow xid)).map (·.call)

/-- Let a call wait behind all others. -/
def add (r : Roster α) (flow : Flow) (call : Pending α) : Roster α :=
  { r with calls := r.calls ++ [⟨flow, call⟩] }

/-- Take a call out. -/
def erase (r : Roster α) (flow : Flow) (xid : UInt32) : Roster α :=
  { r with calls := r.calls.filter fun c => !c.is flow xid }

/-- Count a retransmission of a call. -/
def recount (r : Roster α) (flow : Flow) (xid : UInt32) : Roster α :=
  { r with calls := r.calls.map (·.recount flow xid) }

/-- Whether a call waits too long. -/
def overdue (r : Roster α) (now : Observation) (c : Waiting α) : Bool :=
  r.aging.overdue c.call.seen now

/-- Take out and report all calls that are overdue. -/
def sweep (r : Roster α) (now : Observation) : Roster α × List (MatchEvent α) :=
  ({ r with calls := r.calls.filter fun c => !r.overdue now c },
    (r.calls.filter (r.overdue now)).map Waiting.timeout)

/-- One step: first the overdue calls, then the call or reply itself. -/
def step (r : Roster α) (s : Step α) : Roster α × List (MatchEvent α) :=
  let (r, events) := r.sweep s.at
  match s with
  | .call flow xid call seen =>
    match r.get? flow xid with
    | some waiting =>
      (r.recount flow xid,
        events ++ [.retransmission flow xid (waiting.retransmissions + 1) seen])
    | none => (r.add flow { xid, call, seen, retransmissions := 0 }, events)
  | .reply flow xid reply =>
    match r.get? flow xid with
    | some waiting => (r.erase flow xid, events ++ [.matched flow waiting reply])
    | none => (r, events ++ [.orphan flow xid reply])
  | .expire _ => (r, events)

/-- The roster after some steps. -/
def after (aging : Aging) (steps : List (Step α)) : Roster α :=
  steps.foldl (fun r s => (r.step s).1) (new aging)

@[simp] theorem length_add (r : Roster α) (flow : Flow) (call : Pending α) :
    (r.add flow call).length = r.length + 1 := List.length_append

/-! ## Looking up -/

/-- No two calls have the same flow and transaction id. -/
def Distinct (r : Roster α) : Prop :=
  r.calls.Pairwise fun c c' => ¬ (c.flow = c'.flow ∧ c.call.xid = c'.call.xid)

theorem get?_erase (r : Roster α) (flow f : Flow) (xid x : UInt32) :
    (r.erase flow xid).get? f x = if f = flow ∧ x = xid then none else r.get? f x := by
  unfold get? erase
  rw [List.find?_filter]
  by_cases h : f = flow ∧ x = xid
  · obtain ⟨rfl, rfl⟩ := h
    simp
  · rw [if_neg h]
    congr 2
    funext c
    by_cases hc : c.is f x = true
    · have hne : ¬ c.is flow xid = true := by
        rw [Waiting.is_iff] at hc ⊢
        obtain ⟨rfl, rfl⟩ := hc
        exact h
      simp [hc, hne]
    · simp [hc]

theorem get?_add {r : Roster α} {flow : Flow} {call : Pending α}
    (hnone : r.get? flow call.xid = none) (f : Flow) (x : UInt32) :
    (r.add flow call).get? f x =
      if f = flow ∧ x = call.xid then some call else r.get? f x := by
  unfold get? add at *
  rw [List.find?_append, Option.map_or]
  by_cases h : f = flow ∧ x = call.xid
  · obtain ⟨rfl, rfl⟩ := h
    rw [hnone, if_pos ⟨rfl, rfl⟩]
    simp [Waiting.is]
  · have hnot : Waiting.is ⟨flow, call⟩ f x = false := by
      rw [Bool.eq_false_iff, Ne, Waiting.is_iff]
      rintro ⟨rfl, rfl⟩
      exact h ⟨rfl, rfl⟩
    rw [if_neg h]
    simp [hnot]

theorem get?_recount {r : Roster α} {flow : Flow} {xid : UInt32} {waiting : Pending α}
    (hsome : r.get? flow xid = some waiting) (f : Flow) (x : UInt32) :
    (r.recount flow xid).get? f x =
      if f = flow ∧ x = xid then
        some { waiting with retransmissions := waiting.retransmissions + 1 }
      else r.get? f x := by
  unfold get? recount at *
  rw [List.find?_map]
  have hsame : ((·.is f x) ∘ fun c : Waiting α => c.recount flow xid) = (·.is f x) := by
    funext c
    exact c.is_recount flow xid f x
  rw [hsame]
  cases hfind : r.calls.find? (·.is f x) with
  | none =>
    have hne : ¬ (f = flow ∧ x = xid) := by
      rintro ⟨rfl, rfl⟩
      rw [hfind] at hsome
      cases hsome
    rw [if_neg hne]
    rfl
  | some c =>
    have hc := List.find?_some hfind
    by_cases h : f = flow ∧ x = xid
    · obtain ⟨rfl, rfl⟩ := h
      rw [hfind] at hsome
      cases hsome
      simp [hc, Waiting.recount]
    · have hne : ¬ c.is flow xid = true := by
        rw [Waiting.is_iff] at hc ⊢
        obtain ⟨rfl, rfl⟩ := hc
        exact h
      simp [hne, h, Waiting.recount]

/-- A call that waits is on the list, and no other one has its flow and transaction id. -/
theorem Distinct.split {r : Roster α} (h : r.Distinct) {flow : Flow} {xid : UInt32}
    {call : Pending α} (hget : r.get? flow xid = some call) :
    call.xid = xid ∧ ∃ before behind, r.calls = before ++ ⟨flow, call⟩ :: behind ∧
      (r.erase flow xid).calls = before ++ behind := by
  obtain ⟨c, hfind, rfl⟩ := Option.map_eq_some_iff.mp hget
  obtain ⟨hc, before, behind, hsplit, hbefore⟩ := List.find?_eq_some_iff_append.mp hfind
  obtain ⟨rfl, rfl⟩ := Waiting.is_iff.mp hc
  refine ⟨rfl, before, behind, hsplit, ?_⟩
  have hbehind : ∀ a ∈ behind, (!a.is c.flow c.call.xid) = true := by
    intro a ha
    rw [Distinct, hsplit] at h
    have hrest := (List.pairwise_append.mp h).2.1
    have hapart := (List.pairwise_cons.mp hrest).1 a ha
    rw [Bool.not_eq_true', Bool.eq_false_iff, Ne, Waiting.is_iff]
    rintro ⟨hflow, hxid⟩
    exact hapart ⟨hflow.symm, hxid.symm⟩
  show r.calls.filter (fun a => !a.is c.flow c.call.xid) = _
  rw [hsplit, List.filter_append, List.filter_cons_of_neg (by simp [hc]),
    List.filter_eq_self.mpr hbefore, List.filter_eq_self.mpr hbehind]

theorem Distinct.mem_of_get? {r : Roster α} (h : r.Distinct) {flow : Flow} {xid : UInt32}
    {call : Pending α} (hget : r.get? flow xid = some call) : ⟨flow, call⟩ ∈ r.calls := by
  obtain ⟨-, before, behind, hsplit, -⟩ := h.split hget
  rw [hsplit]
  exact List.mem_append_right _ List.mem_cons_self

theorem Distinct.get?_of_mem {r : Roster α} (h : r.Distinct) {c : Waiting α} (hc : c ∈ r.calls) :
    r.get? c.flow c.call.xid = some c.call := by
  obtain ⟨before, behind, hsplit⟩ := List.append_of_mem hc
  have hbefore : ∀ a ∈ before, (!a.is c.flow c.call.xid) = true := by
    intro a ha
    rw [Distinct, hsplit] at h
    have hapart := (List.pairwise_append.mp h).2.2 a ha c List.mem_cons_self
    rw [Bool.not_eq_true', Bool.eq_false_iff, Ne, Waiting.is_iff]
    exact hapart
  have hself : c.is c.flow c.call.xid = true := Waiting.is_iff.mpr ⟨rfl, rfl⟩
  have hfind : r.calls.find? (·.is c.flow c.call.xid) = some c :=
    List.find?_eq_some_iff_append.mpr ⟨hself, before, behind, hsplit, hbefore⟩
  rw [get?, hfind]
  rfl

end Roster

end NfsWire
