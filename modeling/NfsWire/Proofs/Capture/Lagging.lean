import NfsWire.Proofs.Capture.Refinement

/-!
# A roster that lags behind

A roster need not look for overdue calls everywhere. If at each call or reply it gives up overdue
calls of some flows only, those of the call or reply among them, it lags behind one that gives up
all of them: there are calls left that the other one has told already. That does no harm, because
such a call is given up before its own flow is looked at. `Lags` says how far the two are
apart, and `Lags.step` that they answer each call and reply alike.

It takes that an overdue call stays overdue (`Aging.Keeps`). On a capture in order it does, unless
calls age by time and the time is not known any more (`Aging.keeps_of_before`).
-/

namespace NfsWire

variable {α : Type}

/-! ## Overdue for good -/

/-- What is overdue as of one observation is overdue as of the other. -/
def Aging.Keeps (aging : Aging) (o o' : Observation) : Prop :=
  ∀ seen, aging.overdue seen o = true → aging.overdue seen o' = true

/-- Where calls age by time, observations have times from the first one on that has. -/
def Aging.Timed (aging : Aging) (observations : List Observation) : Prop :=
  match aging with
  | .time _ => observations.Pairwise fun o o' => o.time.isSome → o'.time.isSome
  | _ => True

instance (aging : Aging) (observations : List Observation) : Decidable (aging.Timed observations) :=
  match aging with
  | .time _ => inferInstanceAs (Decidable (observations.Pairwise _))
  | .disabled => inferInstanceAs (Decidable True)
  | .packets _ => inferInstanceAs (Decidable True)

theorem Aging.keeps_of_before {aging : Aging} {o o' : Observation} (h : o.Before o')
    (htimed : (∃ max, aging = .time max) → o.time.isSome → o'.time.isSome) :
    aging.Keeps o o' := by
  intro seen hover
  cases aging with
  | disabled => cases hover
  | packets max =>
    have hlt : seen.seq + max < o.seq := of_decide_eq_true hover
    exact decide_eq_true (Nat.lt_of_lt_of_le hlt h.seq)
  | time max =>
    have htimed := htimed ⟨max, rfl⟩
    unfold overdue at *
    cases ht : seen.time with
    | none => simp [ht] at hover
    | some t =>
      cases hu : o.time with
      | none => simp [ht, hu] at hover
      | some u =>
        obtain ⟨u', hu'⟩ := Option.isSome_iff_exists.mp (htimed (by rw [hu]; rfl))
        have hle := h.time u hu u' hu'
        simp only [ht, hu, decide_eq_true_eq] at hover
        simp only [hu', decide_eq_true_eq]
        omega

theorem Aging.Timed.keeps {aging : Aging} {observations : List Observation}
    (htimed : aging.Timed observations) (h : InCaptureOrder observations) :
    observations.Pairwise aging.Keeps := by
  cases aging with
  | time max =>
    exact (List.Pairwise.and h htimed).imp fun ⟨hbefore, htime⟩ =>
      keeps_of_before hbefore fun _ => htime
  | disabled =>
    exact h.imp fun hbefore => keeps_of_before hbefore fun ⟨_, htime⟩ => by cases htime
  | packets max =>
    exact h.imp fun hbefore => keeps_of_before hbefore fun ⟨_, htime⟩ => by cases htime

/-- A place in front of every capture. -/
def Observation.start : Observation := ⟨0, none⟩

theorem Aging.not_overdue_start (aging : Aging) (seen : Observation) :
    aging.overdue seen .start = false := by
  cases aging with
  | disabled => rfl
  | packets max => simp [overdue, Observation.start]
  | time max =>
    unfold overdue
    cases seen.time <;> rfl

/-- Being overdue as a condition on calls. -/
def Aging.late (aging : Aging) (now : Observation) (_ : Flow) (seen : Observation) : Bool :=
  aging.overdue seen now

theorem Aging.Keeps.not_late {aging : Aging} {o o' : Observation} (h : aging.Keeps o o')
    {flow : Flow} {seen : Observation} (hnot : aging.late o' flow seen = false) :
    aging.late o flow seen = false := by
  rw [Bool.eq_false_iff] at hnot ⊢
  exact fun hlate => hnot (h seen hlate)

/-! ## Calls and replies -/

/-- A call or a reply that is seen. -/
inductive Arrival (α : Type) where
  | call (flow : Flow) (xid : UInt32) (call : α) (seen : Observation)
  | reply (flow : Flow) (xid : UInt32) (seen : Observation)
  deriving DecidableEq, Repr

namespace Arrival

def flow : Arrival α → Flow
  | .call flow .. => flow
  | .reply flow .. => flow

def xid : Arrival α → UInt32
  | .call _ xid .. => xid
  | .reply _ xid _ => xid

def seen : Arrival α → Observation
  | .call _ _ _ seen => seen
  | .reply _ _ seen => seen

/-- What a matcher does with it. -/
def step : Arrival α → Step α
  | .call flow xid x seen => .call flow xid x seen
  | .reply flow xid seen => .reply flow xid seen

@[simp] theorem at_step (a : Arrival α) : a.step.at = a.seen := by
  cases a <;> rfl

end Arrival

namespace Roster

/-- What is done with a call or a reply itself. -/
def observe (r : Roster α) : Arrival α → Roster α × List (MatchEvent α)
  | .call flow xid call seen =>
    match r.get? flow xid with
    | some waiting =>
      (r.recount flow xid, [.retransmission flow xid (waiting.retransmissions + 1) seen])
    | none => (r.add flow { xid, call, seen, retransmissions := 0 }, [])
  | .reply flow xid seen =>
    match r.get? flow xid with
    | some waiting => (r.erase flow xid, [.matched flow waiting seen])
    | none => (r, [.orphan flow xid seen])

/-- A step is a sweep, and then the call or reply itself. -/
theorem step_arrival (r : Roster α) (a : Arrival α) :
    r.step a.step = (((r.sweep a.seen).1.observe a).1,
      (r.sweep a.seen).2 ++ ((r.sweep a.seen).1.observe a).2) := by
  cases a with
  | call flow xid call seen =>
    simp only [step, observe, Arrival.step, Arrival.seen, Step.at]
    cases (r.sweep seen).1.get? flow xid with
    | some waiting => rfl
    | none => simp only [List.append_nil]
  | reply flow xid seen =>
    simp only [step, observe, Arrival.step, Arrival.seen, Step.at]
    cases (r.sweep seen).1.get? flow xid <;> rfl

theorem aging_observe (r : Roster α) (a : Arrival α) : (r.observe a).1.aging = r.aging := by
  cases a with
  | call flow xid call seen => simp only [observe]; split <;> rfl
  | reply flow xid seen => simp only [observe]; split <;> rfl

/-! ## Some calls of a roster -/

/-- The calls of a roster of which a condition on flow and first observation holds. -/
def keep (r : Roster α) (p : Flow → Observation → Bool) : Roster α :=
  { r with calls := r.calls.filter fun c => p c.flow c.call.seen }

section Keep

variable {r : Roster α} {p q : Flow → Observation → Bool} {flow : Flow} {xid : UInt32}

@[simp] theorem aging_keep (r : Roster α) (p : Flow → Observation → Bool) :
    (r.keep p).aging = r.aging := rfl

theorem keep_keep (r : Roster α) (p q : Flow → Observation → Bool) :
    (r.keep p).keep q = r.keep fun flow seen => p flow seen && q flow seen := by
  simp only [keep, List.filter_filter, Bool.and_comm]

theorem keep_congr (h : ∀ c ∈ r.calls, p c.flow c.call.seen = q c.flow c.call.seen) :
    r.keep p = r.keep q := by
  rw [keep, List.filter_congr h]
  rfl

theorem keep_eq_self (h : ∀ c ∈ r.calls, p c.flow c.call.seen = true) : r.keep p = r := by
  rw [keep, List.filter_eq_self.mpr h]

theorem sweep_eq (r : Roster α) (now : Observation) :
    r.sweep now = (r.keep fun flow seen => !r.aging.late now flow seen,
      (r.keep (r.aging.late now)).calls.map Waiting.timeout) := rfl

/-- A condition that holds of the call of a flow and transaction id does not hide it. -/
theorem get?_keep (h : ∀ c ∈ r.calls, c.is flow xid = true → p c.flow c.call.seen = true) :
    (r.keep p).get? flow xid = r.get? flow xid := by
  -- Both look for the first of the same calls.
  have hsame : (r.keep p).calls.filter (·.is flow xid) = r.calls.filter (·.is flow xid) := by
    rw [keep, List.filter_filter]
    refine List.filter_congr fun c hc => ?_
    cases his : c.is flow xid with
    | false => simp
    | true => simp [h c hc his]
  rw [get?, get?, ← List.head?_filter, ← List.head?_filter, hsame]

theorem keep_erase (r : Roster α) (p : Flow → Observation → Bool) (flow : Flow) (xid : UInt32) :
    (r.erase flow xid).keep p = (r.keep p).erase flow xid := by
  simp only [keep, erase, List.filter_filter, Bool.and_comm]

theorem keep_recount (r : Roster α) (p : Flow → Observation → Bool) (flow : Flow)
    (xid : UInt32) : (r.recount flow xid).keep p = (r.keep p).recount flow xid := by
  simp only [keep, recount, List.filter_map]
  congr 2
  refine List.filter_congr fun c _ => ?_
  simp

theorem keep_add (r : Roster α) (p : Flow → Observation → Bool) (flow : Flow)
    (call : Pending α) : (r.add flow call).keep p =
      if p flow call.seen then (r.keep p).add flow call else r.keep p := by
  simp only [keep, add, List.filter_append]
  split
  next h => simp [h]
  next h => simp [h]

/-- Nothing is done where there is no call of the flow and transaction id. -/
theorem erase_eq_self (h : ∀ c ∈ r.calls, c.is flow xid = false) : r.erase flow xid = r := by
  rw [erase, List.filter_eq_self.mpr fun c hc => by rw [h c hc]; rfl]

theorem recount_eq_self (h : ∀ c ∈ r.calls, c.is flow xid = false) :
    r.recount flow xid = r := by
  have hsame : r.calls.map (·.recount flow xid) = r.calls.map id :=
    List.map_congr_left fun c hc => if_neg (by simp [h c hc])
  rw [recount, hsame, List.map_id]

/-- A condition that holds of all that a call or reply can touch makes no difference to it. -/
theorem observe_keep {a : Arrival α}
    (hcalls : ∀ c ∈ r.calls, c.is a.flow a.xid = true → p c.flow c.call.seen = true)
    (hnew : p a.flow a.seen = true) :
    (r.keep p).observe a = ((r.observe a).1.keep p, (r.observe a).2) := by
  have hget : (r.keep p).get? a.flow a.xid = r.get? a.flow a.xid := get?_keep hcalls
  cases a with
  | call flow xid call seen =>
    rw [Arrival.flow, Arrival.xid] at hget
    simp only [observe, hget]
    cases r.get? flow xid with
    | some waiting => simp only [keep_recount]
    | none =>
      have hnew : p flow seen = true := hnew
      simp only [keep_add, hnew, if_true]
  | reply flow xid seen =>
    rw [Arrival.flow, Arrival.xid] at hget
    simp only [observe, hget]
    cases r.get? flow xid with
    | some waiting => simp only [keep_erase]
    | none => rfl

/-- A condition that holds of nothing that a call or reply can touch does not notice it. -/
theorem keep_observe {a : Arrival α}
    (hcalls : ∀ c ∈ r.calls, c.is a.flow a.xid = true → p c.flow c.call.seen = false)
    (hnew : p a.flow a.seen = false) : (r.observe a).1.keep p = r.keep p := by
  have hnone : ∀ c ∈ (r.keep p).calls, c.is a.flow a.xid = false := by
    intro c hc
    obtain ⟨hc, hp⟩ := List.mem_filter.mp hc
    rw [Bool.eq_false_iff]
    intro his
    rw [hcalls c hc his] at hp
    cases hp
  cases a with
  | call flow xid call seen =>
    simp only [observe]
    split
    · exact (keep_recount ..).trans (recount_eq_self hnone)
    · exact (keep_add ..).trans (if_neg (Bool.eq_false_iff.mp hnew))
  | reply flow xid seen =>
    simp only [observe]
    split
    · exact (keep_erase ..).trans (erase_eq_self hnone)
    · rfl

/-- What satisfies a condition does or does not satisfy another one. -/
theorem keep_perm (r : Roster α) (p q : Flow → Observation → Bool) :
    ((r.keep fun flow seen => p flow seen && q flow seen).calls ++
      (r.keep fun flow seen => !p flow seen && q flow seen).calls).Perm (r.keep q).calls := by
  have hsplit := List.filter_append_perm (fun c => p c.flow c.call.seen) (r.keep q).calls
  simp only [keep, List.filter_filter] at hsplit ⊢
  exact hsplit

end Keep

/-! ## Sweeping some flows only -/

/-- Take out and report the calls of some flows that are overdue. -/
def sweepNear (r : Roster α) (near : Flow → Bool) (now : Observation) :
    Roster α × List (MatchEvent α) :=
  (r.keep fun flow seen => !(near flow && r.aging.late now flow seen),
    (r.keep fun flow seen => near flow && r.aging.late now flow seen).calls.map Waiting.timeout)

/-- One step of a roster that lags. -/
def stepNear (r : Roster α) (near : Flow → Bool) (a : Arrival α) :
    Roster α × List (MatchEvent α) :=
  (((r.sweepNear near a.seen).1.observe a).1,
    (r.sweepNear near a.seen).2 ++ ((r.sweepNear near a.seen).1.observe a).2)

section Near

variable {r : Roster α} {near far : Flow → Bool} {a : Arrival α}

theorem aging_stepNear (r : Roster α) (near : Flow → Bool) (a : Arrival α) :
    (r.stepNear near a).1.aging = r.aging := aging_observe _ _

/-- To the flows that are swept nothing else matters. -/
theorem step_keep_near (hnear : near a.flow = true) :
    (r.keep fun flow _ => near flow).step a.step =
      ((r.stepNear near a).1.keep (fun flow _ => near flow), (r.stepNear near a).2) := by
  have hsweep : (r.keep fun flow _ => near flow).sweep a.seen =
      ((r.sweepNear near a.seen).1.keep (fun flow _ => near flow),
        (r.sweepNear near a.seen).2) := by
    simp only [sweep_eq, sweepNear, keep_keep, aging_keep]
    congr 1
    refine keep_congr fun c _ => ?_
    cases near c.flow <;> simp
  have hcalls : ∀ c ∈ (r.sweepNear near a.seen).1.calls,
      c.is a.flow a.xid = true → near c.flow = true := by
    intro c _ his
    rw [(Waiting.is_iff.mp his).1, hnear]
  rw [step_arrival, hsweep, observe_keep hcalls hnear]
  rfl

/-- Other flows are left alone. -/
theorem keep_stepNear (hnear : near a.flow = true)
    (hfar : ∀ flow, far flow = true → near flow = false) :
    (r.stepNear near a).1.keep (fun flow _ => far flow) = r.keep fun flow _ => far flow := by
  have hself : far a.flow = false := by
    rw [Bool.eq_false_iff]
    intro h
    rw [hfar _ h] at hnear
    cases hnear
  have hcalls : ∀ c ∈ (r.sweepNear near a.seen).1.calls,
      c.is a.flow a.xid = true → far c.flow = false := by
    intro c _ his
    rw [(Waiting.is_iff.mp his).1, hself]
  rw [stepNear, keep_observe hcalls hself, sweepNear, keep_keep]
  refine keep_congr fun c _ => ?_
  cases h : far c.flow with
  | false => simp
  | true => simp [hfar _ h]

end Near

end Roster

/-! ## How far behind -/

/-- The roster `behind` still has calls that were overdue at `now` and are gone from `ahead`; their
timeouts are missing from what was told so far. -/
structure Lags (now : Observation) (behind ahead : Roster α) (told told' : List (MatchEvent α)) :
    Prop where
  calls : ahead = behind.keep fun flow seen => !behind.aging.late now flow seen
  timeouts : told'.Perm (told ++ (behind.keep (behind.aging.late now)).calls.map Waiting.timeout)

namespace Lags

variable {now : Observation} {behind ahead : Roster α} {told told' : List (MatchEvent α)}

theorem new (aging : Aging) :
    Lags (α := α) .start (Roster.new aging) (Roster.new aging) [] [] :=
  ⟨rfl, .refl _⟩

theorem aging (h : Lags now behind ahead told told') : ahead.aging = behind.aging := by
  rw [h.calls]
  rfl

theorem of_perm {many one : List (MatchEvent α)} (h : Lags now behind ahead told told')
    (hmany : told.Perm many) (hone : told'.Perm one) : Lags now behind ahead many one :=
  ⟨h.calls, hone.symm.trans (h.timeouts.trans (hmany.append_right _))⟩

section Step

variable {near : Flow → Bool} {now' : Observation}

/-- A sweep of everything catches up, also after a sweep of some flows. -/
theorem sweep_eq (h : Lags now behind ahead told told') (hkeeps : behind.aging.Keeps now now') :
    (ahead.sweep now').1 =
      (behind.sweepNear near now').1.keep fun flow seen => !behind.aging.late now' flow seen := by
  rw [Roster.sweep_eq, h.aging, h.calls]
  simp only [Roster.sweepNear, Roster.keep_keep]
  refine Roster.keep_congr fun c _ => ?_
  cases hlate' : behind.aging.late now' c.flow c.call.seen with
  | true => simp
  | false => simp [hkeeps.not_late hlate']

/-- What the one tells of overdue calls, the other one tells in part and has left in part. -/
theorem sweep_perm (h : Lags now behind ahead told told')
    (hkeeps : behind.aging.Keeps now now') (near : Flow → Bool) :
    (told' ++ (ahead.sweep now').2).Perm (told ++ (behind.sweepNear near now').2 ++
      ((behind.sweepNear near now').1.keep (behind.aging.late now')).calls.map
        Waiting.timeout) := by
  have hbefore : behind.keep (behind.aging.late now) =
      behind.keep fun flow seen =>
        behind.aging.late now flow seen && behind.aging.late now' flow seen := by
    refine Roster.keep_congr fun c _ => ?_
    cases hlate' : behind.aging.late now' c.flow c.call.seen with
    | true => simp
    | false => simp [hkeeps.not_late hlate']
  have hafter : (behind.sweepNear near now').1.keep (behind.aging.late now') =
      behind.keep fun flow seen => !near flow && behind.aging.late now' flow seen := by
    rw [Roster.sweepNear, Roster.keep_keep]
    refine Roster.keep_congr fun c _ => ?_
    cases near c.flow <;> simp
  have hahead : (ahead.sweep now').2 = (behind.keep fun flow seen =>
      !behind.aging.late now flow seen && behind.aging.late now' flow seen).calls.map
        Waiting.timeout := by
    simp only [Roster.sweep_eq, h.calls, Roster.aging_keep, Roster.keep_keep]
  have hone := (behind.keep_perm (behind.aging.late now) (behind.aging.late now')).map
    Waiting.timeout
  have hmany := (behind.keep_perm (fun flow _ => near flow) (behind.aging.late now')).map
    Waiting.timeout
  rw [List.map_append] at hone hmany
  have htimeouts := h.timeouts
  rw [hbefore] at htimeouts
  rw [hahead, hafter]
  calc told' ++ _
    _ |>.Perm (told ++ _ ++ _) := htimeouts.append_right _
    _ |>.Perm (told ++ (behind.keep (behind.aging.late now')).calls.map Waiting.timeout) := by
      rw [List.append_assoc]
      exact hone.append_left told
    _ |>.Perm (told ++ _ ++ _) := by
      rw [List.append_assoc]
      exact (hmany.append_left told).symm

/-- **A roster that lags answers calls and replies alike**, and what it is late with is overdue. -/
theorem step (h : Lags now behind ahead told told') (near : Flow → Bool) {a : Arrival α}
    (hnear : near a.flow = true) (hkeeps : behind.aging.Keeps now a.seen) :
    ((behind.sweepNear near a.seen).1.observe a).2 = ((ahead.sweep a.seen).1.observe a).2 ∧
      Lags a.seen (behind.stepNear near a).1 (ahead.step a.step).1
        (told ++ (behind.sweepNear near a.seen).2) (told' ++ (ahead.sweep a.seen).2) := by
  -- Calls that the arrival can touch are not overdue: their flow has just been swept.
  have hcalls : ∀ c ∈ (behind.sweepNear near a.seen).1.calls, c.is a.flow a.xid = true →
      behind.aging.late a.seen c.flow c.call.seen = false := by
    intro c hc his
    have hkept := (List.mem_filter.mp hc).2
    simpa [(Waiting.is_iff.mp his).1, hnear] using hkept
  have hnew : behind.aging.late a.seen a.flow a.seen = false := Aging.overdue_self _ _
  have hobserve := Roster.observe_keep (r := (behind.sweepNear near a.seen).1)
    (p := fun flow seen => !behind.aging.late a.seen flow seen) (a := a)
    (fun c hc his => by simp [hcalls c hc his]) (by simp [hnew])
  rw [← h.sweep_eq hkeeps] at hobserve
  have haging := behind.aging_stepNear near a
  refine ⟨by rw [hobserve], ?_, ?_⟩
  · rw [Roster.step_arrival, hobserve, haging]
    rfl
  · rw [haging, Roster.stepNear, Roster.keep_observe hcalls hnew]
    exact h.sweep_perm hkeeps near

end Step

end Lags

end NfsWire
