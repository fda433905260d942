import NfsWire.Proofs.Capture.Roster
import NfsWire.Proofs.Capture.Store

/-!
# The waiting calls as one list

A matcher keeps three things in step: flows with their calls, a queue of tickets, and a number.
`Matcher.waiting` reads the flows as one list, and everything that is done with a matcher is told
here by what it does to that list, up to its order: `take` takes one call out, `put` lets one in,
and serving the queue takes out some calls that are overdue (`Matcher.GivesUp`).

Nothing here asks for observations in order. What it rests on is `Matcher.WellFormed`: a flow is
listed once and only with calls, no two calls of a flow share a transaction id, and the number is
the length of the list.
-/

namespace NfsWire

variable {α : Type}

/-! ## Well-formed stores -/

/-- Two waiting calls differ in flow or transaction id. -/
def Apart (c c' : Flow × Pending α) : Prop := ¬ (c.1 = c'.1 ∧ c.2.xid = c'.2.xid)

theorem Apart.symm {c c' : Flow × Pending α} (h : Apart c c') : Apart c' c :=
  fun ⟨hflow, hxid⟩ => h ⟨hflow.symm, hxid.symm⟩

/-- All calls of some flows. -/
def listed (flows : List (Flow × Calls α)) : List (Flow × Pending α) :=
  flows.flatMap fun (flow, calls) => calls.map (flow, ·)

/-- Flows are listed once, and with calls of different transaction ids. -/
structure Keyed (flows : List (Flow × Calls α)) : Prop where
  distinct : flows.Pairwise (·.1 ≠ ·.1)
  nonempty : ∀ f ∈ flows, f.2 ≠ []
  calls : ∀ f ∈ flows, f.2.Pairwise (·.xid ≠ ·.xid)

/-- The store has each call once, and the matcher knows how many there are. -/
structure Matcher.WellFormed (m : Matcher α) : Prop where
  keyed : Keyed m.flows
  pending : m.pending = m.waiting.length

theorem Matcher.WellFormed.new (settings : MatcherSettings) :
    (Matcher.new settings : Matcher α).WellFormed :=
  ⟨⟨.nil, nofun, nofun⟩, rfl⟩

/-! ## The calls of one flow -/

namespace Calls

theorem xid_of_find? {calls : Calls α} {xid : UInt32} {call : Pending α}
    (h : calls.find? xid = some call) : call.xid = xid := by
  simpa using List.find?_some h

theorem erase_eq_self {calls : Calls α} {xid : UInt32} (h : calls.find? xid = none) :
    calls.erase xid = calls := by
  refine List.filter_eq_self.mpr fun call hcall => ?_
  simpa using List.find?_eq_none.mp h call hcall

theorem perm_cons_erase {calls : Calls α} (hapart : calls.Pairwise (·.xid ≠ ·.xid))
    {xid : UInt32} {call : Pending α} (h : calls.find? xid = some call) :
    calls.Perm (call :: calls.erase xid) := by
  obtain ⟨hcall, before, behind, rfl, hbefore⟩ := List.find?_eq_some_iff_append.mp h
  have hxid : call.xid = xid := by simpa using hcall
  -- `erase` takes out all calls of the transaction id; behind the first there is no other.
  have hbehind : ∀ c ∈ behind, (c.xid != xid) = true := by
    intro c hc
    have hne := (List.pairwise_cons.mp (List.pairwise_append.mp hapart).2.1).1 c hc
    simpa [hxid] using hne.symm
  have herase : Calls.erase (before ++ call :: behind) xid = before ++ behind := by
    unfold Calls.erase
    rw [List.filter_append, List.filter_cons_of_neg (by simp [hxid]),
      List.filter_eq_self.mpr hbehind, List.filter_eq_self.mpr fun c hc => by
        simpa [bne] using hbefore c hc]
  rw [herase]
  exact List.perm_middle

theorem find?_of_mem {calls : Calls α} (hapart : calls.Pairwise (·.xid ≠ ·.xid))
    {call : Pending α} (h : call ∈ calls) : calls.find? call.xid = some call := by
  obtain ⟨before, behind, rfl⟩ := List.append_of_mem h
  refine List.find?_eq_some_iff_append.mpr ⟨by simp, before, behind, rfl, fun c hc => ?_⟩
  have hne := (List.pairwise_append.mp hapart).2.2 c hc call List.mem_cons_self
  simpa using hne

end Calls

/-! ## The calls of all flows -/

namespace Matcher

variable {m : Matcher α} {flow : Flow} {xid : UInt32} {call : Pending α}

/-- The calls of all flows but one. -/
def elsewhere (m : Matcher α) (flow : Flow) : List (Flow × Pending α) :=
  listed (m.flows.filter (·.1 != flow))

theorem waiting_setCalls (m : Matcher α) (flow : Flow) (calls : Calls α) :
    (m.setCalls flow calls).waiting = m.elsewhere flow ++ calls.map (flow, ·) := by
  unfold waiting setCalls elsewhere listed
  cases calls with
  | nil => simp
  | cons call rest => simp

end Matcher

theorem Keyed.listed_perm {flows : List (Flow × Calls α)} (h : Keyed flows) (flow : Flow) :
    (listed flows).Perm (listed (flows.filter (·.1 != flow)) ++
      (((flows.find? (·.1 == flow)).map (·.2)).getD []).map (flow, ·)) := by
  -- The rest of the list needs no more than that its flows differ.
  have hdistinct := h.distinct
  clear h
  induction flows with
  | nil => exact .nil
  | cons f rest ih =>
    obtain ⟨hfirst, hrest⟩ := List.pairwise_cons.mp hdistinct
    by_cases hf : f.1 = flow
    · have hothers : rest.filter (·.1 != flow) = rest :=
        List.filter_eq_self.mpr fun f' hf' => by simpa [← hf] using (hfirst f' hf').symm
      rw [List.filter_cons_of_neg (by simp [hf]), List.find?_cons_of_pos (by simp [hf]), hothers]
      subst hf
      exact List.perm_append_comm
    · rw [List.filter_cons_of_pos (by simp [hf]), List.find?_cons_of_neg (by simp [hf])]
      simp only [listed, List.flatMap_cons, List.append_assoc]
      exact (ih hrest).append_left _

namespace Matcher.WellFormed

variable {m : Matcher α} {flow : Flow} {xid : UInt32} {call : Pending α}

theorem calls_apart (h : m.WellFormed) (flow : Flow) :
    (m.calls flow).Pairwise (·.xid ≠ ·.xid) := by
  unfold Matcher.calls
  cases hfind : m.flows.find? (·.1 == flow) with
  | none => exact .nil
  | some f => exact h.keyed.calls f (List.mem_of_find?_eq_some hfind)

theorem waiting_perm (h : m.WellFormed) (flow : Flow) :
    m.waiting.Perm (m.elsewhere flow ++ (m.calls flow).map (flow, ·)) :=
  h.keyed.listed_perm flow

/-- No two waiting calls share flow and transaction id. -/
theorem apart (h : m.WellFormed) : m.waiting.Pairwise Apart := by
  refine List.pairwise_flatMap.mpr ⟨fun f hf => ?_, h.keyed.distinct.imp ?_⟩
  · refine List.pairwise_map.mpr ((h.keyed.calls f hf).imp fun hne => ?_)
    exact fun heq => hne heq.2
  · intro f f' hne c hc c' hc'
    obtain ⟨call, -, rfl⟩ := List.mem_map.mp hc
    obtain ⟨call', -, rfl⟩ := List.mem_map.mp hc'
    exact fun heq => hne heq.1

/-- Looking up finds what is listed. -/
theorem get?_eq_some_iff (h : m.WellFormed) :
    m.get? flow xid = some call ↔ (flow, call) ∈ m.waiting ∧ call.xid = xid := by
  constructor
  · intro hget
    have hxid : call.xid = xid := Calls.xid_of_find? hget
    have hcalls : call ∈ m.calls flow := List.mem_of_find?_eq_some hget
    have hhere : (flow, call) ∈ (m.calls flow).map (flow, ·) := List.mem_map_of_mem hcalls
    exact ⟨(h.waiting_perm flow).mem_iff.mpr (List.mem_append_right _ hhere), hxid⟩
  · rintro ⟨hmem, rfl⟩
    rcases List.mem_append.mp ((h.waiting_perm flow).mem_iff.mp hmem) with helse | hhere
    · -- Elsewhere there are only calls of other flows.
      obtain ⟨f, hf, hcall⟩ := List.mem_flatMap.mp helse
      obtain ⟨c, -, heq⟩ := List.mem_map.mp hcall
      have hne := (List.mem_filter.mp hf).2
      rw [congrArg Prod.fst heq] at hne
      simp at hne
    · obtain ⟨c, hc, heq⟩ := List.mem_map.mp hhere
      cases heq
      exact Calls.find?_of_mem (h.calls_apart flow) hc

theorem get?_eq_none_iff (h : m.WellFormed) :
    m.get? flow xid = none ↔ ∀ call, (flow, call) ∈ m.waiting → call.xid ≠ xid := by
  constructor
  · intro hnone call hmem hxid
    rw [h.get?_eq_some_iff.mpr ⟨hmem, hxid⟩] at hnone
    cases hnone
  · intro hall
    cases hget : m.get? flow xid with
    | none => rfl
    | some call =>
      obtain ⟨hmem, hxid⟩ := h.get?_eq_some_iff.mp hget
      exact absurd hxid (hall call hmem)

end Matcher.WellFormed

/-! ## Letting in and taking out -/

namespace Matcher

theorem waiting_take_eq (m : Matcher α) (flow : Flow) (xid : UInt32) :
    (m.take flow xid).waiting =
      m.elsewhere flow ++ ((m.calls flow).erase xid).map (flow, ·) :=
  waiting_setCalls m flow _

/-- A call is let in, in place of the one of its transaction id. -/
theorem waiting_put (m : Matcher α) (flow : Flow) (call : Pending α) :
    (m.put flow call).waiting.Perm ((flow, call) :: (m.take flow call.xid).waiting) := by
  rw [put, waiting_setCalls, waiting_take_eq, List.map_append, ← List.append_assoc]
  exact List.perm_append_singleton ..

namespace WellFormed

variable {m : Matcher α} {flow : Flow} {xid : UInt32} {call : Pending α}

/-- A call is taken out. -/
theorem waiting_take (h : m.WellFormed) (hget : m.get? flow xid = some call) :
    m.waiting.Perm ((flow, call) :: (m.take flow xid).waiting) := by
  rw [waiting_take_eq]
  have hcalls := Calls.perm_cons_erase (h.calls_apart flow) hget
  exact ((h.waiting_perm flow).trans ((hcalls.map _).append_left _)).trans List.perm_middle

/-- Taking out a call that is not there changes nothing. -/
theorem waiting_take_none (h : m.WellFormed) (hget : m.get? flow xid = none) :
    m.waiting.Perm (m.take flow xid).waiting := by
  rw [waiting_take_eq, Calls.erase_eq_self hget]
  exact h.waiting_perm flow

theorem keyed_setCalls (h : m.WellFormed) {calls : Calls α}
    (hcalls : calls.Pairwise (·.xid ≠ ·.xid)) : Keyed (m.setCalls flow calls).flows := by
  have hsub : (m.flows.filter (·.1 != flow)).Sublist m.flows := List.filter_sublist
  have hothers : Keyed (m.flows.filter (·.1 != flow)) :=
    ⟨h.keyed.distinct.sublist hsub, fun f hf => h.keyed.nonempty f (hsub.subset hf),
      fun f hf => h.keyed.calls f (hsub.subset hf)⟩
  cases calls with
  | nil => exact hothers
  | cons call rest =>
    have hin : ∀ f ∈ m.flows.filter (·.1 != flow) ++ [(flow, call :: rest)],
        f ∈ m.flows.filter (·.1 != flow) ∨ f = (flow, call :: rest) := by
      intro f hf
      simpa using hf
    refine ⟨List.pairwise_append.mpr ⟨hothers.distinct, List.pairwise_singleton .., ?_⟩,
      fun f hf => ?_, fun f hf => ?_⟩
    · intro f hf f' hf'
      cases List.mem_singleton.mp hf'
      simpa using (List.mem_filter.mp hf).2
    · rcases hin f hf with hmem | rfl
      · exact hothers.nonempty f hmem
      · exact List.cons_ne_nil call rest
    · rcases hin f hf with hmem | rfl
      · exact hothers.calls f hmem
      · exact hcalls

theorem erase_apart (h : m.WellFormed) (flow : Flow) (xid : UInt32) :
    ((m.calls flow).erase xid).Pairwise (·.xid ≠ ·.xid) :=
  (h.calls_apart flow).sublist List.filter_sublist

theorem keyed_put (h : m.WellFormed) (flow : Flow) (call : Pending α) :
    Keyed (m.put flow call).flows := by
  refine h.keyed_setCalls (List.pairwise_append.mpr
    ⟨h.erase_apart flow call.xid, List.pairwise_singleton .., fun c hc c' hc' => ?_⟩)
  cases List.mem_singleton.mp hc'
  simpa using (List.mem_filter.mp hc).2

theorem take (h : m.WellFormed) (hget : m.get? flow xid = some call) :
    (m.take flow xid).WellFormed := by
  refine ⟨h.keyed_setCalls (h.erase_apart flow xid), ?_⟩
  have hlength := (h.waiting_take hget).length_eq
  have hpending : m.pending = m.waiting.length := h.pending
  show m.pending - 1 = _
  rw [hpending, hlength, List.length_cons]
  rfl

theorem length_take (h : m.WellFormed) (hget : m.get? flow xid = some call) :
    m.length = (m.take flow xid).length + 1 := by
  have hm : m.length = m.waiting.length := h.pending
  have htake : (m.take flow xid).length = (m.take flow xid).waiting.length :=
    (h.take hget).pending
  rw [hm, htake, (h.waiting_take hget).length_eq, List.length_cons]

/-- A call that is counted again is still one call. -/
theorem put (h : m.WellFormed) {call' : Pending α} (hget : m.get? flow call.xid = some call') :
    (m.put flow call).WellFormed := by
  refine ⟨h.keyed_put flow call, ?_⟩
  show m.pending = _
  rw [h.pending, (h.waiting_take hget).length_eq, (waiting_put m flow call).length_eq]
  rfl

theorem waiting_enrol (h : m.WellFormed) (hget : m.get? flow xid = none) (call : α)
    (seen : Observation) :
    (m.enrol flow xid call seen).waiting.Perm
      ((flow, { xid, call, seen, retransmissions := 0 }) :: m.waiting) := by
  have hput := waiting_put m flow { xid, call, seen, retransmissions := 0 }
  exact hput.trans ((h.waiting_take_none hget).symm.cons _)

theorem enrol (h : m.WellFormed) (hget : m.get? flow xid = none) (call : α)
    (seen : Observation) : (m.enrol flow xid call seen).WellFormed := by
  refine ⟨h.keyed_put flow _, ?_⟩
  show m.pending + 1 = _
  rw [h.pending, (h.waiting_enrol hget call seen).length_eq]
  rfl

end WellFormed

/-! ## Giving up -/

/-- The event of a call that is given up. -/
def timeoutOf (c : Flow × Pending α) : MatchEvent α := .timeout c.1 c.2

/-- What happens when overdue calls are given up: those in `gone` are taken out and told. -/
structure GivesUp (m : Matcher α) (now : Observation) (r : Matcher α × List (MatchEvent α))
    (gone : List (Flow × Pending α)) : Prop where
  events : r.2 = gone.map timeoutOf
  waiting : m.waiting.Perm (gone ++ r.1.waiting)
  overdue : ∀ c ∈ gone, m.settings.aging.overdue c.2.seen now = true
  wellFormed : r.1.WellFormed
  settings : r.1.settings = m.settings

/-- **Serving tickets gives up overdue calls and does nothing else**, in whatever order the calls
were seen. -/
theorem WellFormed.serve {m : Matcher α} (h : m.WellFormed) (now : Observation)
    (tickets : List Ticket) : ∃ gone, m.GivesUp now (m.serve now tickets) gone := by
  -- The matcher loses a call at each overdue ticket, so the induction is for all matchers.
  induction tickets generalizing m with
  | nil => exact ⟨[], rfl, .refl _, nofun, ⟨h.keyed, h.pending⟩, rfl⟩
  | cons t rest ih =>
    unfold Matcher.serve
    cases hget : m.get? t.flow t.xid with
    | none => exact ih h
    | some call =>
      by_cases hseq : call.seen.seq = t.seq
      · simp only [hseq, if_true]
        cases hover : m.isOverdue call now with
        | false => exact ⟨[], rfl, .refl _, nofun, ⟨h.keyed, h.pending⟩, rfl⟩
        | true =>
          obtain ⟨gone, hgone⟩ := ih (h.take hget)
          refine ⟨(t.flow, call) :: gone, ?_, ?_, ?_, hgone.wellFormed, hgone.settings⟩
          · exact congrArg (MatchEvent.timeout t.flow call :: ·) hgone.events
          · exact (h.waiting_take hget).trans (hgone.waiting.cons _)
          · intro c hc
            rcases List.mem_cons.mp hc with rfl | hc
            · rw [← m.isOverdue_eq]
              exact hover
            · exact hgone.overdue c hc
      · simp only [hseq, if_false]
        exact ih h

theorem WellFormed.expire {m : Matcher α} (h : m.WellFormed) (now : Observation) :
    ∃ gone, m.GivesUp now (m.expire now) gone :=
  h.serve now m.order

/-! ## Calls and replies

What is seen is let in or answered by what is left after giving up. -/

variable {m : Matcher α} {flow : Flow} {xid : UInt32} {seen : Observation} {waiting : Pending α}

theorem onCall_new (hget : (m.expire seen).1.get? flow xid = none) (call : α) :
    m.onCall flow xid call seen =
      ((m.expire seen).1.enrol flow xid call seen, (m.expire seen).2) := by
  simp only [onCall, hget]

theorem onCall_again (hget : (m.expire seen).1.get? flow xid = some waiting) (call : α) :
    m.onCall flow xid call seen =
      ((m.expire seen).1.put flow { waiting with retransmissions := waiting.retransmissions + 1 },
        (m.expire seen).2 ++
          [.retransmission flow xid (waiting.retransmissions + 1) seen]) := by
  simp only [onCall, hget]

theorem onReply_matched (hget : (m.expire seen).1.get? flow xid = some waiting) :
    m.onReply flow xid seen =
      ((m.expire seen).1.take flow xid, (m.expire seen).2 ++ [.matched flow waiting seen]) := by
  simp only [onReply, hget]

theorem onReply_orphan (hget : (m.expire seen).1.get? flow xid = none) :
    m.onReply flow xid seen =
      ((m.expire seen).1, (m.expire seen).2 ++ [.orphan flow xid seen]) := by
  simp only [onReply, hget]

end Matcher

end NfsWire
