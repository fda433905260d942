import NfsWire.Proofs.Capture.Roster
import NfsWire.Proofs.Capture.Store

/-!
# The matcher does what the roster does

The matcher never looks for overdue calls; it serves tickets from the front of a queue and stops at
the first call that is not overdue. On a capture in order that finds them all:

* every call that can ever be overdue has a ticket in the queue (`Queued.complete`);
* tickets are in the order of their numbers (`Queued.sorted`), and of two observations of a capture
  the one with the smaller number is overdue no later than the other
  (`Aging.overdue_of_before`).

So when the call of a ticket is not overdue, no call is whose ticket comes later. Stale tickets may
be skipped because no waiting call relies on them: a ticket says the number of its call, and a call
that has taken the place of another one has its own ticket behind.

What is left open is the order of timeouts with one number. A call that is replaced within one
number leaves a ticket that fits its successor, which may then be given up ahead of its turn.
`Alike` allows for that and for nothing else.
-/

namespace NfsWire

variable {α : Type}

/-! ## Events up to the order of timeouts of one number -/

/-- The same events, except that timeouts of calls with one number may be in any order. -/
inductive Alike : List (MatchEvent α) → List (MatchEvent α) → Prop where
  | nil : Alike [] []
  | cons (e : MatchEvent α) {es es' : List (MatchEvent α)} :
      Alike es es' → Alike (e :: es) (e :: es')
  | swap {c c' : Waiting α} (es : List (MatchEvent α)) : c.call.seen.seq = c'.call.seen.seq →
      Alike (c.timeout :: c'.timeout :: es) (c'.timeout :: c.timeout :: es)
  | trans {es es' es'' : List (MatchEvent α)} : Alike es es' → Alike es' es'' → Alike es es''

namespace Alike

variable {es es' : List (MatchEvent α)}

theorem refl (es : List (MatchEvent α)) : Alike es es := by
  induction es with
  | nil => exact .nil
  | cons e es ih => exact .cons e ih

theorem append_right (h : Alike es es') (fs : List (MatchEvent α)) :
    Alike (es ++ fs) (es' ++ fs) := by
  induction h with
  | nil => exact refl fs
  | cons e _ ih => exact .cons e ih
  | swap es hseq => exact .swap (es ++ fs) hseq
  | trans _ _ ih ih' => exact ih.trans ih'

theorem perm (h : Alike es es') : es.Perm es' := by
  induction h with
  | nil => exact .nil
  | cons e _ ih => exact .cons e ih
  | swap es _ => exact .swap _ _ es
  | trans _ _ ih ih' => exact ih.trans ih'

/-- A timeout may be moved over those of its number. -/
theorem move {c : Waiting α}
    (h : ∀ e ∈ es, ∃ d : Waiting α, e = d.timeout ∧ d.call.seen.seq = c.call.seen.seq)
    (fs : List (MatchEvent α)) : Alike (c.timeout :: (es ++ fs)) (es ++ c.timeout :: fs) := by
  induction es with
  | nil => exact refl _
  | cons e es ih =>
    obtain ⟨⟨d, rfl, hseq⟩, hrest⟩ := List.forall_mem_cons.mp h
    exact (swap _ hseq.symm).trans (.cons _ (ih hrest))

end Alike

/-! ## Aging -/

/-- Whether a call seen there is ever overdue. -/
def Aging.ages (aging : Aging) (seen : Observation) : Prop :=
  ∃ now, aging.overdue seen now = true

/-- The matcher queues the calls that are ever overdue. -/
theorem Matcher.canAge_iff (m : Matcher α) (seen : Observation) :
    m.canAge seen = true ↔ m.settings.aging.ages seen := by
  unfold canAge Aging.ages
  cases m.settings.aging with
  | disabled => simp [Aging.overdue]
  | packets max =>
    have hlate : (Aging.packets max).overdue seen ⟨seen.seq + max + 1, none⟩ = true := by
      simp [Aging.overdue]
    exact iff_of_true rfl ⟨_, hlate⟩
  | time max =>
    cases htime : seen.time with
    | none => simp [Aging.overdue, htime]
    | some t =>
      have hlate : (Aging.time max).overdue seen
          ⟨0, some ⟨t.nanoseconds + max.nanoseconds + 1⟩⟩ = true := by
        simp [Aging.overdue, htime]
      exact iff_of_true rfl ⟨_, hlate⟩

/-- Of two calls that age, the one seen first is overdue no later. -/
theorem Aging.overdue_of_before {aging : Aging} {o o' now : Observation} (hages : aging.ages o)
    (hbefore : o.Before o') (h : aging.overdue o' now = true) : aging.overdue o now = true := by
  obtain ⟨later, hlater⟩ := hages
  cases aging with
  | disabled => cases h
  | packets max =>
    have hseq := hbefore.seq
    have hlt : o'.seq + max < now.seq := of_decide_eq_true h
    exact decide_eq_true (by omega)
  | time max =>
    unfold overdue at *
    cases ht : o.time with
    | none => simp [ht] at hlater
    | some t =>
      cases ht' : o'.time with
      | none => simp [ht'] at h
      | some t' =>
        have hle : t.nanoseconds ≤ t'.nanoseconds := hbefore.time t ht t' ht'
        cases hnow : now.time with
        | none => simp [hnow] at h
        | some u =>
          simp only [ht', hnow, decide_eq_true_eq] at h
          simp only [decide_eq_true_eq]
          omega

/-- Nothing is overdue where it was seen. -/
theorem Aging.overdue_self (aging : Aging) (o : Observation) : aging.overdue o o = false := by
  unfold overdue
  cases aging with
  | disabled => rfl
  | packets max => simp
  | time max => cases o.time <;> simp

/-! ## What ties the matcher to the roster -/

/-- From outside both look the same. -/
structure Agrees (m : Matcher α) (r : Roster α) : Prop where
  aging : m.settings.aging = r.aging
  get? : ∀ flow xid, m.get? flow xid = r.get? flow xid
  length : m.length = r.length

/-- The roster has each call once, in the order of their numbers. -/
structure Roster.Ordered (r : Roster α) : Prop where
  distinct : r.Distinct
  arrival : r.calls.Pairwise (·.call.seen.seq ≤ ·.call.seen.seq)

/-- The ticket of a waiting call. -/
def Waiting.ticket (c : Waiting α) : Ticket := ⟨c.call.seen.seq, c.flow, c.call.xid⟩

/-- The queue is good for finding what is overdue. -/
structure Queued (past : List Observation) (order : List Ticket) (r : Roster α) : Prop where
  sorted : order.Pairwise (·.seq ≤ ·.seq)
  /-- Only calls that age ever had a ticket. -/
  ages : ∀ t ∈ order, ∃ o ∈ past, o.seq = t.seq ∧ r.aging.ages o
  complete : ∀ c ∈ r.calls, r.aging.ages c.call.seen → c.ticket ∈ order

/-- The matcher after a run is in step with the roster after it. -/
structure Tracks (past : List Observation) (m : Matcher α) (r : Roster α) : Prop where
  agrees : Agrees m r
  ordered : r.Ordered
  seen : ∀ c ∈ r.calls, c.call.seen ∈ past
  queued : Queued past m.order r

/-! ## Serving the queue -/

namespace Roster

theorem sweep_eq_self {r : Roster α} {now : Observation}
    (h : ∀ c ∈ r.calls, r.overdue now c = false) : r.sweep now = (r, []) := by
  have hkeep : r.calls.filter (fun c => !r.overdue now c) = r.calls :=
    List.filter_eq_self.mpr fun c hc => by rw [h c hc]; rfl
  have hdrop : r.calls.filter (r.overdue now) = [] :=
    List.filter_eq_nil_iff.mpr fun c hc => by rw [h c hc]; exact Bool.false_ne_true
  rw [sweep, hkeep, hdrop]
  rfl

/-- Taking an overdue call out first changes nothing about what a sweep leaves. -/
theorem sweep_erase {r : Roster α} {now : Observation} {c : Waiting α}
    {before behind : List (Waiting α)} {flow : Flow} {xid : UInt32}
    (hsplit : r.calls = before ++ c :: behind)
    (herase : (r.erase flow xid).calls = before ++ behind) (hover : r.overdue now c = true) :
    ((r.erase flow xid).sweep now).1 = (r.sweep now).1 := by
  have hskip : (c :: behind).filter (fun c => !r.overdue now c) =
      behind.filter (fun c => !r.overdue now c) :=
    List.filter_cons_of_neg (by simp [hover])
  show ({ r with calls := (r.erase flow xid).calls.filter fun c => !r.overdue now c } : Roster α) =
    { r with calls := r.calls.filter fun c => !r.overdue now c }
  rw [hsplit, herase, List.filter_append, List.filter_append, hskip]

theorem Ordered.of_sublist {r r' : Roster α} (h : r.Ordered) (hsub : r'.calls.Sublist r.calls) :
    r'.Ordered :=
  ⟨h.distinct.sublist hsub, h.arrival.sublist hsub⟩

end Roster

/-- A ticket that no waiting call has may be thrown away. -/
theorem Queued.skip {past : List Observation} {t : Ticket} {rest : List Ticket} {r : Roster α}
    (h : Queued past (t :: rest) r) (hstale : ∀ c ∈ r.calls, c.ticket ≠ t) :
    Queued past rest r := by
  refine ⟨(List.pairwise_cons.mp h.sorted).2, fun u hu => h.ages u (List.mem_cons_of_mem _ hu), ?_⟩
  intro c hc hages
  rcases List.mem_cons.mp (h.complete c hc hages) with heq | hmem
  · exact absurd heq (hstale c hc)
  · exact hmem

/-- Fewer calls need no more tickets. -/
theorem Queued.of_subset {past : List Observation} {order : List Ticket} {r r' : Roster α}
    (h : Queued past order r) (haging : r'.aging = r.aging) (hsub : r'.calls ⊆ r.calls) :
    Queued past order r' := by
  refine ⟨h.sorted, ?_, ?_⟩
  · rw [haging]
    exact h.ages
  · rw [haging]
    exact fun c hc => h.complete c (hsub hc)

/-- When the call of the first ticket is taken out, the ticket has served its purpose. -/
theorem Queued.erase {past : List Observation} {t : Ticket} {rest : List Ticket} {r : Roster α}
    (h : Queued past (t :: rest) r) : Queued past rest (r.erase t.flow t.xid) := by
  have hsub : (r.erase t.flow t.xid).calls ⊆ r.calls := List.filter_sublist.subset
  have hfewer : Queued past (t :: rest) (r.erase t.flow t.xid) := h.of_subset rfl hsub
  refine hfewer.skip fun c hc ht => ?_
  have hnot := (List.mem_filter.mp hc).2
  have his : c.is t.flow t.xid = true := by
    rw [← ht]
    exact Waiting.is_iff.mpr ⟨rfl, rfl⟩
  rw [his] at hnot
  cases hnot

theorem Agrees.erase {m : Matcher α} {r : Roster α} (h : Agrees m r) (ho : r.Ordered) {flow : Flow}
    {xid : UInt32} {call : Pending α} (hget : r.get? flow xid = some call) :
    Agrees (m.take flow xid) (r.erase flow xid) := by
  obtain ⟨-, before, behind, hsplit, herase⟩ := ho.distinct.split hget
  refine ⟨h.aging, fun f x => ?_, ?_⟩
  · rw [Matcher.get?_take, Roster.get?_erase, h.get?]
  · have hlen : m.pending = before.length + (behind.length + 1) := by
      rw [← List.length_cons, ← List.length_append, ← hsplit]
      exact h.length
    show m.pending - 1 = (r.erase flow xid).calls.length
    rw [herase, List.length_append]
    omega

section Serve

variable {past : List Observation} {now : Observation}

/-- No call that is overdue has a smaller number than the first ticket. -/
theorem Queued.seq_le {t : Ticket} {rest : List Ticket} {r : Roster α}
    (hq : Queued past (t :: rest) r) {c : Waiting α} (hc : c ∈ r.calls)
    (hover : r.overdue now c = true) : t.seq ≤ c.call.seen.seq := by
  rcases List.mem_cons.mp (hq.complete c hc ⟨now, hover⟩) with hfirst | hmem
  · exact Nat.le_of_eq (congrArg Ticket.seq hfirst).symm
  · exact (List.pairwise_cons.mp hq.sorted).1 _ hmem

/-- If the call of the first ticket is not overdue, no call is. -/
theorem Queued.none_overdue {t : Ticket} {rest : List Ticket} {r : Roster α}
    (hpast : InCaptureOrder past) (hseen : ∀ c ∈ r.calls, c.call.seen ∈ past)
    (hq : Queued past (t :: rest) r) {d : Waiting α} (hd : d ∈ r.calls)
    (hseq : d.call.seen.seq = t.seq) (hnot : r.overdue now d = false) :
    ∀ c ∈ r.calls, r.overdue now c = false := by
  intro c hc
  rw [Bool.eq_false_iff]
  intro hover
  -- The ticket was given to a call that ages, and that call was seen where `d` was.
  obtain ⟨o, ho, hoseq, hages⟩ := hq.ages t List.mem_cons_self
  have heq : o = d.call.seen := hpast.eq_of_seq ho (hseen d hd) (hoseq.trans hseq.symm)
  rw [heq] at hages
  have hlate : t.seq ≤ c.call.seen.seq := hq.seq_le hc hover
  have hbefore : d.call.seen.Before c.call.seen :=
    hpast.before (hseen d hd) (hseen c hc) (by omega)
  have hover' : r.overdue now d = true := Aging.overdue_of_before hages hbefore hover
  rw [hnot] at hover'
  cases hover'

/-- The timeout of the first ticket is the next one, up to the order within its number. -/
theorem Queued.alike_sweep {t : Ticket} {rest : List Ticket} {r : Roster α} (ho : r.Ordered)
    (hq : Queued past (t :: rest) r) {c : Waiting α} {before behind : List (Waiting α)}
    {flow : Flow} {xid : UInt32} (hsplit : r.calls = before ++ c :: behind)
    (herase : (r.erase flow xid).calls = before ++ behind) (hseq : c.call.seen.seq = t.seq)
    (hover : r.overdue now c = true) :
    Alike (c.timeout :: ((r.erase flow xid).sweep now).2) (r.sweep now).2 := by
  -- Overdue calls ahead of `c` have a ticket behind the first one, so they can only be tied.
  have hsame : ∀ e ∈ (before.filter (r.overdue now)).map Waiting.timeout,
      ∃ d : Waiting α, e = d.timeout ∧ d.call.seen.seq = c.call.seen.seq := by
    intro e he
    obtain ⟨d, hd, rfl⟩ := List.mem_map.mp he
    obtain ⟨hmem, hdover⟩ := List.mem_filter.mp hd
    have hd : d ∈ r.calls := hsplit ▸ List.mem_append_left _ hmem
    have hle : d.call.seen.seq ≤ c.call.seen.seq := by
      have harrival := ho.arrival
      rw [hsplit] at harrival
      exact (List.pairwise_append.mp harrival).2.2 d hmem c List.mem_cons_self
    have hge : t.seq ≤ d.call.seen.seq := hq.seq_le hd hdover
    exact ⟨d, rfl, by omega⟩
  have hwith : (r.sweep now).2 = (before.filter (r.overdue now)).map Waiting.timeout ++
      c.timeout :: (behind.filter (r.overdue now)).map Waiting.timeout := by
    show (r.calls.filter (r.overdue now)).map Waiting.timeout = _
    rw [hsplit, List.filter_append, List.filter_cons_of_pos hover, List.map_append, List.map_cons]
  have hwithout : ((r.erase flow xid).sweep now).2 =
      (before.filter (r.overdue now)).map Waiting.timeout ++
        (behind.filter (r.overdue now)).map Waiting.timeout := by
    show ((r.erase flow xid).calls.filter (r.overdue now)).map Waiting.timeout = _
    rw [herase, List.filter_append, List.map_append]
  rw [hwith, hwithout]
  exact Alike.move hsame _

/-- **Serving the queue is a sweep.** -/
theorem serve_sweep (now : Observation) (hpast : InCaptureOrder past) {tickets : List Ticket}
    {m : Matcher α} {r : Roster α} (ha : Agrees m r) (ho : r.Ordered)
    (hseen : ∀ c ∈ r.calls, c.call.seen ∈ past) (hq : Queued past tickets r) :
    Agrees (m.serve now tickets).1 (r.sweep now).1 ∧
      Queued past (m.serve now tickets).1.order (r.sweep now).1 ∧
      Alike (m.serve now tickets).2 (r.sweep now).2 := by
  induction tickets generalizing m r with
  | nil =>
    have hnone : ∀ c ∈ r.calls, r.overdue now c = false := by
      intro c hc
      rw [Bool.eq_false_iff]
      intro hover
      cases hq.complete c hc ⟨now, hover⟩
    rw [Roster.sweep_eq_self hnone]
    exact ⟨⟨ha.aging, ha.get?, ha.length⟩, hq, .nil⟩
  | cons t rest ih =>
    -- A waiting call with the first ticket is the one that is found for it.
    have hfound : ∀ c ∈ r.calls, c.ticket = t →
        m.get? t.flow t.xid = some c.call ∧ c.call.seen.seq = t.seq := by
      rintro c hc rfl
      exact ⟨(ha.get? _ _).trans (ho.distinct.get?_of_mem hc), rfl⟩
    rw [Matcher.serve]
    cases hget : m.get? t.flow t.xid with
    | none =>
      -- The call was matched or given up.
      refine ih ha ho hseen (hq.skip fun c hc ht => ?_)
      rw [hget] at hfound
      cases (hfound c hc ht).1
    | some call =>
      by_cases hseq : call.seen.seq = t.seq
      · have hrget : r.get? t.flow t.xid = some call := (ha.get? _ _).symm.trans hget
        obtain ⟨hxid, before, behind, hsplit, herase⟩ := ho.distinct.split hrget
        have hmem := ho.distinct.mem_of_get? hrget
        have hoverdue : m.isOverdue call now = r.overdue now ⟨t.flow, call⟩ := by
          rw [m.isOverdue_eq, ha.aging]
          rfl
        simp only [hseq, if_true, hoverdue]
        cases hover : r.overdue now ⟨t.flow, call⟩ with
        | false =>
          -- Everything stays, in the queue and in the store.
          have hnone := hq.none_overdue hpast hseen hmem hseq hover
          rw [Roster.sweep_eq_self hnone]
          exact ⟨⟨ha.aging, ha.get?, ha.length⟩, hq, .nil⟩
        | true =>
          -- The call is given up on both sides, and serving goes on with what is left.
          have hsub : (r.erase t.flow t.xid).calls.Sublist r.calls := List.filter_sublist
          obtain ⟨ha', hq', halike⟩ := ih (ha.erase ho hrget) (ho.of_sublist hsub)
            (fun c hc => hseen c (hsub.subset hc)) hq.erase
          rw [Roster.sweep_erase hsplit herase hover] at ha' hq'
          exact ⟨ha', hq', (Alike.cons _ halike).trans (hq.alike_sweep ho hsplit herase hseq hover)⟩
      · -- Another call has taken the place of the one that got the ticket.
        simp only [hseq, if_false]
        refine ih ha ho hseen (hq.skip fun c hc ht => ?_)
        obtain ⟨hcall, hcseq⟩ := hfound c hc ht
        rw [hget] at hcall
        cases hcall
        exact hseq hcseq

end Serve

/-! ## Steps -/

namespace Tracks

variable {past : List Observation} {m : Matcher α} {r : Roster α} {now : Observation}

theorem new (settings : MatcherSettings) :
    Tracks [] (Matcher.new settings : Matcher α) (Roster.new settings.aging) :=
  ⟨⟨rfl, fun _ _ => rfl, rfl⟩, ⟨.nil, .nil⟩, nofun, ⟨.nil, nofun, nofun⟩⟩

/-- Time may pass. -/
theorem later (h : Tracks past m r) (now : Observation) : Tracks (past ++ [now]) m r := by
  refine ⟨h.agrees, h.ordered, fun c hc => List.mem_append_left _ (h.seen c hc), ?_⟩
  refine ⟨h.queued.sorted, fun t ht => ?_, h.queued.complete⟩
  obtain ⟨o, ho, hseq, hages⟩ := h.queued.ages t ht
  exact ⟨o, List.mem_append_left _ ho, hseq, hages⟩

theorem expire (h : Tracks past m r) (hpast : InCaptureOrder past) (now : Observation) :
    Tracks past (m.expire now).1 (r.sweep now).1 ∧ Alike (m.expire now).2 (r.sweep now).2 := by
  obtain ⟨ha, hq, halike⟩ := serve_sweep now hpast h.agrees h.ordered h.seen h.queued
  have hsub : (r.sweep now).1.calls.Sublist r.calls := List.filter_sublist
  exact ⟨⟨ha, h.ordered.of_sublist hsub, fun c hc => h.seen c (hsub.subset hc), hq⟩, halike⟩

/-- A matched call is taken out of both. -/
theorem erase (h : Tracks past m r) {flow : Flow} {xid : UInt32} {call : Pending α}
    (hget : r.get? flow xid = some call) : Tracks past (m.take flow xid) (r.erase flow xid) := by
  have hsub : (r.erase flow xid).calls.Sublist r.calls := List.filter_sublist
  exact ⟨h.agrees.erase h.ordered hget, h.ordered.of_sublist hsub,
    fun c hc => h.seen c (hsub.subset hc), h.queued.of_subset rfl hsub.subset⟩

/-- A retransmission is counted in both, and leaves everything else as it is. -/
theorem recount (h : Tracks past m r) {flow : Flow} {xid : UInt32} {call : Pending α}
    (hget : r.get? flow xid = some call) :
    Tracks past (m.put flow { call with retransmissions := call.retransmissions + 1 })
      (r.recount flow xid) := by
  have hxid : call.xid = xid := (h.ordered.distinct.split hget).1
  have hof : ∀ c ∈ (r.recount flow xid).calls, ∃ d ∈ r.calls, c = d.recount flow xid := by
    intro c hc
    obtain ⟨d, hd, heq⟩ := List.mem_map.mp hc
    exact ⟨d, hd, heq.symm⟩
  refine ⟨⟨h.agrees.aging, fun f x => ?_, ?_⟩, ⟨?_, ?_⟩, fun c hc => ?_,
    h.queued.sorted, h.queued.ages, fun c hc hages => ?_⟩
  · rw [Matcher.get?_put, Roster.get?_recount hget, h.agrees.get?, hxid]
  · exact h.agrees.length.trans (List.length_map ..).symm
  · refine List.pairwise_map.mpr (h.ordered.distinct.imp fun hapart => ?_)
    simpa using hapart
  · refine List.pairwise_map.mpr (h.ordered.arrival.imp fun hle => ?_)
    simpa using hle
  · obtain ⟨d, hd, rfl⟩ := hof c hc
    rw [Waiting.seen_recount]
    exact h.seen d hd
  · obtain ⟨d, hd, rfl⟩ := hof c hc
    rw [Waiting.seen_recount] at hages
    have hticket : (d.recount flow xid).ticket = d.ticket := by simp [Waiting.ticket]
    rw [hticket]
    exact h.queued.complete d hd hages

/-- A new call gets the last ticket, if it ages. -/
theorem queued_enrol (h : Tracks past m r) (hpast : InCaptureOrder (past ++ [now])) {flow : Flow}
    {xid : UInt32} (call : α) :
    Queued (past ++ [now]) (m.enrol flow xid call now).order
      (r.add flow { xid, call, seen := now, retransmissions := 0 }) := by
  -- A call that never ages gets no ticket, and needs none.
  obtain ⟨hsorted, hages, hcomplete⟩ := (h.later now).queued
  have hnew : m.canAge now = true ↔ r.aging.ages now := by
    rw [m.canAge_iff, h.agrees.aging]
  have horder : (m.enrol flow xid call now).order =
      if m.canAge now then m.order ++ [⟨now.seq, flow, xid⟩] else m.order := rfl
  rw [horder]
  by_cases hcan : m.canAge now = true
  · rw [if_pos hcan]
    refine ⟨?_, ?_, ?_⟩
    · refine List.pairwise_append.mpr ⟨hsorted, List.pairwise_singleton .., fun t ht u hu => ?_⟩
      cases List.mem_singleton.mp hu
      obtain ⟨o, ho, hseq, -⟩ := h.queued.ages t ht
      rw [← hseq]
      exact (hpast.before_last ho).seq
    · intro t ht
      rcases List.mem_append.mp ht with ht | ht
      · exact hages t ht
      · cases List.mem_singleton.mp ht
        exact ⟨now, List.mem_append_right _ List.mem_cons_self, rfl, hnew.mp hcan⟩
    · intro c hc hcages
      rcases List.mem_append.mp hc with hc | hc
      · exact List.mem_append_left _ (hcomplete c hc hcages)
      · cases List.mem_singleton.mp hc
        exact List.mem_append_right _ List.mem_cons_self
  · rw [if_neg hcan]
    refine ⟨hsorted, hages, fun c hc hcages => ?_⟩
    rcases List.mem_append.mp hc with hc | hc
    · exact hcomplete c hc hcages
    · cases List.mem_singleton.mp hc
      exact absurd (hnew.mpr hcages) hcan

/-- A new call gets the last place in both. -/
theorem add (h : Tracks past m r) (hpast : InCaptureOrder (past ++ [now])) {flow : Flow}
    {xid : UInt32} (call : α) (hget : r.get? flow xid = none) :
    Tracks (past ++ [now]) (m.enrol flow xid call now)
      (r.add flow { xid, call, seen := now, retransmissions := 0 }) := by
  refine ⟨⟨h.agrees.aging, fun f x => ?_, ?_⟩, ⟨?_, ?_⟩, ?_, h.queued_enrol hpast call⟩
  · rw [Roster.get?_add hget, ← h.agrees.get?]
    exact m.get?_put flow f { xid, call, seen := now, retransmissions := 0 } x
  · rw [Roster.length_add, ← h.agrees.length]
    rfl
  · refine List.pairwise_append.mpr ⟨h.ordered.distinct, List.pairwise_singleton .., ?_⟩
    intro c hc d hd
    cases List.mem_singleton.mp hd
    rintro ⟨rfl, rfl⟩
    rw [h.ordered.distinct.get?_of_mem hc] at hget
    cases hget
  · refine List.pairwise_append.mpr ⟨h.ordered.arrival, List.pairwise_singleton .., ?_⟩
    intro c hc d hd
    cases List.mem_singleton.mp hd
    exact (hpast.before_last (h.seen c hc)).seq
  · intro c hc
    rcases List.mem_append.mp hc with hc | hc
    · exact List.mem_append_left _ (h.seen c hc)
    · cases List.mem_singleton.mp hc
      exact List.mem_append_right _ List.mem_cons_self

/-- **One step of both.** -/
theorem step (h : Tracks past m r) (s : Step α) (hpast : InCaptureOrder (past ++ [s.at])) :
    Tracks (past ++ [s.at]) (m.step s).1 (r.step s).1 ∧ Alike (m.step s).2 (r.step s).2 := by
  obtain ⟨hswept, halike⟩ := h.expire hpast.of_append s.at
  cases s with
  | call flow xid call seen =>
    have hget : (m.expire seen).1.get? flow xid = (r.sweep seen).1.get? flow xid :=
      hswept.agrees.get? flow xid
    cases hr : (r.sweep seen).1.get? flow xid with
    | none =>
      rw [hr] at hget
      simp only [Matcher.step, Matcher.onCall, Roster.step, Step.at, hget, hr]
      exact ⟨hswept.add hpast call hr, halike⟩
    | some waiting =>
      rw [hr] at hget
      simp only [Matcher.step, Matcher.onCall, Roster.step, Step.at, hget, hr]
      exact ⟨(hswept.recount hr).later seen, halike.append_right _⟩
  | reply flow xid seen =>
    have hget : (m.expire seen).1.get? flow xid = (r.sweep seen).1.get? flow xid :=
      hswept.agrees.get? flow xid
    cases hr : (r.sweep seen).1.get? flow xid with
    | none =>
      rw [hr] at hget
      simp only [Matcher.step, Matcher.onReply, Roster.step, Step.at, hget, hr]
      exact ⟨hswept.later seen, halike.append_right _⟩
    | some waiting =>
      rw [hr] at hget
      simp only [Matcher.step, Matcher.onReply, Roster.step, Step.at, hget, hr]
      exact ⟨(hswept.erase hr).later seen, halike.append_right _⟩
  | expire now => exact ⟨hswept.later now, halike⟩

/-- **A run of both.** -/
theorem run (h : Tracks past m r) (steps : List (Step α))
    (hpast : InCaptureOrder (past ++ steps.map Step.at)) :
    Tracks (past ++ steps.map Step.at) (steps.foldl (fun m s => (m.step s).1) m)
      (steps.foldl (fun r s => (r.step s).1) r) := by
  induction steps generalizing past m r with
  | nil =>
    rw [List.map_nil, List.append_nil]
    exact h
  | cons s steps ih =>
    rw [List.map_cons, List.append_cons] at hpast ⊢
    exact ih (h.step s hpast.of_append).1 hpast

/-- The matcher and the roster after a run in capture order. -/
theorem after (settings : MatcherSettings) {steps : List (Step α)}
    (h : InCaptureOrder (steps.map Step.at)) :
    Tracks (steps.map Step.at) (Matcher.after settings steps)
      (Roster.after settings.aging steps) :=
  (new settings).run steps h

end Tracks

/-! ## Calls that are overdue -/

namespace Roster

variable {r : Roster α} {c : Waiting α}

theorem not_overdue_of_mem_sweep {now : Observation} (hc : c ∈ (r.sweep now).1.calls) :
    r.overdue now c = false := by
  have hkept : (!r.overdue now c) = true := (List.mem_filter.mp hc).2
  simpa using hkept

theorem aging_step (r : Roster α) (s : Step α) : (r.step s).1.aging = r.aging := by
  cases s with
  | call flow xid call seen => simp only [step]; split <;> rfl
  | reply flow xid seen => simp only [step]; split <;> rfl
  | expire now => rfl

theorem aging_after (aging : Aging) (steps : List (Step α)) :
    (after aging steps).aging = aging := by
  have hfold (r : Roster α) : (steps.foldl (fun r s => (r.step s).1) r).aging = r.aging := by
    induction steps generalizing r with
    | nil => rfl
    | cons s steps ih => exact (ih _).trans (r.aging_step s)
  exact hfold (new aging)

/-- After a step no call is overdue. -/
theorem not_overdue_step {s : Step α} (hc : c ∈ (r.step s).1.calls) :
    r.aging.overdue c.call.seen s.at = false := by
  cases s with
  | call flow xid call seen =>
    simp only [step, Step.at] at hc ⊢
    split at hc
    · obtain ⟨d, hd, rfl⟩ := List.mem_map.mp hc
      rw [Waiting.seen_recount]
      exact not_overdue_of_mem_sweep hd
    · rcases List.mem_append.mp hc with hc | hc
      · exact not_overdue_of_mem_sweep hc
      · cases List.mem_singleton.mp hc
        exact r.aging.overdue_self seen
  | reply flow xid seen =>
    simp only [step, Step.at] at hc ⊢
    split at hc
    · exact not_overdue_of_mem_sweep (List.mem_filter.mp hc).1
    · exact not_overdue_of_mem_sweep hc
  | expire now => exact not_overdue_of_mem_sweep hc

/-- What times out at a step waited before it and is overdue. -/
theorem overdue_of_timeout {s : Step α} (h : c.timeout ∈ (r.step s).2) :
    c ∈ r.calls ∧ r.aging.overdue c.call.seen s.at = true := by
  have hswept : c.timeout ∈ (r.sweep s.at).2 := by
    cases s with
    | call flow xid call seen =>
      simp only [step] at h
      split at h
      · rcases List.mem_append.mp h with h | h
        · exact h
        · cases List.mem_singleton.mp h
      · exact h
    | reply flow xid seen =>
      simp only [step] at h
      split at h
      all_goals
        rcases List.mem_append.mp h with h | h
        · exact h
        · cases List.mem_singleton.mp h
    | expire now => exact h
  obtain ⟨d, hd, heq⟩ := List.mem_map.mp hswept
  have hsame : d = c := by
    obtain ⟨flow, call⟩ := c
    cases heq
    rfl
  rw [hsame] at hd
  exact List.mem_filter.mp hd

end Roster

/-- **The matcher does what the roster does.** At the next step after any run in capture order both
report the same, as far as the order of timeouts of one number goes, and afterwards the same calls
wait. So no call that is overdue is left waiting, and none that is not overdue is given up. -/
theorem step_alike (settings : MatcherSettings) (steps : List (Step α)) (s : Step α)
    (h : InCaptureOrder ((steps ++ [s]).map Step.at)) :
    Alike ((Matcher.after settings steps).step s).2
        ((Roster.after settings.aging steps).step s).2 ∧
      (∀ flow xid, ((Matcher.after settings steps).step s).1.get? flow xid =
        ((Roster.after settings.aging steps).step s).1.get? flow xid) ∧
      ((Matcher.after settings steps).step s).1.length =
        ((Roster.after settings.aging steps).step s).1.length ∧
      (∀ flow xid call, ((Matcher.after settings steps).step s).1.get? flow xid = some call →
        settings.aging.overdue call.seen s.at = false) ∧
      ∀ flow call, .timeout flow call ∈ ((Matcher.after settings steps).step s).2 →
        (Matcher.after settings steps).get? flow call.xid = some call ∧
          settings.aging.overdue call.seen s.at = true := by
  rw [List.map_append] at h
  have hbefore := Tracks.after settings h.of_append
  obtain ⟨hafter, halike⟩ := hbefore.step s h
  have haging := Roster.aging_after settings.aging steps
  refine ⟨halike, hafter.agrees.get?, hafter.agrees.length, ?_, ?_⟩
  · intro flow xid call hget
    rw [hafter.agrees.get?] at hget
    have hmem := hafter.ordered.distinct.mem_of_get? hget
    have hnot := Roster.not_overdue_step hmem
    rw [haging] at hnot
    exact hnot
  · intro flow call hmem
    have hroster : (⟨flow, call⟩ : Waiting α).timeout ∈
        ((Roster.after settings.aging steps).step s).2 := halike.perm.mem_iff.mp hmem
    obtain ⟨hwaits, hover⟩ := Roster.overdue_of_timeout hroster
    rw [haging] at hover
    exact ⟨(hbefore.agrees.get? _ _).trans (hbefore.ordered.distinct.get?_of_mem hwaits), hover⟩

/-- A call takes the place of a matched one within one number, and is given up first by the
matcher but last by the roster. -/
theorem step_alike_within_one_number :
    InCaptureOrder [⟨1, none⟩, ⟨1, none⟩, ⟨1, none⟩, ⟨1, none⟩, ⟨5, none⟩] ∧
      Alike ((Matcher.after { aging := .packets 2 } [.call default 7 "a" ⟨1, none⟩,
          .reply default 7 ⟨1, none⟩, .call default 8 "b" ⟨1, none⟩,
          .call default 7 "c" ⟨1, none⟩]).step (.expire ⟨5, none⟩)).2
        [.timeout default { xid := 8, call := "b", seen := ⟨1, none⟩, retransmissions := 0 },
          .timeout default { xid := 7, call := "c", seen := ⟨1, none⟩, retransmissions := 0 }] :=
  ⟨by decide, (step_alike { aging := .packets 2 } [.call default 7 "a" ⟨1, none⟩,
    .reply default 7 ⟨1, none⟩, .call default 8 "b" ⟨1, none⟩,
    .call default 7 "c" ⟨1, none⟩] (.expire ⟨5, none⟩) (by decide)).1⟩

end NfsWire
