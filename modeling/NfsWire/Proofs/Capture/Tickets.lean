import NfsWire.Proofs.Capture.Lives
import NfsWire.Proofs.Capture.Refinement
import NfsWire.Proofs.Capture.ReplyBody

/-!
# What the queue of tickets is good for

Tickets are thrown away at the front of the queue only, and nothing there says what became of the
call that got the ticket. A ticket is known by the waiting call that fits it (`Matcher.bearer?`):
the one of its flow and transaction id, if it has its number. No order of observations is asked for.

One pass takes tickets off the front, and none of those fits a waiting call any more
(`serve_parts`). So whatever waits after a pass and can age has kept its ticket, and the pass ends
at a ticket whose call is there and not overdue, or with an empty queue.

**What a number cannot tell.** A call without a capture time gets no ticket, but it may fit the
ticket of an earlier call of its transaction id that was seen under the same number. It is never
overdue, so every pass ends there, and the calls behind it wait for good
(`untimed_call_in_the_way`). In all other runs a pass finds everything that is overdue as soon as
all that can age is (`Queues.expire_all`).
-/

namespace NfsWire

variable {α : Type}

namespace Matcher

/-! ## Tickets and calls -/

/-- The waiting call that a ticket fits. -/
def bearer? (m : Matcher α) (t : Ticket) : Option (Pending α) :=
  (m.get? t.flow t.xid).filter (·.seen.seq == t.seq)

section Serving

variable {m : Matcher α} {now : Observation} {t : Ticket} {rest : List Ticket} {call : Pending α}

theorem bearer?_eq_some_iff :
    m.bearer? t = some call ↔ m.get? t.flow t.xid = some call ∧ call.seen.seq = t.seq := by
  simp [bearer?, Option.filter_eq_some_iff]

theorem serve_stale (h : m.bearer? t = none) : m.serve now (t :: rest) = m.serve now rest := by
  rw [serve]
  cases hget : m.get? t.flow t.xid with
  | none => rfl
  | some waiting =>
    have hseq : waiting.seen.seq ≠ t.seq := fun hseq => by
      rw [bearer?_eq_some_iff.mpr ⟨hget, hseq⟩] at h
      cases h
    simp only [hseq, if_false]

theorem serve_waits (h : m.bearer? t = some call) (hover : m.isOverdue call now = false) :
    m.serve now (t :: rest) = ({ m with order := t :: rest }, []) := by
  obtain ⟨hget, hseq⟩ := bearer?_eq_some_iff.mp h
  simp only [serve, hget, hseq, if_true, hover, Bool.false_eq_true, if_false]

theorem serve_overdue (h : m.bearer? t = some call) (hover : m.isOverdue call now = true) :
    m.serve now (t :: rest) =
      (((m.take t.flow t.xid).serve now rest).1,
        .timeout t.flow call :: ((m.take t.flow t.xid).serve now rest).2) := by
  obtain ⟨hget, hseq⟩ := bearer?_eq_some_iff.mp h
  simp only [serve, hget, hseq, if_true, hover]

/-- A ticket that fits after a pass did so before. -/
theorem bearer?_of_serve {tickets : List Ticket}
    (h : (m.serve now tickets).1.bearer? t = some call) : m.bearer? t = some call := by
  rw [bearer?_eq_some_iff] at h ⊢
  exact ⟨get?_of_serve h.1, h.2⟩

theorem bearer?_serve_eq_none (h : m.bearer? t = none) (tickets : List Ticket) :
    (m.serve now tickets).1.bearer? t = none := by
  cases hbears : (m.serve now tickets).1.bearer? t with
  | none => rfl
  | some call =>
    rw [bearer?_of_serve hbears] at h
    cases h

end Serving

/-- **What a pass does to the queue.** It takes off tickets that fit nothing afterwards, and stops
at one whose call is not overdue. -/
theorem serve_parts (m : Matcher α) (now : Observation) (tickets : List Ticket) :
    let served := (m.serve now tickets).1
    (∃ gone, tickets = gone ++ served.order ∧ ∀ t ∈ gone, served.bearer? t = none) ∧
      ∀ t ∈ served.order.head?, ∃ call, served.bearer? t = some call ∧
        served.isOverdue call now = false := by
  induction tickets generalizing m with
  | nil => exact ⟨⟨[], rfl, nofun⟩, nofun⟩
  | cons t rest ih =>
    cases hbears : m.bearer? t with
    | none =>
      obtain ⟨⟨gone, hparts, hgone⟩, hfront⟩ := ih m
      rw [serve_stale hbears]
      refine ⟨⟨t :: gone, congrArg (t :: ·) hparts, ?_⟩, hfront⟩
      exact List.forall_mem_cons.mpr ⟨bearer?_serve_eq_none hbears rest, hgone⟩
    | some call =>
      cases hover : m.isOverdue call now with
      | false =>
        rw [serve_waits hbears hover]
        refine ⟨⟨[], rfl, nofun⟩, fun t' ht' => ?_⟩
        cases ht'
        exact ⟨call, hbears, hover⟩
      | true =>
        -- The call is taken out, so that its ticket fits nothing either.
        have htaken : (m.take t.flow t.xid).bearer? t = none := by
          rw [bearer?, get?_take, if_pos ⟨rfl, rfl⟩]
          rfl
        obtain ⟨⟨gone, hparts, hgone⟩, hfront⟩ := ih (m.take t.flow t.xid)
        rw [serve_overdue hbears hover]
        refine ⟨⟨t :: gone, congrArg (t :: ·) hparts, ?_⟩, hfront⟩
        exact List.forall_mem_cons.mpr ⟨bearer?_serve_eq_none htaken rest, hgone⟩

/-! ## Every call that can age has its ticket -/

/-- The ticket that a step may add to the queue. -/
def ticket? (m : Matcher α) : Step α → Option Ticket
  | .call flow xid _ seen => if m.canAge seen then some ⟨seen.seq, flow, xid⟩ else none
  | _ => none

/-- Calls and tickets are those of past steps, and the calls that can age are queued. -/
structure Queues (past : List (Step α)) (m : Matcher α) : Prop where
  wellFormed : m.WellFormed
  called : ∀ flow xid call, m.get? flow xid = some call → ∃ c, .call flow xid c call.seen ∈ past
  ticket : ∀ flow xid call, m.get? flow xid = some call → m.canAge call.seen = true →
    ⟨call.seen.seq, flow, xid⟩ ∈ m.order
  issued : m.order.Sublist (past.filterMap m.ticket?)

theorem Queues.new (settings : MatcherSettings) : Queues [] (Matcher.new settings : Matcher α) :=
  ⟨.new settings, nofun, nofun, .slnil⟩

section Settings

variable {m m' : Matcher α}

/-- Whether a call can age is a matter of the settings. -/
theorem canAge_congr (h : m'.settings = m.settings) (seen : Observation) :
    m'.canAge seen = m.canAge seen := by
  unfold canAge
  rw [h]

theorem isOverdue_congr (h : m'.settings = m.settings) (call : Pending α) (now : Observation) :
    m'.isOverdue call now = m.isOverdue call now := by
  unfold isOverdue
  rw [h]

theorem ticket?_congr (h : m'.settings = m.settings) : m'.ticket? = m.ticket? := by
  funext s
  unfold ticket?
  simp only [canAge_congr h]

end Settings

namespace Queues

variable {m : Matcher α} {past : List (Step α)} {flow : Flow} {xid : UInt32} {waiting : Pending α}

theorem later (h : Queues past m) (s : Step α) : Queues (past ++ [s]) m := by
  refine ⟨h.wellFormed, fun flow xid call hget => ?_, h.ticket, ?_⟩
  · obtain ⟨c, hc⟩ := h.called flow xid call hget
    exact ⟨c, List.mem_append_left _ hc⟩
  · rw [List.filterMap_append]
    exact h.issued.trans (List.sublist_append_left ..)

theorem expire (h : Queues past m) (now : Observation) : Queues past (m.expire now).1 := by
  obtain ⟨gone, hg⟩ := h.wellFormed.expire now
  obtain ⟨⟨served, hparts, hserved⟩, -⟩ := m.serve_parts now m.order
  refine ⟨hg.wellFormed, fun flow xid call hget => ?_, fun flow xid call hget hage => ?_, ?_⟩
  · exact h.called flow xid call (get?_of_expire hget)
  · rw [canAge_congr hg.settings] at hage
    have hmem := h.ticket flow xid call (get?_of_expire hget) hage
    rw [hparts] at hmem
    -- The ticket still fits its call, so it is not among those that were taken off.
    refine (List.mem_append.mp hmem).resolve_left fun hgone => ?_
    have hbears : (m.expire now).1.bearer? ⟨call.seen.seq, flow, xid⟩ = some call :=
      bearer?_eq_some_iff.mpr ⟨hget, rfl⟩
    rw [show (m.expire now).1.bearer? _ = none from hserved _ hgone] at hbears
    cases hbears
  · have hissued := h.issued
    rw [hparts] at hissued
    rw [ticket?_congr hg.settings]
    exact (List.sublist_append_right ..).trans hissued

theorem take (h : Queues past m) (hget : m.get? flow xid = some waiting) :
    Queues past (m.take flow xid) := by
  have hkept : ∀ f x call, (m.take flow xid).get? f x = some call → m.get? f x = some call := by
    intro f x call hcall
    rw [get?_take] at hcall
    split at hcall
    · cases hcall
    · exact hcall
  exact ⟨h.wellFormed.take hget, fun f x call hcall => h.called f x call (hkept f x call hcall),
    fun f x call hcall => h.ticket f x call (hkept f x call hcall), h.issued⟩

/-- A call that is seen again keeps the number under which it was seen first. -/
theorem recount (h : Queues past m) (hget : m.get? flow xid = some waiting) :
    Queues past (m.put flow { waiting with retransmissions := waiting.retransmissions + 1 }) := by
  obtain rfl : waiting.xid = xid := Calls.xid_of_find? hget
  have hkept : ∀ f x call,
      (m.put flow { waiting with retransmissions := waiting.retransmissions + 1 }).get? f x =
        some call → ∃ before, m.get? f x = some before ∧ before.seen = call.seen := by
    intro f x call hcall
    rw [get?_put] at hcall
    split at hcall
    next hkey =>
      obtain ⟨rfl, rfl⟩ := hkey
      cases hcall
      exact ⟨waiting, hget, rfl⟩
    next => exact ⟨call, hcall, rfl⟩
  refine ⟨h.wellFormed.put hget, fun f x call hcall => ?_, fun f x call hcall => ?_, h.issued⟩
  · obtain ⟨before, hbefore, hseen⟩ := hkept f x call hcall
    rw [← hseen]
    exact h.called f x before hbefore
  · obtain ⟨before, hbefore, hseen⟩ := hkept f x call hcall
    rw [← hseen]
    exact h.ticket f x before hbefore

theorem enrol (h : Queues past m) (hget : m.get? flow xid = none) (call : α) (seen : Observation) :
    Queues (past ++ [.call flow xid call seen]) (m.enrol flow xid call seen) := by
  have hlater := h.later (.call flow xid call seen)
  have horder : (m.enrol flow xid call seen).order =
      m.order ++ (m.ticket? (.call flow xid call seen)).toList := by
    show (if m.canAge seen then _ else _) = _
    cases hage : m.canAge seen with
    | true => simp [ticket?, hage]
    | false => simp [ticket?, hage]
  refine ⟨h.wellFormed.enrol hget call seen, fun f x waiting hwaiting => ?_,
    fun f x waiting hwaiting hage => ?_, ?_⟩
  · rw [get?_enrol] at hwaiting
    split at hwaiting
    next hkey =>
      obtain ⟨rfl, rfl⟩ := hkey
      cases hwaiting
      exact ⟨call, List.mem_append_right _ List.mem_cons_self⟩
    next => exact hlater.called f x waiting hwaiting
  · rw [horder, List.mem_append]
    rw [get?_enrol] at hwaiting
    split at hwaiting
    next hkey =>
      obtain ⟨rfl, rfl⟩ := hkey
      cases hwaiting
      have hage : m.canAge seen = true := hage
      right
      simp [ticket?, hage]
    next => exact .inl (h.ticket f x waiting hwaiting hage)
  · rw [horder, List.filterMap_append]
    have hown : [Step.call flow xid call seen].filterMap m.ticket? =
        (m.ticket? (.call flow xid call seen)).toList := by
      rw [List.filterMap_cons]
      cases m.ticket? (.call flow xid call seen) <;> rfl
    exact h.issued.append (hown ▸ List.Sublist.refl _)

end Queues

/-! ## Steps and runs -/

theorem settings_step {m : Matcher α} (h : m.WellFormed) (s : Step α) :
    (m.step s).1.settings = m.settings :=
  (h.acts (.step s)).settings

/-- What a step adds to the queue is its own ticket. -/
theorem order_step (m : Matcher α) (s : Step α) :
    ∀ t ∈ (m.step s).1.order, t ∈ (m.expire s.at).1.order ∨ t.seq = s.at.seq := by
  intro t ht
  cases s with
  | call flow xid call seen =>
    cases hget : (m.expire seen).1.get? flow xid with
    | none =>
      rw [step, onCall_new hget] at ht
      have ht : t ∈ if (m.expire seen).1.canAge seen then
          (m.expire seen).1.order ++ [⟨seen.seq, flow, xid⟩] else (m.expire seen).1.order := ht
      split at ht
      · refine (List.mem_append.mp ht).imp_right fun hnew => ?_
        rw [List.mem_singleton.mp hnew]
        rfl
      · exact .inl ht
    | some waiting =>
      rw [step, onCall_again hget] at ht
      exact .inl ht
  | reply flow xid seen =>
    cases hget : (m.expire seen).1.get? flow xid with
    | none =>
      rw [step, onReply_orphan hget] at ht
      exact .inl ht
    | some waiting =>
      rw [step, onReply_matched hget] at ht
      exact .inl ht
  | expire now => exact .inl ht

theorem Queues.step {m : Matcher α} {past : List (Step α)} (h : Queues past m) (s : Step α) :
    Queues (past ++ [s]) (m.step s).1 := by
  have hswept := h.expire s.at
  cases s with
  | call flow xid call seen =>
    cases hget : (m.expire seen).1.get? flow xid with
    | none =>
      rw [Matcher.step, onCall_new hget]
      exact hswept.enrol hget call seen
    | some waiting =>
      rw [Matcher.step, onCall_again hget]
      exact (hswept.recount hget).later _
  | reply flow xid seen =>
    cases hget : (m.expire seen).1.get? flow xid with
    | none =>
      rw [Matcher.step, onReply_orphan hget]
      exact hswept.later _
    | some waiting =>
      rw [Matcher.step, onReply_matched hget]
      exact (hswept.take hget).later _
  | expire now => exact hswept.later _

/-- **A run.** -/
theorem queues_after (settings : MatcherSettings) (steps : List (Step α)) :
    Queues steps (after settings steps) ∧ (after settings steps).settings = settings := by
  suffices hfold : ∀ past m, Queues past m → m.settings = settings →
      Queues (past ++ steps) (steps.foldl (fun m s => (m.step s).1) m) ∧
        (steps.foldl (fun m s => (m.step s).1) m).settings = settings from
    hfold [] _ (.new settings) rfl
  induction steps with
  | nil => exact fun past m h hs => ⟨(List.append_nil past).symm ▸ h, hs⟩
  | cons s steps ih =>
    intro past m h hs
    rw [List.append_cons]
    exact ih _ _ (h.step s) ((settings_step h.wellFormed s).trans hs)

/-! ## When all that can age is overdue -/

/-- Whether all waiting calls that can age are overdue. -/
def AllOverdue (m : Matcher α) (now : Observation) : Prop :=
  ∀ c ∈ m.waiting, m.canAge c.2.seen = true → m.isOverdue c.2 now = true

/-- A pass gives up all calls that can age and leaves the others, and the queue is empty. -/
structure Clears (m : Matcher α) (now : Observation) : Prop where
  order : (m.expire now).1.order = []
  told : (m.expire now).2.Perm ((m.waiting.filter (m.canAge ·.2.seen)).map timeoutOf)
  kept : (m.expire now).1.waiting.Perm (m.waiting.filter (!m.canAge ·.2.seen))

/-- Of the calls of some steps, those of one flow, transaction id and number age alike. -/
def AgesAlike (aging : Aging) (steps : List (Step α)) : Prop :=
  ∀ flow xid c c' seen seen', .call flow xid c seen ∈ steps → .call flow xid c' seen' ∈ steps →
    seen.seq = seen'.seq → (aging.ages seen ↔ aging.ages seen')

section Clearing

variable {m : Matcher α} {past : List (Step α)} {now : Observation}

/-- The queue ends at a ticket whose call is not overdue. -/
theorem front_of_expire (m : Matcher α) (now : Observation) :
    ∀ t ∈ (m.expire now).1.order.head?, ∃ call, (m.expire now).1.bearer? t = some call ∧
      (m.expire now).1.isOverdue call now = false :=
  (m.serve_parts now m.order).2

/-- A pass that serves the whole queue gives up all that can age. -/
theorem Queues.clears (h : Queues past m) (horder : (m.expire now).1.order = []) :
    m.Clears now := by
  obtain ⟨gone, hg⟩ := h.wellFormed.expire now
  have hgone : ∀ c ∈ gone, m.canAge c.2.seen = true :=
    fun c hc => (m.canAge_iff _).mpr ⟨now, hg.overdue c hc⟩
  -- Whatever waits on and could age would have its ticket in the queue, which is empty.
  have hkept : ∀ c ∈ (m.expire now).1.waiting, m.canAge c.2.seen = false := by
    intro c hc
    rw [Bool.eq_false_iff]
    intro hage
    have hget := hg.wellFormed.get?_eq_some_iff.mpr ⟨hc, rfl⟩
    have hmem := (h.expire now).ticket c.1 c.2.xid c.2 hget
      ((canAge_congr hg.settings _).trans hage)
    rw [horder] at hmem
    cases hmem
  refine ⟨horder, ?_, ?_⟩
  · have hperm := hg.waiting.filter (m.canAge ·.2.seen)
    have hnone : (m.expire now).1.waiting.filter (m.canAge ·.2.seen) = [] :=
      List.filter_eq_nil_iff.mpr fun c hc => by simp [hkept c hc]
    rw [List.filter_append, List.filter_eq_self.mpr hgone, hnone, List.append_nil] at hperm
    rw [hg.events]
    exact hperm.symm.map timeoutOf
  · have hperm := hg.waiting.filter (!m.canAge ·.2.seen)
    have hnone : gone.filter (!m.canAge ·.2.seen) = [] :=
      List.filter_eq_nil_iff.mpr fun c hc => by simp [hgone c hc]
    have hall : (m.expire now).1.waiting.filter (!m.canAge ·.2.seen) = (m.expire now).1.waiting :=
      List.filter_eq_self.mpr fun c hc => by simp [hkept c hc]
    rw [List.filter_append, hnone, hall, List.nil_append] at hperm
    exact hperm.symm

/-- When all that can age is overdue, a pass clears the matcher or ends at a call that never is. -/
theorem Queues.clears_or (h : Queues past m) (hall : m.AllOverdue now) :
    m.Clears now ∨ ∃ t call, (m.expire now).1.order.head? = some t ∧
      (m.expire now).1.bearer? t = some call ∧ m.canAge call.seen = false := by
  cases hfront : (m.expire now).1.order.head? with
  | none => exact .inl (h.clears (List.head?_eq_none_iff.mp hfront))
  | some t =>
    obtain ⟨gone, hg⟩ := h.wellFormed.expire now
    obtain ⟨call, hbears, hover⟩ := m.front_of_expire now t hfront
    refine .inr ⟨t, call, rfl, hbears, ?_⟩
    rw [Bool.eq_false_iff]
    intro hage
    have hget := get?_of_expire (bearer?_eq_some_iff.mp hbears).1
    have hlate := hall _ (h.wellFormed.get?_eq_some_iff.mp hget).1 hage
    rw [isOverdue_congr hg.settings, hlate] at hover
    cases hover

/-- A ticket fits none but calls that can age. -/
theorem Queues.canAge_of_bearer (h : Queues past m) (halike : AgesAlike m.settings.aging past)
    {t : Ticket} {call : Pending α} (ht : t ∈ m.order) (hbears : m.bearer? t = some call) :
    m.canAge call.seen = true := by
  obtain ⟨hget, hseq⟩ := bearer?_eq_some_iff.mp hbears
  obtain ⟨c, hcall⟩ := h.called _ _ _ hget
  obtain ⟨s, hs, hticket⟩ := List.mem_filterMap.mp (h.issued.subset ht)
  unfold ticket? at hticket
  split at hticket
  next flow xid c' seen =>
    split at hticket
    next hage =>
      cases hticket
      have hages := (m.canAge_iff seen).mp hage
      exact (m.canAge_iff _).mpr ((halike _ _ _ _ _ _ hs hcall hseq.symm).mp hages)
    next => cases hticket
  next => cases hticket

/-- When all that can age is overdue, a pass finds it all. -/
theorem Queues.expire_all (h : Queues past m) (halike : AgesAlike m.settings.aging past)
    (hall : m.AllOverdue now) : m.Clears now := by
  refine (h.clears_or hall).resolve_right fun ⟨t, call, hfront, hbears, hage⟩ => ?_
  obtain ⟨gone, hg⟩ := h.wellFormed.expire now
  have hcan := (h.expire now).canAge_of_bearer (hg.settings ▸ halike)
    (List.mem_of_mem_head? hfront) hbears
  rw [canAge_congr hg.settings, hage] at hcan
  cases hcan

/-- Only aging by time tells calls of one number apart, and not in a capture in order. -/
theorem agesAlike_of_untimed_or_inCaptureOrder {aging : Aging} {steps : List (Step α)}
    (h : (∀ max, aging ≠ .time max) ∨ InCaptureOrder (steps.map Step.at)) :
    AgesAlike aging steps := by
  intro flow xid c c' seen seen' hs hs' hseq
  rcases h with huntimed | horder
  · cases aging with
    | disabled => exact Iff.of_eq rfl
    | packets max =>
      have hages : ∀ seen, (Aging.packets max).ages seen := fun seen =>
        (Matcher.canAge_iff (new { aging := .packets max } : Matcher α) seen).mp rfl
      exact iff_of_true (hages seen) (hages seen')
    | time max => exact absurd rfl (huntimed max)
  · have heq : seen = seen' :=
      horder.eq_of_seq (List.mem_map_of_mem hs) (List.mem_map_of_mem hs') hseq
    rw [heq]

end Clearing

/-! ## The window of the queue -/

/-- While numbers never decrease, tickets are in the order of their numbers. -/
theorem Queues.sorted {m : Matcher α} {past : List (Step α)} (h : Queues past m)
    (hpast : past.Pairwise (·.at.seq ≤ ·.at.seq)) : m.order.Pairwise (·.seq ≤ ·.seq) := by
  refine List.Pairwise.sublist h.issued (List.pairwise_filterMap.mpr (hpast.imp ?_))
  have hown : ∀ (s : Step α), ∀ t ∈ m.ticket? s, t.seq = s.at.seq := by
    intro s t ht
    unfold ticket? at ht
    split at ht
    · split at ht
      · cases ht
        rfl
      · cases ht
    · cases ht
  intro s s' hle t ht t' ht'
  rw [hown s t ht, hown s' t' ht']
  exact hle

/-- After a step no ticket is older than the window. -/
theorem Queues.window {m : Matcher α} {past : List (Step α)} (h : Queues past m) {max : Nat}
    (hmax : m.settings.aging = .packets max) {s : Step α}
    (hpast : (past ++ [s]).Pairwise (·.at.seq ≤ ·.at.seq)) :
    ∀ t ∈ (m.step s).1.order, s.at.seq ≤ t.seq + max := by
  intro t ht
  rcases m.order_step s t ht with hswept | hown
  · have hsorted := (h.expire s.at).sorted (List.pairwise_append.mp hpast).1
    obtain ⟨gone, hg⟩ := h.wellFormed.expire s.at
    have hover := m.front_of_expire s.at
    -- The front is the oldest, and its call is not overdue.
    generalize (m.expire s.at).1.order = order at hswept hsorted hover
    cases order with
    | nil => cases hswept
    | cons front rest =>
      obtain ⟨call, hbears, hover⟩ := hover front rfl
      have hseq := (bearer?_eq_some_iff.mp hbears).2
      rw [isOverdue_congr hg.settings, isOverdue_eq, hmax, Aging.overdue, hseq,
        decide_eq_false_iff_not] at hover
      have hle : front.seq ≤ t.seq := by
        rcases List.mem_cons.mp hswept with rfl | hrest
        · exact Nat.le_refl _
        · exact (List.pairwise_cons.mp hsorted).1 t hrest
      omega
  · omega

/-! ## Runs -/

/-- **What becomes of calls that can age.** After any run, at any observations, each has its ticket
in the queue. A pass ends at a ticket whose call waits and is not overdue, so that a second one does
nothing. Once all calls that can age are overdue, a pass gives up just these or ends at a call that
never ages; the latter only under aging by time, and only if a call with a time and one without had
one flow, transaction id and number. While numbers never decrease, no ticket is older than the
window, be its call there or not. -/
theorem overdue_given_up (settings : MatcherSettings) (steps : List (Step α)) :
    let m := after settings steps
    (∀ flow xid call, m.get? flow xid = some call → m.canAge call.seen = true →
      ⟨call.seen.seq, flow, xid⟩ ∈ m.order) ∧
    (∀ now,
      (∀ t ∈ (m.expire now).1.order.head?, ∃ call, (m.expire now).1.bearer? t = some call ∧
        (m.expire now).1.isOverdue call now = false) ∧
      (m.expire now).1.expire now = ((m.expire now).1, [])) ∧
    (∀ now, m.AllOverdue now →
      (m.Clears now ∨ ∃ t call, (m.expire now).1.order.head? = some t ∧
        (m.expire now).1.bearer? t = some call ∧ m.canAge call.seen = false) ∧
      (AgesAlike settings.aging steps → m.Clears now)) ∧
    ((∀ max, settings.aging ≠ .time max) ∨ InCaptureOrder (steps.map Step.at) →
      AgesAlike settings.aging steps) ∧
    ∀ max s, settings.aging = .packets max →
      (steps ++ [s]).Pairwise (·.at.seq ≤ ·.at.seq) →
      ∀ t ∈ (m.step s).1.order, s.at.seq ≤ t.seq + max := by
  intro m
  obtain ⟨h, hsettings⟩ := queues_after settings steps
  have haging : m.settings.aging = settings.aging := congrArg MatcherSettings.aging hsettings
  refine ⟨h.ticket, fun now => ⟨m.front_of_expire now, m.expire_expire now⟩, fun now hall => ?_,
    agesAlike_of_untimed_or_inCaptureOrder, fun max s hmax hpast => ?_⟩
  · exact ⟨h.clears_or hall, fun halike => h.expire_all (haging ▸ halike) hall⟩
  · exact h.window (haging.trans hmax) hpast

instance (m : Matcher α) (now : Observation) : Decidable (m.AllOverdue now) :=
  inferInstanceAs (Decidable (∀ c ∈ m.waiting,
    m.canAge c.2.seen = true → m.isOverdue c.2 now = true))

/-- Calls `a` and `d` are overdue, and only `a` is given up: the ticket that `b` has left behind
fits `c`, which never ages. -/
theorem untimed_call_in_the_way :
    let settings : MatcherSettings := { aging := .time (.ofSeconds 30) }
    let start : Option Span := some (.ofSeconds 0)
    let m := after settings [.call default 1 "a" ⟨0, start⟩, .call default 7 "b" ⟨1, start⟩,
      .reply default 7 ⟨1, start⟩, .call default 7 "c" ⟨1, none⟩, .call default 8 "d" ⟨2, start⟩]
    let now : Observation := ⟨3, some (.ofSeconds 1000)⟩
    m.AllOverdue now ∧ (m.expire now).2 = [.timeout default ⟨1, "a", ⟨0, start⟩, 0⟩] ∧
      (default, ⟨8, "d", ⟨2, start⟩, 0⟩) ∈ (m.expire now).1.waiting ∧
      m.canAge ⟨2, start⟩ = true ∧ ¬ m.Clears now := by
  intro settings start m now
  have htold : (m.expire now).2 = [.timeout default ⟨1, "a", ⟨0, start⟩, 0⟩] := by decide
  refine ⟨by decide, htold, by decide, by decide, fun hclears => ?_⟩
  have hlength := hclears.told.length_eq
  rw [htold] at hlength
  revert hlength
  decide

end Matcher

end NfsWire
