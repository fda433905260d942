import NfsWire.Capture.Stats
import NfsWire.Proofs.Capture.Census

/-!
# The matcher does not look into its calls

A matcher is asked for flows, transaction ids and observations. What a call is made of it hands back
and never reads, so exchanging the contents of all calls commutes with everything that is done with
a matcher: the calls that wait are exchanged, those in what is told are, and nothing else changes
(`onCall_map`, `onReply_map`, `expire_map`, `finish_map`).
-/

namespace NfsWire

/-- The call is another one, and nothing else changes. -/
def Pending.map {α β : Type} (f : α → β) (p : Pending α) : Pending β :=
  { xid := p.xid, call := f p.call, seen := p.seen, retransmissions := p.retransmissions }

/-- The calls are others, and nothing else changes. -/
def Matcher.map {α β : Type} (f : α → β) (m : Matcher α) : Matcher β where
  settings := m.settings
  flows := m.flows.map fun (flow, calls) => (flow, calls.map (Pending.map f))
  order := m.order
  pending := m.pending

variable {α β : Type} (f : α → β)

/-- The call is another one, and nothing else changes. -/
def MatchEvent.map : MatchEvent α → MatchEvent β
  | .matched flow call reply => .matched flow (call.map f) reply
  | .orphan flow xid reply => .orphan flow xid reply
  | .retransmission flow xid count seen => .retransmission flow xid count seen
  | .timeout flow call => .timeout flow (call.map f)

/-- Pairings are counted without looking at the calls. -/
theorem Stats.countMatch_map (s : Stats) (e : MatchEvent α) :
    s.countMatch (e.map f) = s.countMatch e := by
  cases e <;> rfl

theorem Stats.foldl_countMatch_map (s : Stats) (events : List (MatchEvent α)) :
    (events.map (MatchEvent.map f)).foldl Stats.countMatch s = events.foldl Stats.countMatch s := by
  simp only [List.foldl_map, Stats.countMatch_map]

namespace Calls

theorem find?_map (calls : Calls α) (xid : UInt32) :
    Calls.find? (calls.map (Pending.map f)) xid = (calls.find? xid).map (Pending.map f) :=
  List.find?_map

theorem erase_map (calls : Calls α) (xid : UInt32) :
    Calls.erase (calls.map (Pending.map f)) xid = (calls.erase xid).map (Pending.map f) :=
  List.filter_map

end Calls

namespace Matcher

variable (m : Matcher α) (flow : Flow) (xid : UInt32) (seen now : Observation)

/-! ## The store -/

theorem calls_map : (m.map f).calls flow = (m.calls flow).map (Pending.map f) := by
  simp only [calls, map, List.find?_map, Function.comp_def, Option.map_map]
  cases m.flows.find? (·.1 == flow) with
  | none => rfl
  | some entry => rfl

theorem get?_map : (m.map f).get? flow xid = (m.get? flow xid).map (Pending.map f) := by
  rw [get?, calls_map, Calls.find?_map, get?]

theorem setCalls_map (calls : Calls α) :
    (m.map f).setCalls flow (calls.map (Pending.map f)) = (m.setCalls flow calls).map f := by
  simp only [setCalls, map, List.isEmpty_map, List.filter_map, Function.comp_def]
  split
  · rfl
  · simp

theorem put_map (call : Pending α) :
    (m.map f).put flow (call.map f) = (m.put flow call).map f := by
  rw [put, calls_map, Calls.erase_map, put, ← setCalls_map, List.map_append]
  rfl

theorem take_map : (m.map f).take flow xid = (m.take flow xid).map f := by
  simp only [take, calls_map, Calls.erase_map, setCalls_map]
  rfl

theorem enrol_map (call : α) :
    (m.map f).enrol flow xid (f call) seen = (m.enrol flow xid call seen).map f := by
  have hput := m.put_map f flow { xid, call, seen, retransmissions := 0 }
  simp only [enrol]
  rw [show (⟨xid, f call, seen, 0⟩ : Pending β) = Pending.map f ⟨xid, call, seen, 0⟩ from rfl, hput]
  rfl

/-! ## Aging and pairing -/

theorem serve_map (tickets : List Ticket) :
    (m.map f).serve now tickets =
      ((m.serve now tickets).1.map f, (m.serve now tickets).2.map (MatchEvent.map f)) := by
  induction tickets generalizing m with
  | nil => rfl
  | cons t rest ih =>
    rw [serve, serve, get?_map]
    cases m.get? t.flow t.xid with
    | none => exact ih m
    | some call =>
      -- A ticket is judged by the observation of its call, which is kept.
      have hoverdue : (m.map f).isOverdue (call.map f) now = m.isOverdue call now := rfl
      simp only [Option.map_some, hoverdue, take_map, ih]
      by_cases hseq : call.seen.seq = t.seq
      · have hseq' : (call.map f).seen.seq = t.seq := hseq
        rw [if_pos hseq, if_pos hseq']
        cases m.isOverdue call now with
        | true => rfl
        | false => rfl
      · have hseq' : ¬ (call.map f).seen.seq = t.seq := hseq
        rw [if_neg hseq, if_neg hseq']

theorem expire_map :
    (m.map f).expire now =
      ((m.expire now).1.map f, (m.expire now).2.map (MatchEvent.map f)) :=
  m.serve_map f now m.order

theorem get?_expire_map :
    ((m.map f).expire now).1.get? flow xid =
      ((m.expire now).1.get? flow xid).map (Pending.map f) := by
  rw [expire_map, get?_map]

theorem onCall_map (call : α) :
    (m.map f).onCall flow xid (f call) seen =
      ((m.onCall flow xid call seen).1.map f,
        (m.onCall flow xid call seen).2.map (MatchEvent.map f)) := by
  have hget := m.get?_expire_map f flow xid seen
  cases hwaits : (m.expire seen).1.get? flow xid with
  | none =>
    rw [hwaits] at hget
    rw [onCall_new hwaits, onCall_new hget, expire_map, enrol_map]
  | some waiting =>
    rw [hwaits] at hget
    rw [onCall_again hwaits, onCall_again hget, expire_map, ← put_map, List.map_append]
    rfl

theorem onReply_map :
    (m.map f).onReply flow xid seen =
      ((m.onReply flow xid seen).1.map f,
        (m.onReply flow xid seen).2.map (MatchEvent.map f)) := by
  have hget := m.get?_expire_map f flow xid seen
  cases hwaits : (m.expire seen).1.get? flow xid with
  | none =>
    rw [hwaits] at hget
    rw [onReply_orphan hwaits, onReply_orphan hget, expire_map, List.map_append]
    rfl
  | some waiting =>
    rw [hwaits] at hget
    rw [onReply_matched hwaits, onReply_matched hget, expire_map, take_map, List.map_append]
    rfl

/-! ## The end of the capture -/

theorem waiting_map :
    (m.map f).waiting = m.waiting.map fun (flow, call) => (flow, call.map f) := by
  simp only [waiting, map, List.flatMap_map, List.map_flatMap, List.map_map]
  rfl

theorem finish_map :
    (m.map f).finish = (m.finish.1.map f, m.finish.2.map (MatchEvent.map f)) := by
  have hsettings : (m.map f).settings = m.settings := rfl
  simp only [finish, hsettings, waiting_map]
  refine Prod.ext rfl ?_
  cases m.settings.flushOnFinish with
  | false => rfl
  | true =>
    -- The sort looks at the observations only.
    have hsort := List.map_mergeSort (r := fun a b => decide (a.2.seen.seq ≤ b.2.seen.seq))
      (s := fun a b => decide (a.2.seen.seq ≤ b.2.seen.seq))
      (f := fun (flow, call) => (flow, Pending.map f call)) (l := m.waiting)
      fun a _ b _ => rfl
    simp only [if_true, ← hsort, List.map_map]
    rfl

end Matcher

end NfsWire
