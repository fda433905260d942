import NfsWire.Capture.Matcher

/-!
# The store of waiting calls

The matcher keeps its calls in a list of flows with a list of calls each. Seen from outside it is a
map from flow and transaction id to a call, and of the two ways to change it only `put` and `take`
are used. This file gives the map after each of them, so that nothing later looks into the lists.
The laws hold in every state, whether or not keys are repeated in the lists.
-/

namespace NfsWire

variable {α : Type}

namespace Calls

theorem find?_erase (calls : Calls α) (xid x : UInt32) :
    (calls.erase xid).find? x = if x = xid then none else calls.find? x := by
  unfold Calls.find? Calls.erase
  rw [List.find?_filter]
  by_cases h : x = xid
  · subst h
    simp
  · rw [if_neg h]
    congr 1
    funext call
    by_cases hx : call.xid = x
    · simp [hx, h]
    · simp [hx]

theorem find?_append_singleton (calls : Calls α) (call : Pending α) (x : UInt32) :
    Calls.find? (calls ++ [call]) x =
      (calls.find? x).or (if x = call.xid then some call else none) := by
  unfold Calls.find?
  rw [List.find?_append]
  congr 1
  by_cases h : x = call.xid
  · simp [h]
  · simp [h, Ne.symm h]

end Calls

namespace Matcher

/-- Replacing the calls of one flow leaves the others alone. -/
theorem calls_setCalls (m : Matcher α) (flow f : Flow) (calls : Calls α) :
    (m.setCalls flow calls).calls f = if f = flow then calls else m.calls f := by
  unfold Matcher.calls setCalls
  by_cases h : f = flow
  · subst h
    have hothers : (m.flows.filter (·.1 != f)).find? (·.1 == f) = none := by
      simp [List.find?_filter]
    cases calls with
    | nil => simp [hothers]
    | cons call rest => simp [List.find?_append, hothers]
  · have hothers : (m.flows.filter (·.1 != flow)).find? (·.1 == f) =
        m.flows.find? (·.1 == f) := by
      rw [List.find?_filter]
      congr 1
      funext entry
      by_cases hf : entry.1 = f
      · simp [hf, h]
      · simp [hf]
    cases calls with
    | nil => simp [hothers, h]
    | cons call rest => simp [List.find?_append, hothers, h, Ne.symm h]

theorem get?_setCalls (m : Matcher α) (flow f : Flow) (calls : Calls α) (x : UInt32) :
    (m.setCalls flow calls).get? f x = if f = flow then calls.find? x else m.get? f x := by
  rw [get?, calls_setCalls]
  by_cases h : f = flow
  · rw [if_pos h, if_pos h]
  · rw [if_neg h, if_neg h, get?]

/-- After `put` the call is there, and all others are as before. -/
theorem get?_put (m : Matcher α) (flow f : Flow) (call : Pending α) (x : UInt32) :
    (m.put flow call).get? f x =
      if f = flow ∧ x = call.xid then some call else m.get? f x := by
  rw [put, get?_setCalls, Calls.find?_append_singleton, Calls.find?_erase]
  by_cases hf : f = flow
  · subst hf
    by_cases hx : x = call.xid
    · simp [hx]
    · simp [hx, get?]
  · simp [hf]

/-- A call that is let in is there, and all others are as before. -/
theorem get?_enrol (m : Matcher α) (flow f : Flow) (xid : UInt32) (call : α) (seen : Observation)
    (x : UInt32) :
    (m.enrol flow xid call seen).get? f x =
      if f = flow ∧ x = xid then some { xid, call, seen, retransmissions := 0 }
      else m.get? f x :=
  m.get?_put flow f { xid, call, seen, retransmissions := 0 } x

/-- After `take` the call is gone, and all others are as before. -/
theorem get?_take (m : Matcher α) (flow f : Flow) (xid x : UInt32) :
    (m.take flow xid).get? f x = if f = flow ∧ x = xid then none else m.get? f x := by
  show (m.setCalls flow ((m.calls flow).erase xid)).get? f x = _
  rw [get?_setCalls, Calls.find?_erase]
  by_cases hf : f = flow
  · subst hf
    by_cases hx : x = xid
    · simp [hx]
    · simp [hx, get?]
  · simp [hf]

end Matcher

end NfsWire
