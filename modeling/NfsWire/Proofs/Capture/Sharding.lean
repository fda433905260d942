import NfsWire.Capture.Shards
import NfsWire.Proofs.Capture.Lagging
import NfsWire.Proofs.Capture.Lives
import NfsWire.Proofs.Lists

/-!
# Sharding does not change matching

However flows are spread over shards, their calls and replies are answered as by one matcher
(`sharding_alike`). Only timeouts come later, because a shard looks for overdue calls when one of
its own flows is seen, and not before.

The chain of the argument:

* all shards together are one roster that lags, each with the calls of its own flows (`Spread`);
* the one matcher is a roster that does not (`Attends`, as for each shard);
* the two rosters answer alike, and differ by calls that are overdue (`Lags`).

Under aging by time this takes that times are known from the first one on. A call that is overdue
then stays overdue. Where an observation without a time comes later, nothing is overdue as of it:
what the one matcher has given up before, a shard may still match (`sharded_match_after_timeout`).
-/

namespace NfsWire

variable {α : Type}

/-! ## Timeouts and answers -/

def MatchEvent.isTimeout : MatchEvent α → Bool
  | .timeout .. => true
  | .matched .. => false
  | .orphan .. => false
  | .retransmission .. => false

/-- The timeouts among some events. -/
def timeouts (events : List (MatchEvent α)) : List (MatchEvent α) :=
  events.filter MatchEvent.isTimeout

/-- All that is told of calls and replies when they are seen. -/
def answers (events : List (MatchEvent α)) : List (MatchEvent α) :=
  events.filter fun e => !e.isTimeout

theorem timeouts_append (es fs : List (MatchEvent α)) :
    timeouts (es ++ fs) = timeouts es ++ timeouts fs := List.filter_append ..

theorem answers_append (es fs : List (MatchEvent α)) :
    answers (es ++ fs) = answers es ++ answers fs := List.filter_append ..

theorem isTimeout_of_mem_map {calls : List (Waiting α)} {e : MatchEvent α}
    (h : e ∈ calls.map Waiting.timeout) : e.isTimeout = true := by
  obtain ⟨c, -, rfl⟩ := List.mem_map.mp h
  rfl

theorem timeouts_map (calls : List (Waiting α)) :
    timeouts (calls.map Waiting.timeout) = calls.map Waiting.timeout :=
  List.filter_eq_self.mpr fun _ => isTimeout_of_mem_map

theorem answers_map (calls : List (Waiting α)) : answers (calls.map Waiting.timeout) = [] :=
  List.filter_eq_nil_iff.mpr fun e he => by simp [isTimeout_of_mem_map he]

theorem Roster.not_isTimeout_observe (r : Roster α) (a : Arrival α) :
    ∀ e ∈ (r.observe a).2, e.isTimeout = false := by
  cases a with
  | call flow xid call seen =>
    simp only [observe]
    split <;> simp [MatchEvent.isTimeout]
  | reply flow xid seen =>
    simp only [observe]
    split <;> simp [MatchEvent.isTimeout]

theorem Roster.timeouts_observe (r : Roster α) (a : Arrival α) :
    timeouts (r.observe a).2 = [] :=
  List.filter_eq_nil_iff.mpr fun e he => by simp [r.not_isTimeout_observe a e he]

theorem Roster.answers_observe (r : Roster α) (a : Arrival α) :
    answers (r.observe a).2 = (r.observe a).2 :=
  List.filter_eq_self.mpr fun e he => by simp [r.not_isTimeout_observe a e he]

theorem Roster.timeouts_step (r : Roster α) (a : Arrival α) :
    timeouts (r.step a.step).2 = (r.sweep a.seen).2 := by
  rw [step_arrival, timeouts_append, timeouts_observe, List.append_nil]
  exact timeouts_map _

theorem Roster.answers_step (r : Roster α) (a : Arrival α) :
    answers (r.step a.step).2 = ((r.sweep a.seen).1.observe a).2 := by
  rw [step_arrival, answers_append, answers_observe]
  exact congrArg (· ++ _) (answers_map _)

theorem Roster.timeouts_stepNear (r : Roster α) (near : Flow → Bool) (a : Arrival α) :
    timeouts (r.stepNear near a).2 = (r.sweepNear near a.seen).2 := by
  rw [stepNear, timeouts_append, timeouts_observe, List.append_nil]
  exact timeouts_map _

theorem Roster.answers_stepNear (r : Roster α) (near : Flow → Bool) (a : Arrival α) :
    answers (r.stepNear near a).2 = ((r.sweepNear near a.seen).1.observe a).2 := by
  rw [stepNear, answers_append, answers_observe]
  exact congrArg (· ++ _) (answers_map _)

namespace Alike

variable {es es' : List (MatchEvent α)}

theorem answers_eq (h : Alike es es') : answers es = answers es' := by
  induction h with
  | nil => rfl
  | cons e _ ih =>
    unfold answers at *
    rw [List.filter_cons, List.filter_cons, ih]
  | swap es _ => rfl
  | trans _ _ ih ih' => exact ih.trans ih'

theorem timeouts_perm (h : Alike es es') : (timeouts es).Perm (timeouts es') := h.perm.filter _

/-- The same timeouts in the order of their numbers. -/
theorem of_perm (hall : ∀ e ∈ es, ∃ c : Waiting α, e = c.timeout)
    (h : es.Pairwise fun a b => a.finishSeq ≤ b.finishSeq)
    (h' : es'.Pairwise fun a b => a.finishSeq ≤ b.finishSeq) (hperm : es.Perm es') :
    Alike es es' := by
  induction es generalizing es' with
  | nil =>
    rw [← hperm.nil_eq]
    exact .nil
  | cons e rest ih =>
    obtain ⟨before, behind, rfl⟩ := List.append_of_mem (hperm.mem_iff.mp List.mem_cons_self)
    obtain ⟨⟨c, rfl⟩, hrest⟩ := List.forall_mem_cons.mp hall
    obtain ⟨hfirst, hsorted⟩ := List.pairwise_cons.mp h
    have hperm' : rest.Perm (before ++ behind) := (hperm.trans List.perm_middle).cons_inv
    have hsub : (before ++ behind).Sublist (before ++ c.timeout :: behind) :=
      (List.sublist_cons_self ..).append_left _
    -- What comes ahead of `c` on one side and behind it on the other has the same number.
    have hsame : ∀ e ∈ before, ∃ d : Waiting α, e = d.timeout ∧
        d.call.seen.seq = c.call.seen.seq := by
      intro e he
      have hmem : e ∈ rest := hperm'.mem_iff.mpr (List.mem_append_left _ he)
      have hle := (List.pairwise_append.mp h').2.2 e he _ List.mem_cons_self
      have hge := hfirst e hmem
      obtain ⟨d, rfl⟩ := hrest e hmem
      exact ⟨d, rfl, Nat.le_antisymm hle hge⟩
    have hmoved := Alike.move hsame behind
    exact (Alike.cons _ (ih hrest hsorted (h'.sublist hsub) hperm')).trans hmoved

end Alike

/-! ## A matcher of a part of the capture -/

/-- The matcher has seen some of the capture, in its order, and is in step with the roster. -/
structure Attends (settings : MatcherSettings) (past : List Observation) (m : Matcher α)
    (r : Roster α) : Prop where
  settings : m.settings = settings
  wellFormed : m.WellFormed
  tracks : ∃ seen, seen.Sublist past ∧ Tracks seen m r

/-- The call with its flow, as a matcher lists it. -/
def Waiting.entry (c : Waiting α) : Flow × Pending α := (c.flow, c.call)

namespace Attends

variable {settings : MatcherSettings} {past : List Observation} {m : Matcher α} {r : Roster α}

theorem new (settings : MatcherSettings) :
    Attends (α := α) settings [] (Matcher.new settings) (Roster.new settings.aging) :=
  ⟨rfl, .new settings, [], .refl _, .new settings⟩

theorem later (h : Attends settings past m r) (now : Observation) :
    Attends settings (past ++ [now]) m r := by
  obtain ⟨seen, hseen, htracks⟩ := h.tracks
  exact ⟨h.settings, h.wellFormed, seen, hseen.trans (List.sublist_append_left ..), htracks⟩

theorem step (h : Attends settings past m r) (s : Step α)
    (hpast : InCaptureOrder (past ++ [s.at])) :
    Attends settings (past ++ [s.at]) (m.step s).1 (r.step s).1 ∧
      Alike (m.step s).2 (r.step s).2 := by
  obtain ⟨seen, hseen, htracks⟩ := h.tracks
  have hacts := h.wellFormed.acts (.step s)
  have hsub : (seen ++ [s.at]).Sublist (past ++ [s.at]) := hseen.append_right _
  obtain ⟨htracks', halike⟩ := htracks.step s (hpast.sublist hsub)
  exact ⟨⟨hacts.settings.trans h.settings, hacts.wellFormed, _, hsub, htracks'⟩, halike⟩

/-- The calls that wait are those of the roster. -/
theorem waiting_perm (h : Attends settings past m r) :
    m.waiting.Perm (r.calls.map Waiting.entry) := by
  obtain ⟨seen, -, htracks⟩ := h.tracks
  have hdistinct := htracks.ordered.distinct
  have hwaiting : m.waiting.Nodup := by
    refine h.wellFormed.apart.imp fun hapart heq => hapart ?_
    exact heq ▸ ⟨rfl, rfl⟩
  have hcalls : (r.calls.map Waiting.entry).Nodup := by
    refine List.pairwise_map.mpr (hdistinct.imp fun {c c'} hapart heq => hapart ?_)
    have hflow : c.flow = c'.flow := congrArg Prod.fst heq
    have hcall : c.call = c'.call := congrArg Prod.snd heq
    exact ⟨hflow, congrArg Pending.xid hcall⟩
  refine (List.perm_ext_iff_of_nodup hwaiting hcalls).mpr fun (flow, call) => ?_
  have hget : (flow, call) ∈ m.waiting ↔ r.get? flow call.xid = some call := by
    rw [← htracks.agrees.get?, h.wellFormed.get?_eq_some_iff, and_iff_left rfl]
  rw [hget]
  constructor
  · intro hfound
    exact List.mem_map_of_mem (hdistinct.mem_of_get? hfound)
  · intro hmem
    obtain ⟨c, hc, heq⟩ := List.mem_map.mp hmem
    cases heq
    exact hdistinct.get?_of_mem hc

theorem length_eq (h : Attends settings past m r) : m.length = r.length := by
  obtain ⟨_, -, htracks⟩ := h.tracks
  exact htracks.agrees.length

/-- In the end all calls that wait are told, or none. -/
theorem finish_perm (h : Attends settings past m r) :
    m.finish.2.Perm (if settings.flushOnFinish then r.calls.map Waiting.timeout else []) := by
  rw [Matcher.finish, h.settings]
  split
  · exact (((List.mergeSort_perm ..).trans h.waiting_perm).map Matcher.timeoutOf).trans
      (.of_eq (List.map_map ..))
  · exact .refl _

end Attends

/-! ## Shards -/

namespace Shards

/-- See to a call or a reply. -/
def observe (s : Shards α) : Arrival α → Shards α × List (MatchEvent α)
  | .call flow xid call seen => s.onCall flow xid call seen
  | .reply flow xid seen => s.onReply flow xid seen

theorem observe_eq {s : Shards α} {a : Arrival α} {m : Matcher α}
    (hm : s.shards[s.indexOf a.flow]? = some m) :
    s.observe a = ({ s with shards := s.shards.set (s.indexOf a.flow) (m.step a.step).1 },
      (m.step a.step).2) := by
  cases a with
  | call flow xid call seen =>
    rw [Arrival.flow] at hm ⊢
    simp only [observe, onCall, step, hm, Arrival.step, Matcher.step]
  | reply flow xid seen =>
    rw [Arrival.flow] at hm ⊢
    simp only [observe, onReply, step, hm, Arrival.step, Matcher.step]

/-- The roster of all shards has the calls of each. -/
structure Spread (settings : MatcherSettings) (past : List Observation) (s : Shards α)
    (r : Roster α) : Prop where
  pos : 0 < s.shards.length
  shard : ∀ i m, s.shards[i]? = some m →
    Attends settings past m (r.keep fun flow _ => s.indexOf flow == i)

namespace Spread

variable {settings : MatcherSettings} {past : List Observation} {s : Shards α} {r : Roster α}

theorem new (count : Nat) (settings : MatcherSettings) (digest : Flow → UInt64) :
    Spread (α := α) settings [] (Shards.new count settings digest)
      (Roster.new settings.aging) := by
  constructor
  case pos =>
    rw [Shards.new, List.length_replicate]
    exact Nat.le_max_right count 1
  case shard =>
    intro i m hm
    have hnew : m = Matcher.new settings := List.eq_of_mem_replicate (List.mem_of_getElem? hm)
    exact hnew ▸ .new settings

theorem indexOf_lt (h : Spread settings past s r) (flow : Flow) :
    s.indexOf flow < s.shards.length := Nat.mod_lt _ h.pos

/-- The shard of a flow takes a step; for the roster it is the one of these flows only. -/
theorem observe (h : Spread settings past s r) (a : Arrival α)
    (hpast : InCaptureOrder (past ++ [a.seen])) :
    Spread settings (past ++ [a.seen]) (s.observe a).1
        (r.stepNear (fun flow => s.indexOf flow == s.indexOf a.flow) a).1 ∧
      Alike (s.observe a).2 (r.stepNear (fun flow => s.indexOf flow == s.indexOf a.flow) a).2 := by
  have hnear : (s.indexOf a.flow == s.indexOf a.flow) = true := beq_self_eq_true _
  obtain ⟨m, hm⟩ : ∃ m, s.shards[s.indexOf a.flow]? = some m :=
    ⟨_, List.getElem?_eq_getElem (h.indexOf_lt a.flow)⟩
  rw [← a.at_step] at hpast
  obtain ⟨hshard, halike⟩ := (h.shard _ m hm).step a.step hpast
  rw [a.at_step, Roster.step_keep_near hnear] at hshard
  rw [Roster.step_keep_near hnear] at halike
  rw [observe_eq hm]
  refine ⟨⟨?_, fun i m' hm' => ?_⟩, halike⟩
  · rw [List.length_set]
    exact h.pos
  · have hindex : ∀ flow, indexOf { s with
        shards := s.shards.set (s.indexOf a.flow) (m.step a.step).1 } flow = s.indexOf flow :=
      fun flow => by simp only [indexOf, List.length_set]
    simp only [hindex]
    by_cases hi : s.indexOf a.flow = i
    · subst hi
      rw [List.getElem?_set_self (h.indexOf_lt a.flow)] at hm'
      cases hm'
      exact hshard
    · rw [List.getElem?_set_ne hi] at hm'
      rw [Roster.keep_stepNear hnear]
      · exact (h.shard i m' hm').later a.seen
      · intro flow hflow
        rw [beq_iff_eq] at hflow
        simpa [hflow] using Ne.symm hi

theorem waiting_perm (h : Spread settings past s r) :
    (s.shards.flatMap Matcher.waiting).Perm (r.calls.map Waiting.entry) :=
  flatMap_perm_of_index (fun i m hm => (h.shard i m hm).waiting_perm)
    fun c _ => h.indexOf_lt c.flow

theorem length_eq (h : Spread settings past s r) : s.length = r.length := by
  have hwaiting : s.shards.map Matcher.length = s.shards.map fun m => m.waiting.length := by
    refine List.map_congr_left fun m hm => ?_
    obtain ⟨i, hi⟩ := List.getElem?_of_mem hm
    exact (h.shard i m hi).wellFormed.pending
  rw [Shards.length, hwaiting, ← List.length_flatMap, h.waiting_perm.length_eq, List.length_map]
  rfl

theorem finish_perm (h : Spread settings past s r) :
    s.finish.2.Perm (if settings.flushOnFinish then r.calls.map Waiting.timeout else []) := by
  have hfinish : (s.shards.flatMap fun m => m.finish.2).Perm
      (if settings.flushOnFinish then r.calls.map Waiting.timeout else []) := by
    split
    next hflush =>
      refine flatMap_perm_of_index (fun i m hm => ?_) fun c _ => h.indexOf_lt c.flow
      have hperm := (h.shard i m hm).finish_perm
      rwa [if_pos hflush] at hperm
    next hflush =>
      refine .of_eq (List.flatMap_eq_nil_iff.mpr fun m hm => ?_)
      obtain ⟨i, hi⟩ := List.getElem?_of_mem hm
      have hperm := (h.shard i m hi).finish_perm
      rw [if_neg hflush] at hperm
      exact hperm.eq_nil
  rw [Shards.finish, List.flatMap_map]
  exact (List.mergeSort_perm ..).trans hfinish

end Spread

end Shards

/-! ## The end of the capture -/

theorem Matcher.pairwise_finish (m : Matcher α) :
    m.finish.2.Pairwise fun a b => a.finishSeq ≤ b.finishSeq := by
  rw [Matcher.finish]
  split
  · exact List.pairwise_map.mpr (pairwise_mergeSort_key (·.2.seen.seq) m.waiting)
  · exact .nil

theorem Shards.pairwise_finish (s : Shards α) :
    s.finish.2.Pairwise fun a b => a.finishSeq ≤ b.finishSeq :=
  pairwise_mergeSort_key MatchEvent.finishSeq _

/-! ## Runs -/

/-- What is told at each of some steps. -/
def toldBy {σ β ε : Type} (step : σ → β → σ × ε) : σ → List β → List ε
  | _, [] => []
  | s, b :: bs => (step s b).2 :: toldBy step (step s b).1 bs

theorem take_toldBy {σ β ε : Type} (step : σ → β → σ × ε) (s : σ) (bs : List β) (n : Nat) :
    (toldBy step s bs).take n = toldBy step s (bs.take n) := by
  induction bs generalizing s n with
  | nil => rw [List.take_nil, toldBy, List.take_nil]
  | cons b bs ih =>
    cases n with
    | zero => rfl
    | succ n => exact congrArg (_ :: ·) (ih _ n)

/-- The shards after some calls and replies. -/
def Shards.after (count : Nat) (settings : MatcherSettings) (digest : Flow → UInt64)
    (arrivals : List (Arrival α)) : Shards α :=
  arrivals.foldl (fun s a => (s.observe a).1) (new count settings digest)

/-- Shards and one matcher that have seen the same, with the timeouts that they told. -/
structure Together (settings : MatcherSettings) (past : List Observation) (now : Observation)
    (s : Shards α) (m : Matcher α) (behind ahead : Roster α)
    (many one : List (MatchEvent α)) : Prop where
  aging : behind.aging = settings.aging
  spread : s.Spread settings past behind
  attends : Attends settings past m ahead
  lags : Lags now behind ahead many one

namespace Together

variable {settings : MatcherSettings} {past : List Observation} {now : Observation}
  {s : Shards α} {m : Matcher α} {behind ahead : Roster α} {many one : List (MatchEvent α)}

theorem new (count : Nat) (settings : MatcherSettings) (digest : Flow → UInt64) :
    Together (α := α) settings [] .start (Shards.new count settings digest)
      (Matcher.new settings) (Roster.new settings.aging) (Roster.new settings.aging) [] [] :=
  ⟨rfl, .new count settings digest, .new settings, .new settings.aging⟩

/-- Both see to the same call or reply. -/
theorem observe (h : Together settings past now s m behind ahead many one) (a : Arrival α)
    (hpast : InCaptureOrder (past ++ [a.seen])) (hkeeps : settings.aging.Keeps now a.seen) :
    answers (s.observe a).2 = answers (m.step a.step).2 ∧
      ∃ behind' ahead', Together settings (past ++ [a.seen]) a.seen (s.observe a).1
        (m.step a.step).1 behind' ahead' (many ++ timeouts (s.observe a).2)
        (one ++ timeouts (m.step a.step).2) := by
  obtain ⟨hspread, hmany⟩ := h.spread.observe a hpast
  obtain ⟨hanswer, hlags⟩ := h.lags.step (fun flow => s.indexOf flow == s.indexOf a.flow)
    (beq_self_eq_true _) (h.aging ▸ hkeeps)
  rw [← a.at_step] at hpast
  obtain ⟨hattends, hone⟩ := h.attends.step a.step hpast
  rw [a.at_step] at hattends
  constructor
  · rw [hmany.answers_eq, hone.answers_eq, Roster.answers_stepNear, Roster.answers_step, hanswer]
  · have hmany' := hmany.timeouts_perm
    have hone' := hone.timeouts_perm
    rw [Roster.timeouts_stepNear] at hmany'
    rw [Roster.timeouts_step] at hone'
    have hlags' := hlags.of_perm (hmany'.symm.append_left many) (hone'.symm.append_left one)
    exact ⟨_, _, (behind.aging_stepNear _ a).trans h.aging, hspread, hattends, hlags'⟩

/-- Both see to the same calls and replies. -/
theorem run (h : Together settings past now s m behind ahead many one)
    {arrivals : List (Arrival α)} (hpast : InCaptureOrder (past ++ arrivals.map Arrival.seen))
    (hkeeps : (now :: arrivals.map Arrival.seen).Pairwise settings.aging.Keeps) :
    (toldBy Shards.observe s arrivals).map answers =
        (toldBy Matcher.step m (arrivals.map Arrival.step)).map answers ∧
      ∃ now' behind' ahead', Together settings (past ++ arrivals.map Arrival.seen) now'
        (arrivals.foldl (fun s a => (s.observe a).1) s)
        ((arrivals.map Arrival.step).foldl (fun m s => (m.step s).1) m) behind' ahead'
        (many ++ timeouts (toldBy Shards.observe s arrivals).flatten)
        (one ++ timeouts (toldBy Matcher.step m (arrivals.map Arrival.step)).flatten) := by
  induction arrivals generalizing past now s m behind ahead many one with
  | nil =>
    refine ⟨rfl, now, behind, ahead, ?_⟩
    simp only [List.map_nil, toldBy, List.flatten_nil, timeouts, List.filter_nil,
      List.append_nil, List.foldl_nil]
    exact h
  | cons a arrivals ih =>
    rw [List.map_cons] at hpast hkeeps
    rw [List.append_cons] at hpast
    obtain ⟨hnow, hrest⟩ := List.pairwise_cons.mp hkeeps
    obtain ⟨hanswer, behind', ahead', htogether⟩ :=
      h.observe a hpast.of_append (hnow a.seen List.mem_cons_self)
    obtain ⟨hanswers, now', behind'', ahead'', hrun⟩ := ih htogether hpast hrest
    refine ⟨?_, now', behind'', ahead'', ?_⟩
    · simp only [List.map_cons, toldBy, hanswer, hanswers]
    · simp only [List.map_cons, toldBy, List.flatten_cons, timeouts_append, List.foldl_cons]
      simpa only [List.append_assoc, List.singleton_append] using hrun

/-- Timeouts that shards have told were told. -/
theorem early (h : Together settings past now s m behind ahead many one) :
    ∃ early, one.Perm (many ++ early) := ⟨_, h.lags.timeouts⟩

/-- In the end both have told the same timeouts. -/
theorem finish_perm (h : Together settings past now s m behind ahead many one)
    (hflush : settings.flushOnFinish = true) :
    (many ++ s.finish.2).Perm (one ++ m.finish.2) := by
  have hmany := h.spread.finish_perm
  have hone := h.attends.finish_perm
  rw [if_pos hflush] at hmany hone
  have hsplit := List.filter_append_perm
    (fun c : Waiting α => behind.aging.late now c.flow c.call.seen) behind.calls
  have hcalls := hsplit.map Waiting.timeout
  rw [List.map_append] at hcalls
  have hahead : ahead.calls =
      behind.calls.filter fun c => !behind.aging.late now c.flow c.call.seen := by
    rw [h.lags.calls]
    rfl
  calc many ++ s.finish.2
    _ |>.Perm (many ++ behind.calls.map Waiting.timeout) := hmany.append_left many
    _ |>.Perm (many ++ (_ ++ ahead.calls.map Waiting.timeout)) := by
      rw [hahead]
      exact hcalls.symm.append_left many
    _ |>.Perm (one ++ ahead.calls.map Waiting.timeout) := by
      rw [← List.append_assoc]
      exact h.lags.timeouts.symm.append_right _
    _ |>.Perm (one ++ m.finish.2) := hone.symm.append_left one

/-- Without aging there is nothing to be late with. -/
theorem eq_of_disabled (h : Together settings past now s m behind ahead many one)
    (haging : settings.aging = .disabled) : ahead = behind := by
  rw [h.lags.calls, h.aging, haging]
  exact Roster.keep_eq_self fun _ _ => rfl

theorem length_eq (h : Together settings past now s m behind ahead many one)
    (haging : settings.aging = .disabled) : s.length = m.length := by
  rw [h.spread.length_eq, h.attends.length_eq, h.eq_of_disabled haging]

theorem finish_alike (h : Together settings past now s m behind ahead many one)
    (haging : settings.aging = .disabled) : Alike s.finish.2 m.finish.2 := by
  have hmany := h.spread.finish_perm
  have hone := h.attends.finish_perm
  rw [h.eq_of_disabled haging] at hone
  refine .of_perm (fun e he => ?_) s.pairwise_finish m.pairwise_finish (hmany.trans hone.symm)
  have hmem := hmany.mem_iff.mp he
  split at hmem
  · obtain ⟨c, -, rfl⟩ := List.mem_map.mp hmem
    exact ⟨c, rfl⟩
  · cases hmem

end Together

/-- **Sharding does not change matching.** However many shards there are and however flows choose
theirs, on a capture in order

* calls and replies are answered as by one matcher, at every step;
* no timeout is told earlier than by one matcher;
* if waiting calls are told in the end, the timeouts are the same altogether;
* without aging as many calls wait after every step, and the end is the same up to the order of
  calls with one number. -/
theorem sharding_alike (count : Nat) (settings : MatcherSettings) (digest : Flow → UInt64)
    {arrivals : List (Arrival α)} (h : InCaptureOrder (arrivals.map Arrival.seen))
    (htimed : settings.aging.Timed (arrivals.map Arrival.seen)) :
    let steps := arrivals.map Arrival.step
    let many := toldBy Shards.observe (Shards.new count settings digest) arrivals
    let one := toldBy Matcher.step (Matcher.new settings) steps
    let shards := Shards.after count settings digest
    let matcher := Matcher.after settings
    many.map answers = one.map answers ∧
      (∀ n, ∃ early, (timeouts (one.take n).flatten).Perm
        (timeouts (many.take n).flatten ++ early)) ∧
      (settings.flushOnFinish = true →
        (timeouts many.flatten ++ (shards arrivals).finish.2).Perm
          (timeouts one.flatten ++ (matcher steps).finish.2)) ∧
      (settings.aging = .disabled →
        (∀ n, (shards (arrivals.take n)).length = (matcher (steps.take n)).length) ∧
          Alike (shards arrivals).finish.2 (matcher steps).finish.2) := by
  intro steps many one shards matcher
  have hkeeps : (Observation.start :: arrivals.map Arrival.seen).Pairwise settings.aging.Keeps := by
    refine List.pairwise_cons.mpr ⟨fun o _ seen hover => ?_, htimed.keeps h⟩
    rw [Aging.not_overdue_start] at hover
    cases hover
  have hstart := Together.new (α := α) count settings digest
  have hrun (n : Nat) := by
    have hsub : ((arrivals.take n).map Arrival.seen).Sublist (arrivals.map Arrival.seen) :=
      (List.take_sublist n arrivals).map _
    exact hstart.run (List.Pairwise.sublist hsub h) (hkeeps.sublist (hsub.cons_cons _))
  obtain ⟨hanswers, _, _, _, hend⟩ := hstart.run h hkeeps
  refine ⟨hanswers, fun n => ?_, fun hflush => ?_, fun haging => ⟨fun n => ?_, ?_⟩⟩
  · obtain ⟨_, _, _, _, htogether⟩ := hrun n
    have hearly := htogether.early
    rwa [List.map_take, ← take_toldBy, ← take_toldBy] at hearly
  · exact hend.finish_perm hflush
  · obtain ⟨_, _, _, _, htogether⟩ := hrun n
    have hlength := htogether.length_eq haging
    rwa [List.map_take] at hlength
  · exact hend.finish_alike haging

/-- Two flows in two shards: the second one's reply comes after the first one's call is overdue,
which its own shard finds out later. -/
theorem sharding_alike_two_flows :
    let flow (port : UInt16) : Flow := ⟨⟨.v4 0, port⟩, default⟩
    let settings : MatcherSettings := { aging := .packets 2 }
    let digest (flow : Flow) : UInt64 := flow.client.port.toUInt64
    let arrivals : List (Arrival String) := [.call (flow 0) 7 "a" ⟨1, none⟩,
      .call (flow 1) 7 "b" ⟨2, none⟩, .reply (flow 1) 7 ⟨4, none⟩, .reply (flow 0) 7 ⟨5, none⟩]
    InCaptureOrder (arrivals.map Arrival.seen) ∧
      settings.aging.Timed (arrivals.map Arrival.seen) ∧
      (toldBy Shards.observe (Shards.new 2 settings digest) arrivals).map answers =
        (toldBy Matcher.step (Matcher.new settings) (arrivals.map Arrival.step)).map answers :=
  ⟨by decide, by decide, (sharding_alike 2 _ _ (by decide) (by decide)).1⟩

/-- Where times are lost, a call that one matcher has given up is still matched in its shard. -/
theorem sharded_match_after_timeout :
    let flow (port : UInt16) : Flow := ⟨⟨.v4 0, port⟩, default⟩
    let settings : MatcherSettings := { aging := .time (.ofSeconds 30) }
    let digest (flow : Flow) : UInt64 := flow.client.port.toUInt64
    let arrivals : List (Arrival String) := [.call (flow 0) 7 "a" ⟨1, some (.ofSeconds 0)⟩,
      .call (flow 1) 8 "b" ⟨2, some (.ofSeconds 100)⟩, .reply (flow 0) 7 ⟨3, none⟩]
    InCaptureOrder (arrivals.map Arrival.seen) ∧
      (toldBy Shards.observe (Shards.new 2 settings digest) arrivals).map answers =
        [[], [], [.matched (flow 0) ⟨7, "a", ⟨1, some (.ofSeconds 0)⟩, 0⟩ ⟨3, none⟩]] ∧
      (toldBy Matcher.step (Matcher.new settings) (arrivals.map Arrival.step)).map answers =
        [[], [], [.orphan (flow 0) 7 ⟨3, none⟩]] := by
  decide

end NfsWire
