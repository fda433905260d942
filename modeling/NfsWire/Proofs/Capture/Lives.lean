import NfsWire.Proofs.Capture.Census

/-!
# The life of a call

Whatever is done with a matcher, and in whatever order things were observed, every call that is
stored leaves exactly once, under its own flow and transaction id, and as the call it was stored
as.

What a call *should* be is read off a log of the run: for each action the events that were told.
`callsSince` goes through the log and keeps the calls of one flow and transaction id since something
was last taken out there; the first of them is the one that waits, and the others are its
retransmissions, of whose number a matcher keeps 32 bits (`Pending.ofCalls?`). That the matcher
holds just this (`Course.Faithful`) is kept by every action, and what an event takes out was held
before.

That no call is lost or doubled is said of all calls of a run together: those that were stored are
those that left with an event, those that a `finish` dropped, and those that still wait
(`Course.Conserves`). Calls that look the same are on these lists as often as they were stored.
-/

namespace NfsWire

variable {α : Type}

/-! ## Runs and their logs -/

/-- Something that is done with a matcher. -/
inductive Action (α : Type) where
  | step (s : Step α)
  | finish
  deriving DecidableEq, Repr

/-- Do it. -/
def Matcher.act (m : Matcher α) : Action α → Matcher α × List (MatchEvent α)
  | .step s => m.step s
  | .finish => m.finish

/-- The waiting call that an event takes out. -/
def MatchEvent.taken? : MatchEvent α → Option (Flow × Pending α)
  | .matched flow call _ => some (flow, call)
  | .timeout flow call => some (flow, call)
  | .orphan .. => none
  | .retransmission .. => none

/-- Whether an event is about a reply. -/
def MatchEvent.isVerdict : MatchEvent α → Bool
  | .matched .. => true
  | .orphan .. => true
  | .retransmission .. => false
  | .timeout .. => false

/-- An action of a run, and what the matcher told. -/
structure Turn (α : Type) where
  action : Action α
  events : List (MatchEvent α)

/-- The calls that were taken out. -/
def Turn.taken (t : Turn α) : List (Flow × Pending α) := t.events.filterMap MatchEvent.taken?

/-- Whether the entry of a flow and transaction id was removed, if there was one. -/
def Turn.removes (t : Turn α) (flow : Flow) (xid : UInt32) : Bool :=
  match t.action with
  | .finish => true
  | .step _ => t.taken.any fun c => c.1 == flow && c.2.xid == xid

/-- The calls of a flow and transaction id after a turn. What is told comes before the call that is
let in. -/
def Turn.follow (t : Turn α) (flow : Flow) (xid : UInt32) (calls : List (α × Observation)) :
    List (α × Observation) :=
  let kept := if t.removes flow xid then [] else calls
  match t.action with
  | .step (.call f x call seen) => if f = flow ∧ x = xid then kept ++ [(call, seen)] else kept
  | _ => kept

/-- The calls of a flow and transaction id since its entry was last removed. -/
def callsSince (turns : List (Turn α)) (flow : Flow) (xid : UInt32) : List (α × Observation) :=
  turns.foldl (fun calls t => t.follow flow xid calls) []

/-- The entry that some calls amount to: the first one, and the number of the others, of which
32 bits are kept. -/
def Pending.ofCalls? (xid : UInt32) : List (α × Observation) → Option (Pending α)
  | [] => none
  | (call, seen) :: later => some { xid, call, seen, retransmissions := UInt32.ofNat later.length }

/-- A call as it was seen first. -/
structure Sighting (α : Type) where
  flow : Flow
  xid : UInt32
  call : α
  seen : Observation
  deriving DecidableEq, Repr

def Sighting.of (c : Flow × Pending α) : Sighting α := ⟨c.1, c.2.xid, c.2.call, c.2.seen⟩

/-- A run of a matcher. -/
structure Course (α : Type) where
  matcher : Matcher α
  turns : List (Turn α)
  /-- The calls that found no entry of their transaction id. -/
  stored : List (Sighting α)
  /-- The calls that waited at a `finish` which does not report them. -/
  dropped : List (Sighting α)

namespace Course

/-- A run in which nothing was done yet. -/
def new (settings : MatcherSettings) : Course α :=
  { matcher := .new settings, turns := [], stored := [], dropped := [] }

/-- The calls that an action stores: the first one since the last removal. -/
def stores (turns : List (Turn α)) : Action α → List (Sighting α)
  | .step (.call flow xid call seen) =>
    if (callsSince turns flow xid).length = 1 then [⟨flow, xid, call, seen⟩] else []
  | _ => []

/-- The calls that an action drops without an event. -/
def drops (m : Matcher α) : Action α → List (Sighting α)
  | .finish => if m.settings.flushOnFinish then [] else m.waiting.map Sighting.of
  | .step _ => []

/-- Go on with one action. -/
def next (c : Course α) (a : Action α) : Course α :=
  let (m, events) := c.matcher.act a
  let turns := c.turns ++ [⟨a, events⟩]
  { matcher := m
    turns
    stored := c.stored ++ stores turns a
    dropped := c.dropped ++ drops c.matcher a }

/-- A run of some actions. -/
def run (settings : MatcherSettings) (actions : List (Action α)) : Course α :=
  actions.foldl next (new settings)

/-- The calls that left with an event. -/
def left (c : Course α) : List (Sighting α) := c.turns.flatMap fun t => t.taken.map Sighting.of

/-- The matcher holds what its log says. -/
structure Faithful (c : Course α) : Prop where
  wellFormed : c.matcher.WellFormed
  get? : ∀ flow xid, c.matcher.get? flow xid = Pending.ofCalls? xid (callsSince c.turns flow xid)

/-- No call is lost, and none is doubled. -/
def Conserves (c : Course α) : Prop :=
  c.stored.Perm (c.left ++ c.dropped ++ c.matcher.waiting.map Sighting.of)

end Course

/-! ## Reading a log -/

theorem callsSince_append (turns : List (Turn α)) (t : Turn α) (flow : Flow) (xid : UInt32) :
    callsSince (turns ++ [t]) flow xid = t.follow flow xid (callsSince turns flow xid) := by
  rw [callsSince, List.foldl_append]
  rfl

namespace Pending

theorem ofCalls?_eq_none_iff {xid : UInt32} {calls : List (α × Observation)} :
    ofCalls? xid calls = none ↔ calls = [] := by
  cases calls <;> simp [ofCalls?]

/-- One more call is one more retransmission. -/
theorem ofCalls?_append {xid : UInt32} {calls : List (α × Observation)} {p : Pending α}
    (h : ofCalls? xid calls = some p) (c : α × Observation) :
    ofCalls? xid (calls ++ [c]) = some { p with retransmissions := p.retransmissions + 1 } := by
  cases calls with
  | nil => cases h
  | cons first later =>
    cases h
    simp [ofCalls?]

/-- **The count says how many calls came later, up to the first that it cannot count.** -/
theorem retransmissions_of_ofCalls? {xid : UInt32} {calls : List (α × Observation)} {p : Pending α}
    (h : ofCalls? xid calls = some p) :
    p.retransmissions.toNat + 1 = calls.length ↔ calls.length ≤ UInt32.size := by
  cases calls with
  | nil => cases h
  | cons first later =>
    cases h
    have hcount : (UInt32.ofNat later.length).toNat = later.length % UInt32.size := rfl
    have hmod := Nat.mod_lt later.length (by decide : 0 < UInt32.size)
    rw [hcount, List.length_cons]
    constructor
    · intro heq
      omega
    · intro hle
      rw [Nat.mod_eq_of_lt (Nat.lt_of_succ_le hle)]

end Pending

/-! ## What leaves when calls are given up -/

theorem filterMap_taken?_timeoutOf (gone : List (Flow × Pending α)) :
    (gone.map Matcher.timeoutOf).filterMap MatchEvent.taken? = gone := by
  induction gone with
  | nil => rfl
  | cons c gone ih => exact congrArg (c :: ·) ih

theorem filter_isVerdict_timeoutOf (gone : List (Flow × Pending α)) :
    (gone.map Matcher.timeoutOf).filter MatchEvent.isVerdict = [] := by
  induction gone with
  | nil => rfl
  | cons c gone ih => exact ih

namespace Matcher.GivesUp

variable {m : Matcher α} {now : Observation} {r : Matcher α × List (MatchEvent α)}
  {gone : List (Flow × Pending α)}

theorem apart (hg : m.GivesUp now r gone) (h : m.WellFormed) :
    (gone ++ r.1.waiting).Pairwise Apart :=
  (hg.waiting.pairwise_iff Apart.symm).mp h.apart

/-- Given up are the calls that are told, and the others wait on. -/
theorem get?_eq (hg : m.GivesUp now r gone) (h : m.WellFormed) (flow : Flow) (xid : UInt32) :
    r.1.get? flow xid =
      if gone.any (fun c => c.1 == flow && c.2.xid == xid) then none else m.get? flow xid := by
  cases hany : gone.any (fun c => c.1 == flow && c.2.xid == xid) with
  | true =>
    obtain ⟨c, hc, hkey⟩ := List.any_eq_true.mp hany
    have hkey : c.1 = flow ∧ c.2.xid = xid := by simpa using hkey
    rw [if_pos rfl]
    refine hg.wellFormed.get?_eq_none_iff.mpr fun call hcall hxid => ?_
    exact (List.pairwise_append.mp (hg.apart h)).2.2 c hc _ hcall
      ⟨hkey.1, hkey.2.trans hxid.symm⟩
  | false =>
    -- Of this flow and transaction id none was given up, so whatever was there waits on.
    rw [if_neg (by simp)]
    refine Option.ext fun call => ?_
    rw [hg.wellFormed.get?_eq_some_iff, h.get?_eq_some_iff, hg.waiting.mem_iff, List.mem_append]
    refine and_congr_left fun hxid => ⟨.inr, fun hmem => hmem.resolve_left fun hgone => ?_⟩
    have hfalse := List.any_eq_false.mp hany _ hgone
    simp [hxid] at hfalse

end Matcher.GivesUp

/-! ## One action -/

/-- The entry of a flow and transaction id once the events of a turn are told. -/
def Turn.kept? (t : Turn α) (m : Matcher α) (flow : Flow) (xid : UInt32) : Option (Pending α) :=
  if t.removes flow xid then none else m.get? flow xid

/-- What an action makes of the entry of a flow and transaction id. -/
def Action.revise (a : Action α) (flow : Flow) (xid : UInt32) (entry : Option (Pending α)) :
    Option (Pending α) :=
  match a with
  | .step (.call f x call seen) =>
    if f = flow ∧ x = xid then
      match entry with
      | none => some { xid, call, seen, retransmissions := 0 }
      | some p => some { p with retransmissions := p.retransmissions + 1 }
    else entry
  | _ => entry

/-- The call that an action stores, if it finds no entry. -/
def Action.stored (a : Action α) (entry : Flow → UInt32 → Option (Pending α)) :
    List (Sighting α) :=
  match a with
  | .step (.call flow xid call seen) =>
    if entry flow xid = none then [⟨flow, xid, call, seen⟩] else []
  | _ => []

/-- All that an action does to the entries of a matcher. -/
structure Acts (m : Matcher α) (t : Turn α) (m' : Matcher α) : Prop where
  wellFormed : m'.WellFormed
  settings : m'.settings = m.settings
  get? : ∀ flow xid, m'.get? flow xid = t.action.revise flow xid (t.kept? m flow xid)
  taken : ∀ c ∈ t.taken, c ∈ m.waiting
  apart : t.taken.Pairwise Apart
  conserves : (m.waiting.map Sighting.of ++ t.action.stored (t.kept? m)).Perm
    (t.taken.map Sighting.of ++ Course.drops m t.action ++ m'.waiting.map Sighting.of)

/-! ### Giving up first

A call or a reply is handled by what is left of the matcher, and what was given up is told ahead. -/

namespace Matcher.GivesUp

variable {m : Matcher α} {now : Observation} {r : Matcher α × List (MatchEvent α)}
  {gone : List (Flow × Pending α)} {s : Step α} {told : List (MatchEvent α)}

theorem taken_eq (hg : m.GivesUp now r gone) :
    Turn.taken ⟨.step s, r.2 ++ told⟩ = gone ++ Turn.taken ⟨.step s, told⟩ := by
  rw [Turn.taken, List.filterMap_append, hg.events, filterMap_taken?_timeoutOf]
  rfl

theorem kept?_eq (hg : m.GivesUp now r gone) (h : m.WellFormed) :
    Turn.kept? ⟨.step s, r.2 ++ told⟩ m = Turn.kept? ⟨.step s, told⟩ r.1 := by
  funext flow xid
  have hremoves : Turn.removes ⟨.step s, r.2 ++ told⟩ flow xid =
      (gone.any (fun c => c.1 == flow && c.2.xid == xid) ||
        Turn.removes ⟨.step s, told⟩ flow xid) := by
    simp only [Turn.removes, hg.taken_eq, List.any_append]
  rw [Turn.kept?, Turn.kept?, hremoves, hg.get?_eq h]
  cases gone.any (fun c => c.1 == flow && c.2.xid == xid) <;> simp

theorem acts (hg : m.GivesUp now r gone) (h : m.WellFormed) {m' : Matcher α}
    (ha : Acts r.1 ⟨.step s, told⟩ m') : Acts m ⟨.step s, r.2 ++ told⟩ m' := by
  have happart := List.pairwise_append.mp (hg.apart h)
  refine ⟨ha.wellFormed, ha.settings.trans hg.settings, fun flow xid => ?_, ?_, ?_, ?_⟩
  · rw [hg.kept?_eq h]
    exact ha.get? flow xid
  · rw [hg.taken_eq]
    intro c hc
    refine hg.waiting.mem_iff.mpr ?_
    rcases List.mem_append.mp hc with hgone | hout
    · exact List.mem_append_left _ hgone
    · exact List.mem_append_right _ (ha.taken c hout)
  · rw [hg.taken_eq]
    refine List.pairwise_append.mpr ⟨happart.1, ha.apart, fun c hc c' hc' => ?_⟩
    exact happart.2.2 c hc c' (ha.taken c' hc')
  · -- What was given up stands in front on both sides; the rest is what was said of the rest.
    have hwaiting := hg.waiting.map Sighting.of
    rw [List.map_append] at hwaiting
    rw [hg.kept?_eq h, hg.taken_eq, List.map_append]
    refine (hwaiting.append_right _).trans ?_
    simp only [List.append_assoc]
    exact (ha.conserves.trans (.of_eq (List.append_assoc ..))).append_left _

end Matcher.GivesUp

/-! ### Letting in and answering -/

section Acts

variable {m : Matcher α} {flow : Flow} {xid : UInt32} {waiting : Pending α} {seen : Observation}

/-- While nothing is taken out, entries are kept. -/
theorem Turn.kept?_of_taken {s : Step α} {told : List (MatchEvent α)}
    (h : Turn.taken ⟨.step s, told⟩ = []) : Turn.kept? ⟨.step s, told⟩ m = m.get? := by
  funext flow xid
  rw [Turn.kept?, Turn.removes, h]
  rfl

theorem acts_new (h : m.WellFormed) (hget : m.get? flow xid = none) (call : α) :
    Acts m ⟨.step (.call flow xid call seen), []⟩ (m.enrol flow xid call seen) := by
  have hkept : Turn.kept? ⟨.step (.call flow xid call seen), []⟩ m = m.get? :=
    Turn.kept?_of_taken rfl
  refine ⟨h.enrol hget call seen, rfl, fun f x => ?_, nofun, .nil, ?_⟩
  · rw [hkept, Matcher.get?_enrol]
    by_cases hkey : f = flow ∧ x = xid
    · obtain ⟨rfl, rfl⟩ := hkey
      simp [Action.revise, hget]
    · have hkey' : ¬ (flow = f ∧ xid = x) := fun heq => hkey ⟨heq.1.symm, heq.2.symm⟩
      simp [Action.revise, hkey, hkey']
  · rw [hkept]
    have hperm := (h.waiting_enrol hget call seen).map Sighting.of
    simp only [Action.stored, hget, if_true]
    exact List.perm_append_singleton .. |>.trans hperm.symm

theorem acts_again (h : m.WellFormed) (hget : m.get? flow xid = some waiting) (call : α)
    (count : UInt32) :
    Acts m ⟨.step (.call flow xid call seen), [.retransmission flow xid count seen]⟩
      (m.put flow { waiting with retransmissions := waiting.retransmissions + 1 }) := by
  have hxid : waiting.xid = xid := Calls.xid_of_find? hget
  subst hxid
  have hkept : Turn.kept? ⟨.step (.call flow waiting.xid call seen),
      [.retransmission flow waiting.xid count seen]⟩ m = m.get? := Turn.kept?_of_taken rfl
  refine ⟨h.put hget, rfl, fun f x => ?_, nofun, .nil, ?_⟩
  · rw [hkept, Matcher.get?_put]
    by_cases hkey : f = flow ∧ x = waiting.xid
    · obtain ⟨rfl, rfl⟩ := hkey
      simp [Action.revise, hget]
    · have hkey' : ¬ (flow = f ∧ waiting.xid = x) := fun heq => hkey ⟨heq.1.symm, heq.2.symm⟩
      simp [Action.revise, hkey, hkey']
  · -- The entry counts one more, and is the same call.
    rw [hkept]
    have hold := (h.waiting_take hget).map Sighting.of
    have hnew := (m.waiting_put flow
      { waiting with retransmissions := waiting.retransmissions + 1 }).map Sighting.of
    simp only [Action.stored, hget, reduceCtorEq, if_false, List.append_nil]
    exact hold.trans hnew.symm

theorem acts_matched (h : m.WellFormed) (hget : m.get? flow xid = some waiting) :
    Acts m ⟨.step (.reply flow xid seen), [.matched flow waiting seen]⟩ (m.take flow xid) := by
  have hxid : waiting.xid = xid := Calls.xid_of_find? hget
  refine ⟨h.take hget, rfl, fun f x => ?_, fun c hc => ?_, List.pairwise_singleton .., ?_⟩
  · rw [Matcher.get?_take]
    by_cases hkey : f = flow ∧ x = xid
    · obtain ⟨rfl, rfl⟩ := hkey
      simp [Action.revise, Turn.kept?, Turn.removes, Turn.taken, MatchEvent.taken?, hxid]
    · have hkey' : ¬ (flow = f ∧ xid = x) := fun heq => hkey ⟨heq.1.symm, heq.2.symm⟩
      simp [Action.revise, Turn.kept?, Turn.removes, Turn.taken, MatchEvent.taken?, hxid, hkey,
        hkey']
  · cases List.mem_singleton.mp hc
    exact (h.get?_eq_some_iff.mp hget).1
  · have hperm := (h.waiting_take hget).map Sighting.of
    simpa [Action.stored, Turn.taken, MatchEvent.taken?, Course.drops] using hperm

/-- A reply without a call, or nothing but giving up. -/
theorem acts_idle (h : m.WellFormed) {s : Step α} {told : List (MatchEvent α)}
    (hs : ∀ flow xid call seen, s ≠ .call flow xid call seen)
    (htold : Turn.taken ⟨.step s, told⟩ = []) : Acts m ⟨.step s, told⟩ m := by
  have hrevise : ∀ f x entry, (Action.step s).revise f x entry = entry := by
    intro f x entry
    cases s with
    | call flow xid call seen => exact absurd rfl (hs flow xid call seen)
    | reply => rfl
    | expire => rfl
  have hstored : (Action.step s).stored m.get? = [] := by
    cases s with
    | call flow xid call seen => exact absurd rfl (hs flow xid call seen)
    | reply => rfl
    | expire => rfl
  refine ⟨h, rfl, fun f x => ?_, ?_, ?_, ?_⟩
  · rw [Turn.kept?_of_taken htold, hrevise]
  · rw [htold]
    nofun
  · rw [htold]
    exact .nil
  · rw [Turn.kept?_of_taken htold, hstored, htold, List.append_nil]
    exact .refl _

end Acts

/-! ### The end of the capture -/

theorem Matcher.taken_finish (m : Matcher α) :
    Turn.taken ⟨.finish, m.finish.2⟩ =
      if m.settings.flushOnFinish then m.waiting.mergeSort fun a b => a.2.seen.seq ≤ b.2.seen.seq
      else [] := by
  unfold Matcher.finish
  cases m.settings.flushOnFinish with
  | false => rfl
  | true => exact filterMap_taken?_timeoutOf _

theorem acts_finish {m : Matcher α} (h : m.WellFormed) :
    Acts m ⟨.finish, m.finish.2⟩ m.finish.1 := by
  have htaken := m.taken_finish
  cases hflush : m.settings.flushOnFinish with
  | false =>
    rw [hflush, if_neg Bool.false_ne_true] at htaken
    refine ⟨.new _, rfl, fun f x => rfl, ?_, ?_, ?_⟩
    · rw [htaken]
      nofun
    · rw [htaken]
      exact .nil
    · rw [htaken]
      simp [Action.stored, Course.drops, hflush, Matcher.finish, Matcher.new, Matcher.waiting]
  | true =>
    have hperm : (m.waiting.mergeSort fun a b => a.2.seen.seq ≤ b.2.seen.seq).Perm m.waiting :=
      List.mergeSort_perm ..
    rw [hflush, if_pos rfl] at htaken
    refine ⟨.new _, rfl, fun f x => rfl, ?_, ?_, ?_⟩
    · rw [htaken]
      exact fun c hc => hperm.mem_iff.mp hc
    · rw [htaken]
      exact (hperm.pairwise_iff Apart.symm).mpr h.apart
    · have hmap := hperm.symm.map Sighting.of
      rw [htaken]
      simpa [Action.stored, Course.drops, hflush, Matcher.finish, Matcher.new, Matcher.waiting]
        using hmap

/-- **What one action does to the entries.** -/
theorem Matcher.WellFormed.acts {m : Matcher α} (h : m.WellFormed) (a : Action α) :
    Acts m ⟨a, (m.act a).2⟩ (m.act a).1 := by
  cases a with
  | finish => exact acts_finish h
  | step s =>
    obtain ⟨gone, hg⟩ := h.expire s.at
    have h' := hg.wellFormed
    cases s with
    | call flow xid call seen =>
      simp only [Matcher.act, Matcher.step, Step.at] at hg h' ⊢
      cases hget : (m.expire seen).1.get? flow xid with
      | none =>
        rw [Matcher.onCall_new hget, ← List.append_nil (m.expire seen).2]
        exact hg.acts h (acts_new h' hget call)
      | some waiting =>
        rw [Matcher.onCall_again hget]
        exact hg.acts h (acts_again h' hget call _)
    | reply flow xid seen =>
      simp only [Matcher.act, Matcher.step, Step.at] at hg h' ⊢
      cases hget : (m.expire seen).1.get? flow xid with
      | none =>
        rw [Matcher.onReply_orphan hget]
        exact hg.acts h (acts_idle h' nofun rfl)
      | some waiting =>
        rw [Matcher.onReply_matched hget]
        exact hg.acts h (acts_matched h' hget)
    | expire now =>
      simp only [Matcher.act, Matcher.step, Step.at] at hg h' ⊢
      rw [← List.append_nil (m.expire now).2]
      exact hg.acts h (acts_idle h' nofun rfl)

/-! ## Runs -/

section Log

variable (t : Turn α) (flow : Flow) (xid : UInt32) (calls : List (α × Observation))

/-- The calls that are left once the events of a turn are told. -/
def Turn.kept : List (α × Observation) := if t.removes flow xid then [] else calls

theorem Turn.ofCalls?_kept : Pending.ofCalls? xid (t.kept flow xid calls) =
    if t.removes flow xid then none else Pending.ofCalls? xid calls := by
  unfold Turn.kept
  split <;> rfl

/-- What a log says of an entry after a turn follows from what it said before. -/
theorem Turn.ofCalls?_follow : Pending.ofCalls? xid (t.follow flow xid calls) =
    t.action.revise flow xid
      (if t.removes flow xid then none else Pending.ofCalls? xid calls) := by
  rw [← t.ofCalls?_kept flow xid calls]
  show Pending.ofCalls? xid (match t.action with
    | .step (.call f x call seen) =>
      if f = flow ∧ x = xid then t.kept flow xid calls ++ [(call, seen)]
      else t.kept flow xid calls
    | _ => t.kept flow xid calls) = _
  generalize t.kept flow xid calls = kept
  unfold Action.revise
  split
  · split
    · cases hkept : Pending.ofCalls? xid kept with
      | none =>
        rw [Pending.ofCalls?_eq_none_iff.mp hkept]
        rfl
      | some p => exact Pending.ofCalls?_append hkept _
    · rfl
  · rfl

end Log

namespace Course

variable {c : Course α}

theorem Faithful.new (settings : MatcherSettings) : (Course.new settings : Course α).Faithful :=
  ⟨.new settings, fun _ _ => rfl⟩

theorem Faithful.next (h : c.Faithful) (a : Action α) : (c.next a).Faithful := by
  have ha := h.wellFormed.acts a
  refine ⟨ha.wellFormed, fun flow xid => ?_⟩
  show (c.matcher.act a).1.get? flow xid =
    Pending.ofCalls? xid (callsSince (c.turns ++ [⟨a, (c.matcher.act a).2⟩]) flow xid)
  rw [ha.get?, callsSince_append, Turn.ofCalls?_follow, Turn.kept?, h.get?]

/-- A call is stored when it finds no entry. -/
theorem Faithful.stores_eq (h : c.Faithful) (t : Turn α) :
    stores (c.turns ++ [t]) t.action = t.action.stored (t.kept? c.matcher) := by
  unfold stores Action.stored
  split
  next flow xid call seen haction =>
    have hfollow : callsSince (c.turns ++ [t]) flow xid =
        t.kept flow xid (callsSince c.turns flow xid) ++ [(call, seen)] := by
      rw [callsSince_append, Turn.follow, haction]
      exact if_pos ⟨rfl, rfl⟩
    -- The log is one call long just when nothing was kept in front of that call.
    have hnone : t.kept? c.matcher flow xid = none ↔
        (callsSince (c.turns ++ [t]) flow xid).length = 1 := by
      rw [Turn.kept?, h.get?, ← Turn.ofCalls?_kept, Pending.ofCalls?_eq_none_iff, hfollow]
      simp
    simp only [hnone]
  · rfl

theorem left_next (c : Course α) (a : Action α) :
    (c.next a).left =
      c.left ++ (Turn.taken ⟨a, (c.matcher.act a).2⟩).map Sighting.of := by
  show List.flatMap _ (c.turns ++ [_]) = _
  rw [List.flatMap_append]
  simp only [List.flatMap_cons, List.flatMap_nil, List.append_nil]
  rfl

theorem Faithful.conserves_next (h : c.Faithful) (hc : c.Conserves) (a : Action α) :
    (c.next a).Conserves := by
  have ha := (h.wellFormed.acts a).conserves
  rw [← h.stores_eq] at ha
  unfold Conserves
  rw [left_next]
  show (c.stored ++ stores (c.turns ++ [⟨a, (c.matcher.act a).2⟩]) a).Perm
    (c.left ++ (Turn.taken ⟨a, (c.matcher.act a).2⟩).map Sighting.of ++
      (c.dropped ++ drops c.matcher a) ++ (c.matcher.act a).1.waiting.map Sighting.of)
  -- Stored so far are those that left, were dropped or waited, and these are what `ha` balances.
  refine (hc.append_right _).trans ?_
  simp only [List.append_assoc] at ha ⊢
  refine .append_left _ ((ha.append_left _).trans ?_)
  exact List.perm_append_comm_assoc ..

/-- **A run.** -/
theorem faithful_run (settings : MatcherSettings) (actions : List (Action α)) :
    (run settings actions).Faithful ∧ (run settings actions).Conserves ∧
      (run settings actions).matcher.settings = settings := by
  suffices hfold : ∀ c : Course α, c.Faithful → c.Conserves → c.matcher.settings = settings →
      (actions.foldl next c).Faithful ∧ (actions.foldl next c).Conserves ∧
        (actions.foldl next c).matcher.settings = settings from
    hfold _ (.new settings) .nil rfl
  induction actions with
  | nil => exact fun c h hc hs => ⟨h, hc, hs⟩
  | cons a actions ih =>
    intro c h hc hs
    exact ih (c.next a) (h.next a) (h.conserves_next hc a)
      ((h.wellFormed.acts a).settings.trans hs)

end Course

/-! ## What is told -/

/-- The answer to a reply. -/
def Matcher.verdict (m : Matcher α) (flow : Flow) (xid : UInt32) (reply : Observation) :
    MatchEvent α :=
  match m.get? flow xid with
  | some call => .matched flow call reply
  | none => .orphan flow xid reply

/-- The answers that an action asks of a matcher: one to a reply, by what is left after aging. -/
def Action.verdicts (a : Action α) (m : Matcher α) : List (MatchEvent α) :=
  match a with
  | .step (.reply flow xid reply) => [(m.expire reply).1.verdict flow xid reply]
  | _ => []

/-- What is told of a step besides the calls that are given up ahead of it. -/
theorem Matcher.step_events (m : Matcher α) (s : Step α) :
    ∃ told, (m.step s).2 = (m.expire s.at).2 ++ told ∧
      told.filter MatchEvent.isVerdict = (Action.step s).verdicts m ∧
      ∀ flow call, .timeout flow call ∉ told := by
  cases s with
  | call flow xid call seen =>
    cases hget : (m.expire seen).1.get? flow xid with
    | none => exact ⟨[], by simp [step, Step.at, onCall_new hget], rfl, by simp⟩
    | some waiting => exact ⟨_, congrArg Prod.snd (onCall_again hget call), rfl, by simp⟩
  | reply flow xid seen =>
    cases hget : (m.expire seen).1.get? flow xid with
    | none =>
      refine ⟨_, congrArg Prod.snd (onReply_orphan hget), ?_, by simp⟩
      simp [Action.verdicts, verdict, hget, MatchEvent.isVerdict]
    | some waiting =>
      refine ⟨_, congrArg Prod.snd (onReply_matched hget), ?_, by simp⟩
      simp [Action.verdicts, verdict, hget, MatchEvent.isVerdict]
  | expire now => exact ⟨[], (List.append_nil _).symm, rfl, by simp⟩

namespace Matcher.WellFormed

variable {m : Matcher α}

/-- A reply gets one answer, and nothing else gets any. -/
theorem verdicts_act (h : m.WellFormed) (a : Action α) :
    (m.act a).2.filter MatchEvent.isVerdict = a.verdicts m := by
  cases a with
  | finish =>
    show m.finish.2.filter MatchEvent.isVerdict = []
    unfold finish
    split
    · exact filter_isVerdict_timeoutOf _
    · rfl
  | step s =>
    obtain ⟨gone, hg⟩ := h.expire s.at
    obtain ⟨told, htold, hverdicts, -⟩ := m.step_events s
    show (m.step s).2.filter MatchEvent.isVerdict = _
    rw [htold, List.filter_append, hg.events, filter_isVerdict_timeoutOf, hverdicts]
    rfl

/-- What times out at a step is overdue. -/
theorem overdue_of_timeout_step (h : m.WellFormed) {s : Step α} {flow : Flow} {call : Pending α}
    (hmem : .timeout flow call ∈ (m.step s).2) :
    m.settings.aging.overdue call.seen s.at = true := by
  obtain ⟨gone, hg⟩ := h.expire s.at
  obtain ⟨told, htold, -, hnot⟩ := m.step_events s
  rw [htold, hg.events] at hmem
  rcases List.mem_append.mp hmem with hgone | hother
  · obtain ⟨c, hc, heq⟩ := List.mem_map.mp hgone
    cases heq
    exact hg.overdue c hc
  · exact absurd hother (hnot flow call)

end Matcher.WellFormed

/-- **Every call leaves once, as the call that was stored.** After any run of actions, at any
observations, the matcher counts what it holds, holds each entry once and no flow without calls,
and all calls stored so far have left with an event, were dropped, or wait. At the next action
there is one answer to a reply and none to anything else, by whether the call still waits after
aging; whatever leaves is the first call since the last removal, with 32 bits of the number of the
later calls, and this is their number if and only if the call was seen no more than 2 ^ 32 times; no
two of those that leave are of one flow and transaction id; outside of a `finish` only what is
overdue times out; and after a `finish` the matcher is a new one. -/
theorem calls_leave_once (settings : MatcherSettings) (actions : List (Action α)) :
    let c := Course.run settings actions
    (c.matcher.length = c.matcher.waiting.length ∧ c.matcher.waiting.Pairwise Apart ∧
      (∀ flow xid call, c.matcher.get? flow xid = some call ↔
        (flow, call) ∈ c.matcher.waiting ∧ call.xid = xid) ∧
      ∀ f ∈ c.matcher.flows, f.2 ≠ []) ∧
    c.Conserves ∧
    ∀ a : Action α,
      (c.matcher.act a).2.filter MatchEvent.isVerdict = a.verdicts c.matcher ∧
      (∀ flow call, (flow, call) ∈ Turn.taken ⟨a, (c.matcher.act a).2⟩ →
        let calls := callsSince c.turns flow call.xid
        Pending.ofCalls? call.xid calls = some call ∧
          (call.retransmissions.toNat + 1 = calls.length ↔ calls.length ≤ UInt32.size)) ∧
      (Turn.taken ⟨a, (c.matcher.act a).2⟩).Pairwise Apart ∧
      (∀ s flow call, a = .step s → .timeout flow call ∈ (c.matcher.act a).2 →
        settings.aging.overdue call.seen s.at = true) ∧
      (a = .finish → (c.matcher.act a).1 = .new settings) := by
  obtain ⟨hfaithful, hconserves, hsettings⟩ := Course.faithful_run settings actions
  have h := hfaithful.wellFormed
  refine ⟨⟨h.pending, h.apart, fun _ _ _ => h.get?_eq_some_iff, h.keyed.nonempty⟩, hconserves,
    fun a => ?_⟩
  have ha := h.acts a
  refine ⟨h.verdicts_act a, fun flow call hcall => ?_, ha.apart, ?_, ?_⟩
  · have hget := h.get?_eq_some_iff.mpr ⟨ha.taken _ hcall, rfl⟩
    have hentry := (hfaithful.get? flow call.xid).symm.trans hget
    exact ⟨hentry, Pending.retransmissions_of_ofCalls? hentry⟩
  · rintro s flow call rfl hmem
    rw [← hsettings]
    exact h.overdue_of_timeout_step hmem
  · rintro rfl
    exact congrArg Matcher.new hsettings

/-! ## One call over and over

While nothing ages, a call that is seen again and again stays where it is, and all that grows is the
count of its repetitions. -/

section Repeated

variable {settings : MatcherSettings} {m : Matcher α}

theorem Matcher.GivesUp.gone_eq_nil {now : Observation} {r : Matcher α × List (MatchEvent α)}
    {gone : List (Flow × Pending α)} (hg : m.GivesUp now r gone)
    (haging : m.settings.aging = .disabled) : gone = [] := by
  refine List.eq_nil_iff_forall_not_mem.mpr fun c hc => ?_
  have hoverdue := hg.overdue c hc
  rw [haging] at hoverdue
  cases hoverdue

variable (flow : Flow) (xid : UInt32) (call : α) (seen : Observation)

theorem Matcher.WellFormed.taken_onCall (h : m.WellFormed)
    (haging : m.settings.aging = .disabled) :
    Turn.taken ⟨.step (.call flow xid call seen), (m.onCall flow xid call seen).2⟩ = [] := by
  obtain ⟨gone, hg⟩ := h.expire seen
  cases hget : (m.expire seen).1.get? flow xid with
  | none =>
    rw [onCall_new hget, hg.events, hg.gone_eq_nil haging]
    rfl
  | some waiting =>
    rw [onCall_again hget, hg.events, hg.gone_eq_nil haging]
    rfl

theorem Turn.follow_of_taken {told : List (MatchEvent α)}
    (h : Turn.taken ⟨.step (.call flow xid call seen), told⟩ = [])
    (calls : List (α × Observation)) :
    Turn.follow ⟨.step (.call flow xid call seen), told⟩ flow xid calls =
      calls ++ [(call, seen)] := by
  have hremoves : Turn.removes ⟨.step (.call flow xid call seen), told⟩ flow xid = false := by
    rw [Turn.removes, h]
    rfl
  rw [Turn.follow, hremoves]
  exact if_pos ⟨rfl, rfl⟩

/-- All of them are calls since the entry was last removed. -/
theorem callsSince_replicate (haging : settings.aging = .disabled) (n : Nat) :
    callsSince (Course.run settings (.replicate n (.step (.call flow xid call seen)))).turns
      flow xid = .replicate n (call, seen) := by
  induction n with
  | zero => rfl
  | succ n ih =>
    obtain ⟨hfaithful, -, hsettings⟩ :=
      Course.faithful_run settings (.replicate n (.step (.call flow xid call seen)))
    have haging' := (congrArg MatcherSettings.aging hsettings).trans haging
    have htaken := hfaithful.wellFormed.taken_onCall flow xid call seen haging'
    rw [List.replicate_succ', List.replicate_succ', Course.run, List.foldl_append]
    show callsSince ((Course.run settings (.replicate n _)).turns ++ [_]) flow xid = _
    rw [callsSince_append, ih]
    exact Turn.follow_of_taken flow xid call seen htaken _

/-- **What the reply is told of them**: 32 bits of the number of the others. -/
theorem onReply_of_replicate (haging : settings.aging = .disabled) (n : Nat)
    (reply : Observation) :
    ((Course.run settings (.replicate (n + 1) (.step (.call flow xid call seen)))).matcher.onReply
      flow xid reply).2 =
      [.matched flow { xid, call, seen, retransmissions := UInt32.ofNat n } reply] := by
  obtain ⟨hfaithful, -, hsettings⟩ :=
    Course.faithful_run settings (.replicate (n + 1) (.step (.call flow xid call seen)))
  have haging' := (congrArg MatcherSettings.aging hsettings).trans haging
  obtain ⟨gone, hg⟩ := hfaithful.wellFormed.expire reply
  have hgone := hg.gone_eq_nil haging'
  have hentry : Pending.ofCalls? xid (.replicate (n + 1) (call, seen)) =
      some { xid, call, seen, retransmissions := UInt32.ofNat n } := by
    rw [List.replicate_succ, Pending.ofCalls?, List.length_replicate]
  have hget := hg.get?_eq hfaithful.wellFormed flow xid
  rw [hgone, hfaithful.get?, callsSince_replicate flow xid call seen haging (n + 1), hentry] at hget
  rw [Matcher.onReply_matched hget, hg.events, hgone]
  rfl

end Repeated

/-- A call and its 2 ^ 32 repetitions: the reply is told that there were none. -/
theorem repetitions_told_as_none :
    let actions : List (Action String) :=
      .replicate (UInt32.size + 1) (.step (.call default 7 "mount" ⟨0, none⟩))
    let c := Course.run { aging := .disabled } actions
    (callsSince c.turns default 7).length = UInt32.size + 1 ∧
      (c.matcher.onReply default 7 ⟨1, none⟩).2 =
        [.matched default { xid := 7, call := "mount", seen := ⟨0, none⟩, retransmissions := 0 }
          ⟨1, none⟩] := by
  refine ⟨?_, onReply_of_replicate default 7 "mount" ⟨0, none⟩ rfl UInt32.size ⟨1, none⟩⟩
  rw [callsSince_replicate default 7 "mount" ⟨0, none⟩ rfl, List.length_replicate]

end NfsWire
