import NfsWire.Proofs.Capture.Reachable

/-!
# A reply is read as results of the call it is paired with

A reply does not name its procedure. The decoder gives up overdue calls, asks the matcher for the
waiting call and reads the results by its procedure; then it hands the reply to the matcher, which
gives up overdue calls again before it pairs. The two find the same call, because a second time at
the same observation there is nothing left to give up: the first stopped at a ticket that is neither
stale nor overdue, or at the end of the queue.
-/

namespace NfsWire

/-! ## Giving up twice -/

namespace Matcher

variable {α : Type}

theorem serve_serve (m : Matcher α) (now : Observation) (tickets : List Ticket) :
    (m.serve now tickets).1.expire now = ((m.serve now tickets).1, []) := by
  induction tickets generalizing m with
  | nil => rfl
  | cons t rest ih =>
    unfold serve
    cases hget : m.get? t.flow t.xid with
    | none => exact ih m
    | some call =>
      by_cases hseq : call.seen.seq = t.seq
      · simp only [hseq, if_true]
        cases hover : m.isOverdue call now with
        | true => exact ih (m.take t.flow t.xid)
        | false =>
          -- The pass stopped at this ticket, and stops there again.
          have hstop : ({ m with order := t :: rest } : Matcher α).get? t.flow t.xid = some call :=
            hget
          have hwaits : ({ m with order := t :: rest } : Matcher α).isOverdue call now = false :=
            hover
          show Matcher.serve _ now (t :: rest) = _
          unfold serve
          simp only [hstop, hseq, hwaits, if_true, Bool.false_eq_true, if_false]
      · simp only [hseq, if_false]
        exact ih m

/-- **Giving up twice at one observation is giving up once.** -/
theorem expire_expire (m : Matcher α) (now : Observation) :
    (m.expire now).1.expire now = ((m.expire now).1, []) :=
  m.serve_serve now m.order

end Matcher

/-! ## What is told of a reply -/

/-- Whether an event is a verdict on a reply. -/
def Event.isVerdict : Event → Bool
  | .matched .. => true
  | .orphanReply _ => true
  | _ => false

/-- Whether an event is an error. -/
def Event.isError : Event → Bool
  | .error .. => true
  | _ => false

/-- The verdict on a reply, by the call that waits for it. -/
def Event.verdict (waiting : Option (Pending Message)) (reply : Message) : Event :=
  match waiting with
  | some w => .matched w.call reply w.retransmissions
  | none => .orphanReply reply

theorem Event.verdict_isVerdict (waiting : Option (Pending Message)) (reply : Message) :
    (Event.verdict waiting reply).isVerdict = true ∧
      (Event.verdict waiting reply).isError = false := by
  cases waiting with
  | none => exact ⟨rfl, rfl⟩
  | some w => exact ⟨rfl, rfl⟩

/-- An event that is neither a verdict nor an error. -/
def Event.Aside (e : Event) : Prop := e.isVerdict = false ∧ e.isError = false

theorem filter_asides {events : List Event} (h : ∀ e ∈ events, e.Aside) :
    events.filter Event.isVerdict = [] ∧ events.filter Event.isError = [] := by
  constructor
  · exact List.filter_eq_nil_iff.mpr fun e he => by simp [(h e he).1]
  · exact List.filter_eq_nil_iff.mpr fun e he => by simp [(h e he).2]

theorem filter_errors {errors : List Event} (h : ∀ e ∈ errors, e.isError = true) :
    errors.filter Event.isVerdict = [] ∧ errors.filter Event.isError = errors := by
  constructor
  · refine List.filter_eq_nil_iff.mpr fun e he => ?_
    have herror := h e he
    cases e <;> cases herror
    simp [Event.isVerdict]
  · exact List.filter_eq_self.mpr h

theorem filter_reply {early errors gaps : List Event} (hearly : ∀ e ∈ early, e.Aside)
    (herrors : ∀ e ∈ errors, e.isError = true) (hgaps : ∀ e ∈ gaps, e.Aside) (msg : Message)
    (waiting : Option (Pending Message)) :
    let told := early ++ errors ++ gaps ++ [.message msg] ++ [.verdict waiting msg]
    told.filter Event.isVerdict = [.verdict waiting msg] ∧ told.filter Event.isError = errors := by
  obtain ⟨hearlyV, hearlyE⟩ := filter_asides hearly
  obtain ⟨herrorsV, herrorsE⟩ := filter_errors herrors
  obtain ⟨hgapsV, hgapsE⟩ := filter_asides hgaps
  obtain ⟨hverdictV, hverdictE⟩ := Event.verdict_isVerdict waiting msg
  obtain ⟨hmessageV, hmessageE⟩ : (Event.message msg).Aside := ⟨rfl, rfl⟩
  constructor
  · simp [hearlyV, herrorsV, hgapsV, hmessageV, hverdictV]
  · simp [hearlyE, herrorsE, hgapsE, hmessageE, hverdictE]

theorem Matcher.timeout_of_mem_serve {α : Type} {m : Matcher α} {now : Observation}
    {tickets : List Ticket} {e : MatchEvent α} (h : e ∈ (m.serve now tickets).2) :
    ∃ flow call, e = .timeout flow call := by
  induction tickets generalizing m with
  | nil => cases h
  | cons t rest ih =>
    unfold serve at h
    cases hget : m.get? t.flow t.xid with
    | none =>
      simp only [hget] at h
      exact ih h
    | some call =>
      simp only [hget] at h
      split at h
      · split at h
        · rcases List.mem_cons.mp h with rfl | h
          · exact ⟨t.flow, call, rfl⟩
          · exact ih h
        · cases h
      · exact ih h

namespace Books

theorem aside_of_mem_settle {b : Books} {reply : Option Message}
    {events : List (MatchEvent Message)} (h : ∀ e ∈ events, ∃ flow call, e = .timeout flow call) :
    ∀ e ∈ (b.settle reply events).2, e.Aside := by
  induction events generalizing b reply with
  | nil =>
    intro e he
    cases he
  | cons first rest ih =>
    obtain ⟨flow, call, rfl⟩ := h first List.mem_cons_self
    intro e he
    rw [settle_cons] at he
    rcases List.mem_append.mp he with hfirst | hrest
    · cases List.mem_singleton.mp hfirst
      exact ⟨rfl, rfl⟩
    · exact ih (fun e he => h e (List.mem_cons_of_mem _ he)) e hrest

theorem aside_of_mem_expire (b : Books) (now : Observation) : ∀ e ∈ (b.expire now).2, e.Aside :=
  aside_of_mem_settle fun _ he => Matcher.timeout_of_mem_serve he

theorem aside_of_mem_lack (b : Books) (p : Packet) (xid : UInt32) (refs : List ChunkRef) :
    ∀ e ∈ (b.lack p xid refs).2, e.Aside := by
  induction refs generalizing b with
  | nil =>
    intro e he
    cases he
  | cons ref rest ih =>
    intro e he
    unfold lack at he
    rcases List.mem_cons.mp he with hfirst | hrest
    · cases hfirst
      exact ⟨rfl, rfl⟩
    · exact ih _ e hrest

theorem isError_of_mem_accept (b : Books) (p : Packet)
    (result : Except DecodeError (Option Rpc.Body)) :
    ∀ e ∈ (b.accept p result).2.1, e.isError = true := by
  intro e he
  cases result with
  | ok body => cases he
  | error cause =>
    cases List.mem_singleton.mp he
    rfl

/-- A reply right after giving up is only paired. -/
theorem track_reply {b : Books} {msg : Message} (hdirection : msg.direction = .reply)
    (hexpired : b.matcher.expire msg.seen = (b.matcher, [])) :
    (b.track msg).2 = [.verdict (b.matcher.get? msg.flow msg.xid) msg] := by
  have hfst : (b.matcher.expire msg.seen).1 = b.matcher := congrArg Prod.fst hexpired
  unfold track
  cases hget : b.matcher.get? msg.flow msg.xid with
  | none =>
    have horphan := Matcher.onReply_orphan (hfst ▸ hget)
    rw [hexpired] at horphan
    simp only [hdirection, horphan]
    rfl
  | some waiting =>
    have hmatched := Matcher.onReply_matched (hfst ▸ hget)
    rw [hexpired] at hmatched
    simp only [hdirection, hmatched]
    rfl

end Books

section Replies

variable {s : DecoderSettings} {stream : Bytes} {rdma : Option Rdma.Header}
  {header : Rpc.Header} {reply : Rpc.Reply}

/-- All that is told of a reply, in order. -/
theorem told_of_reply (b : Books) (p : Packet) (chunks : Option ChunkMap)
    (hopen : openMessage s stream rdma = .ok header) (hreply : header.content = .reply reply) :
    let early := (b.countMessage header.direction).expire p.seen
    let waiting := (b.matcher.expire p.seen).1.get? (p.flow .reply) header.xid
    let taken := early.1.accept p
      (replyBody s reply (waiting.map (·.call)) stream header.bodyOffset chunks)
    let gaps := taken.1.lack p header.xid (missingOf taken.2.2)
    let msg := Message.ofHeader p header rdma taken.2.2
    (handleMessage s b p stream chunks rdma).2 =
      early.2 ++ taken.2.1 ++ gaps.2 ++ [.message msg] ++ [.verdict waiting msg] := by
  intro early waiting taken gaps msg
  have hdirection : header.direction = .reply := by
    rw [Rpc.Header.direction, hreply]
  have hearly : early.1.matcher = (b.matcher.expire p.seen).1 :=
    congrArg Books.matcher ((b.countMessage header.direction).expire_fst p.seen)
  have hbody : messageBody s (b.countMessage header.direction) p header stream chunks =
      (early.1, early.2,
        replyBody s reply (waiting.map (·.call)) stream header.bodyOffset chunks) := by
    simp only [messageBody, hreply]
    show (early.1, early.2, replyBody s reply ((early.1.matcher.get? _ _).map _) _ _ _) = _
    rw [hearly]
  -- Errors and gaps are told without a look at the matcher, so it is still at the observation.
  have hgaps : gaps.1.matcher = (b.matcher.expire p.seen).1 :=
    (taken.1.matcher_lack p header.xid _).trans ((early.1.matcher_accept p _).trans hearly)
  have hpaired : (gaps.1.track msg).2 = [.verdict waiting msg] := by
    have hexpired : gaps.1.matcher.expire msg.seen = (gaps.1.matcher, []) := by
      rw [hgaps]
      exact b.matcher.expire_expire p.seen
    have hflow : msg.flow = p.flow .reply := congrArg p.flow hdirection
    rw [Books.track_reply hdirection hexpired, hgaps, hflow]
    rfl
  rw [handleMessage_ok hopen, ← hpaired]
  simp only [hbody]
  rfl

/-- **The call that a reply is read by is the call it is paired with.** -/
theorem handleMessage_reply (b : Books) (p : Packet) (chunks : Option ChunkMap)
    (hopen : openMessage s stream rdma = .ok header) (hreply : header.content = .reply reply) :
    let told := (handleMessage s b p stream chunks rdma).2
    let waiting := (b.matcher.expire p.seen).1.get? (p.flow .reply) header.xid
    ∃ msg : Message, msg.header = some header ∧
      told.filter Event.isVerdict = [.verdict waiting msg] ∧
      match replyBody s reply (waiting.map (·.call)) stream header.bodyOffset chunks with
      | .ok body => msg.body = body ∧ told.filter Event.isError = []
      | .error e => msg.body = none ∧ told.filter Event.isError = [p.error e] := by
  intro told waiting
  have htold : told = _ := told_of_reply b p chunks hopen hreply
  obtain ⟨result, hresult⟩ :
      ∃ result, replyBody s reply (waiting.map (·.call)) stream header.bodyOffset chunks = result :=
    ⟨_, rfl⟩
  rw [hresult] at htold ⊢
  obtain ⟨hverdicts, herrors⟩ := filter_reply
    ((b.countMessage header.direction).aside_of_mem_expire p.seen)
    (Books.isError_of_mem_accept _ p result) (Books.aside_of_mem_lack _ p header.xid _)
    (.ofHeader p header rdma _) waiting
  rw [← htold] at hverdicts herrors
  refine ⟨_, rfl, hverdicts, ?_⟩
  cases result with
  | ok body => exact ⟨rfl, herrors⟩
  | error e => exact ⟨rfl, herrors⟩

variable {waiting : Option Message} {offset : Nat} {chunks : Option ChunkMap}

theorem replyBody_failure (h : reply.isSuccess = false) :
    replyBody s reply waiting stream offset chunks = .ok none := by
  simp [replyBody, h]

theorem replyBody_unknown (h : reply.isSuccess = true) (hcall : waiting.bind (·.call?) = none) :
    replyBody s reply waiting stream offset chunks = .ok (some (.raw stream offset)) := by
  simp [replyBody, h, hcall]

theorem replyBody_known {c : Rpc.Call} (h : reply.isSuccess = true)
    (hcall : waiting.bind (·.call?) = some c) :
    replyBody s reply waiting stream offset chunks =
      some <$> Rpc.decodeBody c.program c.version c.procedure .results stream offset
        s.strictEnums chunks := by
  simp [replyBody, h, hcall]

end Replies

/-- **A reply is read as results of the very call it is paired with.** However a decoder got where
it is, and whatever was taken off the packet before: a reply with a header gets a verdict. Paired
with a call whose header was seen, a success is read by the procedure of that call, and has no body
but one error if that fails; without that header, and without a call, the rest of the message is
kept as it is. A reply that is no success has no body. -/
theorem reply_read_for_its_call {settings : DecoderSettings} {source : Rdma.ChunkSource}
    {d : Decoder} (hd : d.Reachable settings source) (p : Packet) (earlier : List Bytes)
    {stream : Bytes} (chunks : Option ChunkMap) {rdma : Option Rdma.Header}
    {header : Rpc.Header} {reply : Rpc.Reply}
    (hopen : openMessage d.settings stream rdma = .ok header)
    (hreply : header.content = .reply reply) :
    let b := (handleEach d.settings d.counted p earlier).1
    let told := (handleMessage d.settings b p stream chunks rdma).2
    let raw : Rpc.Body := .raw stream header.bodyOffset
    (∃ v ∈ told, v.isVerdict) ∧
    (∀ call msg n, .matched call msg n ∈ told → msg.header = some header ∧
      (reply.isSuccess = false → msg.body = none) ∧
      (reply.isSuccess = true →
        (call.header = none → msg.body = some raw) ∧
        ∀ h, call.header = some h → ∃ c, h.content = .call c ∧
          match Rpc.decodeBody c.program c.version c.procedure .results stream header.bodyOffset
            d.settings.strictEnums chunks with
          | .ok body => msg.body = some body ∧ told.filter Event.isError = []
          | .error e => msg.body = none ∧ told.filter Event.isError = [p.error e])) ∧
    ∀ msg, .orphanReply msg ∈ told → msg.header = some header ∧
      msg.body = if reply.isSuccess then some raw else none := by
  intro b told raw
  obtain ⟨msg, hheader, hverdicts, hread⟩ := handleMessage_reply b p chunks hopen hreply
  obtain ⟨waiting, hwaiting⟩ :
      ∃ waiting, (b.matcher.expire p.seen).1.get? (p.flow .reply) header.xid = waiting := ⟨_, rfl⟩
  rw [hwaiting] at hverdicts hread
  -- There is one verdict, so whichever is found is the one on this reply.
  have hverdict {e : Event} (he : e ∈ told) (h : e.isVerdict = true) :
      e = .verdict waiting msg := by
    have hmem : e ∈ told.filter Event.isVerdict := List.mem_filter.mpr ⟨he, h⟩
    rw [hverdicts] at hmem
    exact List.mem_singleton.mp hmem
  refine ⟨?_, fun call msg' n hmem => ?_, fun msg' hmem => ?_⟩
  · have hmem : Event.verdict waiting msg ∈ told.filter Event.isVerdict := by
      rw [hverdicts]
      exact List.mem_singleton_self _
    exact ⟨_, List.mem_filter.mp hmem⟩
  · cases waiting with
    | none => cases hverdict hmem rfl
    | some w =>
      obtain ⟨rfl, rfl, rfl⟩ := Event.matched.inj (hverdict hmem rfl)
      have hcall : w.call.IsCall := (handleEach_ofMessages (b := d.counted) hd.ofMessages
        earlier).isCall (Matcher.get?_of_expire hwaiting)
      refine ⟨hheader, fun hfailure => ?_, fun hsuccess => ⟨fun hnone => ?_, fun h hsome => ?_⟩⟩
      · rw [replyBody_failure hfailure] at hread
        exact hread.1
      · rw [replyBody_unknown hsuccess (by simp [Message.call?, hnone])] at hread
        exact hread.1
      · obtain ⟨c, hc⟩ := hcall h hsome
        refine ⟨c, hc, ?_⟩
        have hknown : (some w.call).bind (·.call?) = some c := by
          simp [Message.call?, hsome, Rpc.Header.call?_eq_some.mpr hc]
        rw [Option.map_some, replyBody_known hsuccess hknown] at hread
        cases hdecode : Rpc.decodeBody c.program c.version c.procedure .results stream
            header.bodyOffset d.settings.strictEnums chunks with
        | ok body =>
          rw [hdecode] at hread
          exact hread
        | error e =>
          rw [hdecode] at hread
          exact hread
  · cases waiting with
    | some w => cases hverdict hmem rfl
    | none =>
      cases hverdict hmem rfl
      refine ⟨hheader, ?_⟩
      cases hsuccess : reply.isSuccess with
      | false =>
        rw [replyBody_failure hsuccess] at hread
        exact hread.1
      | true =>
        rw [replyBody_unknown hsuccess rfl] at hread
        exact hread.1

/-- A reply to GETATTR that says that the file is gone. -/
theorem reply_read_for_its_call_getattr :
    let client : Endpoint := ⟨default, 800⟩
    let server : Endpoint := ⟨default, 2049⟩
    let request : Packet := ⟨⟨1, none⟩, client, server, .udp, [0, 0, 0, 7, 0, 0, 0, 0, 0, 0, 0, 2,
      0, 1, 0x86, 0xa3, 0, 0, 0, 3, 0, 0, 0, 1, 0, 0, 0, 0, 0, 0, 0, 0, 0, 0, 0, 0, 0, 0, 0, 0,
      0, 0, 0, 2, 0xaa, 0xbb, 0, 0]⟩
    let p : Packet := ⟨⟨2, none⟩, server, client, .udp, [0, 0, 0, 7, 0, 0, 0, 1, 0, 0, 0, 0,
      0, 0, 0, 0, 0, 0, 0, 0, 0, 0, 0, 0, 0, 0, 0, 70]⟩
    let d := ((Decoder.new {} fun _ _ _ => none).process request).1
    let told := (handleMessage d.settings d.counted p p.payload none none).2
    ∃ call msg n, .matched call msg n ∈ told ∧ msg.body = some ⟨some .nfs3, some "GETATTR",
      .union (.enum 70 (some "NFS3ERR_STALE")) "resfail" .void, 0⟩ := by
  intro client server request p d told
  have hd : d.Reachable {} fun _ _ _ => none := .process request .new
  -- The kernel evaluates both messages; as terms they are too large to be written down.
  have hopened : (match openMessage d.settings p.payload none with
      | .ok header => header.bodyOffset == 24 && header.reply?.any (·.isSuccess)
      | .error _ => false) = true := by decide +kernel
  have hpaired : (told.any fun e =>
      match e with
      | .matched call _ _ => call.call?.any fun c =>
          c.program == 100003 && c.version == 3 && c.procedure == 1
      | _ => false) = true := by decide +kernel
  have hdecode : Rpc.decodeBody 100003 3 1 .results p.payload 24 d.settings.strictEnums none =
      .ok ⟨some .nfs3, some "GETATTR",
        .union (.enum 70 (some "NFS3ERR_STALE")) "resfail" .void, 0⟩ := rfl
  clear_value d
  obtain ⟨e, he, hcall⟩ := List.any_eq_true.mp hpaired
  cases hopen : openMessage d.settings p.payload none with
  | error e => simp [hopen] at hopened
  | ok header =>
    simp only [hopen, Bool.and_eq_true, beq_iff_eq, Option.any_eq_true] at hopened
    obtain ⟨hoffset, reply, hreply, hsuccess⟩ := hopened
    obtain ⟨-, hmatched, -⟩ := reply_read_for_its_call hd p [] none hopen
      (Rpc.Header.reply?_eq_some.mp hreply)
    cases e with
    | matched call msg n =>
      obtain ⟨c, hc, hgetattr⟩ := (Option.any_eq_true ..).mp hcall
      obtain ⟨h, hh, hcontent⟩ := Option.bind_eq_some_iff.mp hc
      obtain ⟨c', hc', hbody⟩ := ((hmatched call msg n he).2.2 hsuccess).2 h hh
      have hsame : c' = c :=
        Option.some.inj ((Rpc.Header.call?_eq_some.mpr hc').symm.trans hcontent)
      simp only [Bool.and_eq_true, beq_iff_eq] at hgetattr
      obtain ⟨⟨hprogram, hversion⟩, hprocedure⟩ := hgetattr
      rw [hsame, hprogram, hversion, hprocedure, hoffset, hdecode] at hbody
      exact ⟨call, msg, n, he, hbody.1⟩
    | _ => cases hcall

end NfsWire
