import NfsWire.Proofs.Capture.Contents
import NfsWire.Proofs.Capture.Conversations

/-!
# Two captures side by side

Two decoders are compared by a `View`, which says what is looked at of a message and of what is
told, and how the counters compare. What a view forgets of a message must not be asked when messages
are paired, nor when the procedure of a reply is looked up (`View.Lawful`). Then the steps of the
decoder respect the view: from books that look alike the same message leads to books that look
alike, and what is told on the way looks the same (`Alike.handleMessage`,
`Alike.handleRecords`, `Alike.handleRdma`).

The counters are written and never read, so they may differ in any way that survives counting the
same on both sides.
-/

namespace NfsWire

/-! ## Views -/

/-- The messages in the event are others, and nothing else changes. -/
def Event.map (f : Message → Message) : Event → Event
  | .message m => .message (f m)
  | .matched call reply n => .matched (f call) (f reply) n
  | .orphanReply reply => .orphanReply (f reply)
  | .timeout call n => .timeout (f call) n
  | e => e

/-- What is counted at once. -/
inductive Stats.Counting : (Stats → Stats) → Prop where
  | packet : Counting fun s => { s with packets := s.packets + 1 }
  | error (e : DecodeError) : Counting (countError · e)
  | pairing (e : MatchEvent Message) : Counting (countMatch · e)
  | message (direction : Rpc.Direction) : Counting (countMessage · direction)
  | peerError : Counting fun s => { s with rdmaErrors := s.rdmaErrors + 1 }.countDirection .reply
  | gap : Counting fun s => { s with unresolved := s.unresolved + 1 }

/-- How two captures are compared. -/
structure View where
  /-- What is looked at of a message. -/
  message : Message → Message
  /-- What is looked at of an event, if it is looked at. -/
  event : Event → Option Event
  /-- How the counters compare. -/
  stats : Stats → Stats → Prop

namespace View

/-- What is not looked at does not matter to the pairing. -/
structure Lawful (v : View) : Prop where
  seen : ∀ m, (v.message m).seen = m.seen
  flow : ∀ m, (v.message m).flow = m.flow
  xid : ∀ m, (v.message m).xid = m.xid
  direction : ∀ m, (v.message m).direction = m.direction
  call? : ∀ m, (v.message m).call? = m.call?
  event : ∀ e, v.event (e.map v.message) = v.event e
  stats : ∀ count, Stats.Counting count → ∀ s s', v.stats s s' → v.stats (count s) (count s')

/-- What is looked at of what is told. -/
def told (v : View) (events : List Event) : List Event := events.filterMap v.event

/-- The same calls wait, as far as they are looked at. -/
structure Alike (v : View) (b b' : Books) : Prop where
  calls : b.matcher.map v.message = b'.matcher.map v.message
  stats : v.stats b.stats b'.stats

/-- Two steps tell the same, and lead to books that look alike. -/
structure Same (v : View) (r r' : Books × List Event) : Prop where
  told : v.told r.2 = v.told r'.2
  books : v.Alike r.1 r'.1

variable {v : View}

theorem told_append (v : View) (events more : List Event) :
    v.told (events ++ more) = v.told events ++ v.told more :=
  List.filterMap_append

theorem told_congr {events events' more more' : List Event} (h : v.told events = v.told events')
    (hmore : v.told more = v.told more') :
    v.told (events ++ more) = v.told (events' ++ more') := by
  rw [told_append, told_append, h, hmore]

theorem told_cons_congr (e : Event) {more more' : List Event} (h : v.told more = v.told more') :
    v.told (e :: more) = v.told (e :: more') :=
  told_congr (v := v) (rfl : v.told [e] = v.told [e]) h

theorem Lawful.told_map (hv : v.Lawful) (events : List Event) :
    v.told (events.map (Event.map v.message)) = v.told events := by
  simp only [told, List.filterMap_map, Function.comp_def, hv.event]

variable {b b' : Books}

/-- The same is counted on both sides. -/
theorem Alike.count (h : v.Alike b b') (hv : v.Lawful) {count : Stats → Stats}
    (hcount : Stats.Counting count) :
    v.Alike { b with stats := count b.stats } { b' with stats := count b'.stats } :=
  ⟨h.calls, hv.stats count hcount _ _ h.stats⟩

/-- The calls of one transaction id look alike. -/
theorem Alike.get?_eq (h : v.Alike b b') (flow : Flow) (xid : UInt32) :
    (b.matcher.get? flow xid).map (Pending.map v.message) =
      (b'.matcher.get? flow xid).map (Pending.map v.message) := by
  rw [← Matcher.get?_map, ← Matcher.get?_map, h.calls]

end View

/-! ## Pairing -/

/-- What is told of a pairing has the calls and the reply in it that it is told of. -/
theorem Event.ofMatch_map (f : Message → Message) (reply : Option Message)
    (e : MatchEvent Message) :
    ofMatch (reply.map f) (e.map f) = ((ofMatch reply e).1.map (Event.map f),
      (ofMatch reply e).2.map f) := by
  cases e with
  | matched flow call seen => cases reply <;> rfl
  | orphan flow xid seen => cases reply <;> rfl
  | retransmission flow xid count seen => rfl
  | timeout flow call => rfl

theorem Books.settle_map (f : Message → Message) (b : Books) (reply : Option Message)
    (events : List (MatchEvent Message)) :
    (b.settle (reply.map f) (events.map (MatchEvent.map f))).2 =
      (b.settle reply events).2.map (Event.map f) := by
  induction events generalizing b reply with
  | nil => rfl
  | cons e rest ih =>
    rw [List.map_cons, settle_cons, settle_cons, Event.ofMatch_map]
    dsimp only
    rw [List.map_append, ← ih, settle_snd]

namespace View

variable {v : View} {b b' : Books}

theorem Lawful.stats_foldl (hv : v.Lawful) (events : List (MatchEvent Message)) {s s' : Stats}
    (h : v.stats s s') :
    v.stats (events.foldl Stats.countMatch s) (events.foldl Stats.countMatch s') := by
  induction events generalizing s s' with
  | nil => exact h
  | cons e rest ih => exact ih (hv.stats _ (.pairing e) _ _ h)

/-- What a matcher does on both sides looks alike, and so does what is told of it. -/
theorem Alike.settle (h : v.Alike b b') (hv : v.Lawful)
    {r r' : Matcher Message × List (MatchEvent Message)}
    (hmatcher : r.1.map v.message = r'.1.map v.message)
    (hevents : r.2.map (MatchEvent.map v.message) = r'.2.map (MatchEvent.map v.message))
    {reply reply' : Option Message} (hreply : reply.map v.message = reply'.map v.message) :
    v.Same (Books.settle { b with matcher := r.1 } reply r.2)
      (Books.settle { b' with matcher := r'.1 } reply' r'.2) := by
  refine ⟨?_, ?_⟩
  · rw [← hv.told_map, ← hv.told_map (Books.settle _ reply' _).2, ← Books.settle_map,
      ← Books.settle_map, hevents, hreply, Books.settle_snd]
  · rw [Books.settle_fst, Books.settle_fst]
    refine ⟨hmatcher, ?_⟩
    -- Which calls are paired does not matter to the counters, only how.
    show v.stats (r.2.foldl Stats.countMatch b.stats) (r'.2.foldl Stats.countMatch b'.stats)
    rw [← Stats.foldl_countMatch_map v.message, ← Stats.foldl_countMatch_map v.message b'.stats,
      hevents, Stats.foldl_countMatch_map, Stats.foldl_countMatch_map]
    exact hv.stats_foldl r'.2 h.stats

theorem Alike.expire (h : v.Alike b b') (hv : v.Lawful) (now : Observation) :
    v.Same (b.expire now) (b'.expire now) := by
  have hstep := congrArg (·.expire now) h.calls
  simp only [Matcher.expire_map] at hstep
  obtain ⟨hmatcher, hevents⟩ := Prod.mk.inj hstep
  exact h.settle hv hmatcher hevents rfl

/-- **Messages that look alike are paired alike.** -/
theorem Alike.track (h : v.Alike b b') (hv : v.Lawful) (msg msg' : Message)
    (hmsg : v.message msg = v.message msg') : v.Same (b.track msg) (b'.track msg') := by
  -- All that the matcher is asked for is the same on both sides.
  have hseen : msg.seen = msg'.seen := by rw [← hv.seen, hmsg, hv.seen]
  have hflow : msg.flow = msg'.flow := by rw [← hv.flow, hmsg, hv.flow]
  have hxid : msg.xid = msg'.xid := by rw [← hv.xid, hmsg, hv.xid]
  have hdirection : msg.direction = msg'.direction := by
    rw [← hv.direction, hmsg, hv.direction]
  unfold Books.track
  rw [hseen, hflow, hxid, hdirection]
  cases msg'.direction with
  | call =>
    have hstep := congrArg (·.onCall msg'.flow msg'.xid (v.message msg) msg'.seen) h.calls
    rw [Matcher.onCall_map, hmsg, Matcher.onCall_map] at hstep
    obtain ⟨hmatcher, hevents⟩ := Prod.mk.inj hstep
    exact h.settle hv hmatcher hevents rfl
  | reply =>
    have hstep := congrArg (·.onReply msg'.flow msg'.xid msg'.seen) h.calls
    simp only [Matcher.onReply_map] at hstep
    obtain ⟨hmatcher, hevents⟩ := Prod.mk.inj hstep
    exact h.settle hv hmatcher hevents (congrArg some hmsg)

theorem Alike.close (h : v.Alike b b') (hv : v.Lawful) : v.Same b.close b'.close := by
  have hstep := congrArg Matcher.finish h.calls
  simp only [Matcher.finish_map] at hstep
  obtain ⟨hmatcher, hevents⟩ := Prod.mk.inj hstep
  exact h.settle hv hmatcher hevents rfl

/-! ## Errors and gaps -/

theorem Alike.fail (h : v.Alike b b') (hv : v.Lawful) (p : Packet) (e : DecodeError) :
    v.Same (b.fail p e) (b'.fail p e) :=
  ⟨rfl, h.count hv (.error e)⟩

theorem Alike.lack (h : v.Alike b b') (hv : v.Lawful) (p : Packet) (xid : UInt32)
    (refs : List ChunkRef) : v.Same (b.lack p xid refs) (b'.lack p xid refs) := by
  refine ⟨congrArg v.told (Books.lack_snd ..), ?_⟩
  induction refs generalizing b b' with
  | nil => exact h
  | cons ref rest ih => exact ih (h.count hv .gap)

theorem Alike.accept (h : v.Alike b b') (hv : v.Lawful) (p : Packet)
    (result : Except DecodeError (Option Rpc.Body)) :
    v.Alike (b.accept p result).1 (b'.accept p result).1 := by
  cases result with
  | ok body => exact h
  | error e => exact h.count hv (.error e)

theorem Alike.failDangling (h : v.Alike b b') (hv : v.Lawful) (maxRecord : Nat)
    (streams : Streams) :
    v.Same (b.failDangling maxRecord streams) (b'.failDangling maxRecord streams) := by
  induction streams generalizing b b' with
  | nil => exact ⟨rfl, h⟩
  | cons stream rest ih =>
    unfold Books.failDangling
    cases Rpc.readRecord stream.2 maxRecord with
    | ok record => exact ih h
    | error e =>
      have hrest := ih (h.count hv (.error e))
      exact ⟨told_cons_congr _ hrest.told, hrest.books⟩

end View

/-! ## Messages -/

/-- Of the waiting call only its procedure is asked. -/
theorem replyBody_congr (s : DecoderSettings) (reply : Rpc.Reply)
    {waiting waiting' : Option Message} (h : waiting.bind (·.call?) = waiting'.bind (·.call?))
    (stream : Bytes) (offset : Nat) (chunks : Option ChunkMap) :
    replyBody s reply waiting stream offset chunks =
      replyBody s reply waiting' stream offset chunks := by
  rw [replyBody, replyBody, h]

/-- What is given up before a body is read, then what follows when it was read or could not be. -/
theorem handleMessage_report {s : DecoderSettings} {b : Books} {p : Packet} {stream : Bytes}
    {chunks : Option ChunkMap} {rdma : Option Rdma.Header} {header : Rpc.Header}
    (hopen : openMessage s stream rdma = .ok header) :
    handleMessage s b p stream chunks rdma =
      let read := messageBody s (b.countMessage header.direction) p header stream chunks
      let reported := read.1.report p header rdma read.2.2
      (reported.1, read.2.1 ++ reported.2) := by
  rw [handleMessage_ok hopen]
  simp only [Books.report, List.append_assoc]

namespace View

variable {v : View} {b b' : Books} (s : DecoderSettings) (p : Packet) {p' : Packet}
  (header : Rpc.Header) (stream stream' : Bytes) (chunks chunks' : Option ChunkMap)
  (rdma : Option Rdma.Header)

/-- What is given up before the body of a message is read does not depend on the body. -/
theorem Alike.messageBody (h : v.Alike b b') (hv : v.Lawful) (hseen : p.seen = p'.seen) :
    let read := NfsWire.messageBody s b p header stream chunks
    let read' := NfsWire.messageBody s b' p' header stream' chunks'
    v.Same (read.1, read.2.1) (read'.1, read'.2.1) := by
  unfold NfsWire.messageBody
  cases header.content with
  | call call => exact ⟨rfl, h⟩
  | reply reply =>
    rw [hseen]
    exact h.expire hv p'.seen

/-- The body itself is read for the same call. -/
theorem Alike.messageBody_result (h : v.Alike b b') (hv : v.Lawful) :
    (NfsWire.messageBody s b p header stream chunks).2.2 =
      (NfsWire.messageBody s b' p header stream chunks).2.2 := by
  unfold NfsWire.messageBody
  cases header.content with
  | call call => rfl
  | reply reply =>
    -- The waiting calls look alike, so they are calls of the same procedure.
    have hget := (h.expire hv p.seen).books.get?_eq (p.flow .reply) header.xid
    have hcall (waiting : Option (Pending Message)) :
        (waiting.map (·.call)).bind (·.call?) =
          (waiting.map (Pending.map v.message)).bind (·.call.call?) := by
      cases waiting with
      | none => rfl
      | some call => exact (hv.call? call.call).symm
    exact replyBody_congr s reply (by rw [hcall, hcall, hget]) ..

theorem Alike.report (h : v.Alike b b') (hv : v.Lawful)
    (result : Except DecodeError (Option Rpc.Body)) :
    v.Same (b.report p header rdma result) (b'.report p header rdma result) := by
  unfold Books.report
  dsimp only
  rw [Books.accept_snd b b']
  have haccept := h.accept hv p result
  generalize (b'.accept p result).2 = taken
  have hgaps := haccept.lack hv p header.xid (missingOf taken.2)
  have hpaired := hgaps.books.track hv (.ofHeader p header rdma taken.2) _ rfl
  refine ⟨?_, hpaired.books⟩
  exact told_congr (told_congr (told_congr rfl hgaps.told) rfl) hpaired.told

/-- **The same message is told and paired alike.** -/
theorem Alike.handleMessage (h : v.Alike b b') (hv : v.Lawful) :
    v.Same (NfsWire.handleMessage s b p stream chunks rdma)
      (NfsWire.handleMessage s b' p stream chunks rdma) := by
  cases hopen : openMessage s stream rdma with
  | error e =>
    rw [handleMessage_error hopen, handleMessage_error hopen]
    exact h.fail hv p e
  | ok header =>
    rw [handleMessage_report hopen, handleMessage_report hopen]
    have hcounted : v.Alike (b.countMessage header.direction) (b'.countMessage header.direction) :=
      h.count hv (.message header.direction)
    have hread := hcounted.messageBody s p header stream stream chunks chunks hv rfl
    have hreport := hread.books.report p header rdma hv
      (NfsWire.messageBody s (b'.countMessage header.direction) p header stream chunks).2.2
    dsimp only
    rw [hcounted.messageBody_result s p header stream chunks hv]
    exact ⟨told_congr hread.told hreport.told, hreport.books⟩

/-! ## Transports -/

theorem Alike.handleEach (h : v.Alike b b') (hv : v.Lawful) (messages : List Bytes) :
    v.Same (NfsWire.handleEach s b p messages) (NfsWire.handleEach s b' p messages) := by
  induction messages generalizing b b' with
  | nil => exact ⟨rfl, h⟩
  | cons message rest ih =>
    have hfirst := h.handleMessage s p message none none hv
    have hrest := ih hfirst.books
    rw [handleEach_cons, handleEach_cons]
    exact ⟨told_congr hfirst.told hrest.told, hrest.books⟩

theorem Alike.lose (h : v.Alike b b') (hv : v.Lawful) (broken : Option DecodeError) :
    v.Same (b.lose p broken) (b'.lose p broken) := by
  cases broken with
  | none => exact ⟨rfl, h⟩
  | some e => exact h.fail hv p e

/-- The octets that no record used do not depend on the books. -/
theorem Alike.handleRecords (h : v.Alike b b') (hv : v.Lawful) (used : Nat) (data : Bytes) :
    let taken := NfsWire.handleRecords s b p used data
    let taken' := NfsWire.handleRecords s b' p used data
    taken.2.1 = taken'.2.1 ∧ v.Same (taken.1, taken.2.2) (taken'.1, taken'.2.2) := by
  rw [handleRecords_eq, handleRecords_eq]
  dsimp only
  have hhandled := h.handleEach s p hv (harvest s.maxRecord used data).records
  have hlost := hhandled.books.lose p hv (harvest s.maxRecord used data).broken
  exact ⟨rfl, told_congr hhandled.told hlost.told, hlost.books⟩

theorem Alike.handleRdma (h : v.Alike b b') (hv : v.Lawful) (source : Rdma.ChunkSource) :
    v.Same (NfsWire.handleRdma s source b p) (NfsWire.handleRdma s source b' p) := by
  cases hread : Rdma.reassemble p.payload source s.strictEnums with
  | error e =>
    rw [handleRdma_error hread, handleRdma_error hread]
    exact h.fail hv p e
  | ok read =>
    obtain ⟨header, payload⟩ := read
    cases payload with
    | error e =>
      rw [handleRdma_peerError hread, handleRdma_peerError hread]
      have hcounted : v.Alike b.countPeerError b'.countPeerError := h.count hv .peerError
      have hpaired := hcounted.track hv (.ofRdma p .reply header none) _ rfl
      exact ⟨told_cons_congr _ hpaired.told, hpaired.books⟩
    | unresolved ref =>
      rw [handleRdma_unresolved hread, handleRdma_unresolved hread]
      dsimp only
      generalize (if ref.kind = .read then Rpc.Direction.call else .reply) = direction
      have hlacked := h.lack hv p header.xid [ref]
      have hcounted : v.Alike ((b.lack p header.xid [ref]).1.countMessage direction)
          ((b'.lack p header.xid [ref]).1.countMessage direction) :=
        hlacked.books.count hv (.message direction)
      have hpaired := hcounted.track hv
        (.ofRdma p direction header (some (.unnamed (.unresolved ref)))) _ rfl
      exact ⟨told_congr (told_congr hlacked.told rfl) hpaired.told, hpaired.books⟩
    | message stream map =>
      rw [handleRdma_message hread, handleRdma_message hread]
      exact h.handleMessage s p stream (some map) (some header) hv

end View

end NfsWire
