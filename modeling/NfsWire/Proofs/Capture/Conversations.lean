import NfsWire.Proofs.Capture.Delivery
import NfsWire.Proofs.Capture.Reachable

/-!
# Conversations do not interfere

When no call ages, all that is told of a packet depends on two things: the unused octets of its
stream, and the calls that wait between its two ends. Both are changed by packets between these ends
only. So two decoders that agree on a pair of ends (`Decoder.Agree`) tell the same of a packet
between them and agree afterwards (`Agree.handle`), and with any other packet a decoder goes on
agreeing with whom it agreed before (`Agree.aside`). The other packets may as well be left out:
`transcript_filter`.

Aging is what this needs to be without. A packet of one conversation gives up the overdue calls of
all of them.
-/

namespace NfsWire

/-! ## Matchers in which nothing ages -/

namespace Matcher

variable {α : Type} {m n k : Matcher α} {F : Flow → Prop} {flow : Flow} {xid : UInt32}

/-- No call ages, and none was ever queued to. -/
structure Still (m : Matcher α) : Prop where
  disabled : m.settings.aging = .disabled
  order : m.order = []

theorem Still.new {settings : MatcherSettings} (h : settings.aging = .disabled) :
    (Matcher.new settings : Matcher α).Still := ⟨h, rfl⟩

/-- Nothing is given up. -/
theorem Still.expire (h : m.Still) (now : Observation) : m.expire now = (m, []) := by
  rw [Matcher.expire, h.order, serve, ← h.order]

theorem Still.put (h : m.Still) (flow : Flow) (call : Pending α) : (m.put flow call).Still :=
  ⟨h.disabled, h.order⟩

theorem Still.take (h : m.Still) (flow : Flow) (xid : UInt32) : (m.take flow xid).Still :=
  ⟨h.disabled, h.order⟩

theorem Still.enrol (h : m.Still) (flow : Flow) (xid : UInt32) (call : α) (seen : Observation) :
    (m.enrol flow xid call seen).Still := by
  have hage : m.canAge seen = false := by rw [canAge, h.disabled]
  refine ⟨h.disabled, ?_⟩
  show (if m.canAge seen then _ else _) = _
  rw [hage]
  exact h.order

/-- The same calls wait on these flows. -/
structure Agree (F : Flow → Prop) (m n : Matcher α) : Prop where
  left : m.Still
  right : n.Still
  get?_eq : ∀ flow, F flow → ∀ xid, m.get? flow xid = n.get? flow xid

theorem Agree.refl (h : m.Still) : m.Agree F m := ⟨h, h, fun _ _ _ => rfl⟩

theorem Agree.symm (h : m.Agree F n) : n.Agree F m :=
  ⟨h.right, h.left, fun flow hflow xid => (h.get?_eq flow hflow xid).symm⟩

theorem Agree.trans (h : m.Agree F n) (h' : n.Agree F k) : m.Agree F k :=
  ⟨h.left, h'.right, fun flow hflow xid => (h.get?_eq flow hflow xid).trans
    (h'.get?_eq flow hflow xid)⟩

/-! What is done on both sides leaves them in agreement. -/

theorem Agree.put (h : m.Agree F n) (flow : Flow) (call : Pending α) :
    (m.put flow call).Agree F (n.put flow call) := by
  refine ⟨h.left.put .., h.right.put .., fun f hf x => ?_⟩
  rw [get?_put, get?_put, h.get?_eq f hf]

theorem Agree.take (h : m.Agree F n) (flow : Flow) (xid : UInt32) :
    (m.take flow xid).Agree F (n.take flow xid) := by
  refine ⟨h.left.take .., h.right.take .., fun f hf x => ?_⟩
  rw [get?_take, get?_take, h.get?_eq f hf]

theorem Agree.enrol (h : m.Agree F n) (flow : Flow) (xid : UInt32) (call : α)
    (seen : Observation) : (m.enrol flow xid call seen).Agree F (n.enrol flow xid call seen) := by
  refine ⟨h.left.enrol .., h.right.enrol .., fun f hf x => ?_⟩
  rw [get?_enrol, get?_enrol, h.get?_eq f hf]

/-! What is done on another flow cannot be told apart from doing nothing. -/

theorem Still.agree_put (h : m.Still) (hflow : ¬ F flow) (call : Pending α) :
    m.Agree F (m.put flow call) := by
  refine ⟨h, h.put .., fun f hf x => ?_⟩
  have hother : f ≠ flow := fun heq => hflow (heq ▸ hf)
  simp [get?_put, hother]

theorem Still.agree_take (h : m.Still) (hflow : ¬ F flow) (xid : UInt32) :
    m.Agree F (m.take flow xid) := by
  refine ⟨h, h.take .., fun f hf x => ?_⟩
  have hother : f ≠ flow := fun heq => hflow (heq ▸ hf)
  simp [get?_take, hother]

theorem Still.agree_enrol (h : m.Still) (hflow : ¬ F flow) (xid : UInt32) (call : α)
    (seen : Observation) : m.Agree F (m.enrol flow xid call seen) := by
  refine ⟨h, h.enrol .., fun f hf x => ?_⟩
  have hother : f ≠ flow := fun heq => hflow (heq ▸ hf)
  simp [get?_enrol, hother]

/-- A call on one of the flows is told as the same on both sides. -/
theorem Agree.onCall (h : m.Agree F n) (hflow : F flow) (xid : UInt32) (call : α)
    (seen : Observation) :
    (m.onCall flow xid call seen).2 = (n.onCall flow xid call seen).2 ∧
      (m.onCall flow xid call seen).1.Agree F (n.onCall flow xid call seen).1 := by
  have hget := h.get?_eq flow hflow xid
  rw [Matcher.onCall, Matcher.onCall, h.left.expire, h.right.expire]
  dsimp only
  rw [← hget]
  cases m.get? flow xid with
  | none => exact ⟨rfl, h.enrol ..⟩
  | some waiting => exact ⟨rfl, h.put ..⟩

theorem Agree.onReply (h : m.Agree F n) (hflow : F flow) (xid : UInt32) (seen : Observation) :
    (m.onReply flow xid seen).2 = (n.onReply flow xid seen).2 ∧
      (m.onReply flow xid seen).1.Agree F (n.onReply flow xid seen).1 := by
  have hget := h.get?_eq flow hflow xid
  rw [Matcher.onReply, Matcher.onReply, h.left.expire, h.right.expire]
  dsimp only
  rw [← hget]
  cases m.get? flow xid with
  | none => exact ⟨rfl, h⟩
  | some waiting => exact ⟨rfl, h.take ..⟩

theorem Still.agree_onCall (h : m.Still) (hflow : ¬ F flow) (xid : UInt32) (call : α)
    (seen : Observation) : m.Agree F (m.onCall flow xid call seen).1 := by
  rw [Matcher.onCall, h.expire]
  dsimp only
  cases m.get? flow xid with
  | none => exact h.agree_enrol hflow ..
  | some waiting => exact h.agree_put hflow _

theorem Still.agree_onReply (h : m.Still) (hflow : ¬ F flow) (xid : UInt32) (seen : Observation) :
    m.Agree F (m.onReply flow xid seen).1 := by
  rw [Matcher.onReply, h.expire]
  dsimp only
  cases m.get? flow xid with
  | none => exact .refl h
  | some waiting => exact h.agree_take hflow _

end Matcher

/-! ## Books -/

/-- Two steps tell the same, and then the same calls wait on these flows. -/
structure SameStep (F : Flow → Prop) (r r' : Books × List Event) : Prop where
  told : r.2 = r'.2
  agree : r.1.matcher.Agree F r'.1.matcher

namespace Books

variable {x y b : Books} {F : Flow → Prop} {p : Packet}

/-! What is told of verdicts, gaps and errors is not looked up in the books. -/

theorem settle_snd (x y : Books) (reply : Option Message) (events : List (MatchEvent Message)) :
    (x.settle reply events).2 = (y.settle reply events).2 := by
  induction events generalizing x y reply with
  | nil => rfl
  | cons e rest ih =>
    rw [settle_cons, settle_cons]
    exact congrArg (_ ++ ·) (ih ..)

theorem lack_snd (x y : Books) (p : Packet) (xid : UInt32) (refs : List ChunkRef) :
    (x.lack p xid refs).2 = (y.lack p xid refs).2 := by
  induction refs generalizing x y with
  | nil => rfl
  | cons ref rest ih => exact congrArg (_ :: ·) (ih ..)

theorem accept_snd (x y : Books) (p : Packet) (result : Except DecodeError (Option Rpc.Body)) :
    (x.accept p result).2 = (y.accept p result).2 := by
  cases result with
  | ok body => rfl
  | error e => rfl

theorem expire_still (h : b.matcher.Still) (now : Observation) : b.expire now = (b, []) := by
  rw [expire, h.expire]
  rfl

theorem sameStep_track (msg : Message) (h : x.matcher.Agree F y.matcher) (hflow : F msg.flow) :
    SameStep F (x.track msg) (y.track msg) := by
  unfold track
  cases msg.direction with
  | call =>
    obtain ⟨htold, hagree⟩ := h.onCall hflow msg.xid msg msg.seen
    dsimp only
    rw [htold]
    exact ⟨settle_snd .., by rw [settle_fst, settle_fst]; exact hagree⟩
  | reply =>
    obtain ⟨htold, hagree⟩ := h.onReply hflow msg.xid msg.seen
    dsimp only
    rw [htold]
    exact ⟨settle_snd .., by rw [settle_fst, settle_fst]; exact hagree⟩

theorem agree_track (msg : Message) (h : b.matcher.Still) (hflow : ¬ F msg.flow) :
    b.matcher.Agree F (b.track msg).1.matcher := by
  unfold track
  cases msg.direction with
  | call =>
    dsimp only
    rw [settle_fst]
    exact h.agree_onCall hflow ..
  | reply =>
    dsimp only
    rw [settle_fst]
    exact h.agree_onReply hflow ..

/-- What follows when the body of a message was read, or could not be: errors and gaps are told, and
the message is told and paired. -/
def report (b : Books) (p : Packet) (header : Rpc.Header) (rdma : Option Rdma.Header)
    (result : Except DecodeError (Option Rpc.Body)) : Books × List Event :=
  let taken := b.accept p result
  let gaps := taken.1.lack p header.xid (missingOf taken.2.2)
  let msg := Message.ofHeader p header rdma taken.2.2
  let paired := gaps.1.track msg
  (paired.1, taken.2.1 ++ gaps.2 ++ [.message msg] ++ paired.2)

variable (header : Rpc.Header) (rdma : Option Rdma.Header)
  (result : Except DecodeError (Option Rpc.Body))

theorem sameStep_report (h : x.matcher.Agree F y.matcher) (hp : ∀ way, F (p.flow way)) :
    SameStep F (x.report p header rdma result) (y.report p header rdma result) := by
  unfold report
  dsimp only
  rw [accept_snd x y]
  generalize (y.accept p result).2 = taken
  have hgaps : ((x.accept p result).1.lack p header.xid (missingOf taken.2)).1.matcher.Agree F
      ((y.accept p result).1.lack p header.xid (missingOf taken.2)).1.matcher := by
    rw [matcher_lack, matcher_lack, matcher_accept, matcher_accept]
    exact h
  have htrack := sameStep_track (.ofHeader p header rdma taken.2) hgaps (hp header.direction)
  refine ⟨?_, htrack.agree⟩
  rw [htrack.told, lack_snd (x.accept p result).1 (y.accept p result).1]

theorem agree_report (h : b.matcher.Still) (hp : ∀ way, ¬ F (p.flow way)) :
    b.matcher.Agree F (b.report p header rdma result).1.matcher := by
  unfold report
  dsimp only
  generalize (b.accept p result).2 = taken
  have hgaps : ((b.accept p result).1.lack p header.xid (missingOf taken.2)).1.matcher =
      b.matcher := by
    rw [matcher_lack, matcher_accept]
  have htrack := agree_track (.ofHeader p header rdma taken.2) (hgaps ▸ h) (hp header.direction)
  rw [hgaps] at htrack
  exact htrack

end Books

/-! ## Messages -/

section Messages

variable (s : DecoderSettings) {x y b : Books} {F : Flow → Prop} {p : Packet} (header : Rpc.Header)
  (stream : Bytes) (chunks : Option ChunkMap) (rdma : Option Rdma.Header)

/-- When nothing ages, reading a body gives nothing up. -/
theorem messageBody_still (h : b.matcher.Still) :
    (messageBody s b p header stream chunks).1 = b ∧
      (messageBody s b p header stream chunks).2.1 = [] := by
  unfold messageBody
  cases header.content with
  | call call => exact ⟨rfl, rfl⟩
  | reply reply =>
    dsimp only
    rw [Books.expire_still h]
    exact ⟨rfl, rfl⟩

/-- The body of a reply is read for the call that waits, which is the same on both sides. -/
theorem messageBody_result (h : x.matcher.Agree F y.matcher) (hp : F (p.flow .reply)) :
    (messageBody s x p header stream chunks).2.2 =
      (messageBody s y p header stream chunks).2.2 := by
  unfold messageBody
  cases header.content with
  | call call => rfl
  | reply reply =>
    dsimp only
    rw [Books.expire_still h.left, Books.expire_still h.right]
    dsimp only
    rw [h.get?_eq _ hp]

theorem handleMessage_still {header : Rpc.Header} (h : b.matcher.Still)
    (hopen : openMessage s stream rdma = .ok header) :
    handleMessage s b p stream chunks rdma =
      let counted := b.countMessage header.direction
      counted.report p header rdma (messageBody s counted p header stream chunks).2.2 := by
  have hcounted : (b.countMessage header.direction).matcher.Still := h
  obtain ⟨hbooks, hgiven⟩ := messageBody_still s (p := p) header stream chunks hcounted
  rw [handleMessage_ok hopen]
  dsimp only
  rw [hbooks, hgiven]
  rfl

theorem sameStep_handleMessage (h : x.matcher.Agree F y.matcher) (hp : ∀ way, F (p.flow way)) :
    SameStep F (handleMessage s x p stream chunks rdma)
      (handleMessage s y p stream chunks rdma) := by
  cases hopen : openMessage s stream rdma with
  | error e =>
    rw [handleMessage_error hopen, handleMessage_error hopen]
    exact ⟨rfl, h⟩
  | ok header =>
    have hcounted : (x.countMessage header.direction).matcher.Agree F
        (y.countMessage header.direction).matcher := h
    rw [handleMessage_still s stream chunks rdma h.left hopen,
      handleMessage_still s stream chunks rdma h.right hopen]
    dsimp only
    rw [messageBody_result s header stream chunks hcounted (hp .reply)]
    exact Books.sameStep_report header rdma _ hcounted hp

theorem agree_handleMessage (h : b.matcher.Still) (hp : ∀ way, ¬ F (p.flow way)) :
    b.matcher.Agree F (handleMessage s b p stream chunks rdma).1.matcher := by
  cases hopen : openMessage s stream rdma with
  | error e =>
    rw [handleMessage_error hopen]
    exact .refl h
  | ok header =>
    have hcounted : (b.countMessage header.direction).matcher.Still := h
    rw [handleMessage_still s stream chunks rdma h hopen]
    show (b.countMessage header.direction).matcher.Agree F _
    exact Books.agree_report header rdma _ hcounted hp

/-! ## Transports -/

theorem handleEach_cons (message : Bytes) (rest : List Bytes) :
    handleEach s b p (message :: rest) =
      let first := handleMessage s b p message none none
      let later := handleEach s first.1 p rest
      (later.1, first.2 ++ later.2) := rfl

theorem sameStep_handleEach (h : x.matcher.Agree F y.matcher) (hp : ∀ way, F (p.flow way))
    (messages : List Bytes) :
    SameStep F (handleEach s x p messages) (handleEach s y p messages) := by
  induction messages generalizing x y with
  | nil => exact ⟨rfl, h⟩
  | cons message rest ih =>
    have hfirst := sameStep_handleMessage s message none none h hp
    have hrest := ih hfirst.agree
    rw [handleEach_cons, handleEach_cons]
    refine ⟨?_, hrest.agree⟩
    dsimp only
    rw [hfirst.told, hrest.told]

theorem agree_handleEach (h : b.matcher.Still) (hp : ∀ way, ¬ F (p.flow way))
    (messages : List Bytes) : b.matcher.Agree F (handleEach s b p messages).1.matcher := by
  induction messages generalizing b with
  | nil => exact .refl h
  | cons message rest ih =>
    have hfirst := agree_handleMessage s message none none h hp
    rw [handleEach_cons]
    exact hfirst.trans (ih hfirst.right)

theorem lose_snd (x y : Books) (p : Packet) (broken : Option DecodeError) :
    (x.lose p broken).2 = (y.lose p broken).2 := by
  cases broken with
  | none => rfl
  | some e => rfl

/-- The records of a stream, and what is left of it. -/
theorem sameStep_handleRecords (h : x.matcher.Agree F y.matcher) (hp : ∀ way, F (p.flow way))
    (used : Nat) (data : Bytes) :
    (handleRecords s x p used data).2 = (handleRecords s y p used data).2 ∧
      (handleRecords s x p used data).1.matcher.Agree F
        (handleRecords s y p used data).1.matcher := by
  rw [handleRecords_eq, handleRecords_eq]
  dsimp only
  have hrecords := sameStep_handleEach s h hp (harvest s.maxRecord used data).records
  rw [Books.matcher_lose, Books.matcher_lose, hrecords.told, lose_snd _ (handleEach s y p _).1]
  exact ⟨rfl, hrecords.agree⟩

theorem agree_handleRecords (h : b.matcher.Still) (hp : ∀ way, ¬ F (p.flow way)) (used : Nat)
    (data : Bytes) : b.matcher.Agree F (handleRecords s b p used data).1.matcher := by
  rw [handleRecords_eq]
  dsimp only
  rw [Books.matcher_lose]
  exact agree_handleEach s h hp _

variable (source : Rdma.ChunkSource)

theorem sameStep_handleRdma (h : x.matcher.Agree F y.matcher) (hp : ∀ way, F (p.flow way)) :
    SameStep F (handleRdma s source x p) (handleRdma s source y p) := by
  cases hr : Rdma.reassemble p.payload source s.strictEnums with
  | error e =>
    rw [handleRdma_error hr, handleRdma_error hr]
    exact ⟨rfl, h⟩
  | ok transfer =>
    obtain ⟨header, content⟩ := transfer
    cases content with
    | error e =>
      rw [handleRdma_peerError hr, handleRdma_peerError hr]
      have hcounted : x.countPeerError.matcher.Agree F y.countPeerError.matcher := h
      have htrack := Books.sameStep_track (.ofRdma p .reply header none) hcounted (hp .reply)
      exact ⟨congrArg (_ :: ·) htrack.told, htrack.agree⟩
    | unresolved ref =>
      rw [handleRdma_unresolved hr, handleRdma_unresolved hr]
      dsimp only
      generalize (if ref.kind = .read then Rpc.Direction.call else .reply) = way
      have hcounted : ((x.lack p header.xid [ref]).1.countMessage way).matcher.Agree F
          ((y.lack p header.xid [ref]).1.countMessage way).matcher := h
      have htrack := Books.sameStep_track
        (.ofRdma p way header (some (.unnamed (.unresolved ref)))) hcounted (hp way)
      refine ⟨?_, htrack.agree⟩
      rw [htrack.told, Books.lack_snd x y]
    | message stream map =>
      rw [handleRdma_message hr, handleRdma_message hr]
      exact sameStep_handleMessage s stream (some map) (some header) h hp

theorem agree_handleRdma (h : b.matcher.Still) (hp : ∀ way, ¬ F (p.flow way)) :
    b.matcher.Agree F (handleRdma s source b p).1.matcher := by
  cases hr : Rdma.reassemble p.payload source s.strictEnums with
  | error e =>
    rw [handleRdma_error hr]
    exact .refl h
  | ok transfer =>
    obtain ⟨header, content⟩ := transfer
    cases content with
    | error e =>
      rw [handleRdma_peerError hr]
      have hcounted : b.countPeerError.matcher.Still := h
      exact Books.agree_track (.ofRdma p .reply header none) hcounted (hp .reply)
    | unresolved ref =>
      rw [handleRdma_unresolved hr]
      dsimp only
      generalize (if ref.kind = .read then Rpc.Direction.call else .reply) = way
      have hcounted : ((b.lack p header.xid [ref]).1.countMessage way).matcher.Still := h
      exact Books.agree_track
        (.ofRdma p way header (some (.unnamed (.unresolved ref)))) hcounted (hp way)
    | message stream map =>
      rw [handleRdma_message hr]
      exact agree_handleMessage s stream (some map) (some header) h hp

end Messages

/-! ## Two ends -/

/-- These are the two ends, in either direction. -/
def Between (a b src dst : Endpoint) : Prop := src = a ∧ dst = b ∨ src = b ∧ dst = a

instance (a b src dst : Endpoint) : Decidable (Between a b src dst) :=
  inferInstanceAs (Decidable (_ ∨ _))

theorem between_comm {a b src dst : Endpoint} : Between a b src dst ↔ Between a b dst src := by
  unfold Between
  rw [and_comm (a := src = a), and_comm (a := src = b)]
  exact Or.comm

/-- The packet goes from one of the ends to the other. -/
def Packet.Between (a b : Endpoint) (p : Packet) : Prop := NfsWire.Between a b p.src p.dst

instance (a b : Endpoint) (p : Packet) : Decidable (p.Between a b) :=
  inferInstanceAs (Decidable (Between a b p.src p.dst))

/-- The ends are the client and the server. -/
def Flow.Between (a b : Endpoint) (f : Flow) : Prop := NfsWire.Between a b f.client f.server

/-- What a packet carries, call or reply, is between the ends that the packet is between. -/
theorem Packet.between_flow {a b : Endpoint} (p : Packet) (way : Rpc.Direction) :
    (p.flow way).Between a b ↔ p.Between a b := by
  cases way with
  | call => exact Iff.rfl
  | reply => exact between_comm

namespace Streams

theorem get_eq_on (s : Streams) (key : StreamKey) :
    s.get key = ((s.on key).head?.map (·.2)).getD [] := by
  rw [get, on, List.head?_filter]

theorem get_set_self (s : Streams) (key : StreamKey) (data : Bytes) :
    (s.set key data).get key = data := get_of_on (s.on_set_self key data)

theorem get_set_other (s : Streams) {key key' : StreamKey} (h : key' ≠ key) (data : Bytes) :
    (s.set key' data).get key = s.get key := by
  rw [get_eq_on, get_eq_on, s.on_set_other h]

end Streams

namespace Decoder

variable {a b : Endpoint} {d e : Decoder} {p : Packet}

/-- Between these ends, the decoders have the same streams and the same waiting calls. -/
structure Agree (a b : Endpoint) (d e : Decoder) : Prop where
  settings : d.settings = e.settings
  source : d.source = e.source
  left : d.reorder = none
  right : e.reorder = none
  streams : ∀ key : StreamKey, Between a b key.1 key.2 → d.streams.get key = e.streams.get key
  calls : d.matcher.Agree (Flow.Between a b) e.matcher

theorem Agree.new {settings : DecoderSettings} (source : Rdma.ChunkSource)
    (haging : settings.matcher.aging = .disabled) (hreorder : settings.reorderWindow = 0) :
    (Decoder.new settings source).Agree a b (Decoder.new settings source) :=
  have hnone : (Decoder.new settings source).reorder = none := if_pos hreorder
  ⟨rfl, rfl, hnone, hnone, fun _ _ => rfl, .refl (.new haging)⟩

theorem handle_eq_process (h : d.reorder = none) (p : Packet) : d.handle p = d.process p := by
  rw [handle, h]

/-- **A packet between the ends is told as the same by both.** -/
theorem Agree.handle (h : d.Agree a b e) (hp : p.Between a b) :
    (d.handle p).2 = (e.handle p).2 ∧ (d.handle p).1.Agree a b (e.handle p).1 := by
  have hflows : ∀ way, (p.flow way).Between a b := fun way => (p.between_flow way).mpr hp
  have hcounted : d.counted.matcher.Agree (Flow.Between a b) e.counted.matcher := h.calls
  rw [handle_eq_process h.left, handle_eq_process h.right]
  cases htransport : p.transport with
  | udp =>
    rw [process_udp d p htransport, process_udp e p htransport, h.settings]
    have hstep := sameStep_handleMessage e.settings p.payload none none hcounted hflows
    exact ⟨hstep.told, rfl, h.source, h.left, h.right, h.streams, hstep.agree⟩
  | rdma =>
    rw [process_rdma d p htransport, process_rdma e p htransport, h.settings, h.source]
    have hstep := sameStep_handleRdma e.settings e.source hcounted hflows
    exact ⟨hstep.told, rfl, rfl, h.left, h.right, h.streams, hstep.agree⟩
  | tcp =>
    rw [process_tcp d p htransport, process_tcp e p htransport, h.settings,
      h.streams (p.src, p.dst) hp]
    obtain ⟨htaken, hagree⟩ := sameStep_handleRecords e.settings hcounted hflows 0
      (e.streams.get (p.src, p.dst) ++ p.payload)
    dsimp only
    rw [htaken]
    refine ⟨rfl, rfl, h.source, h.left, h.right, fun key hkey => ?_, hagree⟩
    dsimp only
    by_cases hown : (p.src, p.dst) = key
    · rw [← hown, Streams.get_set_self, Streams.get_set_self]
    · rw [Streams.get_set_other _ hown, Streams.get_set_other _ hown]
      exact h.streams key hkey

/-- **Any other packet changes nothing between the ends.** -/
theorem Agree.aside (h : d.Agree a b e) (hp : ¬ p.Between a b) : (d.handle p).1.Agree a b e := by
  have hflows : ∀ way, ¬ (p.flow way).Between a b := fun way => mt (p.between_flow way).mp hp
  have hcounted : d.counted.matcher.Still := h.calls.left
  rw [handle_eq_process h.left]
  cases htransport : p.transport with
  | udp =>
    rw [process_udp d p htransport]
    have hagree := agree_handleMessage d.settings p.payload none none hcounted hflows
    exact ⟨h.settings, h.source, h.left, h.right, h.streams, hagree.symm.trans h.calls⟩
  | rdma =>
    rw [process_rdma d p htransport]
    have hagree := agree_handleRdma d.settings d.source hcounted hflows
    exact ⟨h.settings, h.source, h.left, h.right, h.streams, hagree.symm.trans h.calls⟩
  | tcp =>
    rw [process_tcp d p htransport]
    have hagree := agree_handleRecords d.settings hcounted hflows 0
      (d.streams.get (p.src, p.dst) ++ p.payload)
    refine ⟨h.settings, h.source, h.left, h.right, fun key hkey => ?_, hagree.symm.trans h.calls⟩
    have hother : (p.src, p.dst) ≠ key := fun heq => hp (by rw [← heq] at hkey; exact hkey)
    exact (d.streams.get_set_other hother _).trans (h.streams key hkey)

/-! ## Whole captures -/

/-- Each packet with what is told when it is handled. -/
def transcript (d : Decoder) : List Packet → List (Packet × List Event)
  | [] => []
  | p :: rest => (p, (d.handle p).2) :: (d.handle p).1.transcript rest

/-- Between two ends the transcript is as if there were no other packets. -/
theorem Agree.transcript_filter (h : d.Agree a b e) (packets : List Packet) :
    (d.transcript packets).filter (·.1.Between a b) =
      e.transcript (packets.filter (·.Between a b)) := by
  induction packets generalizing d e with
  | nil => rfl
  | cons p rest ih =>
    rw [transcript]
    by_cases hp : p.Between a b
    · obtain ⟨htold, hagree⟩ := h.handle hp
      rw [List.filter_cons_of_pos (by simpa using hp), List.filter_cons_of_pos (by simpa using hp),
        transcript, htold, ih hagree]
    · rw [List.filter_cons_of_neg (by simpa using hp), List.filter_cons_of_neg (by simpa using hp)]
      exact ih (h.aside hp)

end Decoder

/-- **Conversations do not interfere.** Two captures in which the same packets go between two ends
are told as the same there, packet by packet, whatever goes on between other ends. -/
theorem conversations_apart {settings : DecoderSettings} (source : Rdma.ChunkSource)
    (haging : settings.matcher.aging = .disabled) (hreorder : settings.reorderWindow = 0)
    (a b : Endpoint) {packets packets' : List Packet}
    (hsame : packets.filter (·.Between a b) = packets'.filter (·.Between a b)) :
    ((Decoder.new settings source).transcript packets).filter (·.1.Between a b) =
      ((Decoder.new settings source).transcript packets').filter (·.1.Between a b) := by
  have hnew : (Decoder.new settings source).Agree a b (.new settings source) :=
    .new source haging hreorder
  rw [hnew.transcript_filter, hnew.transcript_filter, hsame]

/-- Two clients use one transaction id, and the other one is answered twice. -/
theorem conversations_apart_one_xid :
    let client : Endpoint := ⟨.v4 1, 800⟩
    let other : Endpoint := ⟨.v4 2, 800⟩
    let server : Endpoint := ⟨.v4 3, 2049⟩
    let call (seq : Nat) (src : Endpoint) : Packet :=
      ⟨⟨seq, none⟩, src, server, .udp, [0, 0, 0, 7, 0, 0, 0, 0, 0, 0, 0, 2, 0, 1, 0x86, 0xa3,
        0, 0, 0, 3, 0, 0, 0, 0, 0, 0, 0, 0, 0, 0, 0, 0, 0, 0, 0, 0, 0, 0, 0, 0]⟩
    let reply (seq : Nat) (dst : Endpoint) : Packet :=
      ⟨⟨seq, none⟩, server, dst, .udp, [0, 0, 0, 7, 0, 0, 0, 1, 0, 0, 0, 0, 0, 0, 0, 0,
        0, 0, 0, 0, 0, 0, 0, 0]⟩
    let d := Decoder.new { matcher := { aging := .disabled } } fun _ _ _ => none
    let told := (d.transcript [call 1 other, call 2 client, reply 3 other, reply 4 client,
      reply 5 other]).filter (·.1.Between client server)
    told.map (fun t => t.2.map Event.name) = [["message"], ["message", "matched"]] := by
  intro client other server call reply d told
  have hsame : [call 1 other, call 2 client, reply 3 other, reply 4 client, reply 5 other].filter
      (·.Between client server) =
        [call 2 client, reply 4 client].filter (·.Between client server) := by decide
  rw [show told = _ from conversations_apart _ rfl rfl client server hsame]
  decide +kernel

end NfsWire
