import NfsWire.Proofs.Capture.Balance
import NfsWire.Proofs.Capture.Comparison
import NfsWire.Proofs.Xdr.Truncation

/-!
# Errors are local

A packet that cannot be taken for a message leaves no trace but its error and two counters. A body
that cannot be read leaves no trace but its error, and what is missing from its message: the message
is paired by its header.

Both are comparisons of two sessions (`View.Follows.foldl`). In the first the same packets come
after the refused one, all is looked at, and the counters stay one packet and one error apart
(`Stats.OneMore`). In the second a datagram has other octets after its header, and bodies, their
errors and their gaps are not looked at (`View.headers`).
-/

namespace NfsWire

/-! ## A packet that is refused -/

/-- The payload fails in reassembly, in the header of the message, or in the check of its
transaction id against the transport header. -/
inductive Packet.Refused (s : DecoderSettings) (source : Rdma.ChunkSource) (p : Packet) :
    DecodeError → Prop where
  | datagram {e : DecodeError} (hudp : p.transport = .udp)
    (hopen : openMessage s p.payload none = .error e) : Refused s source p e
  | transfer {e : DecodeError} (hrdma : p.transport = .rdma)
    (hread : Rdma.reassemble p.payload source s.strictEnums = .error e) : Refused s source p e
  | message {e : DecodeError} {header : Rdma.Header} {stream : Bytes} {map : ChunkMap}
    (hrdma : p.transport = .rdma)
    (hread : Rdma.reassemble p.payload source s.strictEnums = .ok (header, .message stream map))
    (hopen : openMessage s stream (some header) = .error e) : Refused s source p e

/-- A decoder with these settings that handles packets as they come. -/
structure Decoder.Direct (settings : DecoderSettings) (source : Rdma.ChunkSource) (d : Decoder) :
    Prop where
  settings : d.settings = settings
  source : d.source = source
  reorder : d.reorder = none

namespace Decoder.Direct

variable {settings : DecoderSettings} {source : Rdma.ChunkSource} {d : Decoder} {p : Packet}
  {e : DecodeError}

theorem new (h : settings.reorderWindow = 0) :
    (Decoder.new settings source).Direct settings source :=
  ⟨rfl, rfl, if_pos h⟩

theorem process (h : d.Direct settings source) (p : Packet) :
    (d.process p).1.Direct settings source :=
  ⟨(settings_process d p).trans h.settings, (source_process d p).trans h.source,
    (reorder_process d p).trans h.reorder⟩

theorem feed (h : d.Direct settings source) (f : Feed) : (d.feed f).1.Direct settings source := by
  cases f with
  | packet p =>
    rw [Decoder.feed, handle_eq_process h.reorder]
    exact h.process p
  | finish =>
    have hrelease : d.release = (d, []) := by rw [release, h.reorder]
    rw [Decoder.feed, finish, hrelease]
    exact ⟨h.settings, h.source, h.reorder⟩

theorem foldl {s : Session} (h : s.decoder.Direct settings source) (feeds : List Feed) :
    (feeds.foldl Session.next s).decoder.Direct settings source := by
  induction feeds generalizing s with
  | nil => exact h
  | cons f rest ih => exact ih (h.feed f)

theorem run (h : settings.reorderWindow = 0) (feeds : List Feed) :
    (Session.run settings source feeds).decoder.Direct settings source :=
  foldl (new h) feeds

/-- A refused packet is counted, and so is its error, and nothing else is done. -/
theorem handle_refused (h : d.Direct settings source) (hp : p.Refused settings source e) :
    d.handle p = ({ d with toBooks := (d.counted.fail p e).1 }, [p.error e]) := by
  rw [handle_eq_process h.reorder]
  cases hp with
  | datagram hudp hopen =>
    rw [d.process_udp p hudp, h.settings, handleMessage_error hopen]
    rfl
  | transfer hrdma hread =>
    rw [d.process_rdma p hrdma, h.settings, h.source, handleRdma_error hread]
    rfl
  | message hrdma hread hopen =>
    rw [d.process_rdma p hrdma, h.settings, h.source, handleRdma_message hread,
      handleMessage_error hopen]
    rfl

end Decoder.Direct

/-! ## One packet and one error more -/

namespace Stats

/-- The counters but those of packets and errors. -/
def others (s : Stats) : Stats := { s with packets := 0, errors := [] }

/-- One packet and one error of this kind more were counted, and all else is the same. -/
structure OneMore (kind : String) (s s' : Stats) : Prop where
  packets : s.packets = s'.packets + 1
  errors : ∀ k, s.errorsOf k = s'.errorsOf k + if kind = k then 1 else 0
  others : s.others = s'.others

theorem errorsOf_countError (s : Stats) (e : DecodeError) (k : String) :
    (s.countError e).errorsOf k = s.errorsOf k + if e.fault.kind = k then 1 else 0 := by
  simpa [counter] using s.counter_countError e (.error k)

variable {tick : Stats → Stats}

/-- Nothing is read off the counters of packets and errors when another one is counted. -/
theorem Counting.others (h : Counting tick) (s : Stats) :
    (tick s).others = (tick s.others).others := by
  cases h with
  | packet => rfl
  | error e => rfl
  | pairing e => cases e <;> rfl
  | message direction => cases direction <;> rfl
  | peerError => rfl
  | gap => rfl

theorem OneMore.count {kind : String} {s s' : Stats} (h : OneMore kind s s')
    (hcount : Counting tick) : OneMore kind (tick s) (tick s') := by
  have hothers : (tick s).others = (tick s').others := by
    rw [hcount.others, h.others, ← hcount.others]
  obtain ⟨hpackets, herrors, -⟩ := h
  cases hcount with
  | packet => exact ⟨congrArg (· + 1) hpackets, herrors, hothers⟩
  | error e =>
    refine ⟨hpackets, fun k => ?_, hothers⟩
    rw [errorsOf_countError, errorsOf_countError, herrors]
    omega
  | pairing e => cases e <;> exact ⟨hpackets, herrors, hothers⟩
  | message direction => cases direction <;> exact ⟨hpackets, herrors, hothers⟩
  | peerError => exact ⟨hpackets, herrors, hothers⟩
  | gap => exact ⟨hpackets, herrors, hothers⟩

end Stats

namespace View

/-- All is looked at, and there is one packet and one error of this kind more on the one side. -/
def oneMore (kind : String) : View where
  message := id
  event := some
  stats := Stats.OneMore kind

variable {kind : String} {settings : DecoderSettings} {d d' : Decoder}

theorem oneMore_lawful (kind : String) : (oneMore kind).Lawful where
  seen _ := rfl
  flow _ := rfl
  xid _ := rfl
  direction _ := rfl
  call? _ := rfl
  event e := by cases e <;> rfl
  stats _ hcount _ _ h := h.count hcount

theorem told_oneMore (events : List Event) : (oneMore kind).told events = events :=
  List.filterMap_some

theorem follows_oneMore (kind : String) (settings : DecoderSettings) :
    (oneMore kind).Follows Eq settings where
  lawful := oneMore_lawful kind
  seq h := by rw [h]
  process hd hp := hp ▸ hd.process (oneMore_lawful kind) _

theorem Agree.eq_of_oneMore (h : (oneMore kind).Agree Eq settings d d') (hd : d.reorder = none) :
    d = { d' with stats := d.stats } := by
  have hmap (m : Matcher Message) : m.map id = m := by
    have hpending : (Pending.map id : Pending Message → Pending Message) = id := rfl
    simp [Matcher.map, hpending]
  have hcalls : d.matcher = d'.matcher :=
    (hmap d.matcher).symm.trans (h.books.calls.trans (hmap d'.matcher))
  have hreorder : d.reorder = d'.reorder := by
    rcases h.held_cases with ⟨hnone, hnone'⟩ | ⟨b, b', hsome, -, -⟩
    · rw [hnone, hnone']
    · rw [hd] at hsome
      cases hsome
  have hsettings : d.settings = d'.settings := h.left.trans h.right.symm
  have hsource := h.source
  have hstreams := h.streams
  obtain ⟨⟨m, stats⟩, settings, source, streams, reorder⟩ := d
  obtain ⟨⟨m', stats'⟩, settings', source', streams', reorder'⟩ := d'
  cases hcalls
  cases hreorder
  cases hsettings
  cases hsource
  cases hstreams
  rfl

end View

namespace Session

/-- The session, if this was told before. -/
def precededBy (s : Session) (past : List Event) : Session := { s with told := past ++ s.told }

/-- What was told before does not matter to what comes. -/
theorem foldl_precededBy (s : Session) (past : List Event) (feeds : List Feed) :
    feeds.foldl next (s.precededBy past) = (feeds.foldl next s).precededBy past := by
  induction feeds generalizing s with
  | nil => rfl
  | cons f rest ih =>
    have hnext : (s.precededBy past).next f = (s.next f).precededBy past := by
      simp only [next, precededBy, List.append_assoc]
    rw [List.foldl_cons, hnext, ih, List.foldl_cons]

theorem run_append (settings : DecoderSettings) (source : Rdma.ChunkSource)
    (before after : List Feed) :
    run settings source (before ++ after) = after.foldl next (run settings source before) :=
  List.foldl_append

variable {settings : DecoderSettings} {source : Rdma.ChunkSource} {s : Session} {p : Packet}
  {e : DecodeError}

/-- **A refused packet is told of, and nothing that comes after it can tell that it was there.** -/
theorem foldl_refused (hs : s.decoder.Direct settings source) (hp : p.Refused settings source e)
    (after : List Feed) :
    let t := (Feed.packet p :: after).foldl next s
    let t' := after.foldl next s
    ∃ later, t.told = s.told ++ [p.error e] ++ later ∧ t'.told = s.told ++ later ∧
      t.decoder = { t'.decoder with stats := t.decoder.stats } ∧
      Stats.OneMore e.fault.kind t.decoder.stats t'.decoder.stats ∧ t.dropped = t'.dropped := by
  intro t t'
  -- Both sessions, as if nothing had been told before the packets after the refused one.
  let u : Session := { s.next (.packet p) with told := [] }
  let u' : Session := { s with told := [] }
  have hhandle := hs.handle_refused hp
  have ht : t = (after.foldl next u).precededBy (s.told ++ [p.error e]) := by
    rw [← foldl_precededBy]
    show after.foldl next (s.next (.packet p)) = _
    simp only [u, precededBy, next, Decoder.feed, hhandle, List.append_nil]
  have ht' : t' = (after.foldl next u').precededBy s.told := by
    rw [← foldl_precededBy]
    simp only [t', u', precededBy, List.append_nil]
  have habreast : (View.oneMore e.fault.kind).Abreast Eq settings u u' := by
    have hdecoder : u.decoder = { s.decoder with toBooks := (s.decoder.counted.fail p e).1 } :=
      congrArg Prod.fst hhandle
    refine ⟨?_, rfl, rfl⟩
    rw [hdecoder]
    refine ⟨hs.settings, hs.settings, rfl, rfl, ?_, rfl, rfl, fun k => ?_, rfl⟩
    · show Option.Rel _ s.decoder.reorder s.decoder.reorder
      rw [hs.reorder]
      exact .none
    · exact Stats.errorsOf_countError s.decoder.counted.stats e k
  have hlast := (View.follows_oneMore e.fault.kind settings).foldl habreast
    (View.feedsAlike_refl (fun _ => rfl) after)
  have htold : (after.foldl next u).told = (after.foldl next u').told := by
    have hlooked := hlast.told
    rwa [View.told_oneMore, View.told_oneMore] at hlooked
  have hreorder : (after.foldl next u).decoder.reorder = none :=
    (Decoder.Direct.foldl (s := u) (hs.feed (.packet p)) after).reorder
  rw [ht, ht']
  exact ⟨(after.foldl next u').told, congrArg _ htold, rfl,
    hlast.decoder.eq_of_oneMore hreorder, hlast.decoder.books.stats, hlast.dropped⟩

end Session

/-! ## Other octets after the header -/

/-- The message, as if its body had not been read. -/
def Message.bodiless (m : Message) : Message := { m with body := none }

/-- The event, as if no body had been read. Errors and gaps are left out: a body that is read leads
to them. -/
def Event.bodiless? : Event → Option Event
  | .unresolved .. => none
  | .error .. => none
  | e => some (e.map .bodiless)

/-- The counters of messages and of pairings. -/
def Stats.bodiless (s : Stats) : Stats := { s with errors := [], unresolved := 0 }

/-- The packets are the same, or datagrams with the same header. -/
inductive Packet.SameHeader (strict : Bool) : Packet → Packet → Prop where
  | refl (p : Packet) : SameHeader strict p p
  | rebody {p : Packet} {payload : Bytes} (hudp : p.transport = .udp)
    (hheader : Rpc.decodeHeader payload strict = Rpc.decodeHeader p.payload strict) :
    SameHeader strict p { p with payload }

theorem Stats.Counting.bodiless {tick : Stats → Stats} (h : Counting tick) (s : Stats) :
    (tick s).bodiless = (tick s.bodiless).bodiless := by
  cases h with
  | packet => rfl
  | error e => rfl
  | pairing e => cases e <;> rfl
  | message direction => cases direction <;> rfl
  | peerError => rfl
  | gap => rfl

/-- Whatever follows a header, it is read as the same. -/
theorem Rpc.decodeHeader_append {input : Bytes} {strict : Bool} {header : Rpc.Header}
    (h : decodeHeader input strict = .ok header) (s : Bytes) :
    decodeHeader (input ++ s) strict = .ok header := by
  obtain ⟨hmore, -⟩ := Shape.decode_more message { strict } input 0 (Nat.zero_le _)
  unfold decodeHeader at h ⊢
  cases hread : message.decode { strict } (Cursor.at input 0) with
  | error e c =>
    rw [hread] at h
    cases h
  | ok record c =>
    obtain ⟨c', hread', hoffset⟩ := hmore record c hread s
    rw [hread] at h
    rw [hread']
    dsimp only at h ⊢
    rw [hoffset]
    exact h

/-- A datagram has no transport header to be checked against. -/
theorem openMessage_datagram (s : DecoderSettings) (stream : Bytes) :
    openMessage s stream none = Rpc.decodeHeader stream s.strictEnums := by
  unfold openMessage
  cases Rpc.decodeHeader stream s.strictEnums <;> rfl

namespace View

/-- Bodies are not looked at, nor is what reading them leads to. -/
def headers : View where
  message := .bodiless
  event := Event.bodiless?
  stats s s' := s.bodiless = s'.bodiless

theorem headers_lawful : headers.Lawful where
  seen _ := rfl
  flow _ := rfl
  xid _ := rfl
  direction _ := rfl
  call? _ := rfl
  event e := by cases e <;> rfl
  stats tick htick s s' h := by
    show (tick s).bodiless = (tick s').bodiless
    rw [htick.bodiless, show s.bodiless = s'.bodiless from h, ← htick.bodiless]

variable {b b' : Books} {p : Packet} {payload : Bytes} {settings : DecoderSettings}
  {d d' : Decoder}

/-! What comes of a body, read or not, is not looked at. -/

theorem told_accept (b : Books) (p : Packet) (result : Except DecodeError (Option Rpc.Body)) :
    headers.told (b.accept p result).2.1 = [] := by
  cases result <;> rfl

theorem told_lack (b : Books) (p : Packet) (xid : UInt32) (refs : List ChunkRef) :
    headers.told (b.lack p xid refs).2 = [] := by
  induction refs generalizing b with
  | nil => rfl
  | cons ref rest ih => exact ih _

theorem bodiless_accept (b : Books) (p : Packet)
    (result : Except DecodeError (Option Rpc.Body)) :
    (b.accept p result).1.stats.bodiless = b.stats.bodiless := by
  cases result <;> rfl

theorem bodiless_lack (b : Books) (p : Packet) (xid : UInt32) (refs : List ChunkRef) :
    (b.lack p xid refs).1.stats.bodiless = b.stats.bodiless := by
  induction refs generalizing b with
  | nil => rfl
  | cons ref rest ih => exact ih _

/-- **A message is paired by its header**, whatever came of its body. -/
theorem Alike.report_bodiless (h : headers.Alike b b') (p : Packet) (header : Rpc.Header)
    (rdma : Option Rdma.Header) (payload : Bytes)
    (result result' : Except DecodeError (Option Rpc.Body)) :
    headers.Same (b.report p header rdma result)
      (b'.report { p with payload } header rdma result') := by
  unfold Books.report
  dsimp only
  let taken := b.accept p result
  let taken' := b'.accept { p with payload } result'
  let gaps := taken.1.lack p header.xid (missingOf taken.2.2)
  let gaps' := taken'.1.lack { p with payload } header.xid (missingOf taken'.2.2)
  -- Errors and gaps are told and counted, and the matcher hears nothing of them.
  have hgaps : headers.Alike gaps.1 gaps'.1 := by
    refine ⟨?_, ?_⟩
    · rw [Books.matcher_lack, Books.matcher_lack, Books.matcher_accept, Books.matcher_accept]
      exact h.calls
    · show gaps.1.stats.bodiless = gaps'.1.stats.bodiless
      rw [bodiless_lack, bodiless_lack, bodiless_accept, bodiless_accept]
      exact h.stats
  have hpaired := hgaps.track headers_lawful (.ofHeader p header rdma taken.2.2)
    (.ofHeader { p with payload } header rdma taken'.2.2) rfl
  refine ⟨told_congr (told_congr ?_ rfl) hpaired.told, hpaired.books⟩
  rw [told_append, told_append, told_accept, told_accept, told_lack, told_lack]

/-- A datagram is handled alike if only what follows the header is another. -/
theorem Agree.process_rebody {R : Packet → Packet → Prop} (h : headers.Agree R settings d d')
    (hudp : p.transport = .udp)
    (hheader : Rpc.decodeHeader payload settings.strictEnums =
      Rpc.decodeHeader p.payload settings.strictEnums) :
    headers.Steps R settings (d.process p) (d'.process { p with payload }) := by
  suffices hsame : headers.Same (handleMessage settings d.counted p p.payload none none)
      (handleMessage settings d'.counted { p with payload } payload none none) by
    rw [d.process_udp p hudp, d'.process_udp { p with payload } hudp, h.left, h.right]
    exact ⟨hsame.told, rfl, rfl, h.source, h.streams, h.held, hsame.books⟩
  have hcounted := h.counted headers_lawful
  -- The header is read as the same, so both are refused or both go on to their bodies.
  have hopen' : openMessage settings payload none = openMessage settings p.payload none := by
    rw [openMessage_datagram, openMessage_datagram, hheader]
  cases hopen : openMessage settings p.payload none with
  | error e =>
    rw [handleMessage_error hopen, handleMessage_error (hopen'.trans hopen)]
    exact ⟨rfl, hcounted.count headers_lawful (.error e)⟩
  | ok header =>
    rw [handleMessage_report hopen, handleMessage_report (hopen'.trans hopen)]
    have hmessage : headers.Alike (d.counted.countMessage header.direction)
        (d'.counted.countMessage header.direction) :=
      hcounted.count headers_lawful (.message header.direction)
    have hread := hmessage.messageBody settings p header p.payload payload none none headers_lawful
      (show p.seen = Packet.seen { p with payload } from rfl)
    have hreport := hread.books.report_bodiless p header none payload
      (NfsWire.messageBody settings (d.counted.countMessage header.direction) p header p.payload
        none).2.2
      (NfsWire.messageBody settings (d'.counted.countMessage header.direction) { p with payload }
        header payload none).2.2
    exact ⟨told_congr hread.told hreport.told, hreport.books⟩

theorem follows_headers (settings : DecoderSettings) :
    headers.Follows (Packet.SameHeader settings.strictEnums) settings where
  lawful := headers_lawful
  seq hp := by cases hp <;> rfl
  process hd hp := by
    cases hp with
    | refl => exact hd.process headers_lawful _
    | rebody hudp hheader => exact hd.process_rebody hudp hheader

end View

/-- **Datagrams that share their headers are paired alike**, in whatever order packets are handled
and however many datagrams are exchanged for others. -/
theorem Session.run_sameHeader (settings : DecoderSettings) (source : Rdma.ChunkSource)
    {feeds feeds' : List Feed}
    (h : List.Forall₂ (View.FeedsAlike (Packet.SameHeader settings.strictEnums)) feeds feeds') :
    View.headers.Abreast (Packet.SameHeader settings.strictEnums) settings
      (run settings source feeds) (run settings source feeds') :=
  (View.follows_headers settings).foldl
    ⟨.refl (fun _ => rfl) .refl (.new settings source), rfl, rfl⟩ h

/-! ## Both -/

/-- **Errors are local.** When packets are handled as they come, a packet that is refused in
reassembly, for its header or for its transaction id is told of as one error, and all that follows
is as if it had not been there: what is told, the calls that wait, the streams and the counters, but
for that of packets and that of the error.

With any other octets after the header of a datagram, as long as the header is read as the same
(and it is if its own octets stay, by `Rpc.decodeHeader_append`), all that is told is the same but
for bodies and for errors and gaps. So are the calls that wait, the streams, and the counters of
messages and pairings. Thus no call and no reply is lost or paired with another one because a body
cannot be read. -/
theorem errors_local (settings : DecoderSettings) (source : Rdma.ChunkSource)
    (before after : List Feed) (p : Packet) :
    (∀ e, settings.reorderWindow = 0 → p.Refused settings source e →
      let s₀ := Session.run settings source before
      let s := Session.run settings source (before ++ .packet p :: after)
      let s' := Session.run settings source (before ++ after)
      (s₀.decoder.feed (.packet p)).2 = [p.error e] ∧
        ∃ later, s.told = s₀.told ++ [p.error e] ++ later ∧ s'.told = s₀.told ++ later ∧
          s.decoder = { s'.decoder with stats := s.decoder.stats } ∧
          Stats.OneMore e.fault.kind s.decoder.stats s'.decoder.stats ∧
          s.dropped = s'.dropped) ∧
      ∀ payload, p.transport = .udp →
        Rpc.decodeHeader payload settings.strictEnums =
          Rpc.decodeHeader p.payload settings.strictEnums →
        let s := Session.run settings source (before ++ .packet p :: after)
        let s' := Session.run settings source (before ++ .packet { p with payload } :: after)
        s.told.filterMap Event.bodiless? = s'.told.filterMap Event.bodiless? ∧
          s.decoder.matcher.map Message.bodiless = s'.decoder.matcher.map Message.bodiless ∧
          s.decoder.streams = s'.decoder.streams ∧
          s.decoder.stats.bodiless = s'.decoder.stats.bodiless ∧ s.dropped = s'.dropped := by
  refine ⟨fun e hwindow hp => ?_, fun payload hudp hheader => ?_⟩
  · have hdirect : (Session.run settings source before).decoder.Direct settings source :=
      .run hwindow before
    refine ⟨congrArg Prod.snd (hdirect.handle_refused hp), ?_⟩
    rw [Session.run_append, Session.run_append]
    exact Session.foldl_refused hdirect hp after
  · have hfeeds : List.Forall₂ (View.FeedsAlike (Packet.SameHeader settings.strictEnums))
        (before ++ .packet p :: after) (before ++ .packet { p with payload } :: after) :=
      List.rel_append (View.feedsAlike_refl .refl before)
        (.cons (.packet (.rebody hudp hheader)) (View.feedsAlike_refl .refl after))
    have hlast := Session.run_sameHeader settings source hfeeds
    exact ⟨hlast.told, hlast.decoder.books.calls, hlast.decoder.streams, hlast.decoder.books.stats,
      hlast.dropped⟩

/-- A call, three octets that are no message, and the reply. The handle of the call may as well be
cut off. -/
theorem errors_local_getattr :
    let client : Endpoint := ⟨.v4 1, 800⟩
    let server : Endpoint := ⟨.v4 3, 2049⟩
    let header : Bytes := [7, 0, 2, 100003, 3, 1, 0, 0, 0, 0].flatMap Bytes.word
    let call (handle : List UInt32) : Packet :=
      ⟨⟨1, none⟩, client, server, .udp, header ++ handle.flatMap Bytes.word⟩
    let cut : Packet := ⟨⟨2, none⟩, client, server, .udp, [0, 0, 0]⟩
    let reply : Packet := ⟨⟨3, none⟩, server, client, .udp,
      [7, 1, 0, 0, 0, 0, 70].flatMap Bytes.word⟩
    let run (packets : List Packet) := Session.run {} (fun _ _ _ => none) (packets.map .packet)
    (run [call [4, 1], cut, reply]).told.map Event.name =
        ["message", "error", "message", "matched"] ∧
      (run [call [4, 1], cut, reply]).decoder.matcher = (run [call [4, 1], reply]).decoder.matcher ∧
      (run [call [9], reply]).told.map Event.name = ["error", "message", "message", "matched"] ∧
      (run [call [4, 1], reply]).told.filterMap Event.bodiless? =
        (run [call [9], reply]).told.filterMap Event.bodiless? := by
  intro client server header call cut reply run
  have hcut : cut.Refused {} (fun _ _ _ => none)
      { protocol := some .rpc, fault := .truncated 1, path := [.name "xid"], offset := 0 } :=
    .datagram rfl rfl
  have hsame : Rpc.decodeHeader (call [9]).payload false =
      Rpc.decodeHeader (call [4, 1]).payload false := by
    have hread : (Rpc.decodeHeader header false).isOk = true := by decide +kernel
    cases hheader : Rpc.decodeHeader header false with
    | error e =>
      rw [hheader] at hread
      cases hread
    | ok h =>
      exact (Rpc.decodeHeader_append hheader _).trans (Rpc.decodeHeader_append hheader _).symm
  obtain ⟨hrefused, -⟩ := errors_local {} (fun _ _ _ => none) [.packet (call [4, 1])]
    [.packet reply] cut
  obtain ⟨-, hbodies⟩ := errors_local {} (fun _ _ _ => none) [] [.packet reply] (call [4, 1])
  obtain ⟨-, later, -, -, hdecoder, -, -⟩ := hrefused _ rfl hcut
  obtain ⟨htold, -⟩ := hbodies (call [9]).payload rfl hsame
  exact ⟨by decide +kernel, congrArg (·.matcher) hdecoder, by decide +kernel, htold⟩

end NfsWire
