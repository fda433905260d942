import Mathlib.Data.List.Forall2
import NfsWire.Proofs.Capture.Arrival
import NfsWire.Proofs.Capture.Balance
import NfsWire.Proofs.Capture.Reachable
import NfsWire.Proofs.Lists
import NfsWire.Proofs.Rpc.Framing

/-!
# Unfinished records, and the end of the capture

At the end of a capture the streams are gone through once, and one in which a whole record stood
would be passed over without a word. There is none: `handleRecords` stops when nothing is left, when
the boundaries of records are lost, or when the next record is unfinished, and only in the last case
anything is kept. So whatever is kept of a stream is the beginning of one record
(`Rpc.Unfinished`), and its fragments are no longer than a record may be.

That holds of every state that a capture leads to, errors and earlier ends included
(`Reachable.tidy`). It holds in particular after the packets that were still held, and so the end
of the capture tells of each stream that is left, in the order of the streams; then the waiting
calls are settled, and nothing is left for a second end.
-/

namespace NfsWire

/-! ## Unfinished records -/

namespace Rpc

/-- Octets of the fragments of the first record, as far as they are there. -/
def heldPayload (input : Bytes) : Nat :=
  match _ : RecordMark.read input with
  | .error _ => 0
  | .ok (mark, rest) =>
    if rest.length < mark.length then rest.length
    else if mark.last then mark.length
    else mark.length + heldPayload (rest.drop mark.length)
termination_by input.length
decreasing_by
  have := RecordMark.length_of_read ‹RecordMark.read input = _›
  simp only [List.length_drop]
  omega

/-- The beginning of a record that is to be waited for. -/
structure Unfinished (max : Nat) (data : Bytes) : Prop where
  nonempty : data ≠ []
  truncated : ∃ n, readRecord data max = .error (framingError (.truncated n) data.length)
  payload : heldPayload data ≤ max

/-- Where no mark exceeds the limit, what is there does not. -/
theorem heldPayload_le {max : Nat} {data : Bytes} {total offset : Nat}
    (h : overrunFrom? max data total offset = none) (htotal : total ≤ max) :
    total + heldPayload data ≤ max := by
  rw [heldPayload]
  split
  · exact htotal
  next mark rest hread =>
    rw [overrunFrom?_mark hread] at h
    have hlength := RecordMark.length_of_read hread
    split at h
    · cases h
    next hwithin =>
      split
      · omega
      next hcomplete =>
        split
        · omega
        next hlast =>
          rw [if_neg (by simp [hlast, hcomplete])] at h
          have hrest := heldPayload_le h (Nat.le_of_not_lt hwithin)
          omega
termination_by data.length
decreasing_by
  simp only [List.length_drop]
  omega

theorem unfinished_of_truncated {max : Nat} {data : Bytes} (hdata : data ≠ []) 
    {e : DecodeError} (h : readRecord data max = .error e) (he : e.fault.isTruncated = true) :
    Unfinished max data := by
  unfold readRecord at h
  split at h
  · cases h
    cases he
  next hnone =>
    have hpayload := heldPayload_le hnone (Nat.zero_le max)
    rw [Nat.zero_add] at hpayload
    split at h
    · cases h
    next n hsplit => exact ⟨hdata, ⟨n, by simp [readRecord, hnone, hsplit]⟩, hpayload⟩

end Rpc

/-- What the records of a stream leave is nothing, or unfinished. -/
theorem unfinished_harvest (max used : Nat) (data : Bytes) (h : (harvest max used data).rest ≠ []) :
    Rpc.Unfinished max (harvest max used data).rest := by
  by_cases hdata : data = []
  · subst hdata
    rw [harvest_nil] at h
    exact absurd rfl h
  · cases hread : Rpc.readRecord data max with
    | ok read =>
      have hused := Rpc.used_of_readRecord hread
      rw [harvest_record hread] at h ⊢
      exact unfinished_harvest max (used + read.2) (data.drop read.2) h
    | error e =>
      rw [harvest_error hdata hread] at h ⊢
      split at h
      next he =>
        rw [if_pos he]
        exact Rpc.unfinished_of_truncated hdata hread he
      next => exact absurd rfl h
termination_by data.length
decreasing_by
  simp only [List.length_drop]
  omega

/-! ## The streams of a decoder -/

namespace Streams

/-- Each stream is there once, with an unfinished record. -/
structure Tidy (s : Streams) (max : Nat) : Prop where
  distinct : (s.map (·.1)).Nodup
  unfinished : ∀ stream ∈ s, Rpc.Unfinished max stream.2

variable {s : Streams} {max : Nat} {key : StreamKey} {data : Bytes}

theorem Tidy.set (h : s.Tidy max) (hdata : data ≠ [] → Rpc.Unfinished max data) :
    (s.set key data).Tidy max := by
  have hothers : Tidy (List.filter (·.1 != key) s) max :=
    ⟨h.distinct.sublist (List.filter_sublist.map _),
      fun stream hstream => h.unfinished stream (List.mem_filter.mp hstream).1⟩
  have hgone : key ∉ (List.filter (·.1 != key) s).map (·.1) := by
    simp
  unfold Streams.set
  dsimp only
  split
  · exact hothers
  next hsome =>
    have hne : data ≠ [] := by simpa using hsome
    refine ⟨?_, fun stream hstream => ?_⟩
    · rw [List.map_append, List.nodup_append]
      refine ⟨hothers.distinct, by simp, fun a ha b hb => ?_⟩
      rw [List.mem_singleton.mp hb]
      rintro rfl
      exact hgone ha
    · rcases List.mem_append.mp hstream with hold | hnew
      · exact hothers.unfinished stream hold
      · rw [List.mem_singleton.mp hnew]
        exact hdata hne

/-- The order of streams: by sender, then by receiver. -/
def Before (a b : StreamKey × Bytes) : Prop :=
  lexLe (a.1.1.orderKey ++ a.1.2.orderKey) (b.1.1.orderKey ++ b.1.2.orderKey) = true

end Streams

theorem lexLe_trans {a b c : List Nat} (hab : lexLe a b = true) (hbc : lexLe b c = true) :
    lexLe a c = true := by
  induction a generalizing b c with
  | nil => rfl
  | cons x xs ih =>
    cases b with
    | nil => cases hab
    | cons y ys =>
      cases c with
      | nil => cases hbc
      | cons z zs =>
        simp only [lexLe, Bool.or_eq_true, Bool.and_eq_true, decide_eq_true_eq, beq_iff_eq] at *
        rcases hab with hxy | ⟨rfl, hab⟩
        · exact .inl (by omega)
        · rcases hbc with hxz | ⟨rfl, hbc⟩
          · exact .inl hxz
          · exact .inr ⟨rfl, ih hab hbc⟩

theorem lexLe_total (a b : List Nat) : (lexLe a b || lexLe b a) = true := by
  induction a generalizing b with
  | nil => rfl
  | cons x xs ih =>
    cases b with
    | nil => rfl
    | cons y ys =>
      have htail := ih ys
      simp only [lexLe, Bool.or_eq_true, Bool.and_eq_true, decide_eq_true_eq, beq_iff_eq] at *
      rcases Nat.lt_trichotomy x y with hlt | rfl | hlt
      · exact .inl (.inl hlt)
      · exact htail.imp (fun h => .inr ⟨rfl, h⟩) (fun h => .inr ⟨rfl, h⟩)
      · exact .inr (.inl hlt)

theorem Streams.sorted_pairwise (s : Streams) : s.sorted.Pairwise Before := by
  let le (a b : StreamKey × Bytes) : Bool :=
    lexLe (a.1.1.orderKey ++ a.1.2.orderKey) (b.1.1.orderKey ++ b.1.2.orderKey)
  have htrans (a b c : StreamKey × Bytes) (hab : le a b = true) (hbc : le b c = true) :
      le a c = true := lexLe_trans hab hbc
  have htotal (a b : StreamKey × Bytes) : (le a b || le b a) = true := lexLe_total ..
  exact List.pairwise_mergeSort htrans htotal s

/-! ## Reachable decoders -/

namespace Decoder.Reachable

variable {settings : DecoderSettings} {source : Rdma.ChunkSource} {d : Decoder}

theorem configured (h : d.Reachable settings source) : d.settings = settings := by
  induction h with
  | new => rfl
  | held buffer _ ih => exact ih
  | @process d p _ ih => exact (d.settings_process p).trans ih
  | @finish d _ ih => exact d.settings_release.trans ih

theorem balanced (h : d.Reachable settings source) :
    ∃ dropped, d.toBooks.Balanced settings.matcher dropped none := by
  induction h with
  | new => exact ⟨0, .new settings.matcher⟩
  | held buffer _ ih => exact ih
  | process p _ ih =>
    obtain ⟨dropped, hbalanced⟩ := ih
    exact ⟨dropped, (process_keeps hbalanced p).balanced⟩
  | finish _ ih =>
    obtain ⟨dropped, hbalanced⟩ := ih
    exact ⟨_, (finish_keeps hbalanced).balanced⟩

theorem release (h : d.Reachable settings source) : d.release.1.Reachable settings source := by
  unfold Decoder.release
  cases d.reorder with
  | none => exact h
  | some buffer => exact (h.held buffer.flush.1).processAll _

/-- **Only unfinished records are kept.** -/
theorem tidy (h : d.Reachable settings source) : d.streams.Tidy settings.maxRecord := by
  induction h with
  | new => exact ⟨List.nodup_nil, nofun⟩
  | held buffer _ ih => exact ih
  | @process d p hd ih =>
    cases htransport : p.transport with
    | udp =>
      rw [d.process_udp p htransport]
      exact ih
    | rdma =>
      rw [d.process_rdma p htransport]
      exact ih
    | tcp =>
      rw [d.process_tcp p htransport, handleRecords_eq, hd.configured]
      exact ih.set fun hrest => unfinished_harvest _ _ _ hrest
  | finish _ _ => exact ⟨List.nodup_nil, nofun⟩

end Decoder.Reachable

/-! ## What the end tells -/

/-- The report of a stream that ends in the middle of a record. -/
def Dangling (max : Nat) (stream : StreamKey × Bytes) (told : Event) : Prop :=
  ∃ n, Rpc.readRecord stream.2 max =
      .error (Rpc.framingError (.truncated n) stream.2.length) ∧
    told = .error 0 stream.1.1 stream.1.2 .tcp
      (Rpc.framingError (.truncated n) stream.2.length)

namespace Books

theorem failDangling_told (b : Books) {max : Nat} {streams : Streams}
    (h : ∀ stream ∈ streams, Rpc.Unfinished max stream.2) :
    List.Forall₂ (Dangling max) streams (b.failDangling max streams).2 := by
  induction streams generalizing b with
  | nil => exact .nil
  | cons stream rest ih =>
    obtain ⟨n, hread⟩ := (h stream List.mem_cons_self).truncated
    unfold failDangling
    rw [hread]
    exact .cons ⟨n, hread, rfl⟩ (ih _ fun later hlater => h later (List.mem_cons_of_mem _ hlater))

/-- The calls that wait at the end, as they are told. -/
def leftOver (b : Books) : List Event :=
  if b.matcher.settings.flushOnFinish then
    (b.matcher.waiting.mergeSort fun a c => a.2.seen.seq ≤ c.2.seen.seq).map fun c =>
      .timeout c.2.call c.2.retransmissions
  else []

theorem settle_timeouts (b : Books) (gone : List (Flow × Pending Message)) :
    (b.settle none (gone.map fun c => .timeout c.1 c.2)).2 =
      gone.map fun c => .timeout c.2.call c.2.retransmissions := by
  induction gone generalizing b with
  | nil => rfl
  | cons c rest ih =>
    rw [List.map_cons, settle_cons, List.map_cons]
    exact congrArg (_ :: ·) (ih _)

theorem close_told (b : Books) : b.close.2 = b.leftOver := by
  show (settle _ none b.matcher.finish.2).2 = _
  unfold leftOver Matcher.finish
  split
  · exact settle_timeouts ..
  · rfl

theorem matcher_close (b : Books) : b.close.1.matcher = .new b.matcher.settings :=
  congrArg Books.matcher (settle_fst ..)

theorem length_leftOver {b : Books} {settings : MatcherSettings} {dropped : Nat}
    (h : b.Balanced settings dropped none) :
    b.leftOver.length = if settings.flushOnFinish then b.matcher.length else 0 := by
  unfold leftOver
  rw [h.settings]
  split
  · rw [List.length_map, List.length_mergeSort]
    exact h.wellFormed.pending.symm
  · rfl

end Books

/-! ## The end of the capture -/

namespace Decoder

variable {settings : DecoderSettings} {source : Rdma.ChunkSource} {d : Decoder}

/-- Nothing is held, no record is unfinished, and no call waits. -/
structure Settled (d : Decoder) : Prop where
  streams : d.streams = []
  held : ∀ buffer, d.reorder = some buffer → buffer.held = []
  matcher : d.matcher = .new d.matcher.settings

theorem Settled.release_eq (h : d.Settled) : d.release = (d, []) := by
  unfold release
  cases hreorder : d.reorder with
  | none => rfl
  | some buffer =>
    have hheld := h.held buffer hreorder
    obtain ⟨next, held, window⟩ := buffer
    subst hheld
    show ({ d with reorder := some ⟨next, [], window⟩ }, []) = (d, [])
    rw [← hreorder]

/-- **A settled decoder is left as it is by the end of a capture.** -/
theorem Settled.finish_eq (h : d.Settled) : d.finish = (d, []) := by
  have hdangling : d.toBooks.failDangling d.settings.maxRecord d.streams.sorted =
      (d.toBooks, []) := by
    rw [h.streams, Streams.sorted, List.mergeSort_nil]
    rfl
  have hclose : d.toBooks.close = (d.toBooks, []) := by
    show Books.settle { d.toBooks with matcher := .new d.matcher.settings } none
      d.matcher.finish.2 = _
    have htold : d.matcher.finish.2 = [] := by
      rw [h.matcher]
      simp [Matcher.finish, Matcher.new, Matcher.waiting]
    rw [htold, ← h.matcher]
    rfl
  unfold finish
  simp only [h.release_eq, hdangling, hclose, List.append_nil, ← h.streams]

theorem settled_finish (d : Decoder) : d.finish.1.Settled where
  streams := rfl
  held := by
    intro buffer hbuffer
    have hreorder : d.release.1.reorder = some buffer := hbuffer
    unfold release at hreorder
    cases hd : d.reorder with
    | none =>
      rw [hd] at hreorder
      simp only [hd] at hreorder
      cases hreorder
    | some before =>
      rw [hd] at hreorder
      have hflushed := (reorder_processAll _ _).symm.trans hreorder
      cases hflushed
      rfl
  matcher := by
    show (Books.close _).1.matcher = .new (Books.close _).1.matcher.settings
    rw [Books.matcher_close]
    rfl

/-- **Streams keep unfinished records only, and the end of the capture settles everything.** After
the packets that were still held, it tells of each stream that is left that octets of its record are
missing, in the order of the streams, and then of the calls that wait. Nothing of all this is left,
so that a second end tells nothing and changes nothing. -/
theorem finish_settles (h : d.Reachable settings source) :
    d.streams.Tidy settings.maxRecord ∧
    d.release.1.streams.Tidy settings.maxRecord ∧
    (∃ dangling, d.finish.2 = d.release.2 ++ dangling ++ d.release.1.leftOver ∧
      List.Forall₂ (Dangling settings.maxRecord) d.release.1.streams.sorted dangling) ∧
    d.release.1.streams.sorted.Perm d.release.1.streams ∧
    d.release.1.streams.sorted.Pairwise Streams.Before ∧
    d.release.1.leftOver.length =
      (if settings.matcher.flushOnFinish then d.release.1.pending else 0) ∧
    d.finish.1.streams = [] ∧
    (∀ buffer, d.finish.1.reorder = some buffer → buffer.held = []) ∧
    d.finish.1.pending = 0 ∧ d.finish.1.matcher.waiting = [] ∧
    d.finish.1.finish = (d.finish.1, []) := by
  have hsettled := d.settled_finish
  have hreleased := h.release
  have htidy := hreleased.tidy
  have hsorted : d.release.1.streams.sorted.Perm d.release.1.streams := List.mergeSort_perm ..
  obtain ⟨dropped, hbalanced⟩ := hreleased.balanced
  refine ⟨h.tidy, htidy, ?_, hsorted, d.release.1.streams.sorted_pairwise,
    Books.length_leftOver hbalanced, rfl, hsettled.held, ?_, ?_, hsettled.finish_eq⟩
  · have hunfinished : ∀ stream ∈ d.release.1.streams.sorted,
        Rpc.Unfinished settings.maxRecord stream.2 :=
      fun stream hstream => htidy.unfinished stream (hsorted.mem_iff.mp hstream)
    refine ⟨(d.release.1.failDangling settings.maxRecord d.release.1.streams.sorted).2, ?_,
      d.release.1.failDangling_told hunfinished⟩
    show d.release.2 ++ (d.release.1.failDangling d.release.1.settings.maxRecord _).2 ++
      (Books.close _).2 = _
    rw [hreleased.configured, Books.close_told, Books.leftOver, Books.matcher_failDangling]
    rfl
  · show d.finish.1.matcher.length = 0
    rw [hsettled.matcher]
    rfl
  · rw [hsettled.matcher]
    rfl

/-- Of a record there is one octet of its mark. -/
theorem finish_settles_octet :
    let piece : Packet := ⟨⟨1, none⟩, default, default, .tcp, [0x80]⟩
    let d := ((Decoder.new {} fun _ _ _ => none).process piece).1
    d.streams = [((default, default), [0x80])] ∧
      d.finish.2 = [.error 0 default default .tcp (Rpc.framingError (.truncated 4) 1)] := by
  intro piece d
  have hmark : Rpc.RecordMark.read [0x80] = .error 4 := rfl
  have hread : Rpc.readRecord [0x80] 1048576 = .error (Rpc.framingError (.truncated 4) 1) := by
    simp [Rpc.readRecord, Rpc.overrun?, Rpc.overrunFrom?_error hmark, Rpc.splitRecord_error hmark]
  have hharvest : harvest 1048576 0 [0x80] = ⟨[], [0x80], none⟩ := by
    rw [harvest_error (by simp) hread]
    rfl
  have hd : d = { Decoder.new {} (fun _ _ _ => none) with
      toBooks := (Decoder.new {} fun _ _ _ => none).counted
      streams := [((default, default), [0x80])] } := by
    show (Decoder.process _ piece).1 = _
    rw [process_tcp _ piece rfl, handleRecords_eq]
    show ({ Decoder.new {} (fun _ _ _ => none) with
      toBooks := ((handleEach {} _ piece (harvest 1048576 0 [0x80]).records).1.lose piece
        (harvest 1048576 0 [0x80]).broken).1
      streams := Streams.set [] (default, default) (harvest 1048576 0 [0x80]).rest } : Decoder) = _
    rw [hharvest]
    rfl
  obtain ⟨-, -, ⟨dangling, htold, hdangling⟩, -⟩ :=
    finish_settles (d := d) (.process piece .new)
  have hrelease : d.release = (d, []) := by
    rw [hd]
    rfl
  have hleft : d.leftOver = [] := by
    rw [hd]
    simp [Books.leftOver, Decoder.counted, Decoder.new, Matcher.new, Matcher.waiting]
  have hstreams : d.streams = [((default, default), [0x80])] := by rw [hd]
  refine ⟨hstreams, ?_⟩
  change d.finish.2 = d.release.2 ++ dangling ++ d.release.1.leftOver at htold
  change List.Forall₂ _ d.release.1.streams.sorted dangling at hdangling
  rw [hrelease] at htold hdangling
  rw [hstreams, Streams.sorted, List.mergeSort_singleton] at hdangling
  obtain _ | ⟨⟨n, hn, rfl⟩, _ | _⟩ := hdangling
  cases hread.symm.trans hn
  rw [htold, hleft]
  rfl

end Decoder

end NfsWire
