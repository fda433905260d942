import NfsWire.Proofs.Capture.Delivery
import NfsWire.Proofs.Rpc.Marks

/-!
# One stream, cut in two ways

A byte stream comes in packets, and where it is cut is up to the network. What the decoder takes
off it are records, and now and then the fault at which the boundaries of records are lost
(`Delivery`).

* Up to the first fault the cuts do not matter. A record is taken off when its last octet has come,
  whatever comes with it, and a mark beyond the limit is refused when it has come
  (`harvest_append`, `harvest_append_broken`).
* At a fault the decoder drops what it has of the stream, the whole packet included, and starts
  afresh with the next packet. So what follows depends on how much of the stream had come by then,
  and on nothing else.

Two ways to cut a stream therefore give the same, unless some packet that ends with a fault ends
elsewhere in the other (`cuts_agree`).
-/

namespace NfsWire

/-! ## More of a record -/

namespace Rpc

section More

variable {a : Bytes} {max : Nat}

theorem RecordMark.read_append {mark : RecordMark} {rest : Bytes}
    (h : RecordMark.read a = .ok (mark, rest)) (b : Bytes) :
    RecordMark.read (a ++ b) = .ok (mark, rest ++ b) := by
  obtain ⟨hlength, rfl⟩ := RecordMark.read_ok_iff.mp h
  rw [List.append_assoc]
  exact RecordMark.read_word hlength _

/-- A record that is there is read whatever comes behind it. -/
theorem readRecord_append {record : Bytes} {n : Nat} (h : readRecord a max = .ok (record, n))
    (b : Bytes) : readRecord (a ++ b) max = .ok (record, n) := by
  obtain ⟨hinside, hsplit, hfits⟩ := readRecord_ok_iff.mp h
  obtain ⟨fragments, hfragments, ha, rfl⟩ := splitRecord_ok_iff.mp hsplit
  refine readRecord_ok_iff.mpr ⟨?_, ?_, hfits⟩
  · rw [List.length_append]
    exact Nat.le_add_right_of_le hinside
  · rw [List.drop_append_of_le_length hinside]
    conv in a ++ b => rw [ha, List.append_assoc]
    exact splitRecord_frame hfragments _

/-- A mark beyond the limit stays the first one. -/
theorem overrunFrom?_append {a : Bytes} {total offset : Nat} {found : Nat × Nat}
    (h : overrunFrom? max a total offset = some found) (b : Bytes) :
    overrunFrom? max (a ++ b) total offset = some found := by
  cases hread : RecordMark.read a with
  | error n =>
    rw [overrunFrom?_error hread] at h
    cases h
  | ok read =>
    obtain ⟨mark, rest⟩ := read
    rw [overrunFrom?_mark hread] at h
    rw [overrunFrom?_mark (RecordMark.read_append hread b)]
    split at h
    next hexcess => rwa [if_pos hexcess]
    next hwithin =>
      rw [if_neg hwithin]
      split at h
      next => cases h
      next hmore =>
        obtain ⟨hlast, hthere⟩ := not_or.mp hmore
        have hmore' : ¬ (mark.last = true ∨ (rest ++ b).length < mark.length) := by
          rw [List.length_append]
          exact not_or.mpr ⟨hlast, by omega⟩
        rw [if_neg hmore', List.drop_append_of_le_length (Nat.le_of_not_lt hthere)]
        exact overrunFrom?_append h b
termination_by a.length
decreasing_by
  have := RecordMark.length_of_read hread
  simp only [List.length_drop]
  omega

theorem readRecord_append_error {e : DecodeError} (h : readRecord a max = .error e)
    (hfinal : e.fault.isTruncated = false) (b : Bytes) : readRecord (a ++ b) max = .error e := by
  unfold readRecord at h
  split at h
  next total offset hsome =>
    simp only [readRecord, overrun?, overrunFrom?_append hsome b]
    exact h
  next =>
    split at h
    · cases h
    · cases h
      cases hfinal

end More

end Rpc

/-! ## More of a stream -/

section Harvest

variable {max : Nat}

/-- The fault at which the boundaries of records were lost. -/
def Harvest.fault? (h : Harvest) : Option Fault := h.broken.map (·.fault)

/-- Two harvests alike but for the offset of the error. -/
def Harvest.Like (h h' : Harvest) : Prop :=
  h.records = h'.records ∧ h.rest = h'.rest ∧ h.fault? = h'.fault?

/-- What was taken before tells in the offset of the error only. -/
theorem harvest_like (max used used' : Nat) (a : Bytes) :
    (harvest max used a).Like (harvest max used' a) := by
  by_cases hempty : a = []
  · subst hempty
    rw [harvest_nil, harvest_nil]
    exact ⟨rfl, rfl, rfl⟩
  · cases hread : Rpc.readRecord a max with
    | ok read =>
      obtain ⟨record, n⟩ := read
      obtain ⟨hrecords, hrest, hfault⟩ := harvest_like max (used + n) (used' + n) (a.drop n)
      rw [harvest_record hread, harvest_record hread]
      exact ⟨congrArg (record :: ·) hrecords, hrest, hfault⟩
    | error e =>
      rw [harvest_error hempty hread, harvest_error hempty hread]
      split
      · exact ⟨rfl, rfl, rfl⟩
      · exact ⟨rfl, rfl, rfl⟩
termination_by a.length
decreasing_by
  have := Rpc.used_of_readRecord hread
  simp only [List.length_drop]
  omega

/-- The octets that are kept give nothing by themselves. -/
def Waits (max : Nat) (kept : Bytes) : Prop := harvest max 0 kept = ⟨[], kept, none⟩

theorem waits_nil (max : Nat) : Waits max [] := harvest_nil max 0

/-- **What has come of a stream is taken off, and the rest with what comes then**, as long as the
boundaries of records are not lost. -/
theorem harvest_append {used : Nat} {a : Bytes} (h : (harvest max used a).fault? = none)
    (b : Bytes) :
    Waits max (harvest max used a).rest ∧
      (harvest max used (a ++ b)).Like
        { harvest max 0 ((harvest max used a).rest ++ b) with
          records := (harvest max used a).records ++
            (harvest max 0 ((harvest max used a).rest ++ b)).records } := by
  by_cases hempty : a = []
  · subst hempty
    rw [harvest_nil, List.nil_append]
    exact ⟨waits_nil max, harvest_like ..⟩
  · cases hread : Rpc.readRecord a max with
    | ok read =>
      obtain ⟨record, n⟩ := read
      obtain ⟨-, hinside⟩ := Rpc.used_of_readRecord hread
      rw [harvest_record hread] at h ⊢
      obtain ⟨hwaits, hrecords, hrest, hfault⟩ := harvest_append h b
      rw [harvest_record (Rpc.readRecord_append hread b), List.drop_append_of_le_length hinside]
      exact ⟨hwaits, congrArg (record :: ·) hrecords, hrest, hfault⟩
    | error e =>
      have hwaits : harvest max 0 a = _ := harvest_error hempty hread
      rw [harvest_error hempty hread] at h ⊢
      split at h
      next htruncated =>
        rw [if_pos htruncated] at hwaits ⊢
        exact ⟨hwaits, harvest_like ..⟩
      next => cases h
termination_by a.length
decreasing_by
  have := Rpc.used_of_readRecord hread
  simp only [List.length_drop]
  omega

/-- **Where the boundaries of records are lost, they are lost whatever comes then**, and nothing is
kept. -/
theorem harvest_append_broken {used : Nat} {a : Bytes} {fault : Fault}
    (h : (harvest max used a).fault? = some fault) (b : Bytes) :
    (harvest max used a).rest = [] ∧ harvest max used (a ++ b) = harvest max used a := by
  by_cases hempty : a = []
  · subst hempty
    rw [harvest_nil] at h
    cases h
  · cases hread : Rpc.readRecord a max with
    | ok read =>
      obtain ⟨record, n⟩ := read
      obtain ⟨-, hinside⟩ := Rpc.used_of_readRecord hread
      rw [harvest_record hread] at h ⊢
      obtain ⟨hrest, hsame⟩ := harvest_append_broken h b
      rw [harvest_record (Rpc.readRecord_append hread b), List.drop_append_of_le_length hinside,
        hsame]
      exact ⟨hrest, rfl⟩
    | error e =>
      rw [harvest_error hempty hread] at h ⊢
      split at h
      next => cases h
      next hfinal =>
        have hread' := Rpc.readRecord_append_error hread (Bool.not_eq_true _ ▸ hfinal) b
        rw [harvest_error (List.append_ne_nil_of_left_ne_nil hempty b) hread', if_neg hfinal,
          if_neg hfinal]
        exact ⟨rfl, rfl⟩
termination_by a.length
decreasing_by
  have := Rpc.used_of_readRecord hread
  simp only [List.length_drop]
  omega

end Harvest

/-! ## Deliveries -/

/-- What a decoder takes off a byte stream. -/
inductive Delivery where
  | record (octets : Bytes)
  /-- The boundaries of records are lost for this fault, when `upto` octets of the stream have
  come. -/
  | lost (fault : Fault) (upto : Nat)
  deriving DecidableEq, Repr

/-- A record, or the kind of the fault. -/
def Delivery.what : Delivery → Bytes ⊕ String
  | .record octets => .inl octets
  | .lost fault _ => .inr fault.kind

/-- The same, or the same up to a fault that is told at different places of the stream. -/
def Delivery.Agree (x y : List Delivery) : Prop :=
  x = y ∨ ∃ common fault m n more more', m ≠ n ∧
    x = common ++ .lost fault m :: more ∧ y = common ++ .lost fault n :: more'

theorem Delivery.Agree.append_left {x y : List Delivery} (h : Agree x y) (front : List Delivery) :
    Agree (front ++ x) (front ++ y) := by
  rcases h with rfl | ⟨common, fault, m, n, more, more', hne, rfl, rfl⟩
  · exact .inl rfl
  · exact .inr ⟨front ++ common, fault, m, n, more, more', hne,
      (List.append_assoc ..).symm, (List.append_assoc ..).symm⟩

/-- What a packet has of a stream. -/
def Harvest.deliveries (h : Harvest) (upto : Nat) : List Delivery :=
  h.records.map .record ++ (h.fault?.map (.lost · upto)).toList

/-- What is taken off a stream that comes in these pieces, after `soFar` octets of which some are
kept. -/
def deliveriesOf (max : Nat) : (kept : Bytes) → (soFar : Nat) → List Bytes → List Delivery
  | _, _, [] => []
  | kept, soFar, piece :: rest =>
    let taken := harvest max 0 (kept ++ piece)
    taken.deliveries (soFar + piece.length) ++
      deliveriesOf max taken.rest (soFar + piece.length) rest

/-- All pieces together give the same records up to the first fault. Behind the piece that is
refused the stream starts afresh. -/
theorem deliveriesOf_eq {max : Nat} {kept : Bytes} (hkept : Waits max kept) (soFar : Nat)
    (pieces : List Bytes) :
    let all := harvest max 0 (kept ++ pieces.flatten)
    all.fault? = none ∧ deliveriesOf max kept soFar pieces = all.records.map .record ∨
      ∃ fault before piece rest, all.fault? = some fault ∧ pieces = before ++ piece :: rest ∧
        let upto := soFar + (before ++ [piece]).flatten.length
        deliveriesOf max kept soFar pieces =
          all.records.map .record ++ .lost fault upto :: deliveriesOf max [] upto rest := by
  induction pieces generalizing kept soFar with
  | nil =>
    left
    rw [List.flatten_nil, List.append_nil, hkept]
    exact ⟨rfl, rfl⟩
  | cons piece rest ih =>
    have hall : kept ++ (piece :: rest).flatten = kept ++ piece ++ rest.flatten := by
      rw [List.flatten_cons, List.append_assoc]
    rw [hall, deliveriesOf]
    cases hfault : (harvest max 0 (kept ++ piece)).fault? with
    | none =>
      obtain ⟨hwaits, hrecords, -, hthen⟩ := harvest_append hfault rest.flatten
      simp only [Harvest.deliveries, hfault, hrecords, hthen]
      rcases ih hwaits (soFar + piece.length) with
        ⟨hnone, heq⟩ | ⟨fault, before, piece', rest', hsome, hsplit, heq⟩
      · left
        refine ⟨hnone, ?_⟩
        rw [heq]
        simp
      · right
        refine ⟨fault, piece :: before, piece', rest', hsome, congrArg (piece :: ·) hsplit, ?_⟩
        rw [heq]
        simp [Nat.add_assoc]
    | some fault =>
      right
      obtain ⟨hrest, hsame⟩ := harvest_append_broken hfault rest.flatten
      rw [hsame]
      refine ⟨fault, [], piece, rest, hfault, rfl, ?_⟩
      simp [Harvest.deliveries, hfault, hrest]

/-- **Two ways to cut a stream give the same, up to a fault that is told at different places.** -/
theorem deliveriesOf_agree (max soFar : Nat) {pieces pieces' : List Bytes}
    (h : pieces.flatten = pieces'.flatten) :
    Delivery.Agree (deliveriesOf max [] soFar pieces) (deliveriesOf max [] soFar pieces') := by
  have hfirst := deliveriesOf_eq (waits_nil max) soFar pieces
  have hsecond := deliveriesOf_eq (waits_nil max) soFar pieces'
  rw [← h] at hsecond
  rcases hfirst with ⟨hnone, heq⟩ | ⟨fault, before, piece, rest, hsome, hpieces, heq⟩
  · rcases hsecond with ⟨-, heq'⟩ | ⟨fault', _, _, _, hsome', _⟩
    · exact .inl (heq.trans heq'.symm)
    · rw [hnone] at hsome'
      cases hsome'
  · rcases hsecond with ⟨hnone', _⟩ | ⟨fault', before', piece', rest', hsome', hpieces', heq'⟩
    · rw [hsome] at hnone'
      cases hnone'
    · obtain rfl : fault = fault' := Option.some.inj (hsome.symm.trans hsome')
      by_cases hplace : (before ++ [piece]).flatten.length = (before' ++ [piece']).flatten.length
      · -- Both start afresh at the same place, with the same octets to come.
        have hboth : (before ++ [piece]).flatten ++ rest.flatten =
            (before' ++ [piece']).flatten ++ rest'.flatten := by
          rw [← List.flatten_append, ← List.flatten_append]
          simpa [hpieces, hpieces'] using h
        have hrest := (List.append_inj hboth hplace).2
        have hshorter : rest.length < pieces.length := by
          rw [hpieces, List.length_append, List.length_cons]
          omega
        rw [heq, heq', hplace]
        exact ((deliveriesOf_agree max _ hrest).append_left [.lost fault _]).append_left _
      · exact .inr ⟨_, fault, _, _, _, _, by omega, heq, heq'⟩
termination_by pieces.length

/-! ## What a decoder takes off -/

namespace Decoder

/-- What the decoder takes off the stream of a packet when it comes. -/
def taken (d : Decoder) (p : Packet) : Harvest :=
  harvest d.settings.maxRecord 0 (d.streams.get (p.src, p.dst) ++ p.payload)

/-- What the decoder takes off a stream while it handles packets, after `soFar` octets of it. -/
def deliveries (d : Decoder) (key : StreamKey) (soFar : Nat) : List Packet → List Delivery
  | [] => []
  | p :: rest =>
    if p.OnStream key then
      (d.taken p).deliveries (soFar + p.payload.length) ++
        (d.handle p).1.deliveries key (soFar + p.payload.length) rest
    else (d.handle p).1.deliveries key soFar rest

section Deliveries

variable {d : Decoder} {key : StreamKey} {p : Packet}

/-- What is taken off is handled, and a fault is reported. -/
theorem handle_taken (hreorder : d.reorder = none) (hp : p.OnStream key) :
    d.handle p =
      let handled := handleEach d.settings d.counted p (d.taken p).records
      let lost := handled.1.lose p (d.taken p).broken
      ({ d with toBooks := lost.1, streams := d.streams.set key (d.taken p).rest },
        handled.2 ++ lost.2) := by
  obtain ⟨htransport, rfl⟩ := hp
  have hprocess : d.handle p = d.process p := by rw [handle, hreorder]
  rw [hprocess, d.process_tcp p htransport, handleRecords_eq]
  rfl

theorem settings_after (d : Decoder) (packets : List Packet) :
    (d.after packets).settings = d.settings := by
  induction packets generalizing d with
  | nil => rfl
  | cons p rest ih => exact (ih (d.handle p).1).trans (settings_handle d p)

theorem reorder_handle (hreorder : d.reorder = none) (p : Packet) :
    (d.handle p).1.reorder = none := by
  rw [handle, hreorder]
  exact (d.reorder_process p).trans hreorder

theorem reorder_after (hreorder : d.reorder = none) (packets : List Packet) :
    (d.after packets).reorder = none := by
  induction packets generalizing d with
  | nil => exact hreorder
  | cons p rest ih => exact ih (reorder_handle hreorder p)

/-- What is taken off depends on the payloads alone, and on what was kept before them. -/
theorem deliveries_eq {kept : Bytes} (hreorder : d.reorder = none)
    (hkept : d.streams.on key = Streams.entry key kept) (soFar : Nat) (packets : List Packet) :
    d.deliveries key soFar packets =
      deliveriesOf d.settings.maxRecord kept soFar
        ((packets.filter (·.OnStream key)).map (·.payload)) := by
  induction packets generalizing d kept soFar with
  | nil => rfl
  | cons p rest ih =>
    rw [deliveries]
    by_cases hp : p.OnStream key
    · have htaken : d.taken p = harvest d.settings.maxRecord 0 (kept ++ p.payload) := by
        rw [taken, hp.2, Streams.get_of_on hkept]
      have hnext : (d.handle p).1.streams.on key = Streams.entry key (d.taken p).rest := by
        rw [handle_taken hreorder hp]
        exact d.streams.on_set_self ..
      rw [if_pos hp, List.filter_cons_of_pos (by simpa using hp), List.map_cons, deliveriesOf,
        ih (reorder_handle hreorder p) hnext, settings_handle, htaken]
    · have hnext : (d.handle p).1.streams.on key = Streams.entry key kept := by
        rw [handle, hreorder]
        exact (on_process_other hp).trans hkept
      rw [if_neg hp, List.filter_cons_of_neg (by simpa using hp),
        ih (reorder_handle hreorder p) hnext, settings_handle]

theorem received_eq_flatten (key : StreamKey) (packets : List Packet) :
    received key packets = ((packets.filter (·.OnStream key)).map (·.payload)).flatten := by
  induction packets with
  | nil => rfl
  | cons p rest ih =>
    rw [received, List.flatMap_cons]
    by_cases hp : p.OnStream key
    · rw [if_pos hp, List.filter_cons_of_pos (by simpa using hp), List.map_cons,
        List.flatten_cons, ← ih, received]
    · rw [if_neg hp, List.filter_cons_of_neg (by simpa using hp), ← ih, received, List.nil_append]

end Deliveries

/-- **What is taken off a stream depends on its octets alone, up to a fault**, and behind it on how
many of them had come when the fault was told. Two decoders that get the same octets, in whatever
packets and among whatever other ones, take off the same records and faults; unless at some fault,
the first one or a later one, the packets of the two end at different places of the stream. What is
taken off is what is handled and reported. -/
theorem cuts_agree {d : Decoder} {key : StreamKey} (hreorder : d.reorder = none)
    (hempty : d.streams.on key = []) {xs ys : List Packet}
    (h : received key xs = received key ys) :
    Delivery.Agree (d.deliveries key 0 xs) (d.deliveries key 0 ys) ∧
      ∀ before p, p.OnStream key →
        let now := d.after before
        let handled := handleEach d.settings now.counted p (now.taken p).records
        let lost := handled.1.lose p (now.taken p).broken
        ((now.handle p).1.toBooks, (now.handle p).2) = (lost.1, handled.2 ++ lost.2) := by
  have hkept : d.streams.on key = Streams.entry key [] := hempty
  constructor
  · rw [deliveries_eq hreorder hkept, deliveries_eq hreorder hkept]
    rw [received_eq_flatten, received_eq_flatten] at h
    exact deliveriesOf_agree d.settings.maxRecord 0 h
  · intro before p hp now
    rw [handle_taken (reorder_after hreorder before) hp, settings_after]

/-- A packet between two unknown endpoints. -/
def pieceOf (payload : Bytes) : Packet := ⟨default, default, default, .tcp, payload⟩

/-- The mark of the second record is beyond the limit, and behind it there is another record. Cut at
a mark, the stream gives the same first record and the same fault as in one piece. -/
theorem cuts_agree_up_to_fault :
    let d := Decoder.new {} fun _ _ _ => none
    let front : Bytes := [0x80, 0, 0, 1, 7, 0x80, 0x20, 0, 0]
    let xs := [pieceOf (front ++ [0x80, 0, 0, 1, 8])]
    let ys := [pieceOf [0x80], pieceOf (front.drop 1), pieceOf [0x80, 0, 0, 1, 8]]
    received (default, default) xs = received (default, default) ys ∧
      d.deliveries (default, default) 0 xs =
        [.record [7], .lost (.tooLong 0x200000 0x100000) 14] ∧
      d.deliveries (default, default) 0 ys =
        [.record [7], .lost (.tooLong 0x200000 0x100000) 9, .record [8]] ∧
      Delivery.Agree (d.deliveries (default, default) 0 xs)
        (d.deliveries (default, default) 0 ys) := by
  intro d front xs ys
  have hreceived : received (default, default) xs = received (default, default) ys := by decide
  have hkept : d.streams.on (default, default) = Streams.entry (default, default) [] := rfl
  refine ⟨hreceived, ?_, ?_, (cuts_agree rfl rfl hreceived).1⟩
  · rw [deliveries_eq rfl hkept]
    decide +kernel
  · rw [deliveries_eq rfl hkept]
    decide +kernel

/-- Behind a fault the cuts do matter: a record that comes in one packet with a mark beyond the
limit is dropped, and one that comes in a packet of its own is not. -/
theorem cuts_differ_behind_fault : ¬ ∀ (d : Decoder) (key : StreamKey) (xs ys : List Packet),
    d.settings.matcher.aging = .disabled → d.reorder = none → d.streams.on key = [] →
    (∀ p ∈ xs ++ ys, p.OnStream key ∧ p.payload ≠ []) → received key xs = received key ys →
    (d.deliveries key 0 xs).map Delivery.what = (d.deliveries key 0 ys).map Delivery.what := by
  intro hsame
  let d := Decoder.new { matcher := { aging := .disabled } } fun _ _ _ => none
  have hkept : d.streams.on (default, default) = Streams.entry (default, default) [] := rfl
  have heq := hsame d (default, default) [pieceOf [0x80, 0x20, 0, 0, 0x80, 0, 0, 1, 7]]
    [pieceOf [0x80, 0x20, 0, 0], pieceOf [0x80, 0, 0, 1, 7]] rfl rfl rfl (by decide) (by decide)
  rw [deliveries_eq rfl hkept, deliveries_eq rfl hkept] at heq
  revert heq
  decide +kernel

end Decoder

end NfsWire
