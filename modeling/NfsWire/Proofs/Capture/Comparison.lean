import Mathlib.Data.List.Forall2
import NfsWire.Proofs.Capture.Alongside

/-!
# Two sessions side by side

Two sessions take in packets that are pairwise related. If handling related packets keeps two
decoders in agreement (`View.Follows`), so does everything else that is done with a decoder: packets
are held back and released at the same places, whatever is in them (`Reorder.Alike.push`), and the
end of a capture comes to both alike. So what is told in the two sessions looks the same to the end
(`View.Follows.foldl`).
-/

namespace NfsWire

/-! ## Reordering -/

namespace Reorder

variable {α β : Type} {R : α → β → Prop} {x : α} {y : β}

/-- Items of the same number that are related. -/
def Numbered (R : α → β → Prop) (p : Nat × α) (q : Nat × β) : Prop := p.1 = q.1 ∧ R p.2 q.2

/-- Items with the same numbers are held. -/
structure Alike (R : α → β → Prop) (b : Reorder α) (b' : Reorder β) : Prop where
  next : b.next = b'.next
  window : b.window = b'.window
  held : List.Forall₂ (Numbered R) b.held b'.held

/-- As many items are released, and those that are left have the same numbers. -/
structure Released (R : α → β → Prop) (r : List α × Nat × List (Nat × α))
    (r' : List β × Nat × List (Nat × β)) : Prop where
  out : List.Forall₂ R r.1 r'.1
  next : r.2.1 = r'.2.1
  left : List.Forall₂ (Numbered R) r.2.2 r'.2.2

variable {held : List (Nat × α)} {held' : List (Nat × β)}

theorem forall₂_hold (h : List.Forall₂ (Numbered R) held held') (seq : Nat) (hxy : R x y) :
    List.Forall₂ (Numbered R) (hold seq x held) (hold seq y held') := by
  induction h with
  | nil => exact .cons ⟨rfl, hxy⟩ .nil
  | @cons p q rest rest' hpq hrest ih =>
    obtain ⟨s, x'⟩ := p
    obtain ⟨s', y'⟩ := q
    obtain ⟨rfl, hxy'⟩ := hpq
    unfold hold
    by_cases hlt : seq < s
    · rw [if_pos hlt, if_pos hlt]
      exact .cons ⟨rfl, hxy⟩ (.cons ⟨rfl, hxy'⟩ hrest)
    · rw [if_neg hlt, if_neg hlt]
      by_cases heq : seq = s
      · rw [if_pos heq, if_pos heq]
        exact .cons ⟨rfl, hxy⟩ hrest
      · rw [if_neg heq, if_neg heq]
        exact .cons ⟨rfl, hxy'⟩ ih

theorem forall₂_numbers (h : List.Forall₂ (Numbered R) held held') :
    held.map (·.1) = held'.map (·.1) := by
  induction h with
  | nil => rfl
  | cons hpq hrest ih => exact congrArg₂ List.cons hpq.1 ih

theorem released_consecutive (h : List.Forall₂ (Numbered R) held held') (next : Nat) :
    Released R (consecutive next held) (consecutive next held') := by
  induction h generalizing next with
  | nil => exact ⟨.nil, rfl, .nil⟩
  | @cons p q rest rest' hpq hrest ih =>
    obtain ⟨s, x'⟩ := p
    obtain ⟨s', y'⟩ := q
    obtain ⟨rfl, hxy⟩ := hpq
    unfold consecutive
    by_cases hs : s = next
    · rw [if_pos hs, if_pos hs]
      have hmore := ih (next + 1)
      exact ⟨.cons hxy hmore.out, hmore.next, hmore.left⟩
    · rw [if_neg hs, if_neg hs]
      exact ⟨.nil, rfl, .cons ⟨rfl, hxy⟩ hrest⟩

theorem released_giveUp (window next : Nat) {held : List (Nat × α)} {held' : List (Nat × β)}
    (h : List.Forall₂ (Numbered R) held held') :
    Released R (giveUp window next held) (giveUp window next held') := by
  rw [giveUp.eq_def, giveUp.eq_def window next held']
  cases h with
  | nil => exact ⟨.nil, rfl, .nil⟩
  | @cons p q rest rest' hpq hrest =>
    obtain ⟨s, x'⟩ := p
    obtain ⟨s', y'⟩ := q
    obtain ⟨rfl, hxy⟩ := hpq
    -- As many are held on both sides, so both are over the window or neither is.
    have hlength := hrest.length_eq
    dsimp only
    rw [← hlength]
    by_cases hfits : window < rest.length + 1
    · rw [if_pos hfits, if_pos hfits]
      have hrun := released_consecutive hrest (s + 1)
      have hmore := released_giveUp window (consecutive (s + 1) rest).2.1 hrun.left
      rw [← hrun.next]
      exact ⟨.cons hxy (List.rel_append hrun.out hmore.out), hmore.next, hmore.left⟩
    · rw [if_neg hfits, if_neg hfits]
      exact ⟨.nil, rfl, .cons ⟨rfl, hxy⟩ hrest⟩
termination_by held.length
decreasing_by
  have := length_consecutive (s + 1) rest
  simp only [List.length_cons]
  omega

variable {b : Reorder α} {b' : Reorder β}

/-- **What is released depends on the numbers only.** -/
theorem Alike.push (h : b.Alike R b') (seq : Nat) (hxy : R x y) :
    (b.push seq x).1.Alike R (b'.push seq y).1 ∧
      List.Forall₂ R (b.push seq x).2 (b'.push seq y).2 := by
  obtain ⟨next, held, window⟩ := b
  obtain ⟨next', held', window'⟩ := b'
  obtain ⟨rfl, rfl, hheld⟩ := h
  unfold Reorder.push
  dsimp only
  by_cases hlate : seq < next.getD seq
  · rw [if_pos hlate, if_pos hlate]
    exact ⟨⟨rfl, rfl, hheld⟩, .cons hxy .nil⟩
  · rw [if_neg hlate, if_neg hlate]
    have hrun := released_consecutive (forall₂_hold hheld seq hxy) (next.getD seq)
    have hmore := released_giveUp window
      (consecutive (next.getD seq) (hold seq x held)).2.1 hrun.left
    rw [← hrun.next]
    exact ⟨⟨congrArg some hmore.next, rfl, hmore.left⟩, List.rel_append hrun.out hmore.out⟩

theorem Alike.flush (h : b.Alike R b') :
    b.flush.1.Alike R b'.flush.1 ∧ List.Forall₂ R b.flush.2 b'.flush.2 := by
  obtain ⟨next, held, window⟩ := b
  obtain ⟨next', held', window'⟩ := b'
  obtain ⟨rfl, rfl, hheld⟩ := h
  have hnumbers : held.map (·.1) = held'.map (·.1) := forall₂_numbers hheld
  have hlast : held.getLast?.map (·.1 + 1) = held'.getLast?.map (·.1 + 1) := by
    have hmap := congrArg (fun numbers => numbers.getLast?.map (· + 1)) hnumbers
    simpa [List.getLast?_map, Function.comp_def] using hmap
  refine ⟨⟨?_, rfl, .nil⟩, List.rel_map (fun _ _ hpq => hpq.2) hheld⟩
  show (held.getLast?.map (·.1 + 1)).or next = (held'.getLast?.map (·.1 + 1)).or next
  rw [hlast]

end Reorder

/-! ## Decoders -/

namespace View

/-- The decoders hold related packets, and everything else in them looks alike. -/
structure Agree (v : View) (R : Packet → Packet → Prop) (settings : DecoderSettings)
    (d d' : Decoder) : Prop where
  left : d.settings = settings
  right : d'.settings = settings
  source : d.source = d'.source
  streams : d.streams = d'.streams
  held : Option.Rel (Reorder.Alike R) d.reorder d'.reorder
  books : v.Alike d.toBooks d'.toBooks

/-- Two steps tell the same, and lead to decoders that agree. -/
structure Steps (v : View) (R : Packet → Packet → Prop) (settings : DecoderSettings)
    (r r' : Decoder × List Event) : Prop where
  told : v.told r.2 = v.told r'.2
  agree : v.Agree R settings r.1 r'.1

/-- Handling related packets keeps decoders in agreement. -/
structure Follows (v : View) (R : Packet → Packet → Prop) (settings : DecoderSettings) :
    Prop where
  lawful : v.Lawful
  seq : ∀ {p p'}, R p p' → p.seen.seq = p'.seen.seq
  process : ∀ {d d' p p'}, v.Agree R settings d d' → R p p' →
    v.Steps R settings (d.process p) (d'.process p')

variable {v : View} {R : Packet → Packet → Prop} {settings : DecoderSettings} {d d' : Decoder}
  {p p' : Packet}

theorem Alike.pending_eq {b b' : Books} (h : v.Alike b b') :
    b.matcher.pending = b'.matcher.pending := by
  show (b.matcher.map v.message).pending = (b'.matcher.map v.message).pending
  rw [h.calls]

/-- Both hold packets, or neither does. -/
theorem Agree.held_cases (h : v.Agree R settings d d') :
    (d.reorder = none ∧ d'.reorder = none) ∨
      ∃ b b', d.reorder = some b ∧ d'.reorder = some b' ∧ b.Alike R b' := by
  have hheld := h.held
  cases hb : d.reorder with
  | none =>
    rw [hb] at hheld
    generalize d'.reorder = held' at hheld
    cases hheld
    exact .inl ⟨rfl, rfl⟩
  | some b =>
    rw [hb] at hheld
    generalize d'.reorder = held' at hheld
    cases hheld with
    | some hbuffers => exact .inr ⟨b, _, rfl, rfl, hbuffers⟩

/-- A decoder agrees with itself. -/
theorem Agree.refl (hv : ∀ s, v.stats s s) (hR : ∀ p, R p p) (d : Decoder) :
    v.Agree R d.settings d d where
  left := rfl
  right := rfl
  source := rfl
  streams := rfl
  held := by
    cases d.reorder with
    | none => exact .none
    | some b => exact .some ⟨rfl, rfl, List.forall₂_same.mpr fun item _ => ⟨rfl, hR item.2⟩⟩
  books := ⟨rfl, hv _⟩

theorem Agree.hold (h : v.Agree R settings d d') {b b' : Reorder Packet} (hb : b.Alike R b') :
    v.Agree R settings { d with reorder := some b } { d' with reorder := some b' } :=
  ⟨h.left, h.right, h.source, h.streams, .some hb, h.books⟩

theorem Agree.counted (h : v.Agree R settings d d') (hv : v.Lawful) :
    v.Alike d.counted d'.counted := h.books.count hv .packet

/-- **The same packet is handled alike.** -/
theorem Agree.process (h : v.Agree R settings d d') (hv : v.Lawful) (p : Packet) :
    v.Steps R settings (d.process p) (d'.process p) := by
  have hcounted := h.counted hv
  cases htransport : p.transport with
  | udp =>
    rw [d.process_udp p htransport, d'.process_udp p htransport, h.left, h.right]
    have hsame := hcounted.handleMessage settings p p.payload none none hv
    exact ⟨hsame.told, rfl, rfl, h.source, h.streams, h.held, hsame.books⟩
  | tcp =>
    rw [d.process_tcp p htransport, d'.process_tcp p htransport, h.left, h.right, h.streams]
    obtain ⟨hrest, hsame⟩ := hcounted.handleRecords settings p hv 0
      (d'.streams.get (p.src, p.dst) ++ p.payload)
    exact ⟨hsame.told, rfl, rfl, h.source, congrArg (d'.streams.set (p.src, p.dst)) hrest, h.held,
      hsame.books⟩
  | rdma =>
    rw [d.process_rdma p htransport, d'.process_rdma p htransport, h.left, h.right, h.source]
    have hsame := hcounted.handleRdma settings p hv d'.source
    exact ⟨hsame.told, rfl, rfl, rfl, h.streams, h.held, hsame.books⟩

namespace Follows

variable (h : v.Follows R settings)
include h

theorem processAll (hd : v.Agree R settings d d') {packets packets' : List Packet}
    (hpackets : List.Forall₂ R packets packets') :
    v.Steps R settings (d.processAll packets) (d'.processAll packets') := by
  induction hpackets generalizing d d' with
  | nil => exact ⟨rfl, hd⟩
  | cons hp hrest ih =>
    have hfirst := h.process hd hp
    have hmore := ih hfirst.agree
    rw [Decoder.processAll_cons, Decoder.processAll_cons]
    exact ⟨told_congr hfirst.told hmore.told, hmore.agree⟩

theorem handle (hd : v.Agree R settings d d') (hp : R p p') :
    v.Steps R settings (d.handle p) (d'.handle p') := by
  rcases hd.held_cases with ⟨hnone, hnone'⟩ | ⟨b, b', hsome, hsome', hb⟩
  · rw [Decoder.handle_eq_process hnone, Decoder.handle_eq_process hnone']
    exact h.process hd hp
  · obtain ⟨hpushed, hready⟩ := hb.push p.seen.seq hp
    simp only [Decoder.handle, hsome, hsome', ← h.seq hp]
    exact h.processAll (hd.hold hpushed) hready

theorem release (hd : v.Agree R settings d d') : v.Steps R settings d.release d'.release := by
  rcases hd.held_cases with ⟨hnone, hnone'⟩ | ⟨b, b', hsome, hsome', hb⟩
  · simp only [Decoder.release, hnone, hnone']
    exact ⟨rfl, hd⟩
  · obtain ⟨hflushed, hready⟩ := hb.flush
    simp only [Decoder.release, hsome, hsome']
    exact h.processAll (hd.hold hflushed) hready

/-- The end of the capture comes to both alike. -/
theorem finish (hd : v.Agree R settings d d') : v.Steps R settings d.finish d'.finish := by
  have hreleased := h.release hd
  obtain ⟨hleft, hright, hsource, hstreams, hheld, hbooks⟩ := hreleased.agree
  have hdangling := hbooks.failDangling h.lawful settings.maxRecord d.release.1.streams.sorted
  have hclosed := hdangling.books.close h.lawful
  unfold Decoder.finish
  dsimp only
  rw [congrArg DecoderSettings.maxRecord hleft, congrArg DecoderSettings.maxRecord hright,
    ← hstreams]
  exact ⟨told_congr (told_congr hreleased.told hdangling.told) hclosed.told, hleft, hright,
    hsource, rfl, hheld, hclosed.books⟩

end Follows

/-! ## Sessions -/

/-- Related packets, or the end of the capture for both. -/
inductive FeedsAlike (R : Packet → Packet → Prop) : Feed → Feed → Prop where
  | packet {p p' : Packet} (h : R p p') : FeedsAlike R (.packet p) (.packet p')
  | finish : FeedsAlike R .finish .finish

theorem feedsAlike_refl (hR : ∀ p, R p p) (feeds : List Feed) :
    List.Forall₂ (FeedsAlike R) feeds feeds :=
  List.forall₂_same.mpr fun f _ => by
    cases f with
    | packet p => exact .packet (hR p)
    | finish => exact .finish

/-- The decoders agree, and the same was told and dropped. -/
structure Abreast (v : View) (R : Packet → Packet → Prop) (settings : DecoderSettings)
    (s s' : Session) : Prop where
  decoder : v.Agree R settings s.decoder s'.decoder
  told : v.told s.told = v.told s'.told
  dropped : s.dropped = s'.dropped

namespace Follows

variable (h : v.Follows R settings) {s s' : Session} {f f' : Feed}
include h

theorem feed (hd : v.Agree R settings d d') (hf : FeedsAlike R f f') :
    v.Steps R settings (d.feed f) (d'.feed f') := by
  cases hf with
  | packet hp => exact h.handle hd hp
  | finish => exact h.finish hd

theorem drops_eq (hd : v.Agree R settings d d') (hf : FeedsAlike R f f') :
    d.drops f = d'.drops f' := by
  cases hf with
  | packet hp => rfl
  | finish =>
    have hpending : d.release.1.pending = d'.release.1.pending :=
      (h.release hd).agree.books.pending_eq
    simp only [Decoder.drops, hd.left, hd.right, hpending]

theorem next (hs : v.Abreast R settings s s') (hf : FeedsAlike R f f') :
    v.Abreast R settings (s.next f) (s'.next f') := by
  have hstep := h.feed hs.decoder hf
  refine ⟨hstep.agree, told_congr hs.told hstep.told, ?_⟩
  show s.dropped + s.decoder.drops f = s'.dropped + s'.decoder.drops f'
  rw [hs.dropped, h.drops_eq hs.decoder hf]

/-- **Sessions that are abreast stay abreast**, whatever related packets they take in. -/
theorem foldl {feeds feeds' : List Feed} (hs : v.Abreast R settings s s')
    (hfeeds : List.Forall₂ (FeedsAlike R) feeds feeds') :
    v.Abreast R settings (feeds.foldl Session.next s) (feeds'.foldl Session.next s') := by
  induction hfeeds generalizing s s' with
  | nil => exact hs
  | cons hf hrest ih => exact ih (h.next hs hf)

end Follows

end View

end NfsWire
