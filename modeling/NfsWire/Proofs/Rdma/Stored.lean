import NfsWire.Proofs.Guarded.Rdma
import NfsWire.Proofs.Rdma.Layouts

/-!
# What is fetched is what is stored

Whatever pieces a store holds, and however they overlap, a fetch that gives octets gives stored
ones: each stands in some piece of the handle at its own address (`ChunkStore.has_of_walk`). The
walk keeps its place, since it goes on at the address where a piece stops, and leaves out of the
piece what lies in front of the cursor and behind the range.

A fetch may give nothing although the octets are stored, where one piece hides another. If no
octet of the handle is stored twice, nothing is hidden: the piece that starts last before an
address is then the one that has it (`Disjoint.pieceAt?_eq`), so the walk stops at nothing but a
gap.
-/

namespace NfsWire.Rdma

/-- The piece has this octet at an address of a handle. -/
def Piece.Has (p : Piece) (handle : UInt32) (address : Nat) (octet : UInt8) : Prop :=
  p.Holds handle address ∧ p.data[address - p.start]? = some octet

namespace ChunkStore

/-- Of the pieces of a handle none is empty, and no two of them have the same address. -/
structure Disjoint (s : ChunkStore) (handle : UInt32) : Prop where
  nonempty : ∀ p ∈ s.pieces, p.handle = handle → p.data ≠ []
  apart : ∀ p ∈ s.pieces, ∀ q ∈ s.pieces, ∀ address, p.Holds handle address →
    q.Holds handle address → p = q

variable {s : ChunkStore} {handle : UInt32} {p : Piece}

theorem mem_region : p ∈ s.region handle ↔ p ∈ s.pieces ∧ p.handle = handle := by
  simp [region]

/-- What is stored was added. -/
theorem mem_of_mem_ofPieces {added : List Piece} (h : p ∈ (ofPieces added).pieces) :
    p ∈ added := by
  suffices hfold : ∀ (added : List Piece) (s : ChunkStore),
      p ∈ (added.foldl insert s).pieces → p ∈ s.pieces ∨ p ∈ added from
    (hfold added {} h).resolve_left List.not_mem_nil
  intro added
  induction added with
  | nil => exact fun s hp => .inl hp
  | cons q rest ih =>
    intro s hp
    rcases ih (s.insert q) hp with hp | hp
    · rcases mem_insert.mp hp with ⟨hp, -⟩ | rfl
      · exact .inl hp
      · exact .inr List.mem_cons_self
    · exact .inr (List.mem_cons_of_mem _ hp)

/-! ## Octets of a walk -/

/-- The octets that the walk takes from a piece stand in it at their addresses. -/
theorem getElem?_part {address stop i : Nat} (hstart : p.start ≤ address)
    (hi : i < min p.stop stop - address) :
    ((p.data.drop (address - p.start)).take (min p.stop stop - address))[i]? =
      p.data[address + i - p.start]? := by
  rw [List.getElem?_take_of_lt hi, List.getElem?_drop]
  congr 1
  omega

/-- **Every octet of a walk is stored at its address.** -/
theorem has_of_walk {pieces : List Piece} {address stop : Nat} {data : Bytes}
    (h : walk pieces address stop = some data) {i : Nat} (hi : i < data.length) :
    ∃ p ∈ pieces, p.start ≤ address + i ∧ address + i < p.stop ∧
      p.data[address + i - p.start]? = some data[i] := by
  by_cases hlt : address < stop
  · rw [walk, dif_pos hlt] at h
    cases hat : pieceAt? pieces address with
    | none =>
      rw [hat] at h
      cases h
    | some p =>
      rw [hat] at h
      dsimp only at h
      split at h
      next hreach =>
        obtain ⟨more, hmore, rfl⟩ := Option.map_eq_some_iff.mp h
        obtain ⟨hmem, hstart, -⟩ := pieceAt?_eq_some hat
        have hstop : p.stop = p.start + p.data.length := rfl
        have hpart : ((p.data.drop (address - p.start)).take
            (min p.stop stop - address)).length = min p.stop stop - address := by
          rw [List.length_take, List.length_drop]
          omega
        by_cases hfirst : i < min p.stop stop - address
        · refine ⟨p, hmem, by omega, by omega, ?_⟩
          rw [← getElem?_part hstart hfirst, ← List.getElem?_eq_getElem hi,
            List.getElem?_append_left (by omega)]
        · -- The octet is behind this piece, and the rest of the walk has it.
          have hbehind : i - (min p.stop stop - address) < more.length := by
            rw [List.length_append] at hi
            omega
          obtain ⟨q, hq, hqstart, hqstop, hoctet⟩ := has_of_walk hmore hbehind
          have haddress : min p.stop stop + (i - (min p.stop stop - address)) = address + i := by
            omega
          rw [haddress] at hqstart hqstop hoctet
          refine ⟨q, hq, hqstart, hqstop, ?_⟩
          rw [hoctet, ← List.getElem?_eq_getElem hi, List.getElem?_append_right (by omega), hpart,
            List.getElem?_eq_getElem hbehind]
      next => cases h
  · rw [walk_of_le (Nat.le_of_not_lt hlt)] at h
    cases h
    cases hi
termination_by stop - address

/-! ## Where no octet is stored twice -/

/-- The piece that starts last before an address is the one that has it. -/
theorem Disjoint.pieceAt?_eq (h : s.Disjoint handle) (hp : p ∈ s.pieces) {address : Nat}
    (hholds : p.Holds handle address) : pieceAt? (s.region handle) address = some p := by
  obtain ⟨hhandle, hstart, hstop⟩ := hholds
  have hregion : p ∈ s.region handle := mem_region.mpr ⟨hp, hhandle⟩
  cases hat : pieceAt? (s.region handle) address with
  | none =>
    have hbehind := pieceAt?_eq_none hat p hregion
    omega
  | some q =>
    obtain ⟨hq, hqstart, hlast⟩ := pieceAt?_eq_some hat
    obtain ⟨hq, hqhandle⟩ := mem_region.mp hq
    -- The piece found starts within `p`, and has its own first address, being not empty.
    have hwithin : p.Holds handle q.start :=
      ⟨hhandle, hlast p hregion hstart, Nat.lt_of_le_of_lt hqstart hstop⟩
    have hlength := List.length_pos_iff.mpr (h.nonempty q hq hqhandle)
    have hfirst : q.Holds handle q.start :=
      ⟨hqhandle, Nat.le_refl _, Nat.lt_add_of_pos_right hlength⟩
    rw [h.apart p hp q hq q.start hwithin hfirst]

/-- **Where no octet is stored twice, a range is found unless it has a gap.** -/
theorem Disjoint.fetch_eq_none_iff (h : s.Disjoint handle)
    (hend : ∀ p ∈ s.pieces, p.stop < UInt64.size) {offset : UInt64} {length : UInt32}
    (hlength : 0 < length.toNat) :
    s.fetch handle offset length = none ↔
      ∃ address, offset.toNat ≤ address ∧ address < offset.toNat + length.toNat ∧
        ∀ p ∈ s.pieces, ¬ p.Holds handle address := by
  rw [← Option.not_isSome_iff_eq_none, isSome_fetch_iff_walk hlength]
  constructor
  · intro hnone
    by_contra hcovered
    push Not at hcovered
    refine hnone ⟨?_, isSome_walk fun address hfrom hto => ?_⟩
    · -- The last address of the range is in a piece, so the range ends where the piece may.
      obtain ⟨p, hp, -, -, hstop⟩ :=
        hcovered (offset.toNat + length.toNat - 1) (by omega) (by omega)
      have hpend := hend p hp
      omega
    · obtain ⟨p, hp, hholds⟩ := hcovered address hfrom hto
      exact ⟨p, h.pieceAt?_eq hp hholds, hholds.2.2⟩
  · rintro ⟨address, hfrom, hto, hgap⟩ ⟨-, hwalk⟩
    obtain ⟨p, hp, hstart, hstop⟩ := exists_of_isSome_walk hwalk hfrom hto
    obtain ⟨hp, hhandle⟩ := mem_region.mp hp
    exact hgap p hp ⟨hhandle, hstart, hstop⟩

/-! ## Fetching -/

/-- **A fetch gives stored octets, each from its address, and misses nothing that is stored once.**
Each fetch ends, after as many pieces as it has octets at most, and no operation of it is out of
range. -/
theorem fetch_faithful {added : List Piece} (hend : ∀ p ∈ added, p.stop < UInt64.size)
    (handle : UInt32) (offset : UInt64) (length : UInt32) :
    let s := ofPieces added
    Guarded.fetch s handle offset length = some (s.fetch handle offset length) ∧
      (∀ data, s.fetch handle offset length = some data →
        data.length = length.toNat ∧
          ∀ i (hi : i < data.length), ∃ p ∈ s.pieces, p.Has handle (offset.toNat + i) data[i]) ∧
      (s.Disjoint handle → 0 < length.toNat →
        (s.fetch handle offset length = none ↔
          ∃ address, offset.toNat ≤ address ∧ address < offset.toNat + length.toNat ∧
            ∀ p ∈ s.pieces, ¬ p.Holds handle address)) := by
  intro s
  have hstored : ∀ p ∈ s.pieces, p.stop < UInt64.size :=
    fun p hp => hend p (mem_of_mem_ofPieces hp)
  refine ⟨Guarded.fetch_eq hstored handle offset length, fun data hdata => ?_,
    fun hdisjoint hlength => hdisjoint.fetch_eq_none_iff hstored hlength⟩
  refine ⟨exact_fetch s _ _ _ _ hdata, fun i hi => ?_⟩
  simp only [fetch] at hdata
  split at hdata
  · cases hdata
  · obtain ⟨p, hp, hstart, hstop, hoctet⟩ := has_of_walk hdata hi
    obtain ⟨hp, hhandle⟩ := mem_region.mp hp
    exact ⟨p, hp, ⟨hhandle, hstart, hstop⟩, hoctet⟩

/-- The second of two pieces was captured twice, the first time in part. A range over the border of
the two is found with the octets of both, and one that goes on behind them is not. -/
theorem fetch_faithful_two_pieces :
    let added : List Piece := [⟨7, 4, [0]⟩, ⟨7, 0, [1, 2, 3, 4]⟩, ⟨7, 4, [5, 6]⟩]
    let s := ofPieces added
    (∀ p ∈ added, p.stop < UInt64.size) ∧ s.Disjoint 7 ∧
      s.fetch 7 1 5 = some [2, 3, 4, 5, 6] ∧
      (∃ p ∈ s.pieces, p.Has 7 4 5) ∧
      s.fetch 7 3 5 = none := by
  intro added s
  have hend : ∀ p ∈ added, p.stop < UInt64.size := by decide
  have hapart : ∀ p ∈ s.pieces, ∀ q ∈ s.pieces, p.start < q.stop → q.start < p.stop → p = q := by
    decide
  have hdisjoint : s.Disjoint 7 := by
    refine ⟨by decide, fun p hp q hq address ⟨_, hpstart, hpstop⟩ ⟨_, hqstart, hqstop⟩ => ?_⟩
    exact hapart p hp q hq (by omega) (by omega)
  have hfound : s.fetch 7 1 5 = some [2, 3, 4, 5, 6] := by decide +kernel
  have hgap : ∀ p ∈ s.pieces, ¬ p.Holds 7 6 := by decide
  refine ⟨hend, hdisjoint, hfound, ?_, ?_⟩
  · exact ((fetch_faithful hend 7 1 5).2.1 _ hfound).2 3 (by decide)
  · exact ((fetch_faithful hend 7 3 5).2.2 hdisjoint (by decide)).mpr
      ⟨6, by decide, by decide, hgap⟩

end ChunkStore

end NfsWire.Rdma
