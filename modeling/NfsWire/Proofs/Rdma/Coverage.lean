import NfsWire.Rdma.ChunkStore

/-!
# What a capture has, and what is found of it

An octet of a peer's memory is in the capture if some transfer brought it there (`Piece.Holds`).
A range is meant to be found if all its octets are. But the walk looks at one piece for each
address, the one that starts last, and goes on where that piece stops:

* a piece that lies within a longer one *nests* in it, and hides the octets behind its own end
  (`fetch_behind_nested`);
* a piece at the address of a longer one takes its place, and the octets that only the longer one
  had are gone.

`Visible` is the absence of both. Pieces may still overlap and may still be repeated, as they are
when a transfer is captured twice. Then the piece that starts last reaches at least as far as any
other that starts before it, and exactly what the capture has is found (`isSome_fetch_iff`).
-/

namespace NfsWire.Rdma

/-- The piece has the octet at an address of a handle. -/
def Piece.Holds (p : Piece) (handle : UInt32) (address : Nat) : Prop :=
  p.handle = handle ∧ p.start ≤ address ∧ address < p.stop

instance (p : Piece) (handle : UInt32) (address : Nat) : Decidable (p.Holds handle address) :=
  inferInstanceAs (Decidable (_ ∧ _))

/-- No piece of a handle hides a part of another one. -/
structure Visible (added : List Piece) (handle : UInt32) : Prop where
  /-- A piece that starts later stops no earlier. -/
  unnested : ∀ p ∈ added, ∀ q ∈ added, p.handle = handle → q.handle = handle →
    p.start < q.start → p.stop ≤ q.stop
  /-- A piece that takes the place of another one is no shorter. -/
  grown : added.Pairwise fun p q => p.handle = handle → q.handle = handle →
    p.start = q.start → p.stop ≤ q.stop

namespace ChunkStore

/-! ## The piece at an address -/

section Walk

variable {pieces : List Piece} {address stop : Nat} {p : Piece}

theorem pieceAt?_cons (q : Piece) (rest : List Piece) (address : Nat) :
    pieceAt? (q :: rest) address =
      if q.start ≤ address then some (later q (pieceAt? rest address))
      else pieceAt? rest address := rfl

theorem pieceAt?_eq_none (h : pieceAt? pieces address = none) :
    ∀ q ∈ pieces, address < q.start := by
  induction pieces with
  | nil => nofun
  | cons q rest ih =>
    rw [pieceAt?_cons] at h
    split at h
    next => cases h
    next hq => exact List.forall_mem_cons.mpr ⟨Nat.lt_of_not_le hq, ih h⟩

/-- Of the pieces that do not start behind the address, it is one that starts last. -/
theorem pieceAt?_eq_some (h : pieceAt? pieces address = some p) :
    p ∈ pieces ∧ p.start ≤ address ∧ ∀ q ∈ pieces, q.start ≤ address → q.start ≤ p.start := by
  induction pieces generalizing p with
  | nil => cases h
  | cons q rest ih =>
    rw [pieceAt?_cons] at h
    split at h
    next hq =>
      cases hrest : pieceAt? rest address with
      | none =>
        rw [hrest] at h
        cases h
        refine ⟨List.mem_cons_self, hq, List.forall_mem_cons.mpr ⟨fun _ => Nat.le_refl _, ?_⟩⟩
        exact fun r hr hle => absurd hle (Nat.not_le_of_lt (pieceAt?_eq_none hrest r hr))
      | some best =>
        obtain ⟨hmem, hstart, hlast⟩ := ih hrest
        rw [hrest, later] at h
        split at h
        next hle =>
          cases h
          exact ⟨List.mem_cons_of_mem _ hmem, hstart,
            List.forall_mem_cons.mpr ⟨fun _ => hle, hlast⟩⟩
        next hlt =>
          cases h
          refine ⟨List.mem_cons_self, hq, List.forall_mem_cons.mpr ⟨fun _ => Nat.le_refl _, ?_⟩⟩
          intro r hr hle
          have hbest := hlast r hr hle
          omega
    next hq =>
      obtain ⟨hmem, hstart, hlast⟩ := ih h
      exact ⟨List.mem_cons_of_mem _ hmem, hstart,
        List.forall_mem_cons.mpr ⟨fun hle => absurd hle hq, hlast⟩⟩

/-! ## The walk -/

theorem walk_of_le (h : stop ≤ address) : walk pieces address stop = some [] := by
  rw [walk, dif_neg (Nat.not_lt_of_le h)]

theorem isSome_walk_of_lt (h : address < stop) :
    (walk pieces address stop).isSome ↔ ∃ p, pieceAt? pieces address = some p ∧
      address < p.stop ∧ (walk pieces (min p.stop stop) stop).isSome := by
  rw [walk, dif_pos h]
  cases pieceAt? pieces address with
  | none => simp
  | some p => by_cases hp : address < p.stop <;> simp [hp]

end Walk

/-- The walk gets through where the piece at every address reaches over it. -/
theorem isSome_walk {pieces : List Piece} {address stop : Nat}
    (h : ∀ a, address ≤ a → a < stop → ∃ p, pieceAt? pieces a = some p ∧ a < p.stop) :
    (walk pieces address stop).isSome := by
  by_cases hlt : address < stop
  · obtain ⟨p, hp, hreach⟩ := h address (Nat.le_refl _) hlt
    refine (isSome_walk_of_lt hlt).mpr ⟨p, hp, hreach, ?_⟩
    exact isSome_walk fun a ha => h a (by omega)
  · rw [walk_of_le (Nat.le_of_not_lt hlt)]
    rfl
termination_by stop - address

/-- Where the walk gets through, some piece has every octet. -/
theorem exists_of_isSome_walk {pieces : List Piece} {address stop : Nat}
    (h : (walk pieces address stop).isSome) {a : Nat} (hfrom : address ≤ a) (hto : a < stop) :
    ∃ p ∈ pieces, p.start ≤ a ∧ a < p.stop := by
  obtain ⟨p, hp, hreach, hrest⟩ := (isSome_walk_of_lt (Nat.lt_of_le_of_lt hfrom hto)).mp h
  obtain ⟨hmem, hstart, -⟩ := pieceAt?_eq_some hp
  by_cases ha : a < p.stop
  · exact ⟨p, hmem, by omega, ha⟩
  · exact exists_of_isSome_walk hrest (by omega) hto
termination_by stop - address

/-! ## The pieces that are kept -/

/-- The store to which these pieces were added in order. -/
def ofPieces (added : List Piece) : ChunkStore := added.foldl insert {}

/-- Of what was added on a handle, the store keeps all that is visible. -/
structure Keeps (added : List Piece) (handle : UInt32) (s : ChunkStore) : Prop where
  subset : ∀ q ∈ s.pieces, q ∈ added
  kept : ∀ p ∈ added, p.handle = handle →
    ∃ q ∈ s.pieces, q.handle = handle ∧ q.start = p.start ∧ p.stop ≤ q.stop
  /-- There is one piece for each address. -/
  unique : ∀ p ∈ s.pieces, ∀ q ∈ s.pieces, p.handle = q.handle → p.start = q.start → p = q

theorem mem_insert {s : ChunkStore} {p q : Piece} :
    q ∈ (s.insert p).pieces ↔
      q ∈ s.pieces ∧ ¬ (q.handle = p.handle ∧ q.start = p.start) ∨ q = p := by
  have hstart : q.offset = p.offset ↔ q.start = p.start := UInt64.toNat_inj.symm
  simp only [ChunkStore.insert, List.mem_append, List.mem_filter, List.mem_singleton,
    Bool.not_eq_true', Bool.and_eq_false_iff, beq_eq_false_iff_ne, ← hstart, ne_eq,
    Decidable.not_and_iff_or_not]

theorem Keeps.insert {added : List Piece} {handle : UInt32} {s : ChunkStore}
    (h : Keeps added handle s) {p : Piece}
    (hgrown : ∀ q ∈ added, q.handle = handle → p.handle = handle → q.start = p.start →
      q.stop ≤ p.stop) : Keeps (added ++ [p]) handle (s.insert p) := by
  refine ⟨fun q hq => ?_, fun q hq hhandle => ?_, fun q hq r hr hhandle hstart => ?_⟩
  · rcases mem_insert.mp hq with ⟨hq, -⟩ | rfl
    · exact List.mem_append_left _ (h.subset q hq)
    · exact List.mem_append_right _ List.mem_cons_self
  · rcases List.mem_append.mp hq with hq | hq
    · obtain ⟨r, hr, hrhandle, hrstart, hrstop⟩ := h.kept q hq hhandle
      by_cases hplace : r.handle = p.handle ∧ r.start = p.start
      · -- The new piece takes the place of the one that stood for `q`.
        have hp : p.handle = handle := hplace.1.symm.trans hrhandle
        have hstart : q.start = p.start := hrstart.symm.trans hplace.2
        exact ⟨p, mem_insert.mpr (.inr rfl), hp, hstart.symm, hgrown q hq hhandle hp hstart⟩
      · exact ⟨r, mem_insert.mpr (.inl ⟨hr, hplace⟩), hrhandle, hrstart, hrstop⟩
    · cases List.mem_singleton.mp hq
      exact ⟨p, mem_insert.mpr (.inr rfl), hhandle, rfl, Nat.le_refl _⟩
  · rcases mem_insert.mp hq with ⟨hq, hqp⟩ | rfl
    · rcases mem_insert.mp hr with ⟨hr, -⟩ | rfl
      · exact h.unique q hq r hr hhandle hstart
      · exact absurd ⟨hhandle, hstart⟩ hqp
    · rcases mem_insert.mp hr with ⟨-, hrp⟩ | rfl
      · exact absurd ⟨hhandle.symm, hstart.symm⟩ hrp
      · rfl

theorem keeps_ofPieces {added : List Piece} {handle : UInt32} (h : Visible added handle) :
    Keeps added handle (ofPieces added) := by
  suffices hfold : ∀ (before after : List Piece) (s : ChunkStore), before ++ after = added →
      Keeps before handle s → Keeps added handle (after.foldl insert s) from
    hfold [] added {} rfl ⟨nofun, nofun, nofun⟩
  intro before after s hadded hs
  induction after generalizing before s with
  | nil =>
    rw [List.append_nil] at hadded
    exact hadded ▸ hs
  | cons p rest ih =>
    refine ih (before ++ [p]) (s.insert p) (by simp [hadded]) (hs.insert fun q hq => ?_)
    have hgrown := hadded ▸ h.grown
    exact (List.pairwise_append.mp hgrown).2.2 q hq p List.mem_cons_self

/-! ## Fetching -/

/-- A range of some octets is found where the walk gets through, short of the last address. -/
theorem isSome_fetch_iff_walk {s : ChunkStore} {handle : UInt32} {offset : UInt64}
    {length : UInt32} (hlength : 0 < length.toNat) :
    (s.fetch handle offset length).isSome ↔
      offset.toNat + length.toNat < UInt64.size ∧
        (walk (s.region handle) offset.toNat (offset.toNat + length.toNat)).isSome := by
  simp only [fetch]
  split
  next hnone =>
    refine iff_of_false nofun fun ⟨hend, hwalk⟩ => ?_
    rcases hnone with hempty | hbeyond
    · obtain ⟨p, hp, -⟩ := exists_of_isSome_walk hwalk (Nat.le_refl _) (by omega)
      rw [List.isEmpty_iff.mp hempty] at hp
      cases hp
    · omega
  next hsome =>
    exact iff_and_self.mpr fun _ => Nat.lt_of_not_le fun h => hsome (.inr h)

/-- The piece at an address that any piece has reaches over it. -/
theorem Keeps.pieceAt?_reaches {added : List Piece} {handle : UInt32} {s : ChunkStore}
    (h : Keeps added handle s) (hvisible : Visible added handle) {p : Piece} (hp : p ∈ added)
    {address : Nat} (hholds : p.Holds handle address) :
    ∃ q, pieceAt? (s.region handle) address = some q ∧ address < q.stop := by
  obtain ⟨hhandle, hstart, hstop⟩ := hholds
  obtain ⟨r, hr, hrhandle, hrstart, hrstop⟩ := h.kept p hp hhandle
  have hrmem : r ∈ s.region handle := List.mem_filter.mpr ⟨hr, by simp [hrhandle]⟩
  cases hat : pieceAt? (s.region handle) address with
  | none =>
    have hbehind := pieceAt?_eq_none hat r hrmem
    omega
  | some q =>
    obtain ⟨hq, -, hlast⟩ := pieceAt?_eq_some hat
    obtain ⟨hq, hqhandle⟩ := List.mem_filter.mp hq
    have hqhandle : q.handle = handle := by simpa using hqhandle
    refine ⟨q, rfl, ?_⟩
    rcases Nat.lt_or_eq_of_le (hlast r hrmem (by omega)) with hlt | heq
    · -- A piece that starts later is not nested in the one that is there for `p`.
      have hnested := hvisible.unnested r (h.subset r hr) q (h.subset q hq) hrhandle hqhandle hlt
      omega
    · rw [← h.unique r hr q hq (hrhandle.trans hqhandle.symm) heq]
      omega

/-- **Exactly what the capture has is found**, as long as no piece hides a part of another one. -/
theorem isSome_fetch_iff {added : List Piece} {handle : UInt32} (hvisible : Visible added handle)
    (hend : ∀ p ∈ added, p.stop < UInt64.size) {offset : UInt64} {length : UInt32}
    (hlength : 0 < length.toNat) :
    ((ofPieces added).fetch handle offset length).isSome ↔
      ∀ address, offset.toNat ≤ address → address < offset.toNat + length.toNat →
        ∃ p ∈ added, p.Holds handle address := by
  have hkeeps := keeps_ofPieces hvisible
  rw [isSome_fetch_iff_walk hlength]
  constructor
  · intro ⟨_, hwalk⟩ address hfrom hto
    obtain ⟨p, hp, hstart, hstop⟩ := exists_of_isSome_walk hwalk hfrom hto
    obtain ⟨hp, hhandle⟩ := List.mem_filter.mp hp
    exact ⟨p, hkeeps.subset p hp, by simpa using hhandle, hstart, hstop⟩
  · intro hcovered
    constructor
    · obtain ⟨p, hp, -, -, hstop⟩ :=
        hcovered (offset.toNat + length.toNat - 1) (by omega) (by omega)
      have hpend := hend p hp
      omega
    · refine isSome_walk fun address hfrom hto => ?_
      obtain ⟨p, hp, hholds⟩ := hcovered address hfrom hto
      exact hkeeps.pieceAt?_reaches hvisible hp hholds

/-- Two transfers that overlap, the second one of them captured twice, give all their octets. -/
theorem isSome_fetch_iff_overlapping :
    let added : List Piece := [⟨7, 0, [1, 2, 3, 4]⟩, ⟨7, 2, [3, 4, 5, 6]⟩, ⟨7, 2, [3, 4, 5, 6]⟩]
    ((ofPieces added).fetch 7 1 5).isSome ↔
      ∀ address, 1 ≤ address → address < 6 → ∃ p ∈ added, p.Holds 7 address :=
  isSome_fetch_iff ⟨by decide, by decide⟩ (by decide) (by decide)

/-- The octets at 4 and 5 were captured, but the piece at 2 is in front of them. -/
theorem fetch_behind_nested :
    let added : List Piece := [⟨7, 0, [1, 2, 3, 4, 5, 6, 7, 8]⟩, ⟨7, 2, [3, 4]⟩]
    (ofPieces added).fetch 7 4 2 = none ∧
      ∀ address, 4 ≤ address → address < 6 → ∃ p ∈ added, p.Holds 7 address := by
  refine ⟨by decide +kernel, fun address _ hto => ⟨_, List.mem_cons_self, rfl, ?_, ?_⟩⟩
  · exact Nat.zero_le _
  · exact Nat.lt_trans hto (by decide)

end ChunkStore

end NfsWire.Rdma
