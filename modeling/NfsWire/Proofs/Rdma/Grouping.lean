import Mathlib.Data.List.Chain
import NfsWire.Proofs.Rdma.Wire

/-!
# Entries of the read list, grouped

`groupReads` makes chunks of neighbouring entries that share a position. What has to be known of it
is said once, by `Grouped`: taken apart again, the chunks are the entries (`flat`), two neighbours
have different positions (`apart`), no chunk is empty (`full`), and each knows where its first entry
stands in the header (`marks`). The proof goes along the list from its end, as the function does: an
entry is put in front of a grouping, as a chunk of its own or into the first one.

A list of entries has only one such grouping, so the chunks of a header hold no less than its lists
(`ListedChunks.listed_chunks`).
-/

namespace NfsWire.Rdma

/-- The entries of a read chunk. -/
def ReadChunk.entries (c : ReadChunk) : List ReadEntry := c.segments.map fun s => ⟨c.position, s⟩

/-- The chunks of a header, entry by entry. -/
def ChunkLists.listed (chunks : ChunkLists) : ListedChunks :=
  { entries := chunks.reads.flatMap ReadChunk.entries, writes := chunks.writes,
    reply := chunks.reply }

theorem ReadChunk.length_entries (c : ReadChunk) : c.entries.length = c.segments.length :=
  List.length_map ..

/-- These are the chunks of the entries, the first of which is number `k` of the read list. -/
structure Grouped (k : Nat) (entries : List ReadEntry) (chunks : List ReadChunk) : Prop where
  flat : chunks.flatMap ReadChunk.entries = entries
  apart : chunks.IsChain (·.position ≠ ·.position)
  full : ∀ c ∈ chunks, c.segments ≠ []
  marks : ∀ before c after, chunks = before ++ c :: after →
    c.offset = entryOffset (k + (before.flatMap ReadChunk.entries).length)

section Grouped

variable {k : Nat} {e : ReadEntry} {entries : List ReadEntry} {c : ReadChunk}
  {chunks : List ReadChunk}

theorem grouped_nil (k : Nat) : Grouped k [] [] where
  flat := rfl
  apart := .nil
  full := nofun
  marks before c after h := by simp at h

/-- An entry becomes a chunk of its own in front of one of another position. -/
theorem Grouped.alone (h : Grouped (k + 1) entries chunks)
    (hne : ∀ c ∈ chunks.head?, e.position ≠ c.position) :
    Grouped k (e :: entries) (⟨e.position, entryOffset k, [e.segment]⟩ :: chunks) where
  flat := by
    rw [List.flatMap_cons, h.flat]
    rfl
  apart := List.isChain_cons.mpr ⟨hne, h.apart⟩
  full := List.forall_mem_cons.mpr ⟨List.cons_ne_nil _ _, h.full⟩
  marks before c after hchunks := by
    cases before with
    | nil =>
      cases hchunks
      rfl
    | cons first before =>
      obtain ⟨rfl, htail⟩ := List.cons.inj hchunks
      rw [h.marks before c after htail, List.flatMap_cons, List.length_append,
        ReadChunk.length_entries, List.length_singleton, Nat.add_assoc]

/-- An entry joins the chunk of its position. -/
theorem Grouped.join (h : Grouped (k + 1) entries (c :: chunks)) (heq : c.position = e.position) :
    Grouped k (e :: entries) (⟨e.position, entryOffset k, e.segment :: c.segments⟩ :: chunks) where
  flat := by
    rw [← h.flat, List.flatMap_cons, List.flatMap_cons, ReadChunk.entries, ReadChunk.entries, heq]
    rfl
  apart := by
    obtain ⟨hne, hchunks⟩ := List.isChain_cons.mp h.apart
    exact List.isChain_cons.mpr ⟨fun d hd => heq ▸ hne d hd, hchunks⟩
  full := List.forall_mem_cons.mpr
    ⟨List.cons_ne_nil _ _, fun d hd => h.full d (List.mem_cons_of_mem _ hd)⟩
  marks before d after hchunks := by
    cases before with
    | nil =>
      cases hchunks
      rfl
    | cons first before =>
      obtain ⟨rfl, rfl⟩ := List.cons.inj hchunks
      rw [h.marks (c :: before) d after rfl]
      simp only [List.flatMap_cons, List.length_append, ReadChunk.length_entries,
        List.length_cons]
      congr 1
      omega

/-- **Grouping the entries of a read list loses none and joins no two positions.** -/
theorem grouped_groupReads (k : Nat) (entries : List ReadEntry) :
    Grouped k entries (groupReads k entries) := by
  induction entries generalizing k with
  | nil => exact grouped_nil k
  | cons e rest ih =>
    have hrest := ih (k + 1)
    rw [groupReads]
    split
    next hgroups =>
      rw [hgroups] at hrest
      exact hrest.alone (by simp)
    next c chunks hgroups =>
      rw [hgroups] at hrest
      split
      next heq => exact hrest.join heq
      next hne =>
        refine hrest.alone fun d hd => ?_
        cases hd
        exact Ne.symm hne

/-! ## Positions of groups and of entries -/

/-- The entries at one position. -/
def segmentsAt (entries : List ReadEntry) (position : UInt32) : List Segment :=
  (entries.filter (·.position == position)).map (·.segment)

theorem ReadChunk.mem_entries {e : ReadEntry} {c : ReadChunk} :
    e ∈ c.entries ↔ e.position = c.position ∧ e.segment ∈ c.segments := by
  simp only [ReadChunk.entries, List.mem_map]
  constructor
  · rintro ⟨s, hs, rfl⟩
    exact ⟨rfl, hs⟩
  · rintro ⟨hposition, hsegment⟩
    exact ⟨e.segment, hsegment, by rw [← hposition]⟩

/-- Each chunk has an entry. -/
theorem Grouped.exists_entry (h : Grouped k entries chunks) (hc : c ∈ chunks) :
    ∃ e ∈ c.entries, e.position = c.position := by
  obtain ⟨s, hs⟩ := List.exists_mem_of_ne_nil _ (h.full c hc)
  exact ⟨⟨c.position, s⟩, ReadChunk.mem_entries.mpr ⟨rfl, hs⟩, rfl⟩

theorem Grouped.forall_iff (h : Grouped k entries chunks) {p : UInt32 → Prop} :
    (∀ c ∈ chunks, p c.position) ↔ ∀ e ∈ entries, p e.position := by
  constructor
  · intro hchunks e he
    rw [← h.flat, List.mem_flatMap] at he
    obtain ⟨c, hc, he⟩ := he
    rw [(ReadChunk.mem_entries.mp he).1]
    exact hchunks c hc
  · intro hentries c hc
    obtain ⟨e, he, hposition⟩ := h.exists_entry hc
    rw [← hposition]
    exact hentries e (h.flat ▸ List.mem_flatMap.mpr ⟨c, hc, he⟩)

theorem Grouped.exists_iff (h : Grouped k entries chunks) {p : UInt32 → Prop} :
    (∃ c ∈ chunks, p c.position) ↔ ∃ e ∈ entries, p e.position := by
  constructor
  · rintro ⟨c, hc, hp⟩
    obtain ⟨e, he, hposition⟩ := h.exists_entry hc
    exact ⟨e, h.flat ▸ List.mem_flatMap.mpr ⟨c, hc, he⟩, hposition ▸ hp⟩
  · rintro ⟨e, he, hp⟩
    rw [← h.flat, List.mem_flatMap] at he
    obtain ⟨c, hc, he⟩ := he
    exact ⟨c, hc, (ReadChunk.mem_entries.mp he).1 ▸ hp⟩

/-- The positions of the chunks do not decrease if and only if those of the entries do not. -/
theorem Grouped.pairwise_iff (h : Grouped k entries chunks) :
    chunks.Pairwise (·.position ≤ ·.position) ↔ entries.Pairwise (·.position ≤ ·.position) := by
  rw [← h.flat, List.pairwise_flatMap]
  constructor
  · intro hchunks
    refine ⟨fun c hc => ?_, hchunks.imp fun hle e he e' he' => ?_⟩
    · exact List.pairwise_map.mpr (List.pairwise_of_forall fun _ _ => UInt32.le_refl _)
    · rw [(ReadChunk.mem_entries.mp he).1, (ReadChunk.mem_entries.mp he').1]
      exact hle
  · rintro ⟨-, hchunks⟩
    refine hchunks.imp_of_mem fun hc hd hle => ?_
    obtain ⟨e, he, hposition⟩ := h.exists_entry hc
    obtain ⟨e', he', hposition'⟩ := h.exists_entry hd
    rw [← hposition, ← hposition']
    exact hle e he e' he'

/-- **Positions of neighbours that do not decrease do increase**, because they differ. -/
theorem pairwise_lt_of_apart (hapart : chunks.IsChain (·.position ≠ ·.position))
    (hle : chunks.Pairwise (·.position ≤ ·.position)) :
    chunks.Pairwise (·.position < ·.position) := by
  induction chunks with
  | nil => exact .nil
  | cons c rest ih =>
    obtain ⟨hne, hapart⟩ := List.isChain_cons.mp hapart
    obtain ⟨hfirst, hle⟩ := List.pairwise_cons.mp hle
    refine .cons (fun d hd => ?_) (ih hapart hle)
    -- The next chunk lies behind this one, and the others not before the next.
    cases rest with
    | nil => cases hd
    | cons next rest =>
      have hnext : c.position < next.position :=
        UInt32.lt_of_le_of_ne (hfirst next List.mem_cons_self) (hne next rfl)
      rcases List.mem_cons.mp hd with rfl | hd
      · exact hnext
      · exact UInt32.lt_of_lt_of_le hnext ((List.pairwise_cons.mp hle).1 d hd)

/-- Where positions increase, a chunk has all segments at its position. -/
theorem Grouped.segmentsAt_eq (h : Grouped k entries chunks)
    (hlt : chunks.Pairwise (·.position < ·.position)) (hc : c ∈ chunks) :
    segmentsAt entries c.position = c.segments := by
  obtain ⟨before, after, rfl⟩ := List.append_of_mem hc
  obtain ⟨-, hafter, hbefore⟩ := List.pairwise_append.mp hlt
  have hnone {others : List ReadChunk} (hne : ∀ d ∈ others, d.position ≠ c.position) :
      (others.flatMap ReadChunk.entries).filter (·.position == c.position) = [] := by
    refine List.filter_eq_nil_iff.mpr fun e he => ?_
    obtain ⟨d, hd, he⟩ := List.mem_flatMap.mp he
    rw [beq_iff_eq, (ReadChunk.mem_entries.mp he).1]
    exact hne d hd
  have hall : c.entries.filter (·.position == c.position) = c.entries :=
    List.filter_eq_self.mpr fun e he => beq_iff_eq.mpr (ReadChunk.mem_entries.mp he).1
  have hfront := hnone fun d hd => UInt32.ne_of_lt (hbefore d hd c List.mem_cons_self)
  have hback := hnone fun d hd => (UInt32.ne_of_lt ((List.pairwise_cons.mp hafter).1 d hd)).symm
  rw [segmentsAt, ← h.flat, List.flatMap_append, List.flatMap_cons, List.filter_append,
    List.filter_append, hfront, hall, hback, List.nil_append, List.append_nil, ReadChunk.entries,
    List.map_map]
  exact List.map_id _

/-- The list starts where its first chunk does. -/
theorem Grouped.head?_eq (h : Grouped k entries chunks) :
    chunks.head?.map (·.position) = entries.head?.map (·.position) := by
  rw [← h.flat]
  cases chunks with
  | nil => rfl
  | cons c rest =>
    obtain ⟨s, segments, hsegments⟩ := List.exists_cons_of_ne_nil (h.full c List.mem_cons_self)
    rw [List.flatMap_cons, ReadChunk.entries, hsegments]
    rfl

end Grouped

/-- The read chunks of a header are those of its entries. -/
theorem ListedChunks.grouped (l : ListedChunks) : Grouped 0 l.entries l.chunks.reads :=
  grouped_groupReads 0 l.entries

theorem ListedChunks.listed_chunks (l : ListedChunks) : l.chunks.listed = l := by
  have hflat := l.grouped.flat
  cases l
  simp only [ListedChunks.chunks, ChunkLists.listed] at hflat ⊢
  rw [hflat]

theorem ListedChunks.chunks_inj {l l' : ListedChunks} (h : l.chunks = l'.chunks) : l = l' := by
  rw [← l.listed_chunks, h, l'.listed_chunks]

end NfsWire.Rdma
