import NfsWire.Bytes
import NfsWire.Rpc.Record

/-!
# Writing records

`frame` is the other direction of `readRecord`: it puts a mark in front of each fragment of a
record, and the bit for the last one on none but the last.

* Reading takes a framed record off the front of a stream, whatever follows it
  (`readRecord_frame`).
* Of a framed record that is cut short, however and wherever it is cut, reading asks for more and
  finds nothing wrong (`readRecord_cut`). The walk over the marks sees a part of the marks of the
  whole record, so it finds no excess where the whole has none.
-/

namespace NfsWire.Rpc

/-! ## Marks -/

namespace RecordMark

/-- The four octets of a mark. -/
def word (mark : RecordMark) : Bytes :=
  Bytes.ofNat 4 ((if mark.last then 0x80000000 else 0) + mark.length)

@[simp] theorem length_word (mark : RecordMark) : mark.word.length = 4 := Bytes.length_ofNat ..

theorem read_word {mark : RecordMark} (h : mark.length < 0x80000000) (rest : Bytes) :
    read (mark.word ++ rest) = .ok (mark, rest) := by
  obtain ⟨last, length⟩ := mark
  have hnumber : Bytes.toNat (word ⟨last, length⟩) =
      (if last then 0x80000000 else 0) + length := by
    refine (Bytes.toNat_ofNat ..).trans (Nat.mod_eq_of_lt ?_)
    show (if last then 0x80000000 else 0) + length < 4294967296
    simp only at h
    split <;> omega
  obtain ⟨a, b, c, d, habcd⟩ : ∃ a b c d, word ⟨last, length⟩ = [a, b, c, d] :=
    ⟨_, _, _, _, rfl⟩
  rw [habcd] at hnumber ⊢
  show Except.ok (ofWord (Bytes.toNat [a, b, c, d]), rest) = _
  simp only at h
  rw [hnumber, ofWord]
  cases last with
  | true => simp [Nat.mod_eq_of_lt h]
  | false => simp [Nat.mod_eq_of_lt h, h]

theorem read_short {data : Bytes} (h : data.length < 4) : ∃ n, read data = .error n := by
  unfold read
  split
  · simp only [List.length_cons] at h
    omega
  · exact ⟨1, rfl⟩
  · exact ⟨4, rfl⟩

end RecordMark

/-! ## The steps of the two readings -/

section Steps

variable {input rest : Bytes} {mark : RecordMark} {max total offset : Nat}

theorem splitRecord_error {n : Nat} (h : RecordMark.read input = .error n) :
    splitRecord input = .error n := by
  rw [splitRecord]
  split <;> simp_all

theorem splitRecord_mark (h : RecordMark.read input = .ok (mark, rest)) :
    splitRecord input =
      if rest.length < mark.length then .error (mark.length - rest.length)
      else if mark.last then .ok (rest.take mark.length, rest.drop mark.length)
      else (splitRecord (rest.drop mark.length)).map fun (more, left) =>
        (rest.take mark.length ++ more, left) := by
  rw [splitRecord]
  split
  next n hread =>
    rw [h] at hread
    cases hread
  next mark' rest' hread =>
    rw [h] at hread
    cases hread
    simp only [List.length_take]
    by_cases hshort : rest.length < mark.length
    · have hmin : min mark.length rest.length = rest.length :=
        Nat.min_eq_right (Nat.le_of_lt hshort)
      simp only [hmin, hshort, if_true]
    · have hmin : min mark.length rest.length = mark.length :=
        Nat.min_eq_left (Nat.le_of_not_lt hshort)
      simp only [hmin, hshort, Nat.lt_irrefl, if_false]

theorem overrunFrom?_error {n : Nat} (h : RecordMark.read input = .error n) :
    overrunFrom? max input total offset = none := by
  rw [overrunFrom?]
  split <;> simp_all

theorem overrunFrom?_mark (h : RecordMark.read input = .ok (mark, rest)) :
    overrunFrom? max input total offset =
      if max < total + mark.length then some (total + mark.length, offset)
      else if mark.last ∨ rest.length < mark.length then none
      else overrunFrom? max (rest.drop mark.length) (total + mark.length)
        (offset + 4 + mark.length) := by
  rw [overrunFrom?]
  split
  next n hread =>
    rw [h] at hread
    cases hread
  next mark' rest' hread =>
    rw [h] at hread
    cases hread
    rfl

end Steps

/-! ## Records -/

/-- The fragments of a record with their marks. -/
def frame : List Bytes → Bytes
  | [] => []
  | fragment :: rest =>
    RecordMark.word ⟨rest.isEmpty, fragment.length⟩ ++ (fragment ++ frame rest)

/-- Fragments that make a record: there is one at least, and each has a length that fits its
mark. -/
structure Fragments (fragments : List Bytes) : Prop where
  nonempty : fragments ≠ []
  short : ∀ fragment ∈ fragments, fragment.length < 0x80000000

theorem Fragments.tail {fragment next : Bytes} {more : List Bytes}
    (h : Fragments (fragment :: next :: more)) : Fragments (next :: more) :=
  ⟨nofun, fun f hf => h.short f (List.mem_cons_of_mem _ hf)⟩

variable {fragments : List Bytes}

/-- The fragments are joined, and what follows them is left. -/
theorem splitRecord_frame (h : Fragments fragments) (after : Bytes) :
    splitRecord (frame fragments ++ after) = .ok (fragments.flatten, after) := by
  induction fragments with
  | nil => exact absurd rfl h.nonempty
  | cons fragment rest ih =>
    have hread : RecordMark.read (frame (fragment :: rest) ++ after) =
        .ok (⟨rest.isEmpty, fragment.length⟩, fragment ++ (frame rest ++ after)) := by
      rw [frame, List.append_assoc, List.append_assoc]
      exact RecordMark.read_word (h.short fragment List.mem_cons_self) _
    have hlong : ¬ (fragment ++ (frame rest ++ after)).length < fragment.length := by
      rw [List.length_append]
      omega
    rw [splitRecord_mark hread]
    simp only [hlong, if_false, List.take_left, List.drop_left]
    cases rest with
    | nil => simp [frame]
    | cons next more => simp [ih h.tail, Except.map]

/-! ## Records that are cut short -/

theorem append_of_part {front back data : Bytes} (h : data <+: front ++ back)
    (hlen : front.length ≤ data.length) : ∃ more, data = front ++ more ∧ more <+: back := by
  obtain ⟨more, rfl⟩ := List.prefix_of_prefix_length_le (List.prefix_append front back) h hlen
  exact ⟨more, rfl, (List.prefix_append_right_inj front).mp h⟩

variable {data after : Bytes} {max : Nat}

/-- The marks that are there say no more than all marks of the record do. -/
theorem overrunFrom?_of_part (h : Fragments fragments) (hdata : data <+: frame fragments ++ after)
    {total : Nat} (hfits : total + fragments.flatten.length ≤ max) (offset : Nat) :
    overrunFrom? max data total offset = none := by
  induction fragments generalizing data total offset with
  | nil => exact absurd rfl h.nonempty
  | cons fragment rest ih =>
    by_cases hlen : data.length < 4
    · -- There is no mark to be read, and the walk ends.
      obtain ⟨n, hn⟩ := RecordMark.read_short hlen
      exact overrunFrom?_error hn
    · rw [frame, List.append_assoc, List.append_assoc] at hdata
      obtain ⟨tail, rfl, htail⟩ := append_of_part hdata (by simpa using hlen)
      rw [overrunFrom?_mark (RecordMark.read_word (h.short fragment List.mem_cons_self) tail)]
      rw [List.flatten_cons, List.length_append] at hfits
      have hwithin : ¬ max < total + fragment.length := by omega
      simp only [hwithin, if_false]
      split
      next => rfl
      next hmore =>
        rw [not_or] at hmore
        obtain ⟨hlast, hcomplete⟩ := hmore
        cases rest with
        | nil => exact absurd rfl hlast
        | cons next more =>
          -- The fragment is all there, so the walk goes on behind it.
          obtain ⟨left, rfl, hleft⟩ := append_of_part htail (Nat.le_of_not_lt hcomplete)
          rw [List.drop_left]
          exact ih h.tail hleft (by omega) _

/-- What is cut short is not split. -/
theorem splitRecord_cut (h : Fragments fragments) (hdata : data <+: frame fragments)
    (hcut : data.length < (frame fragments).length) : ∃ n, splitRecord data = .error n := by
  induction fragments generalizing data with
  | nil => exact absurd rfl h.nonempty
  | cons fragment rest ih =>
    by_cases hlen : data.length < 4
    · obtain ⟨n, hn⟩ := RecordMark.read_short hlen
      exact ⟨n, splitRecord_error hn⟩
    · rw [frame] at hdata hcut
      obtain ⟨tail, rfl, htail⟩ := append_of_part hdata (by simpa using hlen)
      rw [splitRecord_mark (RecordMark.read_word (h.short fragment List.mem_cons_self) tail)]
      by_cases hcomplete : tail.length < fragment.length
      · exact ⟨_, if_pos hcomplete⟩
      · obtain ⟨left, rfl, hleft⟩ := append_of_part htail (Nat.le_of_not_lt hcomplete)
        simp only [List.length_append, Nat.add_lt_add_iff_left] at hcut
        simp only [hcomplete, if_false, List.drop_left]
        cases rest with
        | nil => simp [frame] at hcut
        | cons next more =>
          obtain ⟨n, hn⟩ := ih h.tail hleft hcut
          exact ⟨n, by simp [hn, Except.map]⟩

/-! ## Reading what was framed -/

/-- **A framed record within the limit is read from the front of a stream.** -/
theorem readRecord_frame (h : Fragments fragments) (hfits : fragments.flatten.length ≤ max)
    (after : Bytes) :
    readRecord (frame fragments ++ after) max =
      .ok (fragments.flatten, (frame fragments).length) := by
  have hnone : overrun? max (frame fragments ++ after) = none :=
    overrunFrom?_of_part h (List.prefix_refl _) (by omega) 0
  simp [readRecord, hnone, splitRecord_frame h]

/-- **A framed record that is cut short is waited for.** -/
theorem readRecord_cut (h : Fragments fragments) (hfits : fragments.flatten.length ≤ max)
    (hdata : data <+: frame fragments) (hcut : data.length < (frame fragments).length) :
    ∃ e, readRecord data max = .error e ∧ e.fault.isTruncated = true := by
  have hnone : overrun? max data = none :=
    overrunFrom?_of_part h (hdata.trans (List.prefix_append _ [])) (by omega) 0
  obtain ⟨n, hn⟩ := splitRecord_cut h hdata hcut
  exact ⟨framingError (.truncated n) data.length, by simp [readRecord, hnone, hn], rfl⟩

end NfsWire.Rpc
