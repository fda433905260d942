import NfsWire.Proofs.Rpc.Framing

/-!
# The two readings of a stream

A stream is read twice: once over its marks, for the sum of the lengths they announce, and once
over its fragments, which are joined. Both are compared with what the stream *is*, without any
reading: a row of fragments with their marks.

* What is joined is a framed record, and all framed records are joined (`splitRecord_ok_iff`).
* A mark is reached if nothing but complete fragments is in front of it, none of them the last
  (`MarkAt`). The walk over the marks stops at the first one whose sum exceeds the limit, and at no
  other (`overrun?_eq_some_iff`).

The last mark of a record is reached, and its sum is the length of the record. So if the record is
there and within the limit, no mark is beyond it; and if a mark is beyond it, the record is too long
or not there. That is why it does not matter which reading goes first (`readings_agree`).
-/

namespace NfsWire.Rpc

/-! ## Marks -/

namespace RecordMark

theorem length_ofWord_lt (w : Nat) : (ofWord w).length < 0x80000000 :=
  Nat.mod_lt _ (by decide)

theorem word_ofWord {w : Nat} (h : w < Nat.pow 256 4) : (ofWord w).word = Bytes.ofNat 4 w := by
  have hlt : w < 4294967296 := h
  have hword : (if 0x80000000 ≤ w then 0x80000000 else 0) + w % 0x80000000 = w := by
    split <;> omega
  simp only [word, ofWord, decide_eq_true_eq, hword]

/-- A mark is read where its word stands. -/
theorem read_ok_iff {input rest : Bytes} {mark : RecordMark} :
    read input = .ok (mark, rest) ↔ mark.length < 0x80000000 ∧ input = mark.word ++ rest := by
  constructor
  · intro h
    unfold read at h
    split at h
    next a b c d tail =>
      cases h
      have hlt : Bytes.toNat [a, b, c, d] < Nat.pow 256 4 := Bytes.toNat_lt [a, b, c, d]
      have hword : Bytes.ofNat 4 (Bytes.toNat [a, b, c, d]) = [a, b, c, d] :=
        Bytes.ofNat_toNat [a, b, c, d]
      rw [word_ofWord hlt, hword]
      exact ⟨length_ofWord_lt _, rfl⟩
    next => cases h
    next => cases h
  · rintro ⟨hlength, rfl⟩
    exact read_word hlength rest

end RecordMark

/-! ## Joined records -/

/-- **What is joined is a framed record, and what follows it is left.** -/
theorem splitRecord_ok_iff {input record rest : Bytes} :
    splitRecord input = .ok (record, rest) ↔
      ∃ fragments, Fragments fragments ∧ input = frame fragments ++ rest ∧
        record = fragments.flatten := by
  constructor
  · intro h
    cases hread : RecordMark.read input with
    | error n =>
      rw [splitRecord_error hread] at h
      cases h
    | ok read =>
      obtain ⟨mark, tail⟩ := read
      obtain ⟨hmark, hinput⟩ := RecordMark.read_ok_iff.mp hread
      rw [splitRecord_mark hread] at h
      split at h
      next => cases h
      next hcomplete =>
        have hlength : (tail.take mark.length).length = mark.length := by
          rw [List.length_take]
          omega
        have hshort : (tail.take mark.length).length < 0x80000000 := by rwa [hlength]
        split at h
        next hlast =>
          cases h
          refine ⟨[tail.take mark.length],
            ⟨List.cons_ne_nil _ _, List.forall_mem_singleton.mpr hshort⟩, ?_, ?_⟩
          · have hword : RecordMark.word ⟨true, mark.length⟩ = mark.word := by rw [← hlast]
            simp [frame, hinput, hlength, hword]
          · simp
        next hlast =>
          cases hmore : splitRecord (tail.drop mark.length) with
          | error n =>
            rw [hmore] at h
            cases h
          | ok more =>
            obtain ⟨more, left⟩ := more
            rw [hmore] at h
            cases h
            obtain ⟨fragments, hfragments, hdrop, rfl⟩ := splitRecord_ok_iff.mp hmore
            refine ⟨tail.take mark.length :: fragments, ⟨List.cons_ne_nil _ _, ?_⟩, ?_, rfl⟩
            · exact List.forall_mem_cons.mpr ⟨hshort, hfragments.short⟩
            · have hnonempty : fragments.isEmpty = false := by simp [hfragments.nonempty]
              have hword : RecordMark.word ⟨false, mark.length⟩ = mark.word := by
                rw [← (Bool.not_eq_true _).mp hlast]
              rw [frame, hlength, hnonempty, hword, List.append_assoc, List.append_assoc, ← hdrop,
                List.take_append_drop]
              exact hinput
  · rintro ⟨fragments, hfragments, rfl, rfl⟩
    exact splitRecord_frame hfragments rest
termination_by input.length
decreasing_by
  have := RecordMark.length_of_read hread
  simp only [List.length_drop]
  omega

/-! ## Marks of a record -/

/-- Fragments of a record that goes on behind them, with their marks. -/
def begun (fragments : List Bytes) : Bytes :=
  fragments.flatMap fun fragment => RecordMark.word ⟨false, fragment.length⟩ ++ fragment

/-- The last fragment is framed like the others, but for its mark. -/
theorem frame_concat (fragments : List Bytes) (last : Bytes) :
    frame (fragments ++ [last]) =
      begun fragments ++ (RecordMark.word ⟨true, last.length⟩ ++ last) := by
  induction fragments with
  | nil => simp [frame, begun]
  | cons fragment rest ih =>
    have hmore : (rest ++ [last]).isEmpty = false := by simp
    rw [List.cons_append, frame, hmore, ih]
    simp [begun]

/-- At `offset` stands a mark of the first record that is reached through complete fragments, and
the lengths of these and its own sum up to `sum`. The data of the mark need not be there. -/
def MarkAt (input : Bytes) (offset sum : Nat) : Prop :=
  ∃ (fragments : List Bytes) (mark : RecordMark),
    (∀ fragment ∈ fragments, fragment.length < 0x80000000) ∧ mark.length < 0x80000000 ∧
    begun fragments ++ mark.word <+: input ∧
    offset = (begun fragments).length ∧ sum = fragments.flatten.length + mark.length

/-- The first mark whose sum exceeds `max`. -/
structure FirstExcess (input : Bytes) (max offset sum : Nat) : Prop where
  mark : MarkAt input offset sum
  excess : max < sum
  first : ∀ offset' sum', MarkAt input offset' sum' → max < sum' → offset ≤ offset'

section MarkAt

variable {input rest : Bytes} {mark : RecordMark} {max total offset sum : Nat}

/-- Where no mark can be read, none is reached. -/
theorem not_markAt {n : Nat} (h : RecordMark.read input = .error n) :
    ¬ MarkAt input offset sum := by
  rintro ⟨fragments, mark, hshort, hmark, hinput, -⟩
  -- The first of the marks that are passed would be read.
  obtain ⟨first, tail, hfirst, htail⟩ :
      ∃ (first : RecordMark) (tail : Bytes), first.length < 0x80000000 ∧
        first.word ++ tail = begun fragments ++ mark.word := by
    cases fragments with
    | nil => exact ⟨mark, [], hmark, by simp [begun]⟩
    | cons fragment more =>
      exact ⟨⟨false, fragment.length⟩, fragment ++ (begun more ++ mark.word),
        hshort fragment List.mem_cons_self, by simp [begun]⟩
  obtain ⟨after, rfl⟩ := hinput
  rw [← htail, List.append_assoc, RecordMark.read_word hfirst] at h
  cases h

/-- A mark is the first one, or it is reached behind the fragment of the first one. -/
theorem markAt_iff (h : RecordMark.read input = .ok (mark, rest)) :
    MarkAt input offset sum ↔
      (offset = 0 ∧ sum = mark.length) ∨
      (mark.last = false ∧ mark.length ≤ rest.length ∧
        ∃ offset' sum', MarkAt (rest.drop mark.length) offset' sum' ∧
          offset = 4 + mark.length + offset' ∧ sum = mark.length + sum') := by
  obtain ⟨hlength, rfl⟩ := RecordMark.read_ok_iff.mp h
  constructor
  · rintro ⟨fragments, reached, hshort, hreached, hinput, rfl, rfl⟩
    cases fragments with
    | nil =>
      obtain ⟨after, hafter⟩ := hinput
      rw [← hafter, begun, List.flatMap_nil, List.nil_append, RecordMark.read_word hreached] at h
      cases h
      exact .inl ⟨rfl, by simp⟩
    | cons fragment more =>
      obtain ⟨after, hafter⟩ := hinput
      have hfirst : (RecordMark.mk false fragment.length).length < 0x80000000 :=
        hshort fragment List.mem_cons_self
      have hread := RecordMark.read_word hfirst (fragment ++ (begun more ++ reached.word ++ after))
      have hsame : RecordMark.word ⟨false, fragment.length⟩ ++
          (fragment ++ (begun more ++ reached.word ++ after)) = mark.word ++ rest := by
        rw [← hafter]
        simp [begun]
      rw [hsame, h] at hread
      cases hread
      refine .inr ⟨rfl, by simp, _, _, ⟨more, reached, ?_, hreached, ?_, rfl, rfl⟩, ?_, ?_⟩
      · exact fun f hf => hshort f (List.mem_cons_of_mem _ hf)
      · rw [List.drop_left]
        exact ⟨after, rfl⟩
      · simp [begun]
        omega
      · simp
        omega
  · rintro (⟨rfl, rfl⟩ | ⟨hlast, hcomplete, offset', sum', hmore, rfl, rfl⟩)
    · exact ⟨[], mark, nofun, hlength, by simp [begun], rfl, by simp⟩
    · obtain ⟨fragments, reached, hshort, hreached, ⟨after, hafter⟩, rfl, rfl⟩ := hmore
      have htake : (rest.take mark.length).length = mark.length := by
        rw [List.length_take]
        omega
      have hword : RecordMark.word ⟨false, mark.length⟩ = mark.word := by rw [← hlast]
      refine ⟨rest.take mark.length :: fragments, reached, ?_, hreached, ⟨after, ?_⟩, ?_, ?_⟩
      · exact List.forall_mem_cons.mpr ⟨by omega, hshort⟩
      · rw [begun, List.flatMap_cons, htake, hword, List.append_assoc, List.append_assoc,
          List.append_assoc, ← begun, ← List.append_assoc (begun fragments), hafter,
          List.take_append_drop]
      · simp [begun, htake]
        omega
      · simp [htake]
        omega

/-- The first mark is reached with its own length. -/
theorem markAt_head (h : RecordMark.read input = .ok (mark, rest)) : MarkAt input 0 mark.length :=
  (markAt_iff h).mpr (.inl ⟨rfl, rfl⟩)

/-- The last mark of a record is reached, with the length of the record. -/
theorem markAt_frame {fragments : List Bytes} (h : Fragments fragments) (after : Bytes) :
    ∃ offset, MarkAt (frame fragments ++ after) offset fragments.flatten.length := by
  obtain ⟨front, last, rfl⟩ : ∃ front last, fragments = front ++ [last] :=
    ⟨_, _, (List.dropLast_concat_getLast h.nonempty).symm⟩
  refine ⟨(begun front).length, front, ⟨true, last.length⟩, ?_, ?_, ?_, rfl, ?_⟩
  · exact fun f hf => h.short f (List.mem_append_left _ hf)
  · exact h.short last (List.mem_append_right _ List.mem_cons_self)
  · rw [frame_concat]
    exact ⟨last ++ after, by simp⟩
  · simp

/-! ## The walk over the marks -/

theorem FirstExcess.of_head (h : RecordMark.read input = .ok (mark, rest))
    (hexcess : max < mark.length) :
    FirstExcess input max offset sum ↔ offset = 0 ∧ sum = mark.length := by
  constructor
  · intro hfirst
    have hzero := hfirst.first 0 _ (markAt_head h) hexcess
    rcases (markAt_iff h).mp hfirst.mark with hhead | ⟨-, -, _, _, -, hoffset, -⟩
    · exact hhead
    · omega
  · rintro ⟨rfl, rfl⟩
    exact ⟨markAt_head h, hexcess, fun _ _ _ _ => Nat.zero_le _⟩

/-- Behind a fragment that is within the limit, the limit is less by its length. -/
theorem FirstExcess.of_tail (h : RecordMark.read input = .ok (mark, rest))
    (hwithin : mark.length ≤ max) (hlast : mark.last = false)
    (hcomplete : mark.length ≤ rest.length) :
    FirstExcess input max offset sum ↔
      ∃ offset' sum', FirstExcess (rest.drop mark.length) (max - mark.length) offset' sum' ∧
        offset = 4 + mark.length + offset' ∧ sum = mark.length + sum' := by
  have hstep {o s : Nat} (hmark : MarkAt (rest.drop mark.length) o s) :
      MarkAt input (4 + mark.length + o) (mark.length + s) :=
    (markAt_iff h).mpr (.inr ⟨hlast, hcomplete, o, s, hmark, rfl, rfl⟩)
  constructor
  · rintro ⟨hmark, hexcess, hfirst⟩
    rcases (markAt_iff h).mp hmark with ⟨-, rfl⟩ | ⟨-, -, offset', sum', hmark', rfl, rfl⟩
    · omega
    · refine ⟨offset', sum', ⟨hmark', by omega, fun o s ho hs => ?_⟩, rfl, rfl⟩
      have := hfirst _ _ (hstep ho) (by omega)
      omega
  · rintro ⟨offset', sum', ⟨hmark, hexcess, hfirst⟩, rfl, rfl⟩
    refine ⟨hstep hmark, by omega, fun o s ho hs => ?_⟩
    rcases (markAt_iff h).mp ho with ⟨-, rfl⟩ | ⟨-, -, o', s', ho', rfl, rfl⟩
    · omega
    · have := hfirst o' s' ho' (by omega)
      omega

end MarkAt

/-- The walk, from a place at which `total` was passed within the limit. -/
theorem overrunFrom?_eq_some_iff {input : Bytes} {max total offset sum place : Nat}
    (htotal : total ≤ max) :
    overrunFrom? max input total offset = some (sum, place) ↔
      ∃ offset' sum', FirstExcess input (max - total) offset' sum' ∧
        place = offset + offset' ∧ sum = total + sum' := by
  cases hread : RecordMark.read input with
  | error n =>
    rw [overrunFrom?_error hread]
    exact iff_of_false nofun fun ⟨_, _, hfirst, _⟩ => not_markAt hread hfirst.mark
  | ok read =>
    obtain ⟨mark, rest⟩ := read
    rw [overrunFrom?_mark hread]
    split
    next hexcess =>
      have hhead : max - total < mark.length := by omega
      simp only [Option.some.injEq, Prod.mk.injEq, FirstExcess.of_head hread hhead]
      constructor
      · rintro ⟨rfl, rfl⟩
        exact ⟨0, mark.length, ⟨rfl, rfl⟩, rfl, rfl⟩
      · rintro ⟨_, _, ⟨rfl, rfl⟩, rfl, rfl⟩
        exact ⟨rfl, rfl⟩
    next hwithin =>
      split
      next hend =>
        -- There is no mark but the first.
        refine iff_of_false nofun ?_
        rintro ⟨_, _, hfirst, -⟩
        have hexcess := hfirst.excess
        rcases (markAt_iff hread).mp hfirst.mark with ⟨-, rfl⟩ | ⟨hlast, hcomplete, -⟩
        · omega
        · rcases hend with hend | hend
          · rw [hlast] at hend
            cases hend
          · omega
      next hmore =>
        rw [not_or, Bool.not_eq_true, Nat.not_lt] at hmore
        obtain ⟨hlast, hcomplete⟩ := hmore
        rw [overrunFrom?_eq_some_iff (by omega)]
        have hleft : mark.length ≤ max - total := by omega
        simp only [FirstExcess.of_tail hread hleft hlast hcomplete, Nat.sub_sub]
        constructor
        · rintro ⟨o, s, hfirst, rfl, rfl⟩
          exact ⟨_, _, ⟨o, s, hfirst, rfl, rfl⟩, by omega, by omega⟩
        · rintro ⟨_, _, ⟨o, s, hfirst, rfl, rfl⟩, rfl, rfl⟩
          exact ⟨o, s, hfirst, by omega, by omega⟩
termination_by input.length
decreasing_by
  have := RecordMark.length_of_read hread
  simp only [List.length_drop]
  omega

section Walk

variable {input : Bytes} {max : Nat}

/-- **The walk finds the first mark that is beyond the limit, and nothing else.** -/
theorem overrun?_eq_some_iff {sum offset : Nat} :
    overrun? max input = some (sum, offset) ↔ FirstExcess input max offset sum := by
  rw [overrun?, overrunFrom?_eq_some_iff (Nat.zero_le max)]
  simp

/-- If any mark is beyond the limit, there is a first one. -/
theorem exists_firstExcess {offset sum : Nat} (hmark : MarkAt input offset sum)
    (hexcess : max < sum) : ∃ offset sum, FirstExcess input max offset sum := by
  induction offset using Nat.strongRecOn generalizing sum with
  | ind offset ih =>
    by_cases hearlier : ∃ o s, MarkAt input o s ∧ max < s ∧ o < offset
    · obtain ⟨o, s, ho, hs, hlt⟩ := hearlier
      exact ih o hlt ho hs
    · refine ⟨offset, sum, hmark, hexcess, fun o s ho hs => Nat.le_of_not_lt fun hlt => ?_⟩
      exact hearlier ⟨o, s, ho, hs, hlt⟩

theorem overrun?_eq_none_iff :
    overrun? max input = none ↔ ¬ ∃ offset sum, MarkAt input offset sum ∧ max < sum := by
  rw [Option.eq_none_iff_forall_ne_some]
  constructor
  · rintro hnone ⟨offset, sum, hmark, hexcess⟩
    obtain ⟨o, s, hfirst⟩ := exists_firstExcess hmark hexcess
    exact hnone (s, o) (overrun?_eq_some_iff.mpr hfirst)
  · rintro hnone ⟨sum, offset⟩ hsome
    have hfirst := overrun?_eq_some_iff.mp hsome
    exact hnone ⟨offset, sum, hfirst.mark, hfirst.excess⟩

/-- Of a record that is there, no mark is beyond its own length, and the last one is at it. -/
theorem overrun?_eq_none_iff_of_splitRecord {record rest : Bytes}
    (h : splitRecord input = .ok (record, rest)) :
    overrun? max input = none ↔ record.length ≤ max := by
  obtain ⟨fragments, hfragments, rfl, rfl⟩ := splitRecord_ok_iff.mp h
  constructor
  · intro hnone
    obtain ⟨offset, hlast⟩ := markAt_frame hfragments rest
    exact Nat.le_of_not_lt fun hexcess =>
      overrun?_eq_none_iff.mp hnone ⟨offset, _, hlast, hexcess⟩
  · intro hfits
    exact overrunFrom?_of_part hfragments (List.prefix_refl _) (by omega) 0

/-! ## Both readings -/

theorem readRecord_ok_iff {record : Bytes} {n : Nat} :
    readRecord input max = .ok (record, n) ↔
      n ≤ input.length ∧ splitRecord input = .ok (record, input.drop n) ∧ record.length ≤ max := by
  constructor
  · intro h
    unfold readRecord at h
    split at h
    · cases h
    next hnone =>
      split at h
      next record' rest hsplit =>
        cases h
        have hfits := (overrun?_eq_none_iff_of_splitRecord hsplit).mp hnone
        obtain ⟨fragments, -, hinput, -⟩ := splitRecord_ok_iff.mp hsplit
        have hrest : input.drop (input.length - rest.length) = rest := by
          rw [hinput, List.length_append, Nat.add_sub_cancel, List.drop_left]
        exact ⟨Nat.sub_le .., hrest.symm ▸ hsplit, hfits⟩
      next => cases h
  · rintro ⟨hinside, hsplit, hfits⟩
    have hnone := (overrun?_eq_none_iff_of_splitRecord hsplit).mpr hfits
    have hused : input.length - (input.drop n).length = n := by
      rw [List.length_drop]
      omega
    simp only [readRecord, hnone, hsplit, hused]

theorem readRecord_tooLong_iff {length limit : UInt32} {offset : Nat} :
    readRecord input max = .error (framingError (.tooLong length limit) offset) ↔
      ∃ sum, FirstExcess input max offset sum ∧ length = clampWord sum ∧ limit = clampWord max := by
  constructor
  · intro h
    unfold readRecord at h
    split at h
    next sum place hsome =>
      cases h
      exact ⟨sum, overrun?_eq_some_iff.mp hsome, rfl, rfl⟩
    next =>
      split at h
      · cases h
      · cases h
  · rintro ⟨sum, hfirst, rfl, rfl⟩
    simp only [readRecord, overrun?_eq_some_iff.mpr hfirst]

theorem readRecord_truncated_iff :
    (∃ needed, readRecord input max = .error (framingError (.truncated needed) input.length)) ↔
      (¬ ∃ record rest, splitRecord input = .ok (record, rest) ∧ record.length ≤ max) ∧
        ¬ ∃ offset sum, MarkAt input offset sum ∧ max < sum := by
  rw [← overrun?_eq_none_iff]
  constructor
  · rintro ⟨needed, h⟩
    unfold readRecord at h
    split at h
    · cases h
    next hnone =>
      refine ⟨?_, hnone⟩
      rintro ⟨record, rest, hsplit, -⟩
      rw [hsplit] at h
      cases h
  · rintro ⟨hnorecord, hnone⟩
    cases hsplit : splitRecord input with
    | ok taken =>
      obtain ⟨record, rest⟩ := taken
      have hfits := (overrun?_eq_none_iff_of_splitRecord hsplit).mp hnone
      exact absurd ⟨record, rest, hsplit, hfits⟩ hnorecord
    | error needed => exact ⟨needed, by simp only [readRecord, hnone, hsplit]⟩

end Walk

/-- **The two readings of a stream agree.** A record is read if it can be joined, leaving what
follows it, and is within the limit. It is refused as too long at the first mark that is beyond the
limit, if there is such a mark, whether or not its data has come. In all other cases more octets are
asked for, at the end of the stream. And what is joined is what was framed, whatever follows it. -/
theorem readings_agree (input : Bytes) (max : Nat) :
    (∀ record n, readRecord input max = .ok (record, n) ↔
      n ≤ input.length ∧ splitRecord input = .ok (record, input.drop n) ∧
        record.length ≤ max) ∧
    (∀ length limit offset,
      readRecord input max = .error (framingError (.tooLong length limit) offset) ↔
        ∃ sum, FirstExcess input max offset sum ∧ length = clampWord sum ∧
          limit = clampWord max) ∧
    ((∃ offset sum, FirstExcess input max offset sum) ↔
      ∃ offset sum, MarkAt input offset sum ∧ max < sum) ∧
    ((∃ needed, readRecord input max = .error (framingError (.truncated needed) input.length)) ↔
      (¬ ∃ record rest, splitRecord input = .ok (record, rest) ∧ record.length ≤ max) ∧
        ¬ ∃ offset sum, MarkAt input offset sum ∧ max < sum) ∧
    ∀ fragments after, Fragments fragments →
      splitRecord (frame fragments ++ after) = .ok (fragments.flatten, after) := by
  refine ⟨fun record n => readRecord_ok_iff, fun length limit offset => readRecord_tooLong_iff,
    ⟨?_, ?_⟩, readRecord_truncated_iff, fun fragments after h => splitRecord_frame h after⟩
  · rintro ⟨offset, sum, hfirst⟩
    exact ⟨offset, sum, hfirst.mark, hfirst.excess⟩
  · rintro ⟨offset, sum, hmark, hexcess⟩
    exact exists_firstExcess hmark hexcess

/-- A mark of 1 MiB is beyond 4096 octets before any of its data has come. A record of two
fragments, one of them empty, is joined in front of what follows. -/
theorem readings_agree_mark_alone :
    readRecord [0x80, 0x10, 0, 0] 4096 = .error (framingError (.tooLong 0x100000 4096) 0) ∧
      splitRecord (frame [[0, 0, 0, 7], []] ++ [255]) = .ok ([0, 0, 0, 7], [255]) := by
  have hmark : MarkAt [0x80, 0x10, 0, 0] 0 0x100000 :=
    ⟨[], ⟨true, 0x100000⟩, nofun, by decide, ⟨[], rfl⟩, rfl, rfl⟩
  have hfirst : FirstExcess [0x80, 0x10, 0, 0] 4096 0 0x100000 :=
    ⟨hmark, by decide, fun _ _ _ _ => Nat.zero_le _⟩
  have hlong := (readings_agree [0x80, 0x10, 0, 0] 4096).2.1 0x100000 4096 0
  have hjoined := (readings_agree [] 0).2.2.2.2 [[0, 0, 0, 7], []] [255]
  exact ⟨hlong.mpr ⟨_, hfirst, rfl, rfl⟩, hjoined ⟨by decide, by decide⟩⟩

end NfsWire.Rpc
