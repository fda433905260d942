import NfsWire.Proofs.Rpc.Marks

/-!
# What a stream lacks

A stream that ends within its first record is read again when more of it has come, and the error
says how many octets to wait for. It ends in one of two places: within a mark or within the data of
a fragment. All that is in front of that place, complete fragments with their marks, can be taken
off and put back (`splitRecord_begun`), so what is lacking is a matter of the end alone (`Lacks`).

* Within data, the octets asked for are those that the mark announces and that have not come. With
  fewer there is no record.
* Within a mark, a whole mark is asked for, whatever has come of it. What has come may be the front
  of the mark of an empty last fragment, and then the rest of that mark makes a record. Behind any
  other front fewer than four octets do not (`word_of_splitRecord_append`), so of no other stream is
  more asked than it needs (`readRecord_asks`).
-/

namespace NfsWire.Rpc

/-- A record is read from the front of the stream. -/
def GivesRecord (input : Bytes) (max : Nat) : Prop :=
  ∃ record n, readRecord input max = .ok (record, n)

/-- The stream ends within a mark, which complete fragments stand in front of. What has come of it
is `part`, and it can still become the mark of an empty last fragment. -/
def EndsInEmptyMark (input part : Bytes) : Prop :=
  ∃ fragments : List Bytes, (∀ fragment ∈ fragments, fragment.length < 0x80000000) ∧
    input = begun fragments ++ part ∧ part ≠ [] ∧ part.length < 4 ∧
    part <+: RecordMark.word ⟨true, 0⟩

/-- What stands at the end of a stream, and how many octets are asked for there. -/
inductive Lacks : Bytes → Nat → Prop where
  /-- Nothing has come of a mark. -/
  | start : Lacks [] 1
  | mark {part : Bytes} : part ≠ [] → part.length < 4 → Lacks part 4
  | data {mark : RecordMark} {rest : Bytes} : mark.length < 0x80000000 →
      rest.length < mark.length → Lacks (mark.word ++ rest) (mark.length - rest.length)

variable {input part more record rest : Bytes} {max needed offset : Nat}

/-! ## Complete fragments in front -/

/-- Complete fragments are joined to whatever is read behind them. -/
theorem splitRecord_begun {fragments : List Bytes}
    (h : ∀ fragment ∈ fragments, fragment.length < 0x80000000) (tail : Bytes) :
    splitRecord (begun fragments ++ tail) =
      (splitRecord tail).map fun (more, left) => (fragments.flatten ++ more, left) := by
  induction fragments with
  | nil => cases hsplit : splitRecord tail <;> simp [begun, hsplit, Except.map]
  | cons fragment others ih =>
    obtain ⟨hfragment, hothers⟩ := List.forall_mem_cons.mp h
    have hread : RecordMark.read (begun (fragment :: others) ++ tail) =
        .ok (⟨false, fragment.length⟩, fragment ++ (begun others ++ tail)) := by
      rw [begun, List.flatMap_cons, ← begun, List.append_assoc, List.append_assoc]
      exact RecordMark.read_word hfragment _
    have hthere : ¬ (fragment ++ (begun others ++ tail)).length < fragment.length := by
      rw [List.length_append]
      omega
    rw [splitRecord_mark hread, if_neg hthere, if_neg Bool.false_ne_true, List.take_left,
      List.drop_left, ih hothers]
    cases splitRecord tail <;> simp [Except.map]

theorem givesRecord_iff :
    GivesRecord input max ↔
      ∃ record rest, splitRecord input = .ok (record, rest) ∧ record.length ≤ max := by
  constructor
  · rintro ⟨record, n, h⟩
    obtain ⟨-, hsplit, hfits⟩ := readRecord_ok_iff.mp h
    exact ⟨record, _, hsplit, hfits⟩
  · rintro ⟨record, rest, hsplit, hfits⟩
    obtain ⟨fragments, hfragments, rfl, rfl⟩ := splitRecord_ok_iff.mp hsplit
    exact ⟨_, _, readRecord_frame hfragments hfits rest⟩

theorem givesRecord_begun_iff {fragments : List Bytes}
    (h : ∀ fragment ∈ fragments, fragment.length < 0x80000000) :
    GivesRecord (begun fragments ++ part) max ↔
      ∃ record rest, splitRecord part = .ok (record, rest) ∧
        fragments.flatten.length + record.length ≤ max := by
  rw [givesRecord_iff, splitRecord_begun h]
  constructor
  · rintro ⟨record, rest, hsplit, hfits⟩
    cases hpart : splitRecord part with
    | error n =>
      rw [hpart] at hsplit
      cases hsplit
    | ok taken =>
      rw [hpart] at hsplit
      cases hsplit
      exact ⟨taken.1, taken.2, rfl, by rwa [List.length_append] at hfits⟩
  · rintro ⟨record, rest, hpart, hfits⟩
    exact ⟨fragments.flatten ++ record, rest, by rw [hpart]; rfl, by rwa [List.length_append]⟩

/-! ## The end of a stream -/

theorem RecordMark.read_error_iff {n : Nat} :
    RecordMark.read part = .error n ↔ part.length < 4 ∧ n = if part = [] then 1 else 4 := by
  unfold RecordMark.read
  split
  next a b c d tail =>
    refine iff_of_false nofun fun ⟨hshort, _⟩ => ?_
    simp only [List.length_cons] at hshort
    omega
  next => simp [eq_comm]
  next hlong hempty =>
    have hshort : part.length < 4 := by
      refine Nat.lt_of_not_le fun hfour => ?_
      match part, hfour with
      | a :: b :: c :: d :: tail, _ => exact hlong a b c d tail rfl
    rw [if_neg hempty, Except.error.injEq]
    exact ⟨fun h => ⟨hshort, h.symm⟩, fun h => h.2.symm⟩

/-- **Octets are asked for at the end of the stream**, behind complete fragments. -/
theorem exists_lacks_of_splitRecord {input : Bytes} (h : splitRecord input = .error needed) :
    ∃ (fragments : List Bytes) (tail : Bytes),
      (∀ fragment ∈ fragments, fragment.length < 0x80000000) ∧
        input = begun fragments ++ tail ∧ Lacks tail needed := by
  cases hread : RecordMark.read input with
  | error n =>
    rw [splitRecord_error hread] at h
    cases h
    obtain ⟨hshort, rfl⟩ := RecordMark.read_error_iff.mp hread
    refine ⟨[], input, nofun, rfl, ?_⟩
    split
    next hempty => exact hempty ▸ .start
    next hsome => exact .mark hsome hshort
  | ok read =>
    obtain ⟨mark, rest⟩ := read
    obtain ⟨hmark, hinput⟩ := RecordMark.read_ok_iff.mp hread
    rw [splitRecord_mark hread] at h
    split at h
    next hcut =>
      cases h
      exact ⟨[], input, nofun, rfl, hinput ▸ .data hmark hcut⟩
    next hthere =>
      split at h
      next => cases h
      next hlast =>
        -- The fragment is complete, so it goes to those in front.
        cases hmore : splitRecord (rest.drop mark.length) with
        | ok taken =>
          rw [hmore] at h
          cases h
        | error n =>
          rw [hmore] at h
          cases h
          obtain ⟨fragments, tail, hfragments, htail, hlacks⟩ := exists_lacks_of_splitRecord hmore
          have htake : (rest.take mark.length).length = mark.length := by
            rw [List.length_take]
            omega
          have hword : RecordMark.word ⟨false, mark.length⟩ = mark.word := by
            rw [← (Bool.not_eq_true _).mp hlast]
          refine ⟨rest.take mark.length :: fragments, tail, ?_, ?_, hlacks⟩
          · exact List.forall_mem_cons.mpr ⟨by omega, hfragments⟩
          · rw [begun, List.flatMap_cons, ← begun, htake, hword, List.append_assoc,
              List.append_assoc, ← htail, List.take_append_drop]
            exact hinput
termination_by input.length
decreasing_by
  have := RecordMark.length_of_read hread
  simp only [List.length_drop]
  omega

/-- With fewer octets than the mark announces no record is joined. -/
theorem splitRecord_of_short_data {mark : RecordMark} (hmark : mark.length < 0x80000000)
    (hshort : rest.length < mark.length) :
    splitRecord (mark.word ++ rest) = .error (mark.length - rest.length) := by
  rw [splitRecord_mark (RecordMark.read_word hmark rest), if_pos hshort]

theorem splitRecord_of_short_mark (h : part.length < 4) : ∃ n, splitRecord part = .error n := by
  obtain ⟨n, hn⟩ := RecordMark.read_short h
  exact ⟨n, splitRecord_error hn⟩

/-! ## Marks that a few octets complete -/

/-- The mark of a last fragment of at most two octets begins like that of an empty one. -/
theorem RecordMark.take_word_of_le_two {n : Nat} (h : n ≤ 2) :
    (word ⟨true, n⟩).take 3 = (word ⟨true, 0⟩).take 3 := by
  match n, h with
  | 0, _ => rfl
  | 1, _ => decide
  | 2, _ => decide

/-- **If fewer than four octets behind a mark that is cut make a record, it is that of a last
fragment**, which nothing has come to set apart from an empty one. -/
theorem word_of_splitRecord_append (hpart : part.length < 4) (hmore : more.length < 4)
    (h : splitRecord (part ++ more) = .ok (record, rest)) :
    part <+: RecordMark.word ⟨true, 0⟩ := by
  obtain ⟨fragments, hfragments, hjoined, -⟩ := splitRecord_ok_iff.mp h
  have hlength := congrArg List.length hjoined
  match fragments, hfragments with
  | fragment :: second :: others, _ =>
    -- There is no room for two marks.
    simp [frame] at hlength
    omega
  | [fragment], _ =>
    simp [frame] at hlength
    have hword : part <+: RecordMark.word ⟨true, fragment.length⟩ := by
      refine List.prefix_of_prefix_length_le (List.prefix_append part more) ?_ ?_
      · rw [hjoined]
        simp [frame]
      · rw [RecordMark.length_word]
        omega
    have hfront : part <+: (RecordMark.word ⟨true, fragment.length⟩).take 3 :=
      List.prefix_take_iff.mpr ⟨hword, by omega⟩
    rw [RecordMark.take_word_of_le_two (by omega)] at hfront
    exact hfront.trans (List.take_prefix ..)

/-- The rest of the mark of an empty last fragment makes a record. -/
theorem splitRecord_emptyMark : splitRecord (RecordMark.word ⟨true, 0⟩) = .ok ([], []) := by
  have hfragment : Fragments [[]] := ⟨by decide, by decide⟩
  exact splitRecord_frame hfragment []

/-! ## Asking and needing -/

/-- The fragments in front of the end are within the limit, or there would be no asking. -/
theorem length_flatten_le_of_overrun?_eq_none {fragments : List Bytes}
    (h : ∀ fragment ∈ fragments, fragment.length < 0x80000000)
    (hnone : overrun? max (begun fragments ++ part) = none) : fragments.flatten.length ≤ max := by
  rcases List.eq_nil_or_concat fragments with rfl | ⟨front, last, rfl⟩
  · exact Nat.zero_le _
  · -- The last one has a mark, whose sum is the length of them all.
    have hmark : MarkAt (begun (front.concat last) ++ part) (begun front).length
        (front.concat last).flatten.length := by
      refine ⟨front, ⟨false, last.length⟩, ?_, ?_, ⟨last ++ part, ?_⟩, rfl, ?_⟩
      · exact fun fragment hfragment => h fragment (by simp [hfragment])
      · exact h last (by simp)
      · simp [begun]
      · simp
    exact Nat.le_of_not_lt fun hexcess =>
      overrun?_eq_none_iff.mp hnone ⟨_, _, hmark, hexcess⟩

theorem splitRecord_of_truncated
    (h : readRecord input max = .error (framingError (.truncated needed) offset)) :
    overrun? max input = none ∧ splitRecord input = .error needed := by
  unfold readRecord at h
  split at h
  next => cases h
  next hnone =>
    split at h
    next => cases h
    next n hsplit =>
      cases h
      exact ⟨hnone, hsplit⟩

/-- If nothing is joined behind complete fragments, there is no record. -/
theorem not_givesRecord_begun {fragments : List Bytes}
    (h : ∀ fragment ∈ fragments, fragment.length < 0x80000000)
    (hpart : ∃ n, splitRecord part = .error n) : ¬ GivesRecord (begun fragments ++ part) max := by
  intro hgives
  obtain ⟨record, rest, hok, -⟩ := (givesRecord_begun_iff h).mp hgives
  obtain ⟨n, hn⟩ := hpart
  rw [hn] at hok
  cases hok

/-- At the end within an empty mark a whole mark is asked for, and the rest of it will do. -/
theorem EndsInEmptyMark.asks (hends : EndsInEmptyMark input part)
    (h : readRecord input max = .error (framingError (.truncated needed) offset)) :
    needed = 4 ∧
      (∃ more : Bytes, part.length + more.length = 4 ∧ GivesRecord (input ++ more) max) ∧
      ∀ more : Bytes, part.length + more.length < 4 → ¬ GivesRecord (input ++ more) max := by
  obtain ⟨hnone, hsplit⟩ := splitRecord_of_truncated h
  obtain ⟨fragments, hfragments, rfl, hsome, hshort, more, hmore⟩ := hends
  refine ⟨?_, ⟨more, ?_, ?_⟩, fun more hfew => ?_⟩
  · have hread := RecordMark.read_error_iff.mpr ⟨hshort, rfl⟩
    rw [splitRecord_begun hfragments, splitRecord_error hread, if_neg hsome] at hsplit
    cases hsplit
    rfl
  · have hlength := congrArg List.length hmore
    rwa [List.length_append, RecordMark.length_word] at hlength
  · rw [List.append_assoc, givesRecord_begun_iff hfragments, hmore]
    exact ⟨[], [], splitRecord_emptyMark, length_flatten_le_of_overrun?_eq_none hfragments hnone⟩
  · rw [List.append_assoc]
    exact not_givesRecord_begun hfragments (splitRecord_of_short_mark (by simpa using hfew))

/-- Elsewhere fewer octets than are asked for do not make a record. -/
theorem not_givesRecord_of_few (hother : ¬ ∃ part, EndsInEmptyMark input part)
    (h : readRecord input max = .error (framingError (.truncated needed) offset))
    (hfew : more.length < needed) : ¬ GivesRecord (input ++ more) max := by
  obtain ⟨-, hsplit⟩ := splitRecord_of_truncated h
  obtain ⟨fragments, tail, hfragments, rfl, hlacks⟩ := exists_lacks_of_splitRecord hsplit
  rw [List.append_assoc]
  cases hlacks with
  | start =>
    have hnothing : more = [] := List.length_eq_zero_iff.mp (Nat.lt_one_iff.mp hfew)
    subst hnothing
    exact not_givesRecord_begun hfragments (splitRecord_of_short_mark (by decide))
  | mark hsome hshort =>
    intro hgives
    obtain ⟨record, rest, hok, -⟩ := (givesRecord_begun_iff hfragments).mp hgives
    have hword := word_of_splitRecord_append hshort hfew hok
    exact hother ⟨tail, fragments, hfragments, rfl, hsome, hshort, hword⟩
  | @data mark rest hmark hcut =>
    have hshort : (rest ++ more).length < mark.length := by
      rw [List.length_append]
      omega
    rw [List.append_assoc]
    exact not_givesRecord_begun hfragments ⟨_, splitRecord_of_short_data hmark hshort⟩

/-- **No stream is asked for more than it needs, but one that ends within the mark of what may be
an empty last fragment.** Of such a stream a whole mark is asked for, and what makes a record is no
more than the rest of it. -/
theorem readRecord_asks
    (h : readRecord input max = .error (framingError (.truncated needed) offset)) :
    ((∀ more : Bytes, more.length < needed → ¬ GivesRecord (input ++ more) max) ↔
        ¬ ∃ part, EndsInEmptyMark input part) ∧
      ∀ part, EndsInEmptyMark input part →
        needed = 4 ∧
          (∃ more : Bytes, part.length + more.length = 4 ∧ GivesRecord (input ++ more) max) ∧
          ∀ more : Bytes, part.length + more.length < 4 → ¬ GivesRecord (input ++ more) max := by
  refine ⟨⟨fun hall hends => ?_, fun hother more => not_givesRecord_of_few hother h⟩,
    fun part hends => hends.asks h⟩
  obtain ⟨part, hends⟩ := hends
  obtain ⟨hneeded, ⟨more, hlength, hgives⟩, -⟩ := hends.asks h
  obtain ⟨_, _, _, hsome, _⟩ := hends
  -- A whole mark is more than the rest of it.
  have hpos := List.length_pos_iff.mpr hsome
  exact hall more (by omega) hgives

/-- Behind a fragment, two octets of a mark have come. A whole mark is asked for, and two octets
make a record, which has room for the fragment. -/
theorem readRecord_asks_half_mark :
    readRecord [0, 0, 0, 1, 7, 0x80, 0] 1 = .error (framingError (.truncated 4) 7) ∧
      ∃ more : Bytes, more.length = 2 ∧ GivesRecord ([0, 0, 0, 1, 7, 0x80, 0] ++ more) 1 := by
  have hasks : readRecord [0, 0, 0, 1, 7, 0x80, 0] 1 = .error (framingError (.truncated 4) 7) := by
    cbv
  have hends : EndsInEmptyMark [0, 0, 0, 1, 7, 0x80, 0] [0x80, 0] :=
    ⟨[[7]], by decide, rfl, by decide, by decide, [0, 0], rfl⟩
  obtain ⟨-, ⟨more, hlength, hgives⟩, -⟩ := (readRecord_asks hasks).2 _ hends
  rw [List.length_cons, List.length_singleton] at hlength
  exact ⟨hasks, more, by omega, hgives⟩

/-- Four octets are asked for where three make a record. -/
theorem asks_more_than_needed :
    readRecord [0x80] 0x100000 = .error (framingError (.truncated 4) 1) ∧
      ([0, 0, 0] : Bytes).length < 4 ∧
      readRecord ([0x80] ++ [0, 0, 0]) 0x100000 = .ok ([], 4) := by
  refine ⟨?_, by decide, ?_⟩
  · cbv
  · cbv

end NfsWire.Rpc
