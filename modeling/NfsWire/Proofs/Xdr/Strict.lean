import NfsWire.Nlm4.Table
import NfsWire.Proofs.Guarded.Reader
import NfsWire.Proofs.Xdr.Codes

/-!
# Refusing codes without a name

A code that its table does not name is kept as it is, or refused when reading is strict. That is all
that strictness does: a strict reader goes the way of the tolerant one as far as the first word
whose code has no name, and stops there (`Refuses`). It makes no other error, and the tolerant
reader's own error is reached only if no such word came before it.

The codes of fixed fields are judged alike in both. One that the table does not list, or lists as
not to be used, is against the protocol and no value comes of it.
-/

namespace NfsWire

namespace Reader

variable {α β : Type}

/-- The second result is what a strict reader makes of the first, when these words were accepted on
the way: the first of them without a name is refused. -/
def Refuses (words : List CodeWord) (tolerant strict : EStateM.Result DecodeError Cursor α) :
    Prop :=
  match words.find? (·.name?.isNone) with
  | none => strict = tolerant
  | some w => ∃ c, strict = .error w.unknown c

section Refuses

variable {words more : List CodeWord} {w : CodeWord}
  {tolerant strict : EStateM.Result DecodeError Cursor α}

theorem Refuses.of_none (h : Refuses words tolerant strict)
    (hnone : words.find? (·.name?.isNone) = none) : strict = tolerant := by
  rw [Refuses, hnone] at h
  exact h

theorem Refuses.of_some (h : Refuses words tolerant strict)
    (hsome : words.find? (·.name?.isNone) = some w) : ∃ c, strict = .error w.unknown c := by
  rw [Refuses, hsome] at h
  exact h

theorem find?_unnamed_eq_none (hnamed : ∀ w ∈ words, w.name?.isSome) :
    words.find? (·.name?.isNone) = none :=
  List.find?_eq_none.mpr fun w hw => by
    simpa [Option.isSome_iff_ne_none] using hnamed w hw

theorem Refuses.refl (hnamed : ∀ w ∈ words, w.name?.isSome)
    (result : EStateM.Result DecodeError Cursor α) : Refuses words result result := by
  rw [Refuses, find?_unnamed_eq_none hnamed]

theorem refuses_nil (result : EStateM.Result DecodeError Cursor α) :
    Refuses [] result result := rfl

theorem Refuses.of_named (h : Refuses words tolerant strict)
    (hnamed : ∀ w ∈ words, w.name?.isSome) : strict = tolerant :=
  h.of_none (find?_unnamed_eq_none hnamed)

theorem Refuses.of_unnamed (h : Refuses words tolerant strict) (hw : w ∈ words)
    (hname : w.name? = none) :
    ∃ w, words.find? (·.name?.isNone) = some w ∧ ∃ c, strict = .error w.unknown c := by
  cases hfirst : words.find? (·.name?.isNone) with
  | none => exact absurd (by simp [hname]) (List.find?_eq_none.mp hfirst w hw)
  | some w' => exact ⟨w', rfl, h.of_some hfirst⟩

end Refuses

/-! ## A single code -/

/-- Whether reading is strict matters for codes without a name in fields that are not fixed. -/
theorem judge_strict (table : Table) (fixed : Bool) (code : Int32) :
    (judge table fixed true code = judge table fixed false code ∧
      ∀ v, judge table fixed false code = .ok v → (table.name? code).isSome) ∨
    (judge table fixed false code = .ok (.enum code none) ∧ table.name? code = none ∧
      judge table fixed true code = .error (.unknownCode table.name code)) := by
  unfold judge Table.name?
  cases table.entry? code with
  | some e => exact .inl ⟨rfl, fun _ _ => rfl⟩
  | none =>
    cases fixed with
    | true => exact .inl ⟨rfl, nofun⟩
    | false => exact .inr ⟨rfl, rfl, rfl⟩

theorem judge_fixed (table : Table) (code : Int32) (strict strict' : Bool) :
    judge table true strict code = judge table true strict' code := by
  unfold judge
  cases table.entry? code <;> rfl

/-- In a fixed field a code that may not be sent is against the protocol. -/
theorem judge_unusable {table : Table} {code : Int32} (h : ¬ table.Usable code) (strict : Bool) :
    ∃ what, judge table true strict code = .error (.violation what) := by
  unfold judge
  cases hentry : table.entry? code with
  | none => exact ⟨_, rfl⟩
  | some e =>
    have hreserved : e.stability = .notToBeUsed :=
      Decidable.byContradiction fun hs => h ⟨e, hentry, hs⟩
    exact ⟨_, if_pos ⟨rfl, hreserved⟩⟩

theorem refuses_enum (table : Table) (fixed : Bool) {ctx : ReadContext}
    (h : ctx.strict = false) (c : Cursor) :
    Refuses (CodeWords.enum table fixed ctx c) (enum table fixed ctx c)
      (enum table fixed ctx.strictly c) := by
  have hstrictly : int ctx.strictly c = int ctx c := rfl
  cases hint : int ctx c with
  | error e m =>
    rw [CodeWords.enum, enum_of_int_error hint, enum_of_int_error (hstrictly.trans hint)]
    exact refuses_nil _
  | ok code m =>
    have hstrict : ctx.strictly.strict = true := rfl
    rw [CodeWords.enum, enum_of_int hint, enum_of_int (hstrictly.trans hint), h, hstrict]
    -- The word is read alike; only its code may be judged in two ways.
    rcases judge_strict table fixed code with ⟨hsame, hnamed⟩ | ⟨hkept, hname, hrefused⟩
    · rw [hsame]
      cases hj : judge table fixed false code with
      | error fault => exact refuses_nil _
      | ok v =>
        obtain ⟨rfl, -, -⟩ := judge_ok_iff.mp hj
        refine .refl (fun w hw => ?_) _
        cases List.mem_singleton.mp hw
        exact hnamed _ hj
    · rw [hkept, hrefused]
      show Refuses [_] _ _
      unfold Refuses
      rw [List.find?_cons_of_pos (by simp [CodeWord.name?, hname])]
      exact ⟨m, rfl⟩

/-! ## One after the other -/

theorem Refuses.bind {x : Reader α} {f : α → Reader β} {words : CodeWords} {more : α → CodeWords}
    {ctx : ReadContext} {c : Cursor} (hx : Refuses (words ctx c) (x ctx c) (x ctx.strictly c))
    (hf : ∀ a m, Refuses (more a ctx m) (f a ctx m) (f a ctx.strictly m)) :
    Refuses (words.andThen x more ctx c) ((x >>= f) ctx c) ((x >>= f) ctx.strictly c) := by
  cases hfirst : (words ctx c).find? (·.name?.isNone) with
  | some w =>
    -- The strict reader has stopped in `x`, and what `f` may still meet comes behind that word.
    obtain ⟨m, hstop⟩ := hx.of_some hfirst
    rw [bind_of_error hstop, Refuses, CodeWords.andThen, List.find?_append, hfirst]
    exact ⟨m, rfl⟩
  | none =>
    -- Both readers come to the same place, so `f` is compared from one cursor.
    have hsame := hx.of_none hfirst
    cases h : x ctx c with
    | ok a m =>
      rw [h] at hsame
      rw [bind_of_ok h, bind_of_ok hsame, CodeWords.andThen_of_ok h, Refuses, List.find?_append,
        hfirst]
      exact hf a m
    | error e m =>
      rw [h] at hsame
      rw [bind_of_error h, bind_of_error hsame, CodeWords.andThen_of_error h, Refuses, hfirst]

theorem accompanied_refuses : Accompanied fun x words =>
    ∀ ctx c, ctx.strict = false → Refuses (words ctx c) (x ctx c) (x ctx.strictly c) where
  none h := fun ctx c _ => congrFun (h.same ctx) c
  enum table fixed := fun _ c h => refuses_enum table fixed h c
  bind hx hf := fun ctx c h => (hx ctx c h).bind fun a m => hf a ctx m h
  within _ hx := fun _ c h => hx _ c h

end Reader

/-! ## On a message -/

/-- What is passed over keeps the cursor on the message. -/
theorem Cursor.On.passes {c m : Cursor} {message : Bytes} {n : Nat} (h : c.On message)
    (hm : c.Passes n m) : m.On message := by
  obtain ⟨data, -, hrest, hoffset⟩ := hm
  have hinside := h.inside
  have hlength := h.length_rest
  rw [hrest, List.length_append] at hlength
  refine ⟨by omega, ?_⟩
  rw [hoffset, ← List.drop_drop, ← h.rest, hrest, List.drop_left]

namespace Shape

open Reader

/-- Each word stands in the message where it is said to, between where reading begins and where it
ends. -/
theorem codeWords_stand (shape : Shape) (ctx : ReadContext) (message : Bytes) (offset : Nat) :
    let start := Cursor.at message offset
    ∀ w ∈ shape.codeWords ctx start,
      start.offset ≤ w.offset ∧ w.offset + 4 ≤ (shape.decode.stop ctx start).offset ∧
        (message.drop w.offset).take 4 = Bytes.word w.code.toUInt32 := by
  intro start w hw
  obtain ⟨m, m', hpass, hoffset, hword, hend⟩ :=
    (accompanied_meets.decode shape ctx start).of_mem hw
  have hbefore := hpass.offset_le
  have hover := hword.passes.offset_le
  rw [Bytes.length_word] at hover
  refine ⟨by omega, by omega, ?_⟩
  have hon := (Cursor.on_at message offset).passes hpass
  rw [hoffset, ← hon.rest, hword.rest, List.take_left' (Bytes.length_word _)]

/-- A fixed field is read alike in both modes, and gives nothing but codes that may be sent. -/
theorem decode_fixed (table : Table) (ctx : ReadContext) (c : Cursor) :
    (Shape.enum table true).decode ctx.strictly c = (Shape.enum table true).decode ctx c ∧
    (∀ v c', (Shape.enum table true).decode ctx c = .ok v c' →
      ∃ code name, v = .enum code (some name) ∧ table.Usable code) ∧
    ∀ code c', c.Reads (Bytes.word code.toUInt32) c' → ¬ table.Usable code →
      ∃ what, (Shape.enum table true).decode ctx c =
        .error { fault := .violation what, path := ctx.path, offset := c.offset } c' := by
  rw [Shape.decode]
  refine ⟨?_, fun v c' h => ?_, fun code c' hword hunusable => ?_⟩
  · have hstrictly : Reader.int ctx.strictly c = Reader.int ctx c := rfl
    cases hint : Reader.int ctx c with
    | error e m => rw [enum_of_int_error hint, enum_of_int_error (hstrictly.trans hint)]
    | ok code m =>
      rw [enum_of_int hint, enum_of_int (hstrictly.trans hint),
        judge_fixed table code ctx.strictly.strict ctx.strict]
      rfl
  · obtain ⟨code, hj, -⟩ := enum_ok_iff.mp h
    obtain ⟨rfl, husable, -⟩ := judge_ok_iff.mp hj
    obtain ⟨e, hentry, hstable⟩ := husable rfl
    exact ⟨code, e.name, by rw [Table.name?, hentry]; rfl, e, hentry, hstable⟩
  · obtain ⟨what, hj⟩ := judge_unusable hunusable ctx.strict
    exact ⟨what, by rw [enum_of_int (int_ok_iff.mpr hword), hj]⟩

/-- **Strict reading only refuses codes without a name.** Where the tolerant reader gets all codes
with their names, the strict one gets the same; else it stops at the first word whose code has none,
and says so, with the offset of that word, its table and its code. What the tolerant reader refuses
the strict one refuses in the same way, unless it stopped before at such a word. The words are those
accepted as codes: they stand in the message in this order, and hold the codes of the value if there
is one. In a fixed field there is no difference, and only codes that may be sent are accepted. -/
theorem decode_strictly (shape : Shape) (ctx : ReadContext) (message : Bytes) (offset : Nat)
    (htolerant : ctx.strict = false) :
    let start := Cursor.at message offset
    let words := shape.codeWords ctx start
    let refusedAt (w : CodeWord) := words.find? (·.name?.isNone) = some w ∧
      ∃ c, shape.decode ctx.strictly start = .error w.unknown c
    (∀ v c, shape.decode ctx start = .ok v c →
      words.map CodeWord.found = v.codes ∧
      ((∀ code ∈ v.codes, code.2.isSome) → shape.decode ctx.strictly start = .ok v c) ∧
      ((∃ code ∈ v.codes, code.2 = none) → ∃ w, refusedAt w)) ∧
    (∀ e c, shape.decode ctx start = .error e c →
      shape.decode ctx.strictly start = .error e c ∨
      ∃ w, refusedAt w ∧ w.offset + 4 ≤ c.offset) ∧
    (∀ w ∈ words, start.offset ≤ w.offset ∧
      (message.drop w.offset).take 4 = Bytes.word w.code.toUInt32 ∧
      (w.fixed = true → w.table.Usable w.code)) ∧
    words.Pairwise (fun w w' => w.offset + 4 ≤ w'.offset) ∧
    ∀ (table : Table) (c : Cursor),
      (Shape.enum table true).decode ctx.strictly c = (Shape.enum table true).decode ctx c ∧
      (∀ v c', (Shape.enum table true).decode ctx c = .ok v c' →
        ∃ code name, v = .enum code (some name) ∧ table.Usable code) ∧
      ∀ code c', c.Reads (Bytes.word code.toUInt32) c' → ¬ table.Usable code →
        ∃ what, (Shape.enum table true).decode ctx c =
          .error { fault := .violation what, path := ctx.path, offset := c.offset } c' := by
  intro start words refusedAt
  have hrefuses : Refuses words (shape.decode ctx start) (shape.decode ctx.strictly start) :=
    accompanied_refuses.decode shape ctx start htolerant
  have hstand := codeWords_stand shape ctx message offset
  refine ⟨fun v c hok => ?_, fun e c herr => ?_, fun w hw => ?_, ?_, fun table c =>
    decode_fixed table ctx c⟩
  · have hcodes : words.map CodeWord.found = v.codes := yieldsCodes_decode shape _ _ _ _ hok
    refine ⟨hcodes, fun hnamed => ?_, fun hunnamed => ?_⟩
    · rw [← hok]
      refine hrefuses.of_named fun w hw => hnamed w.found ?_
      rw [← hcodes]
      exact List.mem_map_of_mem hw
    · obtain ⟨code, hcode, hnone⟩ := hunnamed
      rw [← hcodes] at hcode
      obtain ⟨w, hw, rfl⟩ := List.mem_map.mp hcode
      exact hrefuses.of_unnamed hw hnone
  · cases hfirst : words.find? (·.name?.isNone) with
    | none => exact .inl ((hrefuses.of_none hfirst).trans herr)
    | some w =>
      have hend := (hstand w (List.mem_of_find?_eq_some hfirst)).2.1
      rw [stop_of_error herr] at hend
      exact .inr ⟨w, ⟨hfirst, hrefuses.of_some hfirst⟩, hend⟩
  · obtain ⟨hstart, -, hword⟩ := hstand w hw
    exact ⟨hstart, hword, accompanied_usable.decode shape ctx start w hw⟩
  · exact (accompanied_meets.decode shape ctx start).pairwise

/-- Of two outcomes of a lock request the second has no name. -/
theorem decode_strictly_two_outcomes :
    ∃ c, (Shape.arrayOf (.code Nlm4.status)).decode { strict := true }
        (Cursor.at [0, 0, 0, 2, 0, 0, 0, 3, 0, 0, 0, 77] 0) =
      .error { fault := .unknownCode "nlm4_stats" 77, path := [.index 1], offset := 8 } c := by
  have h := decode_strictly (.arrayOf (.code Nlm4.status)) {}
    [0, 0, 0, 2, 0, 0, 0, 3, 0, 0, 0, 77] 0 rfl
  have hread := h.1 (.array [.enum 3 (some "NLM4_BLOCKED"), .enum 77 none])
    { rest := [], offset := 12 } rfl
  have hunnamed : (77, none) ∈
      (Value.array [.enum 3 (some "NLM4_BLOCKED"), .enum 77 none]).codes := by
    simp [Value.codes, Value.codesItems]
  obtain ⟨w, hfirst, hrefused⟩ := hread.2.2 ⟨_, hunnamed, rfl⟩
  cases hfirst
  exact hrefused

end Shape

end NfsWire
