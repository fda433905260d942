import NfsWire.Proofs.Xdr.Writing

/-!
# Length words

What is written for a value is said without any writer: `Shape.Written` has a rule for each kind of
shape, and leaves open what a length word says of the octets or elements behind it. Under one rule
the word is their number, which is within the maximum (`LengthRule.faithful`). Under the other the
number is first cut to 32 bits, and what is left is held against the maximum (`LengthRule.cut`).

A writer follows the second rule, and writes whatever it allows (`encode_ok_iff`). For numbers that
32 bits can say, the two rules are one (`LengthRule.faithful_iff`). So length words are faithful if
no number that is counted is beyond a word, and only then (`encode_lengths`).
-/

namespace NfsWire

/-- What a length word may say of `n` octets or elements with a maximum. -/
abbrev LengthRule := (n : Nat) → (max : Option UInt32) → (word : UInt32) → Prop

namespace LengthRule

/-- The word is the number, which is within the maximum. -/
def faithful : LengthRule := fun n max word => word.toNat = n ∧ ∀ m ∈ max, n ≤ m.toNat

/-- The word is what is left of the number in 32 bits, and that is within the maximum. -/
def cut : LengthRule := fun n max word => word = UInt32.ofNat n ∧ ∀ m ∈ max, word ≤ m

variable {n : Nat} {max : Option UInt32} {word : UInt32}

theorem faithful_iff : faithful n max word ↔ n < UInt32.size ∧ cut n max word := by
  constructor
  · intro ⟨hword, hmax⟩
    subst hword
    exact ⟨word.toNat_lt, by simp, fun m hm => UInt32.le_iff_toNat_le.mpr (hmax m hm)⟩
  · intro ⟨hn, hword, hmax⟩
    subst hword
    exact ⟨UInt32.toNat_ofNat_of_lt' hn, fun m hm => (UInt32.ofNat_le_iff hn).mp (hmax m hm)⟩

end LengthRule

namespace Shape

/-! ## What is written -/

/-- The octets of a value with a shape, where length words follow a rule. -/
inductive Written (rule : LengthRule) : Shape → Value → Bytes → Prop where
  | void : Written rule .void .void []
  | int (v : Int32) : Written rule .int (.int v) (Bytes.word v.toUInt32)
  | uint (v : UInt32) : Written rule .uint (.uint v) (Bytes.word v)
  | hyper (v : Int64) : Written rule .hyper (.hyper v) (Bytes.ofNat 8 v.toUInt64.toNat)
  | uhyper (v : UInt64) : Written rule .uhyper (.uhyper v) (Bytes.ofNat 8 v.toNat)
  | bool (b : Bool) : Written rule .bool (.bool b) (Bytes.word (if b then 1 else 0))
  | code {table : Table} {fixed : Bool} (code : Int32) (name : Option String) :
      Written rule (.enum table fixed) (.enum code name) (Bytes.word code.toUInt32)
  /-- A code may be written as a number. -/
  | number {table : Table} {fixed : Bool} (v : Int32) :
      Written rule (.enum table fixed) (.int v) (Bytes.word v.toUInt32)
  | fixedOctets {size : UInt32} {ddp : Bool} {data : Bytes} : data.length = size.toNat →
      Written rule (.octets (.fixed size) ddp) (.octets data) (Bytes.filled data)
  | octets {max : Option UInt32} {ddp : Bool} {data : Bytes} {word : UInt32} :
      rule data.length max word →
      Written rule (.octets (.variable max) ddp) (.octets data)
        (Bytes.word word ++ Bytes.filled data)
  | text {max : Option UInt32} {ddp : Bool} {data : Bytes} {word : UInt32} :
      rule data.length max word →
      Written rule (.text max ddp) (.text data) (Bytes.word word ++ Bytes.filled data)
  | fixedArray {elem : Shape} {size : UInt32} {rows : List (Value × Bytes)} :
      rows.length = size.toNat → (∀ r ∈ rows, Written rule elem r.1 r.2) →
      Written rule (.array elem (.fixed size)) (.array (rows.map (·.1))) (rows.flatMap (·.2))
  | array {elem : Shape} {max : Option UInt32} {rows : List (Value × Bytes)} {word : UInt32} :
      rule rows.length max word → (∀ r ∈ rows, Written rule elem r.1 r.2) →
      Written rule (.array elem (.variable max)) (.array (rows.map (·.1)))
        (Bytes.word word ++ rows.flatMap (·.2))
  | chain {elem : Shape} {rows : List (Value × Bytes)} :
      (∀ r ∈ rows, Written rule elem r.1 r.2) →
      Written rule (.chain elem) (.array (rows.map (·.1)))
        (rows.flatMap (fun r => Bytes.word 1 ++ r.2) ++ Bytes.word 0)
  | absent {inner : Shape} : Written rule (.optional inner) (.optional none) (Bytes.word 0)
  | present {inner : Shape} {v : Value} {data : Bytes} : Written rule inner v data →
      Written rule (.optional inner) (.optional (some v)) (Bytes.word 1 ++ data)
  /-- The fields of the shape in their order, each found in the record by its name. -/
  | struct {rows : List ((String × Shape) × Value × Bytes)} {record : Fields} :
      (∀ r ∈ rows, record.find? r.1.1 = some r.2.1) →
      (∀ r ∈ rows, Written rule r.1.2 r.2.1 r.2.2) →
      Written rule (.struct (rows.map (·.1))) (.struct record) (rows.flatMap (·.2.2))
  | union {disc s : Shape} {arms : List (Int × String × Shape)}
      {fallback : Option (String × Shape)} {d v : Value} {arm : String} {code : Int}
      {x y : Bytes} :
      Written rule disc d x → d.armCode? = some code → arm? arms fallback code = some (arm, s) →
      Written rule s v y → Written rule (.union disc arms fallback) (.union d arm v) (x ++ y)

/-- Somewhere in the value `n` octets or elements are counted by a length word with a maximum. -/
inductive Counted : Shape → Value → (n : Nat) → (max : Option UInt32) → Prop where
  | octets {max : Option UInt32} {ddp : Bool} {data : Bytes} :
      Counted (.octets (.variable max) ddp) (.octets data) data.length max
  | text {max : Option UInt32} {ddp : Bool} {data : Bytes} :
      Counted (.text max ddp) (.text data) data.length max
  | array {elem : Shape} {max : Option UInt32} {items : List Value} :
      Counted (.array elem (.variable max)) (.array items) items.length max
  | element {elem : Shape} {extent : Extent} {items : List Value} {v : Value} {n : Nat}
      {max : Option UInt32} : v ∈ items → Counted elem v n max →
      Counted (.array elem extent) (.array items) n max
  | link {elem : Shape} {items : List Value} {v : Value} {n : Nat} {max : Option UInt32} :
      v ∈ items → Counted elem v n max → Counted (.chain elem) (.array items) n max
  | present {inner : Shape} {v : Value} {n : Nat} {max : Option UInt32} :
      Counted inner v n max → Counted (.optional inner) (.optional (some v)) n max
  | field {fields : List (String × Shape)} {record : Fields} {name : String} {s : Shape}
      {v : Value} {n : Nat} {max : Option UInt32} :
      (name, s) ∈ fields → record.find? name = some v → Counted s v n max →
      Counted (.struct fields) (.struct record) n max
  | disc {disc : Shape} {arms : List (Int × String × Shape)} {fallback : Option (String × Shape)}
      {d v : Value} {arm : String} {n : Nat} {max : Option UInt32} :
      Counted disc d n max → Counted (.union disc arms fallback) (.union d arm v) n max
  | arm {disc s : Shape} {arms : List (Int × String × Shape)}
      {fallback : Option (String × Shape)} {d v : Value} {arm name : String} {code : Int}
      {n : Nat} {max : Option UInt32} :
      d.armCode? = some code → arm? arms fallback code = some (name, s) → Counted s v n max →
      Counted (.union disc arms fallback) (.union d arm v) n max

section Rules

variable {rule rule' : LengthRule} {shape : Shape} {v : Value} {data : Bytes} {n : Nat}
  {max : Option UInt32}

/-- Of all that is counted a length word is written. -/
theorem Written.counted (h : shape.Written rule v data) (hcounted : shape.Counted v n max) :
    ∃ word, rule n max word := by
  induction h with
  | void | int | uint | hyper | uhyper | bool | code | number | fixedOctets | absent =>
    cases hcounted
  | octets hrule =>
    cases hcounted
    exact ⟨_, hrule⟩
  | text hrule =>
    cases hcounted
    exact ⟨_, hrule⟩
  | fixedArray _ _ ih =>
    cases hcounted with
    | element hmem hcounted =>
      obtain ⟨r, hr, rfl⟩ := List.mem_map.mp hmem
      exact ih r hr hcounted
  | array hrule _ ih =>
    cases hcounted with
    | array =>
      rw [List.length_map]
      exact ⟨_, hrule⟩
    | element hmem hcounted =>
      obtain ⟨r, hr, rfl⟩ := List.mem_map.mp hmem
      exact ih r hr hcounted
  | chain _ ih =>
    cases hcounted with
    | link hmem hcounted =>
      obtain ⟨r, hr, rfl⟩ := List.mem_map.mp hmem
      exact ih r hr hcounted
  | present _ ih =>
    cases hcounted with
    | present hcounted => exact ih hcounted
  | struct hfind _ ih =>
    cases hcounted with
    | field hmem hfound hcounted =>
      obtain ⟨r, hr, hfield⟩ := List.mem_map.mp hmem
      have hsame := hfind r hr
      rw [hfield, hfound] at hsame
      cases hsame
      have hrow := ih r hr
      rw [hfield] at hrow
      exact hrow hcounted
  | union _ hcode harm _ ihd ihs =>
    cases hcounted with
    | disc hcounted => exact ihd hcounted
    | arm hcode' harm' hcounted =>
      rw [hcode] at hcode'
      cases hcode'
      rw [harm] at harm'
      cases harm'
      exact ihs hcounted

/-- What is counted decides between two rules. -/
theorem Written.imp (h : shape.Written rule v data)
    (himp : ∀ n max word, shape.Counted v n max → rule n max word → rule' n max word) :
    shape.Written rule' v data := by
  induction h with
  | void => exact .void
  | int v => exact .int v
  | uint v => exact .uint v
  | hyper v => exact .hyper v
  | uhyper v => exact .uhyper v
  | bool b => exact .bool b
  | code code name => exact .code code name
  | number v => exact .number v
  | fixedOctets hlength => exact .fixedOctets hlength
  | octets hrule => exact .octets (himp _ _ _ .octets hrule)
  | text hrule => exact .text (himp _ _ _ .text hrule)
  | fixedArray hlength _ ih =>
    exact .fixedArray hlength fun r hr => ih r hr fun n max word hcounted =>
      himp n max word (.element (List.mem_map_of_mem hr) hcounted)
  | @array elem max rows word hrule _ ih =>
    have hcount :
        Counted (.array elem (.variable max)) (.array (rows.map (·.1))) rows.length max := by
      rw [← List.length_map (·.1)]
      exact .array
    exact .array (himp _ _ _ hcount hrule) fun r hr => ih r hr fun n max word hcounted =>
      himp n max word (.element (List.mem_map_of_mem hr) hcounted)
  | chain _ ih =>
    exact .chain fun r hr => ih r hr fun n max word hcounted =>
      himp n max word (.link (List.mem_map_of_mem hr) hcounted)
  | absent => exact .absent
  | present _ ih =>
    exact .present (ih fun n max word hcounted => himp n max word (.present hcounted))
  | struct hfind _ ih =>
    exact .struct hfind fun r hr => ih r hr fun n max word hcounted =>
      himp n max word (.field (List.mem_map_of_mem hr) (hfind r hr) hcounted)
  | union _ hcode harm _ ihd ihs =>
    exact .union (ihd fun n max word hcounted => himp n max word (.disc hcounted)) hcode harm
      (ihs fun n max word hcounted => himp n max word (.arm hcode harm hcounted))

end Rules

/-! ## What a writer writes -/

open Writer

theorem writes_encodeFields {fields : List (String × Shape)} {record : Fields} {data : Bytes}
    (h : (encodeFields fields record).Writes data) :
    ∃ rows : List ((String × Shape) × Value × Bytes), rows.map (·.1) = fields ∧
      rows.flatMap (·.2.2) = data ∧ (∀ r ∈ rows, record.find? r.1.1 = some r.2.1) ∧
      ∀ r ∈ rows, (r.1.2.encode r.2.1).Writes r.2.2 := by
  induction fields generalizing data with
  | nil => exact ⟨[], rfl, Writes.emit h, nofun, nofun⟩
  | cons f rest ih =>
    obtain ⟨name, s⟩ := f
    rw [encodeFields] at h
    cases hfind : record.find? name with
    | none =>
      rw [hfind] at h
      exact absurd h.within not_writes_fail
    | some v =>
      rw [hfind] at h
      obtain ⟨front, back, hv, hrest, rfl⟩ := Writes.then h
      obtain ⟨rows, rfl, rfl, hfound, hrows⟩ := ih hrest
      exact ⟨((name, s), v, front) :: rows, rfl, rfl, List.forall_mem_cons.mpr ⟨hfind, hfound⟩,
        List.forall_mem_cons.mpr ⟨hv.within, hrows⟩⟩

/-- The fields are written in their order, each with what the record has of its name. -/
theorem gives_encodeRows {rows : List ((String × Shape) × Value × Bytes)} {record : Fields}
    (hfind : ∀ r ∈ rows, record.find? r.1.1 = some r.2.1)
    (h : ∀ r ∈ rows, (r.1.2.encode r.2.1).Gives r.2.2) :
    (encodeFields (rows.map (·.1)) record).Gives (rows.flatMap (·.2.2)) := by
  induction rows with
  | nil => exact gives_emit _
  | cons r rest ih =>
    obtain ⟨⟨name, s⟩, v, data⟩ := r
    obtain ⟨hfound, hfind⟩ := List.forall_mem_cons.mp hfind
    obtain ⟨hv, hrest⟩ := List.forall_mem_cons.mp h
    rw [List.map_cons, encodeFields, hfound, List.flatMap_cons]
    exact (hv.within _).then (ih hfind hrest)

/-- With this shape nothing is written but what is written of the value. -/
def Sound (shape : Shape) : Prop :=
  ∀ v data, (shape.encode v).Writes data → shape.Written .cut v data

theorem sound_enum (table : Table) (fixed : Bool) : (enum table fixed).Sound := by
  intro v data h
  cases v with
  | enum code name =>
    cases Writes.emit h
    exact .code code name
  | int v =>
    cases Writes.emit h
    exact .number v
  | _ => simp [encode] at h

theorem sound_octets (extent : Extent) (ddp : Bool) : (octets extent ddp).Sound := by
  intro v data h
  cases v with
  | octets octets =>
    obtain size | max := extent
    · rw [encode] at h
      split at h
      next hlength =>
        cases Writes.emit h
        exact .fixedOctets hlength
      next => exact absurd h not_writes_fail
    · obtain ⟨hmax, rfl⟩ := Writes.counted h
      exact .octets ⟨rfl, hmax⟩
  | _ => simp [encode] at h

theorem sound_text (max : Option UInt32) (ddp : Bool) : (text max ddp).Sound := by
  intro v data h
  cases v with
  | text octets =>
    obtain ⟨hmax, rfl⟩ := Writes.counted h
    exact .text ⟨rfl, hmax⟩
  | _ => simp [encode] at h

theorem sound_array {elem : Shape} (helem : elem.Sound) (extent : Extent) :
    (array elem extent).Sound := by
  intro v data h
  cases v with
  | array items =>
    obtain size | max := extent
    · rw [encode] at h
      split at h
      next hlength =>
        obtain ⟨rows, rfl, rfl, hrows⟩ := h.each fun _ data h => ⟨data, h, rfl⟩
        rw [List.length_map] at hlength
        exact .fixedArray hlength fun r hr => helem r.1 r.2 (hrows r hr)
      next => exact absurd h not_writes_fail
    · obtain ⟨x, y, hx, hy, rfl⟩ := Writes.then h
      obtain ⟨hmax, rfl⟩ := hx.length
      obtain ⟨rows, rfl, rfl, hrows⟩ := hy.each fun _ data h => ⟨data, h, rfl⟩
      rw [List.length_map] at hmax ⊢
      exact .array ⟨rfl, hmax⟩ fun r hr => helem r.1 r.2 (hrows r hr)
  | _ => simp [encode] at h

theorem sound_chain {elem : Shape} (helem : elem.Sound) : (chain elem).Sound := by
  intro v data h
  cases v with
  | array items =>
    obtain ⟨x, y, hx, hy, rfl⟩ := Writes.then h
    cases Writes.emit hy
    -- In front of each element stands its flag.
    have hlink : ∀ x data, ((Writer.uint 1).then (elem.encode x)).Writes data →
        ∃ inner, (elem.encode x).Writes inner ∧ data = Bytes.word 1 ++ inner := by
      intro x data hx
      obtain ⟨flag, inner, hflag, hinner, rfl⟩ := Writes.then hx
      cases Writes.emit hflag
      exact ⟨inner, hinner, rfl⟩
    obtain ⟨rows, rfl, rfl, hrows⟩ := hx.each hlink
    exact .chain fun r hr => helem r.1 r.2 (hrows r hr)
  | _ => simp [encode] at h

theorem sound_optional {inner : Shape} (hinner : inner.Sound) : (optional inner).Sound := by
  intro v data h
  cases v with
  | optional inside =>
    cases inside with
    | none =>
      cases Writes.emit h
      exact .absent
    | some v =>
      obtain ⟨x, y, hx, hy, rfl⟩ := Writes.then h
      cases Writes.emit hx
      exact .present (hinner v y hy)
  | _ => simp [encode] at h

theorem sound_struct {fields : List (String × Shape)} (hfields : ∀ f ∈ fields, f.2.Sound) :
    (struct fields).Sound := by
  intro v data h
  cases v with
  | struct record =>
    obtain ⟨rows, rfl, rfl, hfind, hrows⟩ := writes_encodeFields h
    exact .struct hfind fun r hr => hfields r.1 (List.mem_map_of_mem hr) _ _ (hrows r hr)
  | _ => simp [encode] at h

theorem sound_union {disc : Shape} {arms : List (Int × String × Shape)}
    {fallback : Option (String × Shape)} (hdisc : disc.Sound) (harms : ∀ a ∈ arms, a.2.2.Sound)
    (hfallback : ∀ f ∈ fallback, f.2.Sound) : (union disc arms fallback).Sound := by
  intro v data h
  cases v with
  | union d arm v =>
    rw [encode] at h
    cases hcode : d.armCode? with
    | none =>
      rw [hcode] at h
      exact absurd h not_writes_fail
    | some code =>
      rw [hcode] at h
      obtain ⟨s, x, y, harm, hd, hv, rfl⟩ := writes_encodeArm h
      have hs : s.Sound := of_arm? harms hfallback harm
      exact .union (hdisc d x hd) hcode harm (hs v y hv)
  | _ => simp [encode] at h

/-- **A writer writes nothing but what is written of a value.** -/
theorem sound (shape : Shape) : shape.Sound := by
  induction shape using recParts with
  | void =>
    intro v data h
    cases v with
    | void =>
      cases Writes.emit h
      exact .void
    | _ => simp [encode] at h
  | int =>
    intro v data h
    cases v with
    | int v =>
      cases Writes.emit h
      exact .int v
    | _ => simp [encode] at h
  | uint =>
    intro v data h
    cases v with
    | uint v =>
      cases Writes.emit h
      exact .uint v
    | _ => simp [encode] at h
  | hyper =>
    intro v data h
    cases v with
    | hyper v =>
      cases Writes.emit h
      exact .hyper v
    | _ => simp [encode] at h
  | uhyper =>
    intro v data h
    cases v with
    | uhyper v =>
      cases Writes.emit h
      exact .uhyper v
    | _ => simp [encode] at h
  | bool =>
    intro v data h
    cases v with
    | bool b =>
      cases Writes.emit h
      exact .bool b
    | _ => simp [encode] at h
  | enum table fixed => exact sound_enum table fixed
  | octets extent ddp => exact sound_octets extent ddp
  | text max ddp => exact sound_text max ddp
  | array elem extent ih => exact sound_array ih extent
  | chain elem ih => exact sound_chain ih
  | optional inner ih => exact sound_optional ih
  | struct fields ih => exact sound_struct ih
  | union disc arms fallback ihd iha ihf => exact sound_union ihd iha ihf

/-- **All that is written of a value a writer writes.** -/
theorem Written.gives {shape : Shape} {v : Value} {data : Bytes}
    (h : shape.Written .cut v data) : (shape.encode v).Gives data := by
  induction h with
  | void => exact gives_emit _
  | int | uint | bool | code | number | absent => exact gives_uint _
  | hyper | uhyper => exact gives_emit _
  | fixedOctets hlength =>
    rw [encode, if_pos hlength]
    exact gives_octets _
  | octets hword | text hword =>
    obtain ⟨rfl, hmax⟩ := hword
    exact (gives_length_of_le hmax).then (gives_octets _)
  | fixedArray hlength _ ih =>
    rw [encode, List.length_map, if_pos hlength, each_map]
    exact gives_each ih 0
  | array hword _ ih =>
    obtain ⟨rfl, hmax⟩ := hword
    rw [encode, List.length_map, each_map]
    exact (gives_length_of_le hmax).then (gives_each ih 0)
  | chain _ ih =>
    rw [encode, each_map]
    exact (gives_each (fun r hr => (gives_uint 1).then (ih r hr)) 0).then (gives_uint 0)
  | present _ ih => exact (gives_uint 1).then ih
  | struct hfind _ ih => exact gives_encodeRows hfind ih
  | union _ hcode harm _ ihd ihs =>
    simp only [encode, hcode]
    exact gives_encodeArm harm ihd ihs

end Shape

/-- **A writer writes what is written of a value, where lengths are cut to a word.** -/
theorem encode_ok_iff {shape : Shape} {v : Value} {data : Bytes} :
    encode v shape = .ok data ↔ shape.Written .cut v data :=
  ⟨fun h => shape.sound v data ⟨[], 0, h⟩, fun h => h.gives [] 0⟩

/-- Whether a value is written or refused is settled by what is counted in it. -/
theorem exists_error_of_counted {shape : Shape} {v : Value} {n : Nat} {max : Option UInt32}
    (hcounted : shape.Counted v n max) (hcut : ∀ word, ¬ LengthRule.cut n max word) :
    ∃ e, encode v shape = .error e := by
  cases h : encode v shape with
  | error e => exact ⟨e, rfl⟩
  | ok data =>
    obtain ⟨word, hword⟩ := (encode_ok_iff.mp h).counted hcounted
    exact absurd hword (hcut word)

/-- **A length word is the number that was counted, cut to 32 bits.** It is that number, and what is
longer than its maximum or than a word can say is refused, at exactly those values that are refused
or have no number beyond a word. Below that what is too long is always refused. -/
theorem encode_lengths (shape : Shape) (v : Value) :
    (∀ data, encode v shape = .ok data ↔ shape.Written .cut v data) ∧
    ((∀ data, encode v shape = .ok data → shape.Written .faithful v data) ∧
      (∀ n max, shape.Counted v n max → (UInt32.size ≤ n ∨ ∃ m ∈ max, m.toNat < n) →
        ∃ e, encode v shape = .error e) ↔
      (∃ e, encode v shape = .error e) ∨ ∀ n max, shape.Counted v n max → n < UInt32.size) ∧
    ∀ n m, shape.Counted v n (some m) → n < UInt32.size → m.toNat < n →
      ∃ e, encode v shape = .error e := by
  have hrefused : ∀ n m, shape.Counted v n (some m) → n < UInt32.size → m.toNat < n →
      ∃ e, encode v shape = .error e := by
    intro n m hcounted hn hm
    refine exists_error_of_counted hcounted fun word hword => ?_
    have hle := (LengthRule.faithful_iff.mpr ⟨hn, hword⟩).2 m rfl
    omega
  refine ⟨fun data => encode_ok_iff, ⟨?_, ?_⟩, hrefused⟩
  · intro ⟨hfaithful, _⟩
    cases h : encode v shape with
    | error e => exact .inl ⟨e, rfl⟩
    | ok data =>
      refine .inr fun n max hcounted => ?_
      obtain ⟨word, hword⟩ := (hfaithful data h).counted hcounted
      exact (LengthRule.faithful_iff.mp hword).1
  · rintro (⟨e, he⟩ | hsmall)
    · exact ⟨fun data h => (by rw [he] at h; cases h), fun _ _ _ _ => ⟨e, he⟩⟩
    · constructor
      · intro data h
        exact (encode_ok_iff.mp h).imp fun n max word hcounted hword =>
          LengthRule.faithful_iff.mpr ⟨hsmall n max hcounted, hword⟩
      · intro n max hcounted hlong
        have hn := hsmall n max hcounted
        rcases hlong with hsize | ⟨m, hm, hlong⟩
        · omega
        · cases hm
          exact hrefused n m hcounted hn hlong

/-- Of 2^32 octets nothing is left in a length word, so even a maximum of 4 lets them pass. -/
theorem length_cut_to_nothing :
    let octets : Bytes := List.replicate UInt32.size 0
    encode (.octets octets) (.octetsUpTo 4) = .ok (Bytes.word 0 ++ Bytes.filled octets) ∧
      ∀ data, ¬ (Shape.octetsUpTo 4).Written .faithful (.octets octets) data := by
  intro octets
  have hlength : octets.length = UInt32.size := List.length_replicate
  constructor
  · refine encode_ok_iff.mpr (.octets ⟨?_, fun m _ => UInt32.zero_le⟩)
    rw [hlength]
    rfl
  · intro data h
    obtain ⟨word, hword, -⟩ := h.counted .octets
    have hlt := word.toNat_lt
    rw [hword, hlength] at hlt
    exact absurd hlt (Nat.lt_irrefl _)

end NfsWire
