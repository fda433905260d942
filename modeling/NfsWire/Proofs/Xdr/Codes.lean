import NfsWire.Proofs.Xdr.Forward
import NfsWire.Proofs.Xdr.Trace

/-!
# Words read as codes

A value shows which codes were read, but not where; and when reading fails there is no value at all.
`Shape.codeWords` lists the words that a reader accepts as codes, discriminants included, in the
order in which it reads them and up to where it fails.

The list is tied to what is read from both sides. Each word stands in the message where the list
says it does, one behind the other (`Cursor.Meets`, `Reader.accompanied_meets`). When there is a
value, its codes are those of the list (`Reader.yieldsCodes_decode`).

`Accompanied` packs the induction over shapes: what holds of readers without codes and of a single
code, and passes to what is done one after the other, holds of every shape.
-/

namespace NfsWire

/-- A word of a message that was accepted as a code. -/
structure CodeWord where
  /-- Octets of the message before it. -/
  offset : Nat
  path : FieldPath
  table : Table
  fixed : Bool
  code : Int32
  deriving DecidableEq, Repr

namespace CodeWord

/-- The name of the code. -/
def name? (w : CodeWord) : Option String := w.table.name? w.code

/-- How the word is refused by a reader that refuses codes without a name. -/
def unknown (w : CodeWord) : DecodeError :=
  { fault := .unknownCode w.table.name w.code, path := w.path, offset := w.offset }

end CodeWord

/-- What a reader accepts as codes, from where it begins. -/
abbrev CodeWords := ReadContext → Cursor → List CodeWord

namespace CodeWords

variable {α : Type}

/-- No codes are read. -/
def none : CodeWords := fun _ _ => []

/-- The codes of `x`, and those of what goes on with its result. -/
def andThen (words : CodeWords) (x : Reader α) (more : α → CodeWords) : CodeWords := fun ctx c =>
  words ctx c ++
    match x ctx c with
    | .ok a c' => more a ctx c'
    | .error _ _ => []

/-- The codes in a part of the field being read. -/
def within (segment : Segment) (words : CodeWords) : CodeWords := fun ctx c =>
  words { ctx with path := ctx.path ++ [segment] } c

/-- The code of `table`, if it is accepted. -/
def enum (table : Table) (fixed : Bool) : CodeWords := fun ctx c =>
  match Reader.enum table fixed ctx c with
  | .ok (.enum code _) _ => [{ offset := c.offset, path := ctx.path, table, fixed, code }]
  | _ => []

/-- The codes of `count` elements, the first of which has index `i`. -/
def repeated (x : Reader α) (words : CodeWords) : (i count : Nat) → CodeWords
  | _, 0 => none
  | i, count + 1 =>
    (words.within (.index i)).andThen (Reader.within (.index i) x) fun _ =>
      repeated x words (i + 1) count

/-- The codes of elements announced by a flag each. -/
def announced (x : Reader α) (words : CodeWords) : (fuel i : Nat) → CodeWords
  | 0, _ => none
  | fuel + 1, i =>
    none.andThen (Reader.flag .optionalFlag) fun more =>
      if more then
        (words.within (.index i)).andThen (Reader.within (.index i) x) fun _ =>
          announced x words fuel (i + 1)
      else none

def chain (x : Reader α) (words : CodeWords) : CodeWords := fun ctx c =>
  announced x words (c.rest.length / 4 + 1) 0 ctx c

end CodeWords

namespace Shape

mutual

/-- The codes of a value of the shape. -/
def codeWords : Shape → CodeWords
  | .enum table fixed => CodeWords.enum table fixed
  | .array elem extent =>
    CodeWords.none.andThen (Reader.count extent) fun n =>
      CodeWords.none.andThen (Reader.room n.toNat elem.minSize) fun _ =>
        CodeWords.repeated elem.decode elem.codeWords 0 n.toNat
  | .chain elem => CodeWords.chain elem.decode elem.codeWords
  | .optional inner =>
    CodeWords.none.andThen (Reader.flag .optionalFlag) fun more =>
      if more then inner.codeWords else CodeWords.none
  | .struct fields => codeWordsFields fields
  | .union disc arms fallback =>
    disc.codeWords.andThen disc.decode fun d =>
      match d.armCode? with
      | none => CodeWords.none
      | some code => codeWordsArm arms code (codeWordsFallback fallback)
  | _ => CodeWords.none

def codeWordsFields : List (String × Shape) → CodeWords
  | [] => CodeWords.none
  | (name, s) :: rest =>
    (s.codeWords.within (.name name)).andThen (Reader.within (.name name) s.decode) fun _ =>
      codeWordsFields rest

def codeWordsArm : List (Int × String × Shape) → (code : Int) → (otherwise : CodeWords) →
    CodeWords
  | [], _, otherwise => otherwise
  | (c, name, s) :: rest, code, otherwise =>
    if c = code then s.codeWords.within (.name name) else codeWordsArm rest code otherwise

def codeWordsFallback : Option (String × Shape) → CodeWords
  | none => CodeWords.none
  | some (name, s) => s.codeWords.within (.name name)

end

/-- The codes of the arm that is selected. -/
theorem codeWordsArm_eq (arms : List (Int × String × Shape)) (fallback : Option (String × Shape))
    (code : Int) :
    codeWordsArm arms code (codeWordsFallback fallback) =
      match arm? arms fallback code with
      | none => CodeWords.none
      | some (name, s) => s.codeWords.within (.name name) := by
  induction arms with
  | nil =>
    rw [codeWordsArm, arm?_nil]
    cases fallback with
    | none => rfl
    | some f => rfl
  | cons a rest ih =>
    obtain ⟨c, name, s⟩ := a
    rw [codeWordsArm, arm?_cons]
    by_cases hc : c = code
    · rw [if_pos hc, if_pos hc]
    · rw [if_neg hc, if_neg hc]
      exact ih

end Shape

namespace CodeWords

variable {α β : Type} {words : CodeWords} {x : Reader α} {more : α → CodeWords}
  {ctx : ReadContext} {c c' : Cursor}

theorem andThen_of_ok {a : α} (h : x ctx c = .ok a c') :
    words.andThen x more ctx c = words ctx c ++ more a ctx c' := by
  rw [andThen, h]

theorem andThen_of_error {e : DecodeError} (h : x ctx c = .error e c') :
    words.andThen x more ctx c = words ctx c := by
  rw [andThen, h]
  exact List.append_nil _

/-- What is done with the result reads no codes. -/
theorem andThen_none : (words.andThen x fun _ => none) = words := by
  funext ctx c
  cases h : x ctx c with
  | ok a m =>
    rw [andThen_of_ok h]
    exact List.append_nil _
  | error e m => rw [andThen_of_error h]

end CodeWords

/-! ## Relations between readers and their codes -/

/-- The context in which codes without a name are refused. -/
def ReadContext.strictly (ctx : ReadContext) : ReadContext := { ctx with strict := true }

/-- A reader that reads no codes: it only goes forward, and does the same whether or not codes
without a name are refused. -/
structure Reader.Codeless {α : Type} (x : Reader α) : Prop where
  forward : x.Forward
  same : ∀ ctx : ReadContext, x ctx.strictly = x ctx

namespace Reader

theorem Codeless.bind {α β : Type} {x : Reader α} {f : α → Reader β} (hx : x.Codeless)
    (hf : ∀ a, (f a).Codeless) : (x >>= f).Codeless := by
  refine ⟨hx.forward.bind fun a => (hf a).forward, fun ctx => ?_⟩
  show EStateM.bind (x ctx.strictly) (fun a => f a ctx.strictly) =
    EStateM.bind (x ctx) fun a => f a ctx
  rw [hx.same ctx]
  congr 1
  funext a
  exact (hf a).same ctx

/-- The primitives of readers to whom all contexts are tolerant. -/
def tolerant : Primitives Reader := { primitives with strict := return false }

/-- Only where codes are judged does it matter whether those without a name are refused. -/
theorem related_codeless : Related tolerant tolerant (fun x _ => x.Codeless) where
  pure a := ⟨.pure a, fun _ => rfl⟩
  bind := .bind
  strict := ⟨.pure false, fun _ => rfl⟩
  within segment h :=
    ⟨fun _ c => h.forward _ c, fun ctx => h.same { ctx with path := ctx.path ++ [segment] }⟩
  failAt _ _ _ := ⟨fun _ c => .refl c, fun _ => rfl⟩
  offset := ⟨fun _ c => .refl c, fun _ => rfl⟩
  take n := ⟨forward_take n, fun _ => rfl⟩
  placed? wrap ddp n := ⟨forward_placed? wrap ddp n, fun _ => rfl⟩

end Reader

/-- A relation between readers and the codes they accept that holds where there are none and of a
single one, and of what is done one after the other. -/
structure Accompanied (R : {α : Type} → Reader α → CodeWords → Prop) : Prop where
  none {α : Type} {x : Reader α} : x.Codeless → R x CodeWords.none
  enum (table : Table) (fixed : Bool) : R (Reader.enum table fixed) (CodeWords.enum table fixed)
  bind {α β : Type} {x : Reader α} {words : CodeWords} {f : α → Reader β}
    {more : α → CodeWords} :
    R x words → (∀ a, R (f a) (more a)) → R (x >>= f) (words.andThen x more)
  within {α : Type} {x : Reader α} {words : CodeWords} (segment : Segment) :
    R x words → R (Reader.within segment x) (words.within segment)

namespace Accompanied

open Reader

variable {R : {α : Type} → Reader α → CodeWords → Prop} {α β : Type} {x : Reader α}
  {words : CodeWords}

theorem pure (h : Accompanied R) (a : α) : R (Pure.pure a) CodeWords.none :=
  h.none ⟨.pure a, fun _ => rfl⟩

theorem map (h : Accompanied R) (hx : R x words) (f : α → β) :
    R (x >>= fun a => Pure.pure (f a)) words := by
  have hbind := h.bind hx fun a => h.pure (f a)
  rw [CodeWords.andThen_none] at hbind
  exact hbind

theorem failAt (h : Accompanied R) (offset : Nat) (fault : Fault) :
    R (failAt offset fault : Reader α) CodeWords.none :=
  h.none ⟨fun _ c => .refl c, fun _ => rfl⟩

theorem flag (h : Accompanied R) (what : Malformation) : R (flag what) CodeWords.none :=
  h.none (related_codeless.flag what)

theorem repeated (h : Accompanied R) (hx : R x words) (i count : Nat) :
    R (repeated x i count) (CodeWords.repeated x words i count) := by
  induction count generalizing i with
  | zero => exact h.pure []
  | succ count ih => exact h.bind (h.within _ hx) fun a => h.map (ih (i + 1)) _

theorem announced (h : Accompanied R) (hx : R x words) (fuel i : Nat) :
    R (announced x fuel i) (CodeWords.announced x words fuel i) := by
  induction fuel generalizing i with
  | zero => exact h.pure []
  | succ fuel ih =>
    refine h.bind (h.flag _) fun more => ?_
    cases more with
    | true => exact h.bind (h.within _ hx) fun a => h.map (ih (i + 1)) _
    | false => exact h.pure []

theorem chain (h : Accompanied R) (hx : R x words) : R (chain x) (CodeWords.chain x words) := by
  -- A chain is a loop whose bound is read off the cursor, and reading the bound meets no codes.
  have hflags : R primitives.flags CodeWords.none :=
    h.none ⟨fun _ c => .refl c, fun _ => rfl⟩
  exact h.bind hflags fun fuel => h.announced hx fuel 0

theorem decodeFields (h : Accompanied R) {fields : List (String × Shape)}
    (hfields : ∀ f ∈ fields, R f.2.decode f.2.codeWords) :
    R (Shape.decodeFields fields) (Shape.codeWordsFields fields) := by
  induction fields with
  | nil => exact h.pure []
  | cons f rest ih =>
    have hrest := ih fun g hg => hfields g (List.mem_cons_of_mem _ hg)
    exact h.bind (h.within _ (hfields f List.mem_cons_self)) fun v => h.map hrest _

theorem decodeArm (h : Accompanied R) {arms : List (Int × String × Shape)}
    {fallback : Option (String × Shape)} (harms : ∀ a ∈ arms, R a.2.2.decode a.2.2.codeWords)
    (hfallback : ∀ f ∈ fallback, R f.2.decode f.2.codeWords) (start : Nat) (code : Int) :
    R (Shape.decodeArm arms code (Shape.decodeFallback fallback start code))
      (Shape.codeWordsArm arms code (Shape.codeWordsFallback fallback)) := by
  rw [Shape.decodeArm_eq, Shape.codeWordsArm_eq]
  cases harm : Shape.arm? arms fallback code with
  | none => exact h.failAt start _
  | some arm =>
    have hs := Shape.of_arm? (motive := fun s => R s.decode s.codeWords) harms hfallback harm
    exact h.map (h.within _ hs) _

/-- **What holds of single codes holds of every shape.** -/
theorem decode (h : Accompanied R) (shape : Shape) : R shape.decode shape.codeWords := by
  induction shape with
  | void => exact h.pure _
  | int | uint | hyper | uhyper => exact h.none ⟨forward_decode _, fun _ => rfl⟩
  | bool => exact h.map (h.flag _) _
  | enum table fixed => exact h.enum table fixed
  | octets extent ddp =>
    obtain size | max := extent
    · exact h.map (h.none (related_codeless.octets size.toNat)) _
    · exact h.none (related_codeless.item _ max ddp)
  | text max ddp => exact h.none (related_codeless.item _ max ddp)
  | array elem extent ih =>
    have hitems (n : UInt32) : R (do
        room n.toNat elem.minSize
        return .array (← Reader.repeated elem.decode 0 n.toNat) : Reader Value) _ :=
      h.bind (h.none ⟨forward_room n.toNat elem.minSize, fun _ => rfl⟩) fun _ =>
        h.map (h.repeated ih 0 n.toNat) _
    obtain size | max := extent
    · exact h.bind (h.pure size) hitems
    · exact h.bind (h.none (related_codeless.length max)) hitems
  | chain elem ih => exact h.map (h.chain ih) _
  | optional inner ih =>
    refine h.bind (h.flag _) fun more => ?_
    cases more with
    | true => exact h.map ih _
    | false => exact h.pure _
  | struct fields ih => exact h.map (h.decodeFields ih) _
  | union disc arms fallback ihd iha ihf =>
    -- The reader asks for its offset first, of which the list of codes has no trace.
    have hoffset : R offset CodeWords.none := h.none ⟨fun _ c => .refl c, fun _ => rfl⟩
    show R _ (CodeWords.none.andThen offset fun _ => (Shape.union disc arms fallback).codeWords)
    refine h.bind hoffset fun start => h.bind ihd fun d => ?_
    cases d.armCode? with
    | none => exact h.failAt start _
    | some code => exact h.map (h.decodeArm iha ihf start code) _

end Accompanied

/-! ## Where the words stand -/

/-- On the way from `c` to `c'` these words stand in the message, one behind the other. -/
inductive Cursor.Meets : Cursor → List CodeWord → Cursor → Prop where
  | nil {c c' : Cursor} : c.Passes 0 c' → Meets c [] c'
  | cons {c m m' c' : Cursor} {w : CodeWord} {words : List CodeWord} :
    c.Passes 0 m → w.offset = m.offset → m.Reads (Bytes.word w.code.toUInt32) m' →
    Meets m' words c' → Meets c (w :: words) c'

namespace Cursor

variable {c m c' : Cursor} {words more : List CodeWord} {w : CodeWord}

theorem Meets.after (h : c.Passes 0 m) (hm : m.Meets words c') : c.Meets words c' := by
  cases hm with
  | nil hpass => exact .nil (h.trans hpass)
  | cons hpass hoffset hword hrest => exact .cons (h.trans hpass) hoffset hword hrest

theorem Meets.append (h : c.Meets words m) (hmore : m.Meets more c') :
    c.Meets (words ++ more) c' := by
  induction h with
  | nil hpass => exact hmore.after hpass
  | cons hpass hoffset hword _ ih => exact .cons hpass hoffset hword (ih hmore)

theorem Meets.offset_le (h : c.Meets words c') : c.offset ≤ c'.offset := by
  induction h with
  | nil hpass => exact hpass.offset_le
  | cons hpass _ hword _ ih =>
    have hbefore := hpass.offset_le
    have hover := hword.passes.offset_le
    omega

/-- Each word stands between the two cursors. -/
theorem Meets.of_mem (h : c.Meets words c') (hw : w ∈ words) :
    ∃ m m', c.Passes 0 m ∧ w.offset = m.offset ∧ m.Reads (Bytes.word w.code.toUInt32) m' ∧
      m'.offset ≤ c'.offset := by
  induction h with
  | nil _ => cases hw
  | cons hpass hoffset hword hrest ih =>
    rcases List.mem_cons.mp hw with rfl | hw
    · exact ⟨_, _, hpass, hoffset, hword, hrest.offset_le⟩
    · obtain ⟨n, n', hn, hlater⟩ := ih hw
      have hbefore := (hpass.trans hword.passes).trans hn
      exact ⟨n, n', hbefore.mono (Nat.zero_le _), hlater⟩

/-- The words do not overlap. -/
theorem Meets.pairwise (h : c.Meets words c') :
    words.Pairwise fun w w' => w.offset + 4 ≤ w'.offset := by
  induction h with
  | nil _ => exact .nil
  | cons _ hoffset hword hrest ih =>
    refine .cons (fun w' hw' => ?_) ih
    obtain ⟨n, n', hn, hoffset', -⟩ := hrest.of_mem hw'
    have hover := hword.passes.offset_le
    have hbefore := hn.offset_le
    rw [Bytes.length_word] at hover
    omega

end Cursor

namespace Reader

/-- **The words accepted as codes stand where they are said to.** -/
theorem accompanied_meets : Accompanied fun x words =>
    ∀ (ctx : ReadContext) (c : Cursor), c.Meets (words ctx c) (x.stop ctx c) where
  none h := fun ctx c => .nil (h.forward ctx c)
  enum table fixed := by
    intro ctx c
    cases h : enum table fixed ctx c with
    | ok v m =>
      obtain ⟨code, hj, hreads⟩ := enum_ok_iff.mp h
      obtain ⟨rfl, -, -⟩ := judge_ok_iff.mp hj
      rw [CodeWords.enum, h, stop_of_ok h]
      exact .cons (.refl c) rfl hreads (.nil (.refl m))
    | error e m =>
      -- A code that is refused is not in the list, although its word was read.
      have hforward := forward_decode (.enum table fixed) ctx c
      rw [CodeWords.enum, h]
      exact .nil hforward
  bind {_ _ x _ _ _} hx hf := by
    intro ctx c
    have hfirst := hx ctx c
    cases h : x ctx c with
    | ok a m =>
      rw [stop_of_ok h] at hfirst
      rw [CodeWords.andThen_of_ok h, stop_bind_of_ok h]
      exact hfirst.append (hf a ctx m)
    | error e m =>
      rw [stop_of_error h] at hfirst
      rw [CodeWords.andThen_of_error h, stop_bind_of_error h]
      exact hfirst
  within _ hx := fun _ c => hx _ c

/-- What is accepted in a fixed field may be sent. -/
theorem accompanied_usable : Accompanied fun _ words =>
    ∀ ctx c, ∀ w ∈ words ctx c, w.fixed = true → w.table.Usable w.code where
  none _ := fun _ _ w hw => by cases hw
  enum table fixed := by
    intro ctx c w hw hfixed
    cases h : enum table fixed ctx c with
    | ok v m =>
      obtain ⟨code, hj, -⟩ := enum_ok_iff.mp h
      obtain ⟨rfl, husable, -⟩ := judge_ok_iff.mp hj
      rw [CodeWords.enum, h] at hw
      cases List.mem_singleton.mp hw
      exact husable hfixed
    | error e m =>
      rw [CodeWords.enum, h] at hw
      cases hw
  bind {_ _ x _ _ _} hx hf := by
    intro ctx c w hw
    cases h : x ctx c with
    | ok a m =>
      rw [CodeWords.andThen_of_ok h] at hw
      rcases List.mem_append.mp hw with hw | hw
      · exact hx ctx c w hw
      · exact hf a ctx m w hw
    | error e m =>
      rw [CodeWords.andThen_of_error h] at hw
      exact hx ctx c w hw
  within _ hx := fun _ c => hx _ c

end Reader

/-! ## The codes of a value -/

namespace Value

mutual

/-- The codes in a value with their names, discriminants included, in wire order. -/
def codes : Value → List (Int32 × Option String)
  | .enum code name => [(code, name)]
  | .array items => codesItems items
  | .struct fields => codesFields fields
  | .union disc _ value => disc.codes ++ value.codes
  | .optional (some v) => v.codes
  | _ => []

def codesItems : List Value → List (Int32 × Option String)
  | [] => []
  | v :: rest => v.codes ++ codesItems rest

def codesFields : List (String × Value) → List (Int32 × Option String)
  | [] => []
  | (_, v) :: rest => v.codes ++ codesFields rest

end

end Value

/-- The code of the word and its name, as a value has them. -/
def CodeWord.found (w : CodeWord) : Int32 × Option String := (w.code, w.name?)

namespace Reader

variable {α β : Type} {x : Reader α} {words : CodeWords}

/-- When the reader succeeds, `P` holds of its result and of the codes it accepted. -/
def Yields (x : Reader α) (words : CodeWords) (P : α → List (Int32 × Option String) → Prop) :
    Prop :=
  ∀ ctx c a c', x ctx c = .ok a c' → P a ((words ctx c).map CodeWord.found)

section Yields

variable {P : α → List (Int32 × Option String) → Prop}
  {Q : β → List (Int32 × Option String) → Prop}

theorem yields_none (x : Reader α) : x.Yields CodeWords.none fun _ codes => codes = [] :=
  fun _ _ _ _ _ => rfl

theorem Yields.pure {a : α} (h : P a []) : (Pure.pure a : Reader α).Yields CodeWords.none P := by
  intro ctx c b c' hok
  obtain ⟨rfl, rfl⟩ := pure_ok_iff.mp hok
  exact h

theorem Yields.bind {f : α → Reader β} {more : α → CodeWords} (hx : x.Yields words P)
    (hf : ∀ a codes, P a codes → (f a).Yields (more a) fun b rest => Q b (codes ++ rest)) :
    (x >>= f).Yields (words.andThen x more) Q := by
  intro ctx c b c' h
  obtain ⟨a, m, hfirst, hthen⟩ := bind_ok_iff.mp h
  rw [CodeWords.andThen_of_ok hfirst, List.map_append]
  exact hf a _ (hx _ _ _ _ hfirst) _ _ _ _ hthen

theorem Yields.map (hx : x.Yields words P) {f : α → β} (hf : ∀ a codes, P a codes → Q (f a) codes) :
    (x >>= fun a => Pure.pure (f a)).Yields words Q := by
  intro ctx c b c' h
  obtain ⟨a, m, hfirst, hpure⟩ := bind_ok_iff.mp h
  obtain ⟨rfl, rfl⟩ := pure_ok_iff.mp hpure
  exact hf a _ (hx _ _ _ _ hfirst)

/-- Where no codes are read first. -/
theorem Yields.after {f : α → Reader β} {more : α → CodeWords}
    (hf : ∀ a, (f a).Yields (more a) Q) :
    (x >>= f).Yields (CodeWords.none.andThen x more) Q :=
  (yields_none x).bind fun a _ hcodes => hcodes ▸ hf a

theorem Yields.within (hx : x.Yields words P) (segment : Segment) :
    (within segment x).Yields (words.within segment) P := fun _ => hx _

theorem yields_failAt (offset : Nat) (fault : Fault) :
    (failAt offset fault : Reader α).Yields words P :=
  fun _ _ _ _ h => absurd h failAt_ne_ok

end Yields

/-- The codes are those of the value. -/
abbrev YieldsCodes (x : Reader Value) (words : CodeWords) : Prop :=
  x.Yields words fun v codes => codes = v.codes

theorem yieldsCodes_enum (table : Table) (fixed : Bool) :
    YieldsCodes (enum table fixed) (CodeWords.enum table fixed) := by
  intro ctx c v c' h
  obtain ⟨code, hj, -⟩ := enum_ok_iff.mp h
  obtain ⟨rfl, -, -⟩ := judge_ok_iff.mp hj
  rw [CodeWords.enum, h]
  rfl

/-- In data there are no codes, nor in a reference to missing data. -/
theorem yieldsCodes_item {wrap : Bytes → Value} (hwrap : ∀ data, (wrap data).codes = [])
    (max : Option UInt32) (ddp : Bool) : YieldsCodes (item wrap max ddp) CodeWords.none := by
  intro ctx c v c' h
  obtain ⟨n, m, -, h⟩ := bind_ok_iff.mp h
  obtain ⟨found, m', hplaced, h⟩ := bind_ok_iff.mp h
  show [] = v.codes
  obtain hnone | ⟨chunk, k, hchunk, -⟩ | ⟨what, hrefused⟩ := placed?_cases wrap ddp n.toNat ctx m
  · rw [hnone] at hplaced
    cases hplaced
    obtain ⟨data, m'', -, hpure⟩ := bind_ok_iff.mp h
    obtain ⟨rfl, -⟩ := pure_ok_iff.mp hpure
    exact (hwrap data).symm
  · rw [hchunk] at hplaced
    cases hplaced
    obtain ⟨rfl, -⟩ := pure_ok_iff.mp h
    unfold chunkValue
    cases chunk.data with
    | some data => exact (hwrap _).symm
    | none => rfl
  · rw [hrefused] at hplaced
    cases hplaced

theorem yields_repeated {x : Reader Value} (hx : YieldsCodes x words) (i count : Nat) :
    (repeated x i count).Yields (CodeWords.repeated x words i count) fun items codes =>
      codes = Value.codesItems items := by
  induction count generalizing i with
  | zero => exact .pure rfl
  | succ count ih =>
    refine (hx.within _).bind fun v codes hv => (ih (i + 1)).map fun rest more hrest => ?_
    rw [hv, hrest, Value.codesItems]

theorem yields_chain {x : Reader Value} (hx : YieldsCodes x words) :
    (chain x).Yields (CodeWords.chain x words) fun items codes =>
      codes = Value.codesItems items := by
  have hannounced (fuel i : Nat) : (announced x fuel i).Yields (CodeWords.announced x words fuel i)
      fun items codes => codes = Value.codesItems items := by
    induction fuel generalizing i with
    | zero => exact .pure rfl
    | succ fuel ih =>
      refine .after fun more => ?_
      cases more with
      | false => exact .pure rfl
      | true =>
        refine (hx.within _).bind fun v codes hv => (ih (i + 1)).map fun rest more hrest => ?_
        rw [hv, hrest, Value.codesItems]
  exact fun ctx c => hannounced _ _ ctx c

theorem yields_decodeFields {fields : List (String × Shape)}
    (hfields : ∀ f ∈ fields, YieldsCodes f.2.decode f.2.codeWords) :
    (Shape.decodeFields fields).Yields (Shape.codeWordsFields fields) fun record codes =>
      codes = Value.codesFields record := by
  induction fields with
  | nil => exact .pure rfl
  | cons f rest ih =>
    have hrest := ih fun g hg => hfields g (List.mem_cons_of_mem _ hg)
    refine ((hfields f List.mem_cons_self).within _).bind fun v codes hv =>
      hrest.map fun record more hmore => ?_
    rw [hv, hmore, Value.codesFields]

theorem yields_decodeArm {arms : List (Int × String × Shape)} {fallback : Option (String × Shape)}
    (harms : ∀ a ∈ arms, YieldsCodes a.2.2.decode a.2.2.codeWords)
    (hfallback : ∀ f ∈ fallback, YieldsCodes f.2.decode f.2.codeWords) (start : Nat) (code : Int) :
    (Shape.decodeArm arms code (Shape.decodeFallback fallback start code)).Yields
      (Shape.codeWordsArm arms code (Shape.codeWordsFallback fallback)) fun arm codes =>
        codes = arm.2.codes := by
  rw [Shape.decodeArm_eq, Shape.codeWordsArm_eq]
  cases harm : Shape.arm? arms fallback code with
  | none => exact yields_failAt start _
  | some arm =>
    have hs := Shape.of_arm? (motive := fun s => YieldsCodes s.decode s.codeWords) harms hfallback
      harm
    exact (hs.within _).map fun v codes hv => hv

/-- **The words accepted as codes are the codes of the value**, in the same order. -/
theorem yieldsCodes_decode (shape : Shape) : YieldsCodes shape.decode shape.codeWords := by
  induction shape with
  | void => exact .pure rfl
  | int | uint | hyper | uhyper | bool => exact (yields_none _).map fun _ _ h => h
  | enum table fixed => exact yieldsCodes_enum table fixed
  | octets extent ddp =>
    obtain size | max := extent
    · exact (yields_none _).map fun _ _ h => h
    · exact yieldsCodes_item (fun _ => rfl) max ddp
  | text max ddp => exact yieldsCodes_item (fun _ => rfl) max ddp
  | array elem extent ih =>
    have hitems (n : UInt32) : (do
        room n.toNat elem.minSize
        return .array (← repeated elem.decode 0 n.toNat) : Reader Value).YieldsCodes _ :=
      .after fun _ => (yields_repeated ih 0 n.toNat).map fun items codes h => h
    obtain size | max := extent
    · exact Yields.after hitems
    · exact Yields.after hitems
  | chain elem ih => exact (yields_chain ih).map fun items codes h => h
  | optional inner ih =>
    refine .after fun more => ?_
    cases more with
    | true => exact ih.map fun v codes h => h
    | false => exact .pure rfl
  | struct fields ih => exact (yields_decodeFields ih).map fun record codes h => h
  | union disc arms fallback ihd iha ihf =>
    show YieldsCodes _ (CodeWords.none.andThen offset fun _ =>
      (Shape.union disc arms fallback).codeWords)
    refine .after fun start => ihd.bind fun d codes hd => ?_
    cases d.armCode? with
    | none => exact yields_failAt start _
    | some code =>
      refine (yields_decodeArm iha ihf start code).map fun arm more harm => ?_
      rw [hd, harm, Value.codes]

end Reader

end NfsWire
