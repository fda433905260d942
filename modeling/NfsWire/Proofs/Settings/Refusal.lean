import NfsWire.Settings.Decoder

/-!
# Settings of no use

The settings of a decoder are read key by key. The text under a key is taken for what is asked for
there, or something is held against it, and the first objection is the error (`decoder_eq`). Without
an objection each setting is what its own key says, or the standard one (`Told`); the age at which
calls are given up is told by two keys, because the way of eviction decides what the limit counts.

What has no text meets no objection. That is how a key that is missing comes to have the standard
value, and a key that is null. It is also how a sequence, a mapping or a bad scalar passes for a key
that is missing (`Asked.Mute`). All else that is of no use is refused (`unusable_refused`).
-/

namespace NfsWire.Settings

open Yaml (Node)

variable {α β : Type} {n : Node} {key : Key}

/-! ## Ways of eviction -/

/-- What decides that a call is given up. -/
inductive Eviction where
  | never
  | packets
  | time
  deriving DecidableEq, Repr

def eviction (text : String) : Except Complaint Eviction :=
  if text == "none" then .ok .never
  else if text == "packets" then .ok .packets
  else if text == "time" then .ok .time
  else .error .unknownEviction

def evictionKey : Key := ["matcher", "eviction"]

def maxAgeKey : Key := ["matcher", "max-age"]

def maxRecordKey : Key := ["tcp", "max-record"]

def windowKey : Key := ["reorder-window"]

def firstKey : Key := ["reorder-first-seq"]

/-! ## What a key says -/

/-- The value that a node is read as, if it has text and nothing is held against it. -/
def taken? (read : String → Except Complaint α) (v : Option Node) : Option α :=
  (v.bind scalarText?).bind fun text => (read text).toOption

/-- What is held against a text. -/
def complaint? (read : String → Except Complaint α) (text : String) : Option Complaint :=
  match read text with
  | .ok _ => none
  | .error why => some why

/-- The way of eviction that a node says. -/
def evictionOf (v : Option Node) : Eviction := (taken? eviction v).getD .packets

/-- When a call is given up, by the node that says at which age. -/
def agingBy (how : Eviction) (age : Option Node) : Aging :=
  match how with
  | .never => .disabled
  | .packets => ((taken? whole age).map Aging.packets).getD .standard
  | .time => .time ((taken? span age).getD standardMaxAge)

/-- Each setting is what its own key says, or the standard one. -/
structure Told (n : Node) (s : DecoderSettings) : Prop where
  aging : s.matcher.aging = agingBy (evictionOf (descend? n evictionKey)) (descend? n maxAgeKey)
  maxRecord : s.maxRecord =
    (taken? memory (descend? n maxRecordKey)).getD ({} : DecoderSettings).maxRecord
  reorderWindow : s.reorderWindow =
    (taken? whole (descend? n windowKey)).getD ({} : DecoderSettings).reorderWindow
  reorderFirst : s.reorderFirst = taken? whole (descend? n firstKey)

/-! ## What is asked -/

/-- A key, and what is held against the text under it. -/
structure Asked where
  key : Key
  complaint? : String → Option Complaint

namespace Asked

/-- The error of a node whose text under the key is of no use. -/
def refusal? (a : Asked) (n : Node) : Option SettingsError :=
  (text? n a.key).bind fun text => (a.complaint? text).map (.invalid a.key.toText text)

/-- Nothing stands under the key, or null does. -/
def Absent (a : Asked) (n : Node) : Prop := ∀ v, descend? n a.key = some v → v = .null

/-- Text of the right kind stands under the key. -/
def Usable (a : Asked) (n : Node) : Prop :=
  ∃ v text, descend? n a.key = some v ∧ scalarText? v = some text ∧ a.complaint? text = none

/-- Something stands under the key, and it is neither null nor text of the right kind. -/
def Unusable (a : Asked) (n : Node) : Prop :=
  ∃ v, descend? n a.key = some v ∧ v ≠ .null ∧
    ∀ text, scalarText? v = some text → a.complaint? text ≠ none

/-- What stands under the key is not null, but has no text: it is a sequence, a mapping or a bad
node. -/
def Mute (a : Asked) (n : Node) : Prop :=
  ∃ v, descend? n a.key = some v ∧ v ≠ .null ∧ scalarText? v = none

end Asked

/-- The limit on ages, which is not asked for when calls are never given up. -/
def askedAge : Eviction → List Asked
  | .never => []
  | .packets => [⟨maxAgeKey, complaint? whole⟩]
  | .time => [⟨maxAgeKey, complaint? span⟩]

/-- All that is asked of a node, in this order. -/
def asked (n : Node) : List Asked :=
  ⟨evictionKey, complaint? eviction⟩ :: askedAge (evictionOf (descend? n evictionKey)) ++
    [⟨maxRecordKey, complaint? memory⟩, ⟨windowKey, complaint? whole⟩,
      ⟨firstKey, complaint? whole⟩]

/-! ## Reading a key -/

/-- A result, unless something is held against it. -/
def barring (against : Option SettingsError) (a : α) : Except SettingsError α :=
  match against with
  | some e => .error e
  | none => .ok a

theorem barring_map (o : Option SettingsError) (a : α) (f : α → β) :
    (barring o a).map f = barring o (f a) := by
  cases o <;> rfl

theorem barring_error_iff {o : Option SettingsError} {a : α} {e : SettingsError} :
    barring o a = .error e ↔ o = some e := by
  cases o <;> simp [barring]

theorem barring_ok_iff {o : Option SettingsError} {a b : α} :
    barring o a = .ok b ↔ o = none ∧ b = a := by
  cases o <;> simp [barring, eq_comm]

/-- What is no value has no text anyway. -/
theorem text?_eq (n : Node) (key : Key) : text? n key = (descend? n key).bind scalarText? := by
  rw [text?, get?]
  cases hv : descend? n key with
  | none => rfl
  | some v => cases v <;> rfl

theorem read?_eq (read : String → Except Complaint α) (n : Node) (key : Key) :
    read? read n key =
      barring (Asked.refusal? ⟨key, complaint? read⟩ n) (taken? read (descend? n key)) := by
  rw [read?, Asked.refusal?, taken?, ← text?_eq]
  cases text? n key with
  | none => rfl
  | some text =>
    simp only [Option.bind_some, complaint?]
    cases read text <;> rfl

theorem taken?_descend? (read : String → Except Complaint α) (n : Node) (key : Key) :
    taken? read (descend? n key) = (text? n key).bind fun text => (read text).toOption := by
  rw [taken?, text?_eq]

/-- The limit on ages is read in the way in which calls are given up. -/
def readAge (n : Node) : Eviction → Except SettingsError Aging
  | .never => .ok .disabled
  | .packets => (whole? n maxAgeKey).map fun limit => (limit.map Aging.packets).getD .standard
  | .time => (span? n maxAgeKey).map fun limit => .time (limit.getD standardMaxAge)

theorem readAge_eq (n : Node) (how : Eviction) :
    readAge n how =
      barring ((askedAge how).findSome? (·.refusal? n)) (agingBy how (descend? n maxAgeKey)) := by
  cases how with
  | never => rfl
  | packets =>
    rw [readAge, whole?, read?_eq, barring_map, askedAge, List.findSome?_cons, List.findSome?_nil]
    cases Asked.refusal? ⟨maxAgeKey, complaint? whole⟩ n <;> rfl
  | time =>
    rw [readAge, span?, read?_eq, barring_map, askedAge, List.findSome?_cons, List.findSome?_nil]
    cases Asked.refusal? ⟨maxAgeKey, complaint? span⟩ n <;> rfl

/-- Without text, calls are given up by packets. -/
theorem aging_eq_readAge (n : Node) :
    aging n =
      match eviction ((text? n evictionKey).getD "packets") with
      | .ok how => readAge n how
      | .error why =>
        .error (.invalid evictionKey.toText ((text? n evictionKey).getD "packets") why) := by
  obtain ⟨text, htext⟩ : ∃ text, (text? n evictionKey).getD "packets" = text := ⟨_, rfl⟩
  have htext' : (text? n ["matcher", "eviction"]).getD "packets" = text := htext
  simp only [aging, htext, htext', eviction]
  by_cases hnever : (text == "none") = true
  · rw [if_pos hnever, if_pos hnever]
    rfl
  · rw [if_neg hnever, if_neg hnever]
    by_cases hpackets : (text == "packets") = true
    · rw [if_pos hpackets, if_pos hpackets]
      rfl
    · rw [if_neg hpackets, if_neg hpackets]
      by_cases htime : (text == "time") = true
      · rw [if_pos htime, if_pos htime]
        rfl
      · rw [if_neg htime, if_neg htime]
        rfl

theorem aging_eq (n : Node) :
    aging n =
      barring
        ((⟨evictionKey, complaint? eviction⟩ ::
          askedAge (evictionOf (descend? n evictionKey))).findSome? (·.refusal? n))
        (agingBy (evictionOf (descend? n evictionKey)) (descend? n maxAgeKey)) := by
  rw [aging_eq_readAge, List.findSome?_cons, Asked.refusal?, evictionOf, taken?_descend?]
  dsimp only
  cases text? n evictionKey with
  | none => exact readAge_eq n .packets
  | some text =>
    simp only [Option.getD_some, Option.bind_some, complaint?]
    cases eviction text with
    | error why => rfl
    | ok how => exact readAge_eq n how

/-- **The first objection is the error.** Without one, each setting is what its key says. -/
theorem decoder_eq (n : Node) :
    ∃ s, Told n s ∧ decoder n = barring ((asked n).findSome? (·.refusal? n)) s := by
  let standard : DecoderSettings := {}
  refine ⟨{
    strictEnums := switch n ["strict-enums"]
    matcher.aging := agingBy (evictionOf (descend? n evictionKey)) (descend? n maxAgeKey)
    matcher.flushOnFinish := switchOr n ["matcher", "flush-on-finish"] true
    requireXidMatch := switchOr n ["rdma", "require-xid-match"] true
    maxRecord := (taken? memory (descend? n maxRecordKey)).getD standard.maxRecord
    reorderWindow := (taken? whole (descend? n windowKey)).getD standard.reorderWindow
    reorderFirst := taken? whole (descend? n firstKey) }, ⟨rfl, rfl, rfl, rfl⟩, ?_⟩
  rw [asked, List.findSome?_append]
  show (aging n >>= fun aging => read? memory n maxRecordKey >>= fun maxRecord =>
    read? whole n windowKey >>= fun window => read? whole n firstKey >>= fun first =>
      (Except.ok _ : Except SettingsError DecoderSettings)) = _
  rw [aging_eq, read?_eq, read?_eq, read?_eq]
  simp only [List.findSome?_cons, List.findSome?_nil]
  -- At the first of the four that meets an objection both sides stop.
  cases Asked.refusal? ⟨evictionKey, complaint? eviction⟩ n with
  | some e => rfl
  | none =>
    cases (askedAge (evictionOf (descend? n evictionKey))).findSome? (·.refusal? n) with
    | some e => rfl
    | none =>
      cases Asked.refusal? ⟨maxRecordKey, complaint? memory⟩ n with
      | some e => rfl
      | none =>
        cases Asked.refusal? ⟨windowKey, complaint? whole⟩ n with
        | some e => rfl
        | none =>
          cases Asked.refusal? ⟨firstKey, complaint? whole⟩ n with
          | some e => rfl
          | none => rfl

/-! ## Objections -/

namespace Asked

variable {a : Asked} {e : SettingsError}

theorem refusal?_eq_some_iff :
    a.refusal? n = some e ↔
      ∃ v text why, descend? n a.key = some v ∧ scalarText? v = some text ∧
        a.complaint? text = some why ∧ e = .invalid a.key.toText text why := by
  simp only [refusal?, text?_eq, Option.bind_eq_some_iff, Option.map_eq_some_iff]
  constructor
  · rintro ⟨text, ⟨v, hv, htext⟩, why, hwhy, rfl⟩
    exact ⟨v, text, why, hv, htext, hwhy, rfl⟩
  · rintro ⟨v, text, why, hv, htext, hwhy, rfl⟩
    exact ⟨text, ⟨v, hv, htext⟩, why, hwhy, rfl⟩

/-- What meets no objection is missing, of use, or has no text. -/
theorem cases_of_refusal?_eq_none (h : a.refusal? n = none) :
    a.Absent n ∨ a.Usable n ∨ a.Mute n := by
  cases hv : descend? n a.key with
  | none =>
    refine .inl fun v hsome => ?_
    rw [hv] at hsome
    cases hsome
  | some v =>
    cases htext : scalarText? v with
    | none =>
      by_cases hnull : v = .null
      · refine .inl fun w hsome => ?_
        rw [hv] at hsome
        cases hsome
        exact hnull
      · exact .inr (.inr ⟨v, hv, hnull, htext⟩)
    | some text =>
      cases hwhy : a.complaint? text with
      | none => exact .inr (.inl ⟨v, text, hv, htext, hwhy⟩)
      | some why =>
        rw [refusal?_eq_some_iff.mpr ⟨v, text, why, hv, htext, hwhy, rfl⟩] at h
        cases h

theorem Mute.unusable (h : a.Mute n) : a.Unusable n := by
  obtain ⟨v, hv, hnull, hmute⟩ := h
  refine ⟨v, hv, hnull, fun text htext => ?_⟩
  rw [hmute] at htext
  cases htext

/-- What is of no use and has text meets an objection. -/
theorem Unusable.refused (h : a.Unusable n) (hmute : ¬ a.Mute n) : a.refusal? n ≠ none := by
  obtain ⟨v, hv, hnull, hno⟩ := h
  intro hnone
  rcases cases_of_refusal?_eq_none hnone with habsent | ⟨v', text, hv', htext, hok⟩ | hmute'
  · exact hnull (habsent v hv)
  · rw [hv] at hv'
    cases hv'
    exact hno text htext hok
  · exact hmute hmute'

end Asked

theorem decoder_error_iff {e : SettingsError} :
    decoder n = .error e ↔ (asked n).findSome? (·.refusal? n) = some e := by
  obtain ⟨s, -, hdecoder⟩ := decoder_eq n
  rw [hdecoder, barring_error_iff]

theorem told_of_decoder {s : DecoderSettings} (h : decoder n = .ok s) :
    Told n s ∧ ∀ a ∈ asked n, a.refusal? n = none := by
  obtain ⟨s', htold, hdecoder⟩ := decoder_eq n
  rw [hdecoder, barring_ok_iff] at h
  obtain ⟨hnone, rfl⟩ := h
  exact ⟨htold, List.findSome?_eq_none_iff.mp hnone⟩

/-- **What is of no use is refused, unless it has no text.** The error is the first objection to a
text. Settings without an error are what their own keys say, each of which is missing or null, has
text of its kind, or has none. So whatever stands under a key and is of no use is refused, exactly
if something else is or no sequence, mapping or bad node stands under any key. -/
theorem unusable_refused (n : Node) :
    (∀ e, decoder n = .error e ↔ (asked n).findSome? (·.refusal? n) = some e) ∧
      (∀ s, decoder n = .ok s →
        Told n s ∧ ∀ a ∈ asked n, a.Absent n ∨ a.Usable n ∨ a.Mute n) ∧
      ((∀ a ∈ asked n, a.Unusable n →
          ∃ key value why, decoder n = .error (.invalid key value why)) ↔
        (∃ e, decoder n = .error e) ∨ ∀ a ∈ asked n, ¬ a.Mute n) := by
  have hinvalid : ∀ e, decoder n = .error e → ∃ key value why, e = .invalid key value why := by
    intro e he
    obtain ⟨a, -, ha⟩ := List.exists_of_findSome?_eq_some (decoder_error_iff.mp he)
    obtain ⟨-, text, why, -, -, -, rfl⟩ := Asked.refusal?_eq_some_iff.mp ha
    exact ⟨_, text, why, rfl⟩
  refine ⟨fun e => decoder_error_iff, fun s hs => ?_, ?_, ?_⟩
  · obtain ⟨htold, hnone⟩ := told_of_decoder hs
    exact ⟨htold, fun a ha => Asked.cases_of_refusal?_eq_none (hnone a ha)⟩
  · intro hall
    by_cases hmute : ∃ a ∈ asked n, a.Mute n
    · obtain ⟨a, ha, hmute⟩ := hmute
      obtain ⟨key, value, why, herror⟩ := hall a ha hmute.unusable
      exact .inl ⟨_, herror⟩
    · exact .inr fun a ha hmuted => hmute ⟨a, ha, hmuted⟩
  · intro hcases a ha hunusable
    obtain ⟨e, herror⟩ : ∃ e, decoder n = .error e := by
      rcases hcases with herror | hmute
      · exact herror
      · cases hdecoder : decoder n with
        | error e => exact ⟨e, rfl⟩
        | ok s => exact absurd ((told_of_decoder hdecoder).2 a ha) (hunusable.refused (hmute a ha))
    obtain ⟨key, value, why, rfl⟩ := hinvalid e herror
    exact ⟨key, value, why, herror⟩

/-- A sequence stands where a way of eviction should, and the standard settings are the answer. -/
theorem sequence_passed_over :
    let n : Node := .map [(.str "matcher", .map [(.str "eviction", .seq [.str "time"])])]
    let a : Asked := ⟨evictionKey, complaint? eviction⟩
    a ∈ asked n ∧ a.Unusable n ∧ decoder n = .ok {} := by
  refine ⟨List.mem_cons_self, ⟨.seq [.str "time"], rfl, nofun, nofun⟩, rfl⟩

end NfsWire.Settings
