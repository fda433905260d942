import NfsWire.Proofs.Xdr.Strict

/-!
# Where reading fails

An error names the field being read, and what is read is one shape inside another. `Reaches` follows
the reader from a shape down to a *node*: past the fields and elements that were read before it,
into the arm that the discriminant selected. The names and numbers on the way are its *route*.

1. When reading a shape fails, it fails at a node that the reader reaches, and there something fails
   that is the node's own (`Shape.FailsHere`): its word, its length, its flag, its discriminant, the
   room for its elements (`Shape.failsInside_of_decode`). A structure has nothing of its own.
2. What is a node's own fails under the path of the node, at an offset between where the node begins
   and where the reader stands (`Shape.FailsHere.located`).

So the path of an error is the route to the node, behind the path that was there before. A fault is
reported where its word began and a lack of octets where the reader stands, so of the offset no more
can be said than that it is in between (`Reader.FaultsFrom`).
-/

namespace NfsWire

/-- Reading further inside of the field being read. -/
def ReadContext.deeper (ctx : ReadContext) (route : FieldPath) : ReadContext :=
  { ctx with path := ctx.path ++ route }

theorem ReadContext.deeper_nil (ctx : ReadContext) : ctx.deeper [] = ctx := by
  simp [deeper]

theorem ReadContext.deeper_cons (ctx : ReadContext) (segment : Segment) (route : FieldPath) :
    ctx.deeper (segment :: route) = (ctx.deeper [segment]).deeper route := by
  simp [deeper]

namespace Reader

variable {α β : Type}

theorem Forward.passes {x : Reader α} (hx : x.Forward) {ctx : ReadContext} {c c' : Cursor} {a : α}
    (h : x ctx c = .ok a c') : c.Passes 0 c' := by
  have hpass := hx ctx c
  rw [stop_of_ok h] at hpass
  exact hpass

theorem Forward.repeated {x : Reader α} (hx : x.Forward) (i count : Nat) :
    (Reader.repeated x i count).Forward := by
  rw [← repeated_primitives]
  exact @Related.repeated _ _ _ _ _ _ _ _ related_forward _ x hx i count

/-! ## Faults of a reader -/

/-- Once the reader has come to `lo`, it fails under the path of the field being read, and not in
front of `lo` nor behind the place where it stops. -/
def FaultsFrom (lo : Nat) (x : Reader α) : Prop :=
  ∀ ctx c e c', lo ≤ c.offset → x ctx c = .error e c' →
    e.path = ctx.path ∧ lo ≤ e.offset ∧ e.offset ≤ c'.offset

namespace FaultsFrom

variable {lo : Nat} {x : Reader α} {f : α → Reader β}

theorem pure (a : α) : FaultsFrom lo (Pure.pure a) := by
  intro ctx c e c' hlo h
  cases h

theorem failAt (start : Nat) (fault : Fault) :
    FaultsFrom start (Reader.failAt start fault : Reader α) := by
  intro ctx c e c' hlo h
  cases h
  exact ⟨rfl, Nat.le_refl _, hlo⟩

theorem bind (hx : FaultsFrom lo x) (hforward : x.Forward) (hf : ∀ a, FaultsFrom lo (f a)) :
    FaultsFrom lo (x >>= f) := by
  intro ctx c e c' hlo h
  rcases bind_error_iff.mp h with hfirst | ⟨a, m, hfirst, hrest⟩
  · exact hx ctx c e c' hlo hfirst
  · have hpass := (hforward.passes hfirst).offset_le
    exact hf a ctx m e c' (by omega) hrest

/-- A reader that remembers where it began reports nothing in front of it. -/
theorem offset {f : Nat → Reader α} (hf : ∀ start, FaultsFrom start (f start)) :
    FaultsFrom lo (Reader.offset >>= f) := by
  intro ctx c e c' hlo h
  obtain ⟨hpath, hfrom, hto⟩ := hf c.offset ctx c e c' (Nat.le_refl _) h
  exact ⟨hpath, Nat.le_trans hlo hfrom, hto⟩

/-- A reader that has nothing read when it fails reports where it stands. -/
theorem of_still (h : ∀ ctx c e c', x ctx c = .error e c' →
    e.path = ctx.path ∧ e.offset = c.offset ∧ c' = c) : FaultsFrom lo x := by
  intro ctx c e c' hlo herror
  obtain ⟨hpath, hoffset, rfl⟩ := h ctx c e c' herror
  exact ⟨hpath, by omega, by omega⟩

end FaultsFrom

section Faults

variable (lo : Nat)

theorem faultsFrom_take (n : Nat) : FaultsFrom lo (take n) := by
  refine .of_still fun ctx c e c' h => ?_
  unfold take at h
  dsimp only at h
  split at h <;> cases h
  exact ⟨rfl, rfl, rfl⟩

theorem faultsFrom_room (count minSize : Nat) : FaultsFrom lo (room count minSize) := by
  refine .of_still fun ctx c e c' h => ?_
  unfold room at h
  dsimp only at h
  split at h <;> cases h
  exact ⟨rfl, rfl, rfl⟩

theorem faultsFrom_placed? (wrap : Bytes → Value) (ddp : Bool) (n : Nat) :
    FaultsFrom lo (placed? wrap ddp n) := by
  refine .of_still fun ctx c e c' h => ?_
  obtain hnone | ⟨chunk, m, hchunk, -, -⟩ | ⟨what, hrefused⟩ := placed?_cases wrap ddp n ctx c
  · rw [hnone] at h
    cases h
  · rw [hchunk] at h
    cases h
  · rw [hrefused] at h
    cases h
    exact ⟨rfl, rfl, rfl⟩

theorem faultsFrom_number (width : Nat) : FaultsFrom lo (number width) :=
  (faultsFrom_take lo width).bind (forward_take width) fun _ => .pure _

theorem faultsFrom_uint : FaultsFrom lo uint :=
  (faultsFrom_number lo 4).bind (related_forward.number 4) fun _ => .pure _

theorem faultsFrom_int : FaultsFrom lo int :=
  (faultsFrom_uint lo).bind related_forward.uint fun _ => .pure _

theorem faultsFrom_uhyper : FaultsFrom lo uhyper :=
  (faultsFrom_number lo 8).bind (related_forward.number 8) fun _ => .pure _

theorem faultsFrom_hyper : FaultsFrom lo hyper :=
  (faultsFrom_uhyper lo).bind related_forward.uhyper fun _ => .pure _

theorem faultsFrom_flag (what : Malformation) : FaultsFrom lo (flag what) := by
  refine .offset fun start => (faultsFrom_uint start).bind related_forward.uint fun w => ?_
  split
  · exact .pure _
  · split
    · exact .pure _
    · exact .failAt start _

theorem faultsFrom_length (max : Option UInt32) : FaultsFrom lo (length max) := by
  refine .offset fun start => (faultsFrom_uint start).bind related_forward.uint fun n => ?_
  split
  · split
    · exact .failAt start _
    · exact .pure _
  · exact .pure _

theorem faultsFrom_count (extent : Extent) : FaultsFrom lo (count extent) := by
  obtain size | max := extent
  · exact .pure size
  · exact faultsFrom_length lo max

theorem faultsFrom_octets (n : Nat) : FaultsFrom lo (octets n) := by
  have hpadding : FaultsFrom lo (padding n) := by
    refine .offset fun start => (faultsFrom_take start _).bind (forward_take _) fun zeros => ?_
    split
    · exact .failAt start _
    · exact .pure _
  have hforward : (padding n).Forward := by
    have hoffset : (Reader.offset).Forward := fun _ c => .refl c
    refine hoffset.bind fun start => (forward_take _).bind fun zeros => ?_
    split
    · exact fun _ c => .refl c
    · exact .pure _
  exact (faultsFrom_take lo n).bind (forward_take n) fun data =>
    hpadding.bind hforward fun _ => .pure data

theorem faultsFrom_item (wrap : Bytes → Value) (max : Option UInt32) (ddp : Bool) :
    FaultsFrom lo (item wrap max ddp) := by
  refine (faultsFrom_length lo max).bind (related_forward.length max) fun n =>
    (faultsFrom_placed? lo wrap ddp n.toNat).bind (forward_placed? wrap ddp n.toNat) fun found => ?_
  cases found with
  | some v => exact .pure v
  | none =>
    exact (faultsFrom_octets lo n.toNat).bind (related_forward.octets n.toNat) fun data => .pure _

theorem faultsFrom_enum (table : Table) (fixed : Bool) : FaultsFrom lo (enum table fixed) := by
  have hread (start : Nat) : FaultsFrom start (read : Reader ReadContext) := by
    intro ctx c e c' hlo h
    cases h
  have hforward : (read : Reader ReadContext).Forward := fun _ c => .refl c
  refine .offset fun start => (faultsFrom_int start).bind related_forward.int fun code =>
    (hread start).bind hforward fun ctx => ?_
  split
  · exact .pure _
  · exact .failAt start _

end Faults

/-! ## What was read before a failure -/

section Before

variable {x : Reader α} {ctx : ReadContext} {c m c' : Cursor} {e : DecodeError}

/-- One element after the other was read, and then one failed. -/
theorem repeated_error {i count : Nat} (h : repeated x i count ctx c = .error e c') :
    ∃ items m, items.length < count ∧ repeated x i items.length ctx c = .ok items m ∧
      within (.index (i + items.length)) x ctx m = .error e c' := by
  induction count generalizing i c with
  | zero => cases h
  | succ count ih =>
    rw [repeated] at h
    rcases bind_error_iff.mp h with hfirst | ⟨a, m, hfirst, hrest⟩
    · exact ⟨[], c, Nat.succ_pos _, rfl, hfirst⟩
    · obtain ⟨items, m', hlt, hitems, hfails⟩ := ih (error_of_wrapped hrest)
      refine ⟨a :: items, m', Nat.succ_lt_succ hlt, ?_, ?_⟩
      · rw [List.length_cons, repeated, bind_of_ok hfirst, bind_of_ok hitems]
        rfl
      · rw [List.length_cons, Nat.add_comm items.length, ← Nat.add_assoc]
        exact hfails

/-- From `c` to `m` these elements of a chain are read, each behind its flag. -/
inductive Links (x : Reader α) (ctx : ReadContext) (c : Cursor) : List α → Cursor → Prop where
  | none : Links x ctx c [] c
  | snoc {items : List α} {a : α} {m m' m'' : Cursor} : Links x ctx c items m →
      flag .optionalFlag ctx m = .ok true m' →
      within (.index items.length) x ctx m' = .ok a m'' → Links x ctx c (items ++ [a]) m''

/-- One element after the other was read, and then a flag failed or the element behind it. -/
theorem announced_error {items : List α} {fuel : Nat} (hlinks : Links x ctx c items m)
    (h : announced x fuel items.length ctx m = .error e c') :
    ∃ items m, Links x ctx c items m ∧ (flag .optionalFlag ctx m = .error e c' ∨
      ∃ m', flag .optionalFlag ctx m = .ok true m' ∧
        within (.index items.length) x ctx m' = .error e c') := by
  induction fuel generalizing items m with
  | zero => cases h
  | succ fuel ih =>
    rw [announced] at h
    rcases bind_error_iff.mp h with hflag | ⟨more, m', hflag, helem⟩
    · exact ⟨items, m, hlinks, .inl hflag⟩
    · cases more with
      | false => cases helem
      | true =>
        rw [if_pos rfl] at helem
        rcases bind_error_iff.mp helem with hfirst | ⟨a, m'', hfirst, hrest⟩
        · exact ⟨items, m, hlinks, .inr ⟨m', hflag, hfirst⟩⟩
        · have hmore := Links.snoc hlinks hflag hfirst
          have hrest := error_of_wrapped hrest
          rw [show items.length + 1 = (items ++ [a]).length by simp] at hrest
          exact ih hmore hrest

theorem Links.passes {items : List α} (hx : x.Forward) (h : Links x ctx c items m) :
    c.Passes 0 m := by
  induction h with
  | none => exact .refl c
  | snoc _ hflag hitem ih =>
    exact (ih.trans ((related_forward.flag _).passes hflag)).trans (hx.passes hitem)

end Before

end Reader

namespace Shape

open Reader

/-! ## Routes -/

/-- Reading a shape at a cursor, the reader comes along a route to read a node at another cursor. -/
inductive Reaches : ReadContext → Shape → Cursor → FieldPath → Shape → Cursor → Prop where
  | here {ctx : ReadContext} {s : Shape} {c : Cursor} : Reaches ctx s c [] s c
  /-- The fields in front are read. -/
  | field {ctx : ReadContext} {before after : List (String × Shape)} {name : String}
      {s node : Shape} {c m start : Cursor} {record : Fields} {route : FieldPath} :
      decodeFields before ctx c = .ok record m →
      Reaches (ctx.deeper [.name name]) s m route node start →
      Reaches ctx (.struct (before ++ (name, s) :: after)) c (.name name :: route) node start
  /-- The number of elements is known, there is room for them, and those in front are read. -/
  | element {ctx : ReadContext} {elem node : Shape} {extent : Extent} {n : UInt32}
      {c m m' start : Cursor} {items : List Value} {route : FieldPath} :
      count extent ctx c = .ok n m → room n.toNat elem.minSize ctx m = .ok () m →
      items.length < n.toNat → repeated elem.decode 0 items.length ctx m = .ok items m' →
      Reaches (ctx.deeper [.index items.length]) elem m' route node start →
      Reaches ctx (.array elem extent) c (.index items.length :: route) node start
  /-- The elements in front are read, and a flag announces one more. -/
  | link {ctx : ReadContext} {elem node : Shape} {c m m' start : Cursor} {items : List Value}
      {route : FieldPath} :
      Links elem.decode ctx c items m → flag .optionalFlag ctx m = .ok true m' →
      Reaches (ctx.deeper [.index items.length]) elem m' route node start →
      Reaches ctx (.chain elem) c (.index items.length :: route) node start
  /-- A flag says that there is something. -/
  | present {ctx : ReadContext} {inner node : Shape} {c m start : Cursor} {route : FieldPath} :
      flag .optionalFlag ctx c = .ok true m → Reaches ctx inner m route node start →
      Reaches ctx (.optional inner) c route node start
  | discriminant {ctx : ReadContext} {disc node : Shape} {arms : List (Int × String × Shape)}
      {fallback : Option (String × Shape)} {c start : Cursor} {route : FieldPath} :
      Reaches ctx disc c route node start →
      Reaches ctx (.union disc arms fallback) c route node start
  /-- The discriminant that was read selects the arm. -/
  | arm {ctx : ReadContext} {disc s node : Shape} {arms : List (Int × String × Shape)}
      {fallback : Option (String × Shape)} {d : Value} {code : Int} {name : String}
      {c m start : Cursor} {route : FieldPath} :
      disc.decode ctx c = .ok d m → d.armCode? = some code →
      arm? arms fallback code = some (name, s) →
      Reaches (ctx.deeper [.name name]) s m route node start →
      Reaches ctx (.union disc arms fallback) c (.name name :: route) node start

/-- What is the shape's own, and none of its parts', fails. -/
def FailsHere (ctx : ReadContext) (c : Cursor) (e : DecodeError) (c' : Cursor) : Shape → Prop
  | .array elem extent => count extent ctx c = .error e c' ∨
      ∃ n m, count extent ctx c = .ok n m ∧ room n.toNat elem.minSize ctx m = .error e c'
  | .chain elem => ∃ items m, Links elem.decode ctx c items m ∧
      flag .optionalFlag ctx m = .error e c'
  | .optional _ => flag .optionalFlag ctx c = .error e c'
  | .struct _ => False
  | .union disc arms fallback => ∃ d, disc.decode ctx c = .ok d c' ∧
      ((d.armCode? = none ∧
          e = { fault := .mismatch .discriminant, path := ctx.path, offset := c.offset }) ∨
        ∃ code, d.armCode? = some code ∧ arm? arms fallback code = none ∧
          e = { fault := .noArm code, path := ctx.path, offset := c.offset })
  | s => s.decode ctx c = .error e c'

section Located

variable {ctx : ReadContext} {shape node : Shape} {c c' start : Cursor} {e : DecodeError}
  {route : FieldPath}

/-- **What is a node's own fails under its path and not in front of it.** -/
theorem FailsHere.located (h : shape.FailsHere ctx c e c') :
    e.path = ctx.path ∧ c.offset ≤ e.offset ∧ e.offset ≤ c'.offset := by
  have hleaf {x : Reader Value} (hx : FaultsFrom c.offset x) (h : x ctx c = .error e c') :=
    hx ctx c e c' (Nat.le_refl _) h
  have hwrap {α : Type} {x : Reader α} {wrap : α → Value} (hx : FaultsFrom c.offset x)
      (hforward : x.Forward) (h : (do return wrap (← x) : Reader Value) ctx c = .error e c') :=
    hleaf (hx.bind hforward fun a => .pure (wrap a)) h
  cases shape with
  | void => cases h
  | int => exact hwrap (faultsFrom_int _) related_forward.int h
  | uint => exact hwrap (faultsFrom_uint _) related_forward.uint h
  | hyper => exact hwrap (faultsFrom_hyper _) related_forward.hyper h
  | uhyper => exact hwrap (faultsFrom_uhyper _) related_forward.uhyper h
  | bool => exact hwrap (faultsFrom_flag _ _) (related_forward.flag _) h
  | enum table fixed => exact hleaf (faultsFrom_enum _ table fixed) h
  | octets extent ddp =>
    obtain size | max := extent
    · exact hwrap (faultsFrom_octets _ _) (related_forward.octets _) h
    · exact hleaf (faultsFrom_item _ _ max ddp) h
  | text max ddp => exact hleaf (faultsFrom_item _ _ max ddp) h
  | array elem extent =>
    rcases h with hcount | ⟨n, m, hcount, hroom⟩
    · exact faultsFrom_count _ extent ctx c e c' (Nat.le_refl _) hcount
    · have hpass := ((related_forward.count extent).passes hcount).offset_le
      exact faultsFrom_room c.offset _ _ ctx m e c' (by omega) hroom
  | chain elem =>
    obtain ⟨items, m, hlinks, hflag⟩ := h
    have hpass := (hlinks.passes (forward_decode elem)).offset_le
    exact faultsFrom_flag c.offset _ ctx m e c' (by omega) hflag
  | optional inner => exact faultsFrom_flag _ _ ctx c e c' (Nat.le_refl _) h
  | struct fields => exact h.elim
  | union disc arms fallback =>
    obtain ⟨d, hdisc, ⟨-, rfl⟩ | ⟨code, -, -, rfl⟩⟩ := h
    · exact ⟨rfl, Nat.le_refl _, ((forward_decode disc).passes hdisc).offset_le⟩
    · exact ⟨rfl, Nat.le_refl _, ((forward_decode disc).passes hdisc).offset_le⟩

/-! ## A failure has its route -/

/-- The fields in front were read, and then one failed. -/
theorem decodeFields_error {fields : List (String × Shape)}
    (h : decodeFields fields ctx c = .error e c') :
    ∃ before name s after record m, fields = before ++ (name, s) :: after ∧
      decodeFields before ctx c = .ok record m ∧
      within (.name name) s.decode ctx m = .error e c' := by
  induction fields generalizing c with
  | nil => cases h
  | cons f rest ih =>
    obtain ⟨name, s⟩ := f
    rw [decodeFields] at h
    rcases bind_error_iff.mp h with hfirst | ⟨v, m, hfirst, hrest⟩
    · exact ⟨[], name, s, rest, [], c, rfl, rfl, hfirst⟩
    · obtain ⟨before, name', s', after, record, m', rfl, hbefore, hfails⟩ :=
        ih (error_of_wrapped hrest)
      refine ⟨(name, s) :: before, name', s', after, (name, v) :: record, m', rfl, ?_, hfails⟩
      rw [decodeFields, bind_of_ok hfirst, bind_of_ok hbefore]
      rfl

/-- No arm was there for the code, or the one that was there failed. -/
theorem decodeArm_error {arms : List (Int × String × Shape)} {fallback : Option (String × Shape)}
    {offset : Nat} {code : Int}
    (h : decodeArm arms code (decodeFallback fallback offset code) ctx c = .error e c') :
    (arm? arms fallback code = none ∧ c' = c ∧
        e = { fault := .noArm code, path := ctx.path, offset }) ∨
      ∃ name s, arm? arms fallback code = some (name, s) ∧
        within (.name name) s.decode ctx c = .error e c' := by
  rw [decodeArm_eq] at h
  cases harm : arm? arms fallback code with
  | none =>
    rw [harm] at h
    cases h
    exact .inl ⟨rfl, rfl, rfl⟩
  | some a =>
    obtain ⟨name, s⟩ := a
    rw [harm] at h
    have h : (within (.name name) s.decode >>= fun v => return (name, v)) ctx c = .error e c' := by
      rw [bind_pure_comp]
      exact h
    exact .inr ⟨name, s, rfl, error_of_wrapped h⟩

/-- Reading the shape fails at a node that the reader has come to, for what is the node's own. -/
def FailsInside (shape : Shape) (ctx : ReadContext) (c : Cursor) (e : DecodeError) (c' : Cursor) :
    Prop :=
  ∃ route node start, Reaches ctx shape c route node start ∧
    node.FailsHere (ctx.deeper route) start e c'

namespace FailsInside

variable {part : Shape} {m : Cursor}

theorem here (h : shape.FailsHere ctx c e c') : shape.FailsInside ctx c e c' := by
  refine ⟨[], shape, c, .here, ?_⟩
  rw [ReadContext.deeper_nil]
  exact h

/-- Where a part fails that has no segment of its own, its route is that of the whole. -/
theorem same (hroute : ∀ route node start, Reaches ctx part m route node start →
      Reaches ctx shape c route node start) (h : part.FailsInside ctx m e c') :
    shape.FailsInside ctx c e c' := by
  obtain ⟨route, node, start, hreaches, hfails⟩ := h
  exact ⟨route, node, start, hroute _ _ _ hreaches, hfails⟩

/-- Where a part fails, its route is one step longer for the whole. -/
theorem step {segment : Segment}
    (hroute : ∀ route node start, Reaches (ctx.deeper [segment]) part m route node start →
      Reaches ctx shape c (segment :: route) node start)
    (h : part.FailsInside (ctx.deeper [segment]) m e c') : shape.FailsInside ctx c e c' := by
  obtain ⟨route, node, start, hreaches, hfails⟩ := h
  rw [← ReadContext.deeper_cons] at hfails
  exact ⟨_, node, start, hroute _ _ _ hreaches, hfails⟩

end FailsInside

/-- **A failure has its route.** When reading a shape fails, it fails at a node that the reader has
come to, and for what is the node's own. -/
theorem failsInside_of_decode (h : shape.decode ctx c = .error e c') :
    shape.FailsInside ctx c e c' := by
  induction shape generalizing ctx c with
  | void | int | uint | hyper | uhyper | bool | enum | octets | text => exact .here h
  | array elem extent ih =>
    have h : (do
        let n ← count extent
        room n.toNat elem.minSize
        return .array (← repeated elem.decode 0 n.toNat) : Reader Value) ctx c = .error e c' := by
      cases extent <;> exact h
    rcases bind_error_iff.mp h with hcount | ⟨n, m, hcount, helems⟩
    · exact .here (.inl hcount)
    · rcases bind_error_iff.mp helems with hroom | ⟨u, m', hroom, hread⟩
      · exact .here (.inr ⟨n, m, hcount, hroom⟩)
      · obtain ⟨-, rfl⟩ := room_ok_iff.mp hroom
        obtain ⟨items, m', hlt, hitems, hfails⟩ := repeated_error (error_of_wrapped hread)
        rw [Nat.zero_add] at hfails
        exact .step (fun _ _ _ => .element hcount hroom hlt hitems) (ih hfails)
  | chain elem ih =>
    have hnone : Links elem.decode ctx c [] c := .none
    obtain ⟨items, m, hlinks, hflag | ⟨m', hflag, hfails⟩⟩ :=
      announced_error hnone (error_of_wrapped h)
    · exact .here ⟨items, m, hlinks, hflag⟩
    · exact .step (fun _ _ _ => .link hlinks hflag) (ih hfails)
  | optional inner ih =>
    rw [decode] at h
    rcases bind_error_iff.mp h with hflag | ⟨more, m, hflag, hinner⟩
    · exact .here hflag
    · cases more with
      | false => cases hinner
      | true => exact .same (fun _ _ _ => .present hflag) (ih (error_of_wrapped hinner))
  | struct fields ih =>
    obtain ⟨before, name, s, after, record, m, rfl, hbefore, hfails⟩ :=
      decodeFields_error (error_of_wrapped h)
    have hmem : (name, s) ∈ before ++ (name, s) :: after :=
      List.mem_append_right _ List.mem_cons_self
    exact .step (fun _ _ _ => .field hbefore) (ih _ hmem hfails)
  | union disc arms fallback ihd iha ihf =>
    rw [decode, offset_bind_apply] at h
    rcases bind_error_iff.mp h with hdisc | ⟨d, m, hdisc, hselected⟩
    · exact .same (fun _ _ _ => .discriminant) (ihd hdisc)
    · cases hcode : d.armCode? with
      | none =>
        rw [hcode] at hselected
        cases hselected
        exact .here ⟨d, hdisc, .inl ⟨hcode, rfl⟩⟩
      | some code =>
        simp only [hcode] at hselected
        rcases decodeArm_error (error_of_wrapped hselected) with
          ⟨harm, rfl, rfl⟩ | ⟨name, s, harm, hfails⟩
        · exact .here ⟨d, hdisc, .inr ⟨code, hcode, harm, rfl⟩⟩
        · have ih : ∀ ctx c, s.decode ctx c = .error e c' → s.FailsInside ctx c e c' :=
            of_arm? (motive := fun s => ∀ ctx c, s.decode ctx c = .error e c' →
              s.FailsInside ctx c e c') (fun a ha _ _ => iha a ha) (fun f hf _ _ => ihf f hf) harm
          exact .step (fun _ _ _ => .arm hdisc hcode harm) (ih _ _ hfails)

end Located

/-! ## On a message -/

theorem forward_decodeFields (fields : List (String × Shape)) : (decodeFields fields).Forward := by
  rw [← decodeFields_primitives fun f _ => decode_primitives f.2]
  refine related_forward.decodeFields fun f _ => ?_
  rw [decode_primitives]
  exact forward_decode f.2

/-- What the reader has come to lies in front of it. -/
theorem Reaches.passes {ctx : ReadContext} {shape node : Shape} {c start : Cursor}
    {route : FieldPath} (h : Reaches ctx shape c route node start) : c.Passes 0 start := by
  induction h with
  | here => exact .refl _
  | field hbefore _ ih => exact ((forward_decodeFields _).passes hbefore).trans ih
  | @element _ elem _ _ _ _ _ _ _ items _ hcount _ _ hitems _ ih =>
    have hcounted := (related_forward.count _).passes hcount
    have hread := ((forward_decode elem).repeated 0 items.length).passes hitems
    exact (hcounted.trans hread).trans ih
  | @link _ elem _ _ _ _ _ _ _ hlinks hflag _ ih =>
    have hread := hlinks.passes (forward_decode elem)
    exact (hread.trans ((related_forward.flag _).passes hflag)).trans ih
  | present hflag _ ih => exact ((related_forward.flag _).passes hflag).trans ih
  | discriminant _ ih => exact ih
  | arm hdisc _ _ _ ih => exact ((forward_decode _).passes hdisc).trans ih

/-- **Where an error lies.** It is that of a node that the reader has come to. Its path is the route
there, behind the path that was there before, and its offset is between the start of the node and
the place where the reader stopped. -/
theorem located_of_decode {shape : Shape} {ctx : ReadContext} {c c' : Cursor} {e : DecodeError}
    (h : shape.decode ctx c = .error e c') :
    ∃ route node start, Reaches ctx shape c route node start ∧
      node.FailsHere (ctx.deeper route) start e c' ∧ e.path = ctx.path ++ route ∧
      c.offset ≤ start.offset ∧ start.offset ≤ e.offset ∧ e.offset ≤ c'.offset := by
  obtain ⟨route, node, start, hreaches, hfails⟩ := failsInside_of_decode h
  obtain ⟨hpath, hfrom, hto⟩ := hfails.located
  exact ⟨route, node, start, hreaches, hfails, hpath, hreaches.passes.offset_le, hfrom, hto⟩

end Shape

end NfsWire
