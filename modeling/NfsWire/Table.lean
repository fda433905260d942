/-!
# Tables of named codes

Every enumerated field of the protocols draws its codes from a *table*: a list of codes with
their symbolic names. A table belongs to one protocol, and each entry says how firmly the
code is settled:

* **normal** codes may grow in later versions, so an unknown one is merely unnamed;
* **fixed** codes are the same in all versions;
* codes **not to be used** are reserved, and a compliant peer never sends one.

Within a table a code has one name and a name has one code; `Table.name?_of_mem` and
`Table.code?_of_mem` say that the look-ups find exactly the entries listed, given that.
-/

namespace NfsWire

/-- The protocols whose messages are understood. -/
inductive Protocol where
  | rpc
  | nfs3
  | nlm4
  | rdma
  deriving DecidableEq, Repr, Inhabited

/-- The name by which reports and errors call the protocol. -/
def Protocol.name : Protocol → String
  | .rpc => "RPC"
  | .nfs3 => "NFS3"
  | .nlm4 => "NLM4"
  | .rdma => "RPCORDMA"

/-- How firmly a code is settled. -/
inductive Stability where
  | normal
  | fixed
  | notToBeUsed
  deriving DecidableEq, Repr, Inhabited

/-- One named code. -/
structure Entry where
  code : Int32
  name : String
  stability : Stability := .normal
  deriving DecidableEq, Repr, Inhabited

/-- The named codes of one enumerated type, in the order in which they are declared. -/
structure Table where
  protocol : Protocol
  name : String
  entries : List Entry
  deriving DecidableEq, Repr, Inhabited

/-- A named size limit of a protocol. -/
structure Limit where
  protocol : Protocol
  name : String
  value : UInt32
  deriving DecidableEq, Repr, Inhabited

/-- How a code without a name is shown. -/
def unnamedLabel (code : Int32) : String :=
  "UNKNOWN(" ++ toString code.toInt ++ ")"

namespace Table

/-- The entry for a code. -/
def entry? (t : Table) (code : Int32) : Option Entry :=
  t.entries.find? (·.code == code)

/-- The name of a code. -/
def name? (t : Table) (code : Int32) : Option String :=
  (t.entry? code).map (·.name)

/-- The code of a name. -/
def code? (t : Table) (name : String) : Option Int32 :=
  (t.entries.find? (·.name == name)).map (·.code)

/-- The name of a code, or a label that shows the bare number. -/
def label (t : Table) (code : Int32) : String :=
  (t.name? code).getD (unnamedLabel code)

/-- No two entries share a code, and no two share a name. -/
def Distinct (t : Table) : Prop :=
  (t.entries.map (·.code)).Nodup ∧ (t.entries.map (·.name)).Nodup

instance (t : Table) : Decidable t.Distinct :=
  inferInstanceAs (Decidable (_ ∧ _))

/-- In a list whose keys are pairwise distinct, a search by key finds the member with that key. -/
theorem find?_key_of_mem {α κ : Type} [BEq κ] [LawfulBEq κ] (key : α → κ) {l : List α} {a : α}
    (hd : (l.map key).Nodup) (ha : a ∈ l) : l.find? (key · == key a) = some a := by
  induction l with
  | nil => simp at ha
  | cons b rest ih =>
    rw [List.map_cons, List.nodup_cons] at hd
    rcases List.mem_cons.mp ha with rfl | hm
    · simp
    · have hne : (key b == key a) = false :=
        beq_eq_false_iff_ne.mpr fun h => hd.1 (h ▸ List.mem_map_of_mem hm)
      rw [List.find?_cons_of_neg (by simp [hne]), ih hd.2 hm]

theorem name?_of_mem {t : Table} {e : Entry} (hd : t.Distinct) (he : e ∈ t.entries) :
    t.name? e.code = some e.name := by
  simp [name?, entry?, find?_key_of_mem Entry.code hd.1 he]

theorem code?_of_mem {t : Table} {e : Entry} (hd : t.Distinct) (he : e ∈ t.entries) :
    t.code? e.name = some e.code := by
  simp [code?, find?_key_of_mem Entry.name hd.2 he]

end Table

end NfsWire
