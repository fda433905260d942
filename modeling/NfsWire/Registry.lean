import NfsWire.Rpc.Table
import NfsWire.Nfs3.Table
import NfsWire.Nlm4.Table
import NfsWire.Rdma.Table

/-!
# All tables and limits

Tables and limits are found by protocol and name. No name is used twice within a protocol,
and every table is `Table.Distinct`, so a look-up has one answer; `Registry.tables_distinct`
and `Registry.tables_keys_nodup` check that.
-/

namespace NfsWire.Registry

def tables : List Table :=
  Rpc.tables ++ Nfs3.tables ++ Nlm4.tables ++ Rdma.tables

def limits : List Limit :=
  Rpc.limits ++ Nfs3.limits ++ Nlm4.limits

/-- The table of that name. -/
def table? (protocol : Protocol) (name : String) : Option Table :=
  tables.find? fun t => t.protocol == protocol && t.name == name

/-- The table of that name; an unknown one names no code. -/
def tableOrEmpty (protocol : Protocol) (name : String) : Table :=
  (table? protocol name).getD { protocol, name, entries := [] }

/-- The limit of that name. -/
def limit? (protocol : Protocol) (name : String) : Option UInt32 :=
  (limits.find? fun l => l.protocol == protocol && l.name == name).map (·.value)

theorem tables_distinct : ∀ t ∈ tables, t.Distinct := by
  decide +kernel

theorem tables_keys_nodup : (tables.map fun t => (t.protocol, t.name)).Nodup := by
  decide +kernel

end NfsWire.Registry
