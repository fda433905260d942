import NfsWire.Capture.Decoder
import NfsWire.Settings.Tree

/-!
# Settings of a decoder

A node of the settings says how to decode a capture. What it leaves out has its standard
value. The limit on the age of a call counts packets or time, by what the way of eviction is,
and is not read when calls never age.
-/

namespace NfsWire.Settings

open Yaml (Node)

/-- The limit of waiting calls by time, where none is given. -/
def standardMaxAge : Span := .ofSeconds 60

/-- When a waiting call is given up. -/
def aging (n : Node) : Except SettingsError Aging :=
  let eviction := (text? n ["matcher", "eviction"]).getD "packets"
  let maxAge : Key := ["matcher", "max-age"]
  if eviction == "none" then .ok .disabled
  else if eviction == "packets" then
    (whole? n maxAge).map fun limit => (limit.map Aging.packets).getD .standard
  else if eviction == "time" then
    (span? n maxAge).map fun limit => .time (limit.getD standardMaxAge)
  else .error (.invalid "matcher.eviction" eviction .unknownEviction)

/-- The settings that a node holds. The first value in this order that is of no use is the
error. -/
def decoder (n : Node) : Except SettingsError DecoderSettings := do
  let standard : DecoderSettings := {}
  let aging ← aging n
  let maxRecord ← memory? n ["tcp", "max-record"]
  let reorderWindow ← whole? n ["reorder-window"]
  let reorderFirst ← whole? n ["reorder-first-seq"]
  return {
    strictEnums := switch n ["strict-enums"]
    matcher.aging := aging
    matcher.flushOnFinish := switchOr n ["matcher", "flush-on-finish"] true
    requireXidMatch := switchOr n ["rdma", "require-xid-match"] true
    maxRecord := maxRecord.getD standard.maxRecord
    reorderWindow := reorderWindow.getD standard.reorderWindow
    reorderFirst }

end NfsWire.Settings
