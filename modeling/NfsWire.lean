import NfsWire.Capture.Decoder
import NfsWire.Capture.FlowDigest
import NfsWire.Capture.Report
import NfsWire.Capture.Shards
import NfsWire.Log
import NfsWire.Registry
import NfsWire.Settings.Decoder
import NfsWire.Xdr.Encode
import NfsWire.Proofs.Xdr.Conform
import NfsWire.Proofs.Xdr.Layout
import NfsWire.Proofs.Xdr.Writing
import NfsWire.Proofs.Xdr.Reading
import NfsWire.Proofs.Xdr.Trace
import NfsWire.Proofs.Xdr.Walk
import NfsWire.Proofs.Xdr.RoundTrip
import NfsWire.Proofs.Xdr.Splice
import NfsWire.Proofs.Xdr.Unaided
import NfsWire.Proofs.Xdr.Taken
import NfsWire.Proofs.Xdr.Alike
import NfsWire.Proofs.Xdr.Placeholder
import NfsWire.Proofs.Xdr.Spending
import NfsWire.Proofs.Capture.Roster
import NfsWire.Proofs.Capture.Store
import NfsWire.Proofs.Capture.Refinement
import NfsWire.Proofs.Capture.Lives
import NfsWire.Proofs.Capture.Census
import NfsWire.Proofs.Capture.Session
import NfsWire.Proofs.Capture.Balance
import NfsWire.Proofs.Capture.Counters
import NfsWire.Proofs.Capture.Records
import NfsWire.Proofs.Capture.Reachable
import NfsWire.Proofs.Capture.ReplyBody
import NfsWire.Proofs.Capture.Delivery
import NfsWire.Proofs.Capture.Conversations
import NfsWire.Proofs.Capture.Lagging
import NfsWire.Proofs.Capture.Reordering
import NfsWire.Proofs.Capture.Repetitions
import NfsWire.Proofs.Capture.Arrival
import NfsWire.Proofs.Rdma.Coverage
import NfsWire.Proofs.Capture.Sharding
import NfsWire.Proofs.Rdma.Wire
import NfsWire.Proofs.Capture.Transports
import NfsWire.Proofs.Xdr.Room
import NfsWire.Proofs.Xdr.Truncation
import NfsWire.Proofs.Capture.Finish
import NfsWire.Proofs.Guarded.Reader
import NfsWire.Proofs.Guarded.Rpc
import NfsWire.Proofs.Guarded.Rdma
import NfsWire.Proofs.Guarded.Matcher
import NfsWire.Proofs.Guarded.Reorder
import NfsWire.Proofs.Guarded.Messages
import NfsWire.Proofs.Guarded.Session
import NfsWire.Proofs.Rpc.Marks
import NfsWire.Proofs.Xdr.Selection
import NfsWire.Proofs.Xdr.Parts
import NfsWire.Proofs.Rpc.Message
import NfsWire.Proofs.Rdma.Grouping
import NfsWire.Proofs.Rdma.Listing
import NfsWire.Proofs.Rdma.Layouts
import NfsWire.Proofs.Rdma.Stored
import NfsWire.Proofs.Capture.Holding
import NfsWire.Proofs.Capture.Cuts
import NfsWire.Proofs.Xdr.Forward
import NfsWire.Proofs.Xdr.Codes
import NfsWire.Proofs.Xdr.Strict
import NfsWire.Proofs.Capture.Tickets
import NfsWire.Proofs.Xdr.Routes
import NfsWire.Proofs.Xdr.Stack
import NfsWire.Proofs.Rpc.Errors
import NfsWire.Proofs.Capture.Contents
import NfsWire.Proofs.Capture.Alongside
import NfsWire.Proofs.Capture.Comparison
import NfsWire.Proofs.Capture.Locality
import NfsWire.Proofs.Rpc.Wanting
import NfsWire.Proofs.Xdr.Lengths
import NfsWire.Proofs.Settings.Refusal
import NfsWire.Proofs.Capture.InTurn
