import Hiway.Envelope
import Hiway.Event
import Hiway.Fabric.Accounting
import Hiway.Fabric.Credits
import Hiway.Fabric.Declarations
import Hiway.Fabric.Deferral
import Hiway.Fabric.Histories
import Hiway.Fabric.Isolation
import Hiway.Fabric.Latest
import Hiway.Fabric.Ledger
import Hiway.Fabric.Outcome
import Hiway.Fabric.Refinement
import Hiway.Fabric.Retention
import Hiway.Fabric.Scope
import Hiway.Fabric.Senders
import Hiway.Fabric.Session
import Hiway.Fabric.Signals
import Hiway.Fabric.Steps
import Hiway.Fabric.Stream
import Hiway.Fabric.Strict
import Hiway.Fabric.Twins
import Hiway.Grant.Accounting
import Hiway.Grant.Alike
import Hiway.Grant.Attenuation
import Hiway.Grant.Authority
import Hiway.Grant.Books
import Hiway.Grant.Limits
import Hiway.Grant.Live
import Hiway.Grant.Registrations
import Hiway.Grant.Restrict
import Hiway.Grant.Steady
import Hiway.Grant.Tree
import Hiway.Lib.Bytes
import Hiway.Lib.Checked
import Hiway.Lib.Dialogue
import Hiway.Lib.Forest
import Hiway.Lib.Handles
import Hiway.Lib.Search
import Hiway.Lib.Slots
import Hiway.Lib.Tiling
import Hiway.Local.Accesses
import Hiway.Local.Latest
import Hiway.Local.Refinement
import Hiway.Local.Session
import Hiway.Local.State
import Hiway.Local.Tasks
import Hiway.Local.Waiters
import Hiway.Local.Waiting
import Hiway.Parity.Credit
import Hiway.Parity.Latest
import Hiway.Parity.Script
import Hiway.Parity.Simulation
import Hiway.Schema.Evolution
import Hiway.Schema.Manifest
import Hiway.Schema.Messages
import Hiway.Stream.History
import Hiway.Stream.Latest
import Hiway.Transport.Accountability
import Hiway.Transport.Audit
import Hiway.Transport.Closure
import Hiway.Transport.Decoding
import Hiway.Transport.Delivery
import Hiway.Transport.Duplex
import Hiway.Transport.DuplexSides
import Hiway.Transport.Format
import Hiway.Transport.Frame
import Hiway.Transport.Halting
import Hiway.Transport.Importer
import Hiway.Transport.Inlet
import Hiway.Transport.Notes
import Hiway.Transport.Operation
import Hiway.Transport.OperationSafety
import Hiway.Transport.Outlet
import Hiway.Transport.Protocol
import Hiway.Transport.ProtocolSafety
import Hiway.Transport.ProtocolSteps
import Hiway.Transport.Records
import Hiway.Transport.Wire
import Hiway.Transport.Written
import Hiway.Unix.Admission
import Hiway.Unix.Agreement
import Hiway.Unix.Delivery
import Hiway.Unix.Export
import Hiway.Unix.Import
import Hiway.Unix.Inlet
import Hiway.Unix.Interop
import Hiway.Unix.Link
import Hiway.Unix.Outlet
import Hiway.Unix.Pair
import Hiway.Unix.Progress
import Hiway.Unix.Sides
import Hiway.Unix.Window
import Hiway.Uring.Book
import Hiway.Uring.Closing
import Hiway.Uring.Deeds
import Hiway.Uring.Dispatch
import Hiway.Uring.Driver
import Hiway.Uring.Endings
import Hiway.Uring.Fairness
import Hiway.Uring.Histories
import Hiway.Uring.Integrity
import Hiway.Uring.Ledger
import Hiway.Uring.Links
import Hiway.Uring.Moves
import Hiway.Uring.Passes
import Hiway.Uring.Ready
import Hiway.Uring.Release
import Hiway.Uring.Ring
import Hiway.Uring.Runs
import Hiway.Uring.Slot
import Hiway.Uring.Teardown
import Hiway.Uring.Turns
import Hiway.Uring.Walks
