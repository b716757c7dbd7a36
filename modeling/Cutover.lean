import Cutover.Error
import Cutover.Side
import Cutover.Entity
import Cutover.Assoc
import Cutover.Bytes
import Cutover.Json.Text
import Cutover.Decimal.Digits
import Cutover.Json.Record
import Cutover.Traffic.Pool
import Cutover.Deadline
import Cutover.Ticket
import Cutover.CommandLine
import Cutover.Main
import Cutover.Event
import Cutover.Config
import Cutover.Setting
import Cutover.Fault
import Cutover.Table
import Cutover.Store
import Cutover.Broker
import Cutover.Scan.Pass
import Cutover.Control.Surface
import Cutover.RowCheck
import Cutover.Migration.Operations
import Cutover.Proofs.Rows
import Cutover.Proofs.Work
import Cutover.Proofs.Differences
import Cutover.Proofs.Steady
import Cutover.Proofs.RowChecks
import Cutover.Proofs.Handlings
import Cutover.Proofs.Histories
import Cutover.Proofs.Deliveries
import Cutover.Proofs.Repairs
import Cutover.Proofs.Mending
import Cutover.Proofs.Convergence
import Cutover.Proofs.Ranks
import Cutover.Proofs.Overlap
import Cutover.Proofs.Strays
import Cutover.Proofs.Jobs
import Cutover.Proofs.Exclusion
import Cutover.Proofs.Coherence
import Cutover.Traffic.Session
import Cutover.Proofs.Locality
import Cutover.Proofs.Stages
import Cutover.Proofs.Transparency
import Cutover.Proofs.Divergence
import Cutover.Proofs.Updates
import Cutover.Proofs.Settlement
import Cutover.Proofs.Endings
import Cutover.Proofs.Freezing
import Cutover.Proofs.Isolation
import Cutover.Proofs.Requests
import Cutover.Proofs.Precedence
import Cutover.Proofs.Arrivals
import Cutover.Proofs.Skips
import Cutover.Proofs.DualWrites
import Cutover.Proofs.Sequences
import Cutover.Proofs.Attempts
import Cutover.Proofs.Agreement
import Cutover.Proofs.Acts
import Cutover.Proofs.Outages
import Cutover.Proofs.Reads
import Cutover.Proofs.Offsets
import Cutover.Proofs.Saving
import Cutover.Proofs.Wire
import Cutover.Proofs.Tables
import Cutover.Proofs.Logs
import Cutover.Proofs.Values
