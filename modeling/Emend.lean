import Emend.Change
import Emend.Client.EventStream
import Emend.Client.ModelClient
import Emend.Decimal.Double
import Emend.Decimal.Literal
import Emend.Decimal.Numeral
import Emend.Event
import Emend.FileSet
import Emend.Format.EditFormat
import Emend.Format.Fence
import Emend.Format.Hunk
import Emend.Format.Instructions
import Emend.Format.MarkerBlock
import Emend.Json.Reader
import Emend.Json.Record
import Emend.Json.Value
import Emend.Matching.Match
import Emend.Proofs.Change
import Emend.Proofs.Client.Delivery
import Emend.Proofs.Client.EventStream
import Emend.Proofs.Decimal.Double
import Emend.Proofs.Decimal.Exact
import Emend.Proofs.Decimal.Literal
import Emend.Proofs.Decimal.Reading
import Emend.Proofs.EditDistance
import Emend.Proofs.FileSet
import Emend.Proofs.FileSet.Collected
import Emend.Proofs.Format.Attribution
import Emend.Proofs.Format.CodeBlock
import Emend.Proofs.Format.Diff
import Emend.Proofs.Format.EditFormat
import Emend.Proofs.Format.Fence
import Emend.Proofs.Format.FenceSplit
import Emend.Proofs.Format.FileBlock
import Emend.Proofs.Format.FilePatch
import Emend.Proofs.Format.Header
import Emend.Proofs.Format.MarkerBlock
import Emend.Proofs.Json.Embedded
import Emend.Proofs.Json.Nested
import Emend.Proofs.Json.Reader
import Emend.Proofs.Json.Record
import Emend.Proofs.Json.Step
import Emend.Proofs.Matching.Coverage
import Emend.Proofs.Matching.Exact
import Emend.Proofs.Matching.FullScore
import Emend.Proofs.Matching.Length
import Emend.Proofs.Matching.Optimum
import Emend.Proofs.Matching.Plain
import Emend.Proofs.Matching.Query
import Emend.Proofs.Matching.Scan
import Emend.Proofs.Matching.Window
import Emend.Proofs.Reconcile.Account
import Emend.Proofs.Reconcile.Anchor
import Emend.Proofs.Reconcile.Batch
import Emend.Proofs.Reconcile.BlankEdge
import Emend.Proofs.Reconcile.Changes
import Emend.Proofs.Reconcile.Confinement
import Emend.Proofs.Reconcile.Creation
import Emend.Proofs.Reconcile.Deletion
import Emend.Proofs.Reconcile.Landing
import Emend.Proofs.Reconcile.LineEnding
import Emend.Proofs.Reconcile.Patch
import Emend.Proofs.Reconcile.Standing
import Emend.Proofs.Reconcile.Substitution
import Emend.Proofs.Reconcile.WholeFile
import Emend.Proofs.Resolution
import Emend.Proofs.Resolution.Nearest
import Emend.Proofs.Score.Double
import Emend.Proofs.Score.DoubleArithmetic
import Emend.Proofs.Score.DoubleOrder
import Emend.Proofs.Score.DoubleRounding
import Emend.Proofs.Score.DoubleValue
import Emend.Proofs.Score.Lawful
import Emend.Proofs.Score.Nearest
import Emend.Proofs.Score.Rounded
import Emend.Proofs.Service
import Emend.Proofs.Session.Independence
import Emend.Proofs.Session.Plan
import Emend.Proofs.Session.Protocol
import Emend.Proofs.Session.Relay
import Emend.Proofs.Session.Run
import Emend.Proofs.Session.Schedule
import Emend.Proofs.Session.Stream
import Emend.Proofs.Similarity
import Emend.Proofs.Similarity.Metric
import Emend.Proofs.Text.Blank
import Emend.Proofs.Text.LineEnding
import Emend.Proofs.Text.Lines
import Emend.Proofs.Text.Occurrence
import Emend.Proofs.Text.Utf8
import Emend.Proofs.Wire.Edit
import Emend.Proofs.Wire.RoundTrip
import Emend.Proofs.Wire.Session
import Emend.Proofs.Workspace.Below
import Emend.Proofs.Workspace.Confined
import Emend.Proofs.Workspace.Disk
import Emend.Proofs.Workspace.Failure
import Emend.Proofs.Workspace.Path
import Emend.Proofs.Workspace.Refinement
import Emend.Proofs.Workspace.Store
import Emend.Proofs.Workspace.Tree
import Emend.Reconcile
import Emend.Resolution
import Emend.Score
import Emend.Service
import Emend.Session.Message
import Emend.Session.Plan
import Emend.Session.Relay
import Emend.Session.Run
import Emend.Similarity
import Emend.Text.Basic
import Emend.Text.Encoding
import Emend.Text.Quoted
import Emend.Text.Search
import Emend.Wire.Edit
import Emend.Wire.Policy
import Emend.Wire.Session
import Emend.Workspace.Apply
import Emend.Workspace.Disk
import Emend.Workspace.Path
