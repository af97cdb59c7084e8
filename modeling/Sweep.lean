import Sweep.Command.Arguments
import Sweep.Command.Invocation
import Sweep.Command.Perform
import Sweep.Command.Run
import Sweep.Command.Talk
import Sweep.Config.Basic
import Sweep.Config.Document
import Sweep.Config.Stored
import Sweep.Disk.Change
import Sweep.Disk.Difference
import Sweep.Disk.Fault
import Sweep.Disk.Locate
import Sweep.Disk.Node
import Sweep.Disk.Reading
import Sweep.Disk.Removal
import Sweep.Disk.Writing
import Sweep.Display
import Sweep.Environment
import Sweep.Failure
import Sweep.Glob
import Sweep.Main
import Sweep.Number.Binary64
import Sweep.Number.Decimal
import Sweep.Number.Digit
import Sweep.Number.Rounding
import Sweep.Number.Shortest
import Sweep.Path.Basic
import Sweep.Path.Folded
import Sweep.Preset
import Sweep.Report.Basic
import Sweep.Report.Json
import Sweep.Rule.Basic
import Sweep.Rule.Fault
import Sweep.Rule.Reader
import Sweep.Rule.Source
import Sweep.Safety
import Sweep.Scan.Basic
import Sweep.Scan.Event
import Sweep.Scan.Reaction
import Sweep.Screen.Listing
import Sweep.Screen.Paint
import Sweep.Search
import Sweep.Text.Blank
import Sweep.Text.Json
import Sweep.Text.Split
import Sweep.Text.Utf8
import Sweep.Toml.Quoted
import Sweep.Toml.Reader
import Sweep.Toml.Scalar
import Sweep.Toml.Value
import Sweep.Walk
import Sweep.Proofs.Disk.Pruned
import Sweep.Proofs.Disk.Leads
import Sweep.Proofs.Disk.Lookup
import Sweep.Proofs.Disk.Removed
import Sweep.Proofs.Disk.Spelled
import Sweep.Proofs.Walk
import Sweep.Proofs.Scan.Evaluated
import Sweep.Proofs.Scan.Steps
import Sweep.Proofs.Command.Consent
import Sweep.Proofs.Scan.Extent
import Sweep.Proofs.Condition
import Sweep.Proofs.Scan.Preview
import Sweep.Proofs.Command.Preview
import Sweep.Proofs.Command.Protection
import Sweep.Proofs.Disk.Listed
import Sweep.Proofs.Preorder
import Sweep.Proofs.Follow
import Sweep.Proofs.Scan.Takes
import Sweep.Proofs.Scan.Harvest
import Sweep.Proofs.Scan.Steady
import Sweep.Proofs.Scan.Outermost
import Sweep.Proofs.Scan.Split
import Sweep.Proofs.Rule.Grammar
import Sweep.Proofs.Text
import Sweep.Proofs.Rule.RoundTrip
import Sweep.Proofs.Order
import Sweep.Proofs.Still
import Sweep.Proofs.Scan.Collected
import Sweep.Proofs.Scan.Findings
import Sweep.Proofs.Scan.Course
import Sweep.Proofs.Scan.Story
import Sweep.Proofs.Glob.Meaning
import Sweep.Proofs.Rule.Flat
import Sweep.Proofs.Search.Around
import Sweep.Proofs.Search.Meaning
import Sweep.Proofs.Search.Duality
import Sweep.Proofs.Rule.Offence
import Sweep.Proofs.Scan.Snapshot
import Sweep.Proofs.Scan.Linked
import Sweep.Proofs.Utf8
import Sweep.Proofs.Toml.Quoted
import Sweep.Proofs.Config.Document
import Sweep.Proofs.Disk.Written
import Sweep.Proofs.Config.Stored
import Sweep.Proofs.Command.Configuration
import Sweep.Proofs.Rule.Lines
import Sweep.Proofs.Glob.Segments
import Sweep.Proofs.Scan.Direct
import Sweep.Proofs.Glob.Stars
import Sweep.Proofs.Scan.Swapped
import Sweep.Proofs.Spelling
import Sweep.Proofs.Rule.Layout
import Sweep.Proofs.Scan.Topmost
import Sweep.Proofs.Command.Repair
import Sweep.Proofs.Stripped
import Sweep.Proofs.Screen.Errors
import Sweep.Proofs.Number.Binary64
import Sweep.Proofs.Number.Shortest
import Sweep.Proofs.Duration
import Sweep.Proofs.Tilde
import Sweep.Proofs.Truncation
import Sweep.Proofs.Number.Shortest
