import ScriptBytecode.Main
import ScriptBytecode.Session
import ScriptBytecode.Proofs.Decoding.Movement
import ScriptBytecode.Proofs.Decoding.Progress
import ScriptBytecode.Proofs.Decoding.Partition
import ScriptBytecode.Proofs.Decoding.Locality
import ScriptBytecode.Proofs.Decoding.Fields
import ScriptBytecode.Proofs.Decoding.Nesting
import ScriptBytecode.Proofs.Decoding.Conformance
import ScriptBytecode.Proofs.Decoding.Resolution
import ScriptBytecode.Proofs.Decoding.Placeholders
import ScriptBytecode.Proofs.Decoding.Padding
import ScriptBytecode.Proofs.Decoding.InsertionPoints
import ScriptBytecode.Proofs.Decoding.Transparency
import ScriptBytecode.Proofs.Encoding.Bytes
import ScriptBytecode.Proofs.Encoding.Pieces
import ScriptBytecode.Proofs.Encoding.RoundTrip
import ScriptBytecode.Proofs.Walk.Brackets
import ScriptBytecode.Proofs.Walk.Indentation
import ScriptBytecode.Proofs.Walk.Markers
import ScriptBytecode.Proofs.Walk.Frame
import ScriptBytecode.Proofs.Walk.Labels
import ScriptBytecode.Proofs.Walk.Relabelling
import ScriptBytecode.Proofs.Walk.Rerun
import ScriptBytecode.Proofs.Structured.Program
import ScriptBytecode.Proofs.Structured.Flow
import ScriptBytecode.Proofs.Structured.Shape
import ScriptBytecode.Proofs.Structured.Assembly
import ScriptBytecode.Proofs.Structured.Stage
import ScriptBytecode.Proofs.Structured.SwitchEnd
import ScriptBytecode.Proofs.Structured.Recovery
import ScriptBytecode.Proofs.Structured.Decompile
import ScriptBytecode.Proofs.Structured.Switches
import ScriptBytecode.Proofs.Walk.Containment
import ScriptBytecode.Proofs.Walk.Closing
import ScriptBytecode.Proofs.Walk.Formatting
import ScriptBytecode.Proofs.Hidden.Addresses
import ScriptBytecode.Proofs.Hidden.Compaction
import ScriptBytecode.Proofs.Hidden.Landings
import ScriptBytecode.Proofs.Hidden.Geometry
import ScriptBytecode.Proofs.Hidden.Decisions
import ScriptBytecode.Proofs.Hidden.Likeness
import ScriptBytecode.Proofs.Hidden.Lockstep
import ScriptBytecode.Proofs.Hidden.Stripping
import ScriptBytecode.Proofs.Expression.Grammar
import ScriptBytecode.Proofs.Expression.Operations
import ScriptBytecode.Proofs.Expression.Legibility
import ScriptBytecode.Proofs.Expression.InPlace
import ScriptBytecode.Proofs.Walk.Effects
import ScriptBytecode.Proofs.Walk.Outcomes
import ScriptBytecode.Proofs.Walk.Placement
import ScriptBytecode.Proofs.Decoding.AddressSpaces
import ScriptBytecode.Proofs.Decoding.Devices
import ScriptBytecode.Proofs.Decoding.Machine
import ScriptBytecode.Proofs.Decoding.DepthLimit
import ScriptBytecode.Proofs.Decoding.Ranges
import ScriptBytecode.Proofs.Decoding.Failures
import ScriptBytecode.Proofs.Walk.ImplicitReturn
import ScriptBytecode.Proofs.Walk.CaseScan
import ScriptBytecode.Proofs.Walk.ForEach
import ScriptBytecode.Proofs.Walk.InPlace
import ScriptBytecode.Proofs.Walk.Reuse
import ScriptBytecode.Proofs.Text.Numerals
import ScriptBytecode.Proofs.Listing.Lines
import ScriptBytecode.Proofs.Listing.Nodes
import ScriptBytecode.Proofs.Encoding.CompactIndex
import ScriptBytecode.Proofs.Expression.Natives
import ScriptBytecode.Proofs.Walk.LabelRuns
import ScriptBytecode.Proofs.Walk.MarkerRuns
import ScriptBytecode.Proofs.Decoding.Lookup
import ScriptBytecode.Proofs.Text.Literals
