import Stackless.Table
import Stackless.Json.Value
import Stackless.Json.Reader
import Stackless.Json.Writer
import Stackless.Position
import Stackless.Diagnostic.Error
import Stackless.Diagnostic.Report
import Stackless.Model.Basic
import Stackless.Model.Vectors
import Stackless.Model.Program
import Stackless.Model.Construct
import Stackless.Model.Spelling
import Stackless.Model.Encode
import Stackless.Model.Decode
import Stackless.Text.Column
import Stackless.Flat.Instruction
import Stackless.Flat.Function
import Stackless.Flat.Listing
import Stackless.Flat.Flatten
import Stackless.Flat.Simplify
import Stackless.Calls.Tree
import Stackless.Calls.Forest
import Stackless.Storage.SlotPool
import Stackless.Storage.Layout
import Stackless.Storage.Globals
import Stackless.Storage.Frame
import Stackless.Storage.Windows
import Stackless.Storage.Allocate
import Stackless.Assembly.Line
import Stackless.Assembly.Emission
import Stackless.Assembly.Emit
import Stackless.Assembly.Device
import Stackless.Compilation
import Stackless.CommandLine.Path
import Stackless.CommandLine.Arguments
import Stackless.CommandLine
import Stackless.Main
import Stackless.Proofs.Outcome
import Stackless.Proofs.CallTrees
import Stackless.Proofs.CallGraphs
import Stackless.Proofs.Stages
import Stackless.Proofs.WindowStacking
import Stackless.Proofs.GlobalCells
import Stackless.Proofs.SlotLives
import Stackless.Proofs.FlatShape
import Stackless.Proofs.Flattening
import Stackless.Proofs.Passes
import Stackless.Proofs.Frames
import Stackless.Proofs.SlotRange
import Stackless.Proofs.Faults
import Stackless.Proofs.WindowSeparation
import Stackless.Proofs.Temporaries
import Stackless.Proofs.Runs
import Stackless.Proofs.Landings
import Stackless.Proofs.Simplification
import Stackless.Proofs.MarkerNames
import Stackless.Proofs.Courses
import Stackless.Proofs.Readings
import Stackless.Proofs.Lowering
import Stackless.Proofs.Emissions
import Stackless.Proofs.Pieces
import Stackless.Proofs.SoleUse
import Stackless.Proofs.PortReads
import Stackless.Proofs.Lineage
import Stackless.Proofs.LabelClosure
import Stackless.Proofs.Placement
import Stackless.Proofs.Writes
import Stackless.Proofs.Sources
import Stackless.Proofs.Footprint
import Stackless.Proofs.Typing
import Stackless.Proofs.TypedEmission
import Stackless.Proofs.Soundness
import Stackless.Proofs.Machine
import Stackless.Proofs.Meaning
import Stackless.Proofs.Dataflow
import Stackless.Proofs.Execution
import Stackless.Proofs.Assigning
import Stackless.Proofs.Simulation
import Stackless.Proofs.GlobalsApart
import Stackless.Proofs.AssignmentCode
import Stackless.Proofs.Assignments
import Stackless.Proofs.SharedFunctions
import Stackless.Proofs.Consistency
import Stackless.Proofs.LeavingOut
import Stackless.Proofs.UnreachedFunctions
import Stackless.Proofs.JsonText
import Stackless.Proofs.TreeEncoding
import Stackless.Proofs.RoundTrip
import Stackless.Proofs.StrandedReturns
import Stackless.Proofs.WindowTightness
import Stackless.Proofs.Threading
import Stackless.Proofs.Settling
import Stackless.Proofs.NormalForm
import Stackless.Proofs.UndefinedMarkers
import Stackless.Proofs.WellFormedness
import Stackless.Proofs.OperandCells
import Stackless.Proofs.OperandOrder
import Stackless.Proofs.Comparisons
import Stackless.Proofs.GlobalAddresses
import Stackless.Proofs.ConstantTables
import Stackless.Proofs.OwnCells
import Stackless.Proofs.WindowLimits
import Stackless.Proofs.Overflows
import Stackless.Proofs.DiscoveryOrder
import Stackless.Proofs.GlobalTiling
import Stackless.Proofs.SectionEnds
import Stackless.Proofs.Arguments
import Stackless.Proofs.ParallelMoves
import Stackless.Proofs.SlotSharing
import Stackless.Proofs.SlotDemand
import Stackless.Proofs.VectorTables
import Stackless.Proofs.Positions
import Stackless.Proofs.SlotAddresses
