import StackFlow.SortedMap
import StackFlow.Distinct
import StackFlow.Measure
import StackFlow.Block
import StackFlow.Graph
import StackFlow.Visit
import StackFlow.Path
import StackFlow.Search
import StackFlow.Convergence
import StackFlow.Balance
import StackFlow.Membership
import StackFlow.Loop
import StackFlow.Text
import StackFlow.Bytecode.Hex
import StackFlow.Bytecode.Opcode
import StackFlow.Bytecode.Instruction
import StackFlow.Bytecode.Program
import StackFlow.Yaml.Cursor
import StackFlow.Yaml.ReadError
import StackFlow.Yaml.Token
import StackFlow.Yaml.Token.Scalar
import StackFlow.Yaml.Token.Tag
import StackFlow.Yaml.Token.Scan
import StackFlow.Number.Integer
import StackFlow.Number.Binary64
import StackFlow.Yaml.Timestamp
import StackFlow.Yaml.Scalar
import StackFlow.Yaml.Node
import StackFlow.Yaml.Node.Read
import StackFlow.Yaml.Node.Value
import StackFlow.Yaml.Library
import StackFlow.Yaml.Write
import StackFlow.Yaml.Node.Decode
import StackFlow.Text.Printable
import StackFlow.GraphDocument
import StackFlow.GraphDocument.Read
import StackFlow.GraphDocument.Write
import StackFlow.Log
import StackFlow.Analysis.Report
import StackFlow.Analysis
import StackFlow.CommandLine.Flag
import StackFlow.CommandLine.Command
import StackFlow.CommandLine.Configuration
import StackFlow.CommandLine.Settings
import StackFlow.CommandLine.Run
import StackFlow.Main
import StackFlow.Proofs.CodeLayout
import StackFlow.Proofs.ControlFlow
import StackFlow.Proofs.LeafPaths
import StackFlow.Proofs.StackDemand
import StackFlow.Proofs.BackEdges
import StackFlow.Proofs.GraphConstruction
import StackFlow.Proofs.Coherence
import StackFlow.Proofs.OperationSequences
import StackFlow.Proofs.ProgramGraph
import StackFlow.Proofs.Walks
import StackFlow.Proofs.ReachableLeaves
import StackFlow.Proofs.VisitRecords
import StackFlow.Proofs.EdgeTraversal
import StackFlow.Proofs.EdgeQueue
import StackFlow.Proofs.FunctionMembership
import StackFlow.Proofs.DocumentGraphs
import StackFlow.Proofs.MergeNodes
import StackFlow.Proofs.PathText
import StackFlow.Proofs.AnalysisReports
import StackFlow.Proofs.MergeDiscovery
import StackFlow.Proofs.Reconciliation
import StackFlow.Proofs.DocumentRoundTrip
import StackFlow.Proofs.StoppedSearch
import StackFlow.Proofs.ReportForm
import StackFlow.Proofs.MergeVerdicts
import StackFlow.Proofs.PartialReports
import StackFlow.Proofs.AlikeGraphs
import StackFlow.Proofs.CutEdges
import StackFlow.Proofs.ExportedPrograms
import StackFlow.Proofs.BalanceFormula
import StackFlow.Proofs.RepeatedEdges
import StackFlow.Proofs.LoopBodies
import StackFlow.Proofs.DecimalScalars
import StackFlow.Proofs.LibraryContract
import StackFlow.Proofs.WrittenScalars
import StackFlow.Proofs.LaidOutValues
import StackFlow.Proofs.ScannerViews
import StackFlow.Proofs.ScannerSteps
import StackFlow.Proofs.DocumentTokens
import StackFlow.Proofs.DocumentTree
import StackFlow.Proofs.WrittenDocuments
import StackFlow.Proofs.ExactBalance
import StackFlow.Proofs.BlockEffects
import StackFlow.Proofs.BlockSplit
import StackFlow.Proofs.ProgramEdges
import StackFlow.Proofs.Assembly
import StackFlow.Proofs.PathIndex
import StackFlow.Proofs.ConsumerCalls
import StackFlow.Proofs.BreadthFirst
import StackFlow.Proofs.AnalysisOutcomes
import StackFlow.Proofs.Dispatchers
import StackFlow.Proofs.VisitSequences
import StackFlow.Proofs.MergeFaults
import StackFlow.Proofs.DocumentFaults
import StackFlow.Proofs.SortedPaths
import StackFlow.Proofs.EdgeOrder
import StackFlow.Proofs.PathGroups
import StackFlow.Proofs.HexText
import StackFlow.Proofs.TextKeys
