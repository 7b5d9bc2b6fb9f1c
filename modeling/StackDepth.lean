import StackDepth.Command
import StackDepth.Main
import StackDepth.Proofs.Analysis.CycleReport
import StackDepth.Proofs.Survey.Limits
import StackDepth.Proofs.Analysis.Recursion
import StackDepth.Proofs.Analysis.Turns
import StackDepth.Proofs.Analysis.LowerBounds
import StackDepth.Proofs.Analysis.CycleDetection
import StackDepth.Proofs.Analysis.Simulation
import StackDepth.Proofs.CallGraph.Histories
import StackDepth.Proofs.Survey.Strays
import StackDepth.Proofs.Survey.Remeasuring
import StackDepth.Proofs.Analysis.Diagnostics
import StackDepth.Proofs.CallGraph.Widening
import StackDepth.Proofs.Survey.WordSize
import StackDepth.Proofs.Analysis.Renumbering
import StackDepth.Proofs.Ledger
import StackDepth.Proofs.Survey.BlockOrder
import StackDepth.Proofs.Analysis.FixedPoint
import StackDepth.Proofs.Survey.Refusals
import StackDepth.Proofs.Survey.Repruning
import StackDepth.Proofs.Listing.Columns
import StackDepth.Proofs.Listing.Comments
import StackDepth.Proofs.Listing.DirectCalls
import StackDepth.Proofs.Listing.Labels
import StackDepth.Proofs.Listing.Decrements
import StackDepth.Proofs.Survey.Bookkeeping
import StackDepth.Proofs.Report.Outline
import StackDepth.Proofs.Report.Expansion
import StackDepth.Proofs.Report.CallTree
import StackDepth.Proofs.Report.Escapes
import StackDepth.Proofs.Report.StackTable
import StackDepth.Proofs.Listing.Mnemonics
import StackDepth.Proofs.Listing.RegisterLists
import StackDepth.Trail
import StackDepth.Proofs.Trail
