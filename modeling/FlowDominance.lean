import FlowDominance.Analysis.Bench
import FlowDominance.Monitor.Script
import FlowDominance.Report.Files
import FlowDominance.Workspace
import FlowDominance.Proofs.Ancestry
import FlowDominance.Proofs.Dominance
import FlowDominance.Proofs.SearchOrder
import FlowDominance.Proofs.Faultless
import FlowDominance.Proofs.Forest
import FlowDominance.Proofs.SpanningTree
import FlowDominance.Proofs.Listing
import FlowDominance.Proofs.LengauerTarjan
import FlowDominance.Proofs.Sameness
import FlowDominance.Proofs.Paths
import FlowDominance.Proofs.Numbering
import FlowDominance.Proofs.DominatorTree
import FlowDominance.Proofs.ImmediateDominators
import FlowDominance.Proofs.Iterative
import FlowDominance.Proofs.RootedChains
import FlowDominance.Proofs.Frontier
import FlowDominance.Proofs.Analysis
import FlowDominance.Proofs.DominanceFrontiers
import FlowDominance.Proofs.Adjacency
import FlowDominance.Proofs.PostDominance
import FlowDominance.Proofs.LiveEdges
import FlowDominance.Proofs.StaleIndex
import FlowDominance.Proofs.Recording
import FlowDominance.Proofs.LinkLaws
import FlowDominance.Proofs.Stores
import FlowDominance.Proofs.Refusals
import FlowDominance.Proofs.EdgeLog
import FlowDominance.Proofs.BuilderRuns
import FlowDominance.Proofs.LiveViews
import FlowDominance.Proofs.FixedPointLoop
import FlowDominance.Proofs.FrontierWalk
import FlowDominance.Proofs.Semidominators
import FlowDominance.Proofs.Diagnostics
import FlowDominance.Proofs.RecursiveSearch
import FlowDominance.Proofs.NestedVisits
import FlowDominance.Proofs.ConsoleTrail
import FlowDominance.Proofs.TracedRuns
import FlowDominance.Proofs.SlotUse
import FlowDominance.Proofs.ForestRuns
import FlowDominance.Proofs.QuotedFields
import FlowDominance.Proofs.Snapshots
import FlowDominance.Proofs.Outlines
import FlowDominance.Proofs.Drawings
