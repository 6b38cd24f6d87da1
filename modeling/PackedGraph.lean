import PackedGraph.Fault
import PackedGraph.Numeric.Decimal
import PackedGraph.Text.Fields
import PackedGraph.Json.Raw
import PackedGraph.Json.Value
import PackedGraph.Settings.Reading
import PackedGraph.Topology.Cursor
import PackedGraph.Workers.Crew
import PackedGraph.Workers.Termination
import PackedGraph.Ingest.Packing
import PackedGraph.Graph.Triangles
import PackedGraph.Graph.Traversal
import PackedGraph.Analysis.Selection
import PackedGraph.Analysis.DisjointSets
import PackedGraph.Analysis.Pointers
import PackedGraph.Analysis.Triangles
import PackedGraph.Analysis.Betweenness
import PackedGraph.Analysis.Similarity
import PackedGraph.Analysis.Clusters
import PackedGraph.Analysis.Columns
import PackedGraph.EdgeList.Loading
import PackedGraph.Files.Tree
import PackedGraph.Report.Saving
import PackedGraph.CommandLine.Run
import PackedGraph.Main
import PackedGraph.Proofs.Topology.Refinement
import PackedGraph.Proofs.Ingest.Build
import PackedGraph.Proofs.Graph.Built
import PackedGraph.Proofs.Workers.HandOut
import PackedGraph.Proofs.Analysis.DisjointSets
import PackedGraph.Proofs.Analysis.Components
import PackedGraph.Proofs.Topology.Meet
import PackedGraph.Proofs.Graph.Triangles
import PackedGraph.Proofs.Numeric.Value
import PackedGraph.Proofs.Numeric.Quotients
import PackedGraph.Proofs.Workers.Batches
import PackedGraph.Proofs.Analysis.Triangles
import PackedGraph.Proofs.Numeric.Signs
import PackedGraph.Proofs.Analysis.InverseIndex
import PackedGraph.Proofs.Analysis.Selection
import PackedGraph.Proofs.Analysis.Similarity
import PackedGraph.Proofs.Analysis.Exploration
import PackedGraph.Proofs.Analysis.ShortestPaths
import PackedGraph.Proofs.Analysis.Buffers
import PackedGraph.Proofs.Analysis.Clearing
import PackedGraph.Proofs.Analysis.BreadthFirst
import PackedGraph.Proofs.Analysis.Dependencies
import PackedGraph.Proofs.Analysis.CheapestFirst
import PackedGraph.Proofs.Analysis.Betweenness
import PackedGraph.Proofs.Analysis.RoundedCosts
import PackedGraph.Proofs.Analysis.Leftovers
import PackedGraph.Proofs.Workers.Counter
import PackedGraph.Proofs.Ingest.Rejection
import PackedGraph.Proofs.Analysis.OverallSelection
import PackedGraph.Proofs.Ingest.Interleaving
import PackedGraph.Proofs.Graph.Numbering
import PackedGraph.Proofs.EdgeList.Loading
import PackedGraph.Proofs.Topology.Paging
import PackedGraph.Proofs.Ingest.Footprint
import PackedGraph.Proofs.EdgeList.Admission
import PackedGraph.Proofs.Graph.Renaming
import PackedGraph.Proofs.EdgeList.Renaming
import PackedGraph.Proofs.Analysis.Renaming
import PackedGraph.Proofs.Analysis.Nodes
import PackedGraph.Proofs.Report.Renaming
import PackedGraph.Proofs.Graph.Parallel
import PackedGraph.Proofs.Graph.Traversal
import PackedGraph.Proofs.Numeric.Negation
import PackedGraph.Proofs.Numeric.Sums
import PackedGraph.Proofs.Analysis.StableSort
import PackedGraph.Proofs.Analysis.Ranking
import PackedGraph.Proofs.Analysis.Columns
import PackedGraph.Proofs.Analysis.Clusters
import PackedGraph.Proofs.Analysis.Density
import PackedGraph.Proofs.Storage.Requests
import PackedGraph.Proofs.Graph.Bijection
import PackedGraph.Proofs.Codec.Sequences
import PackedGraph.Proofs.Workers.Tiling
import PackedGraph.Proofs.Workers.Alone
import PackedGraph.Proofs.Workers.Cancellation
import PackedGraph.Proofs.Workers.Interruption
import PackedGraph.Proofs.Analysis.Interruption
import PackedGraph.Proofs.Numeric.Numerals
import PackedGraph.Proofs.Text.Fields
import PackedGraph.Proofs.EdgeList.Writing
import PackedGraph.Proofs.Graph.Membership
import PackedGraph.Proofs.Analysis.Merging
import PackedGraph.Proofs.Analysis.Turns
import PackedGraph.Proofs.Analysis.Outcome
import PackedGraph.Proofs.Analysis.WholeCosts
import PackedGraph.Proofs.Analysis.Sources
import PackedGraph.Proofs.Topology.Sharing
import PackedGraph.Proofs.Graph.Enumeration
import PackedGraph.Proofs.Analysis.Pointers
import PackedGraph.Proofs.Analysis.Representatives
import PackedGraph.Proofs.Analysis.Grouping
import PackedGraph.Proofs.Codec.Windows
import PackedGraph.Proofs.Codec.Canonical
import PackedGraph.Proofs.Codec.Signed
import PackedGraph.Proofs.Topology.Layout
import PackedGraph.Proofs.Workers.Progress
import PackedGraph.Proofs.Workers.Dispatch
import PackedGraph.Proofs.Analysis.Central
import PackedGraph.Proofs.Analysis.DistinctPairs
import PackedGraph.Proofs.Workers.AtMostOnce
import PackedGraph.Proofs.Analysis.Materialized
