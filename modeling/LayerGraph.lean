import LayerGraph.Main
import LayerGraph.Proofs.Order.Deferral
import LayerGraph.Proofs.Memory.InOrder
import LayerGraph.Proofs.Memory.LiveRanges
import LayerGraph.Proofs.Layout.WindowRoom
import LayerGraph.Proofs.Layout.Sweeps
import LayerGraph.Proofs.Build.Compilation
import LayerGraph.Proofs.Build.Completion
import LayerGraph.Proofs.Program.CycleReports
import LayerGraph.Proofs.Program.Failure
import LayerGraph.Proofs.Program.Parts
import LayerGraph.Proofs.Program.Redirection
import LayerGraph.Proofs.Program.Substitution
import LayerGraph.Proofs.Program.Undoing
import LayerGraph.Proofs.Build.Trimming
import LayerGraph.Proofs.Build.FoldedConstants
import LayerGraph.Proofs.Document.RoundTrip
import LayerGraph.Proofs.Geometry.Windows
import LayerGraph.Proofs.Order.Reproducibility
import LayerGraph.Proofs.Order.Postorder
