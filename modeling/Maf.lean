import Maf.Action.DecoupleSubtreeAction
import Maf.Approx.Progress
import Maf.Cluster.ClusterPointGenerator
import Maf.Cluster.LcaTable
import Maf.Graph.ForestEqual
import Maf.Graph.IsValid
import Maf.Graph.Malformed
import Maf.Graph.MaximumCommonSubforest
import Maf.Graph.SmallestTerminal
import Maf.ILP.SolveCalls
import Maf.Rule.ChainReductionRule
import Maf.Rule.ForcedCuts
import Maf.Rule.SubtreeReductionRule
import Maf.Solver.CertifiedCeiling
import Maf.Solver.JoinedPair
import Maf.Solver.LowerBoundTrack
import Maf.Solver.PauseResume
import Maf.Solver.ReductionSolver
import Maf.Solver.SearchAnswers
