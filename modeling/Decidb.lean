import Decidb.Linear.Form
import Decidb.Linear.System
import Decidb.Linear.Extremum
import Decidb.Linear.Selector
import Decidb.Formulation.SolverInput
import Decidb.Formulation.Proofs.SolverInputProofs
import Decidb.Formulation.ExtremumLink
import Decidb.Formulation.Proofs.ExtremumLinkProofs
import Decidb.Formulation.MinMaxConstraint
import Decidb.Formulation.Proofs.MinMaxConstraintProofs
import Decidb.Optimizer.Proofs.AnalyzeConstraintProofs
import Decidb.Formulation.ComposedMinMax
import Decidb.Formulation.Proofs.ComposedMinMaxProofs
import Decidb.Formulation.Proofs.ImpliedBoundsProofs
import Decidb.Formulation.ModelBuilder
import Decidb.Formulation.Proofs.ModelBuilderProofs
import Decidb.Formulation.Bilinear
import Decidb.Formulation.Proofs.BoundAbsorptionProofs
import Decidb.Linear.IntegerValued
import Decidb.Formulation.QuadraticRow
import Decidb.Formulation.Proofs.QuadraticRowProofs
import Decidb.Formulation.NormCount
import Decidb.Formulation.Proofs.InDomainProofs
import Decidb.Formulation.Proofs.NormCountProofs
import Decidb.Formulation.Proofs.BilinearProofs
import Decidb.Formulation.Proofs.PropagationProofs
import Decidb.Optimizer.RewriteMinMax
import Decidb.Optimizer.ClauseMeaning
import Decidb.Optimizer.Proofs.AggregateProofs
import Decidb.Optimizer.Proofs.RewriteMinMaxProofs
import Decidb.Execution.EvaluateConstraint
import Decidb.Execution.Proofs.EvaluateConstraintProofs
import Decidb.Execution.Proofs.LowerMinMaxProofs
import Decidb.Formulation.ComposedObjective
import Decidb.Formulation.Proofs.ComposedObjectiveProofs
import Decidb.Formulation.Proofs.AggregateRowProofs
import Decidb.Formulation.AbsLink
import Decidb.Formulation.Proofs.AbsLinkProofs
import Decidb.Formulation.Proofs.AbsExactProofs
import Decidb.Formulation.ColumnLayout
import Decidb.Formulation.Proofs.ColumnLayoutProofs
import Decidb.Formulation.LowerConstructs
import Decidb.Formulation.Proofs.LowerConstructsProofs
import Decidb.Formulation.NotEqual
import Decidb.Formulation.Proofs.NotEqualProofs
import Decidb.Execution.ReducedBounds
import Decidb.Execution.Proofs.ReducedBoundsProofs
import Decidb.Relational.FirstOfKey
import Decidb.Execution.QualifiedReducer
import Decidb.Execution.Proofs.QualifiedReducerProofs
import Decidb.Execution.AvgScaling
import Decidb.Execution.Proofs.AvgScalingProofs
import Decidb.Linear.Recession
import Decidb.Linear.LexLeast
import Decidb.Solver.SolverModel
import Decidb.Solver.Proofs.SolverModelProofs
import Decidb.Solver.PostSolve
import Decidb.Solver.Proofs.PostSolveProofs
import Decidb.Relational.Combinations
import Decidb.Diagnostics.ElasticModel
import Decidb.Diagnostics.RepairSearch
import Decidb.Diagnostics.Proofs.ElasticModelProofs
import Decidb.Diagnostics.Proofs.RepairSearchProofs
import Decidb.Diagnostics.Proofs.TieBreakProofs
import Decidb.Diagnostics.Proofs.DisplayProofs
import Decidb.Diagnostics.Proofs.LeastRepairProofs
import Decidb.Formulation.CoeffAccumulator
import Decidb.Formulation.Proofs.CoeffAccumulatorProofs
import Decidb.Diagnostics.ColumnProvenance
import Decidb.Diagnostics.Proofs.ColumnProvenanceProofs
import Decidb.Relational.Numbering
import Decidb.Execution.PerGroups
import Decidb.Execution.Proofs.GroupCSRProofs
import Decidb.Execution.Proofs.PerGroupsProofs
import Decidb.Planner.Degree
import Decidb.Planner.DegreeMeaning
import Decidb.Planner.Proofs.DegreeProofs
import Decidb.Planner.Proofs.DegreePolynomialProofs
import Decidb.Planner.Proofs.DegreeGateProofs
import Decidb.Relational.CountingSort
import Decidb.Relational.ExceptLists
import Decidb.Solver.HighsSession
import Decidb.Solver.Proofs.HighsSessionProofs
import Decidb.Execution.Readback
import Decidb.Execution.Proofs.ReadbackProofs
import Decidb.Diagnostics.EscapeCharacterization
import Decidb.Diagnostics.Proofs.EscapeCharacterizationProofs
import Decidb.Formulation.MinMaxObjective
import Decidb.Formulation.FormulateModel
import Decidb.Formulation.BuiltModel
import Decidb.Linear.Columns
import Decidb.Formulation.Proofs.EmittedRowsProofs
import Decidb.Formulation.Proofs.PassListingProofs
import Decidb.Formulation.Proofs.ObjectiveListingProofs
import Decidb.Formulation.Proofs.FormulationRunProofs
import Decidb.Formulation.Proofs.BuiltModelProofs
import Decidb.Formulation.RowRange
import Decidb.Formulation.Proofs.RowRangeProofs
import Decidb.Formulation.Proofs.NotEqualExactProofs
import Decidb.Formulation.Proofs.MinMaxObjectiveProofs
import Decidb.Formulation.Proofs.NestedObjectiveProofs
import Decidb.Formulation.Proofs.BuiltModelExactProofs
import Decidb.Linear.Program
import Decidb.Formulation.Proofs.GlobalBinariesProofs
import Decidb.Formulation.Proofs.AskedConstraintsProofs
import Decidb.Formulation.Proofs.PassMeaningProofs
import Decidb.Formulation.Proofs.ModelMeaningProofs
import Decidb.Formulation.Proofs.FormulationExactProofs
import Decidb.Planner.Proofs.DecideTagsProofs
import Decidb.Planner.Canonicalizer
import Decidb.Relational.StrictFold
import Decidb.Planner.Proofs.ClauseExprProofs
import Decidb.Planner.Proofs.CanonicalizerProofs
import Decidb.Planner.Proofs.CanonicalFormProofs
import Decidb.Planner.Proofs.CanonicalObjectiveProofs
import Decidb.Planner.Proofs.CanonicalClassProofs
import Decidb.Planner.Proofs.ScaledTermProofs
