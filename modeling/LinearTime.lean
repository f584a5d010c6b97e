import LinearTime.OrderedSet
import LinearTime.MarkSet
import LinearTime.Text.Blank
import LinearTime.Text.Decimal
import LinearTime.Text.Utf8
import LinearTime.Text.Grid
import LinearTime.Text.Shortest
import LinearTime.Formula.Basic
import LinearTime.Formula.Session
import LinearTime.Formula.Expression
import LinearTime.Formula.Fold
import LinearTime.Formula.Obligation
import LinearTime.Rules.Table
import LinearTime.Rules.Matching
import LinearTime.Rules.Standard
import LinearTime.Rules.Simplification
import LinearTime.Valuation
import LinearTime.Guard.Literal
import LinearTime.Guard.Basic
import LinearTime.Guard.Text
import LinearTime.Sorting.ComparisonTree
import LinearTime.Sorting.Small
import LinearTime.Sorting.Runs
import LinearTime.Sorting.Quick
import LinearTime.Guard.Ranking
import LinearTime.Word
import LinearTime.Digraph.Search
import LinearTime.Digraph.Components
import LinearTime.Graph.Label
import LinearTime.Graph.Acceptance
import LinearTime.Graph.Basic
import LinearTime.Graph.Component
import LinearTime.Graph.Writer
import LinearTime.Graph.Reader
import LinearTime.Automaton.Basic
import LinearTime.Automaton.Product
import LinearTime.Tableau.Basic
import LinearTime.Tableau.Automaton
import LinearTime.Construction
import LinearTime.Reduction
import LinearTime.Random.Source
import LinearTime.Random.Formula
import LinearTime.Random.Structure
import LinearTime.CommandLine
import LinearTime.Arguments
import LinearTime.Main
import LinearTime.Proofs.LassoTruth
import LinearTime.Proofs.Matching
import LinearTime.Proofs.Simplifying
import LinearTime.Proofs.Histories
import LinearTime.Proofs.SimplifiedMeaning
import LinearTime.Proofs.Settling
import LinearTime.Proofs.DepthFirst
import LinearTime.Proofs.LowLinks
import LinearTime.Proofs.ComponentSearch
import LinearTime.Proofs.StrongComponents
import LinearTime.Proofs.Walks
import LinearTime.Proofs.AcceptedWords
import LinearTime.Proofs.GraphLinks
import LinearTime.Proofs.GraphOperations
import LinearTime.Proofs.GraphRuns
import LinearTime.Proofs.ReductionSteps
import LinearTime.Proofs.ReducedRuns
import LinearTime.Proofs.Expansions
import LinearTime.Proofs.Branches
import LinearTime.Proofs.Unfoldings
import LinearTime.Proofs.Growth
import LinearTime.Proofs.GrowthBound
import LinearTime.Proofs.Guards
import LinearTime.Proofs.Traversals
import LinearTime.Proofs.TableauAutomaton
import LinearTime.Proofs.AutomatonLanguage
import LinearTime.Proofs.Translation
import LinearTime.Proofs.AutomatonGraph
import LinearTime.Proofs.Satisfiability
import LinearTime.Proofs.ReducedGraph
import LinearTime.Proofs.Rounds
import LinearTime.Proofs.MergedStates
import LinearTime.Proofs.Likeness
import LinearTime.Proofs.DoubleNegation
import LinearTime.Proofs.SessionInvariant
import LinearTime.Proofs.ExpressionMeaning
import LinearTime.Proofs.Repetition
import LinearTime.Proofs.Instances
import LinearTime.Proofs.Fixpoint
import LinearTime.Proofs.Numbering
import LinearTime.Proofs.Marks
import LinearTime.Proofs.Termination
import LinearTime.Proofs.Guarantees
import LinearTime.Proofs.NodeLabels
import LinearTime.Proofs.ExpandedAutomata
import LinearTime.Proofs.KeptResults
import LinearTime.Proofs.Rebuilding
import LinearTime.Proofs.Enumeration
import LinearTime.Proofs.EdgeLists
import LinearTime.Proofs.Encoding
import LinearTime.Proofs.LabelEscapes
import LinearTime.Proofs.Pieces
import LinearTime.Proofs.WrittenLines
import LinearTime.Proofs.WrittenGuards
import LinearTime.Proofs.HeaderEntries
import LinearTime.Proofs.WrittenAttributes
import LinearTime.Proofs.GraphBlocks
import LinearTime.Proofs.WrittenBlocks
import LinearTime.Proofs.WrittenGraphs
import LinearTime.Proofs.TruncatedInputs
import LinearTime.Proofs.RepeatedReduction
import LinearTime.Proofs.GraphComponents
import LinearTime.Proofs.ReductionCounts
import LinearTime.Proofs.ReductionEnds
import LinearTime.Proofs.Placeholders
import LinearTime.Proofs.RuleTables
import LinearTime.Proofs.CompleteMatching
import LinearTime.Proofs.OrderlyRules
import LinearTime.Proofs.CreationOrder
import LinearTime.Proofs.Sizes
import LinearTime.Proofs.Slots
import LinearTime.Proofs.NormalizedGuards
import LinearTime.Proofs.RankingHistories
import LinearTime.Proofs.RandomFormulas
