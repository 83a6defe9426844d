import Conform.Configuration
import Conform.JsonSchema.Converter
import Conform.JsonSchema.Projection
import Conform.Parsing
import Conform.RecordModel
import Conform.Schema.Documenting
import Conform.Schema.Introspection
import Conform.Proofs.Configuration.Blocks
import Conform.Proofs.Evaluation.Budgets
import Conform.Proofs.Evaluation.Coinciding
import Conform.Proofs.Evaluation.Decides
import Conform.Proofs.Evaluation.Endings
import Conform.Proofs.Evaluation.Frames
import Conform.Proofs.Evaluation.Histories
import Conform.Proofs.Evaluation.LawfulRules
import Conform.Proofs.Evaluation.Reaches
import Conform.Proofs.Evaluation.Unfolding
import Conform.Proofs.Evaluation.Worlds
import Conform.Proofs.JsonSchema.Admission
import Conform.Proofs.JsonSchema.AdmittingNull
import Conform.Proofs.JsonSchema.Callables
import Conform.Proofs.JsonSchema.Containers
import Conform.Proofs.JsonSchema.Cycles
import Conform.Proofs.JsonSchema.Definitions
import Conform.Proofs.JsonSchema.Exactness
import Conform.Proofs.JsonSchema.Expansion
import Conform.Proofs.JsonSchema.RegroupedChecks
import Conform.Proofs.JsonSchema.RequiredKeys
import Conform.Proofs.Parsing.ConfiguredMessages
import Conform.Proofs.Parsing.EntryPoints
import Conform.Proofs.Parsing.Lines
import Conform.Proofs.Parsing.RaisingMessages
import Conform.Proofs.Path.Grammar
import Conform.Proofs.Path.RoundTrip
import Conform.Proofs.RecordModel.Agreement
import Conform.Proofs.RecordModel.Annotations
import Conform.Proofs.Validation.Alternatives
import Conform.Proofs.Validation.BreakingOff
import Conform.Proofs.Validation.ContextPrograms
import Conform.Proofs.Validation.Descriptions
import Conform.Proofs.Validation.DualForms
import Conform.Proofs.Validation.EntryWalks
import Conform.Proofs.Validation.Jams
import Conform.Proofs.Validation.Leaving
import Conform.Proofs.Validation.Localisation
import Conform.Proofs.Validation.ObjectModes
import Conform.Proofs.Validation.OrderlyRules
import Conform.Proofs.Validation.Recursion
import Conform.Proofs.Validation.RegroupedParts
import Conform.Proofs.Validation.RegroupedSteps
import Conform.Proofs.Validation.RequiredFields
import Conform.Proofs.Validation.RoundTrip
import Conform.Proofs.Validation.SequencesAsTuples
import Conform.Proofs.Validation.SplitShapes
import Conform.Proofs.Validator.Grouping
import Conform.Proofs.Validator.Shapes
import Conform.Proofs.Value.Depth
