import BuildExpr.Text
import BuildExpr.Text.Span
import BuildExpr.Text.Quoted
import BuildExpr.Table
import BuildExpr.Delimiter
import BuildExpr.Token
import BuildExpr.Forest
import BuildExpr.Forest.Reading
import BuildExpr.Tree
import BuildExpr.Elements
import BuildExpr.Elements.Split
import BuildExpr.Path
import BuildExpr.Interface
import BuildExpr.Arity
import BuildExpr.Failure
import BuildExpr.Chain
import BuildExpr.Footprint
import BuildExpr.Standard
import BuildExpr.Integer
import BuildExpr.Model
import BuildExpr.Store
import BuildExpr.Evaluation
import BuildExpr.Operation.Condition
import BuildExpr.Operation.Wording
import BuildExpr.Operation.Surroundings
import BuildExpr.Operation.Target
import BuildExpr.Operation.Features
import BuildExpr.Operation.Builtin
import BuildExpr.Operation.Registry
import BuildExpr.Operation.Probe
import BuildExpr.Engine
import BuildExpr.Compiled
import BuildExpr.PropertyReader
import BuildExpr.Toml.Value
import BuildExpr.Toml.Table
import BuildExpr.Toml.Scalar
import BuildExpr.Toml.Document
import BuildExpr.Model.File
import BuildExpr.CommandLine.Report
import BuildExpr.CommandLine.Listing
import BuildExpr.CommandLine.Command
import BuildExpr.CommandLine.Execution
import BuildExpr.Main
import BuildExpr.Proofs.Rendering
import BuildExpr.Proofs.Splitting
import BuildExpr.Proofs.Sessions
import BuildExpr.Proofs.Logs
import BuildExpr.Proofs.Recording
import BuildExpr.Proofs.Matching
import BuildExpr.Proofs.Grammar
import BuildExpr.Proofs.PropertyRecursion
import BuildExpr.Proofs.Dependence
import BuildExpr.Proofs.Histories
import BuildExpr.Proofs.Shortcut
import BuildExpr.Proofs.Limits
import BuildExpr.Proofs.Selecting
import BuildExpr.Proofs.Sensitivity
import BuildExpr.Proofs.References
import BuildExpr.Proofs.Spelling
import BuildExpr.Proofs.Depths
import BuildExpr.Proofs.Inlined
import BuildExpr.Proofs.BuildSide
import BuildExpr.Proofs.ParameterCounts
import BuildExpr.Proofs.Lookups
import BuildExpr.Proofs.StoredTrees
import BuildExpr.Proofs.ModelReports
import BuildExpr.Proofs.OtherLookups
import BuildExpr.Proofs.PropertyValues
import BuildExpr.Proofs.Tokens
import BuildExpr.Proofs.TokensByOffsets
import BuildExpr.Proofs.NestingGuards
import BuildExpr.Proofs.Concatenation
import BuildExpr.Proofs.Moments
import BuildExpr.Proofs.OpenOperations
import BuildExpr.Proofs.Consistency
import BuildExpr.Proofs.Unselected
import BuildExpr.Proofs.Places
import BuildExpr.Proofs.Excerpts
import BuildExpr.Proofs.Stripping
import BuildExpr.Proofs.EmptyElements
import BuildExpr.Proofs.Tidying
import BuildExpr.Proofs.Joining
import BuildExpr.Proofs.Collapsing
import BuildExpr.Proofs.Meeting
import BuildExpr.Proofs.Resolving
import BuildExpr.Proofs.Rejoining
import BuildExpr.Proofs.ArrayProperties
import BuildExpr.Proofs.SplitContents
import BuildExpr.Proofs.Duplicates
import BuildExpr.Proofs.IntegerLiterals
import BuildExpr.Proofs.OwnProperty
import BuildExpr.Proofs.Failing
import BuildExpr.Proofs.Origins
import BuildExpr.Proofs.Registrations
import BuildExpr.Proofs.CompileFeatures
import BuildExpr.Proofs.ModelFiles
import BuildExpr.Proofs.ExportingByOffsets
import BuildExpr.Proofs.NormalForms
import BuildExpr.Proofs.Refusals
