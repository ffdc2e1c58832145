import TypeFlow.Analysis.Binding
import TypeFlow.Analysis.Creation
import TypeFlow.Analysis.Inference
import TypeFlow.Analysis.Narrowing
import TypeFlow.Analysis.Process
import TypeFlow.Analysis.Query
import TypeFlow.Analysis.Report
import TypeFlow.Analysis.State
import TypeFlow.CommandLine.Arguments
import TypeFlow.CommandLine.Output
import TypeFlow.ConcreteType.Basic
import TypeFlow.ConcreteType.Form
import TypeFlow.Config
import TypeFlow.Config.Toml
import TypeFlow.Extraction
import TypeFlow.Fixpoint
import TypeFlow.ImplicitGlobals
import TypeFlow.Json.Basic
import TypeFlow.Json.Decode
import TypeFlow.Json.Lexer
import TypeFlow.Json.Reader
import TypeFlow.Json.Writer
import TypeFlow.Main
import TypeFlow.Program.Basic
import TypeFlow.Program.Builder
import TypeFlow.Program.Hierarchy
import TypeFlow.Program.Json
import TypeFlow.Proofs.Growth
import TypeFlow.Proofs.Lattice
import TypeFlow.Scope.Graph
import TypeFlow.Toml.Document
import TypeFlow.Proofs.Steps
import TypeFlow.Proofs.Effects
import TypeFlow.Proofs.Actions
import TypeFlow.Proofs.FixedPoint
import TypeFlow.Proofs.Operations
import TypeFlow.Proofs.OrderIndependence
import TypeFlow.Proofs.Passes
import TypeFlow.Proofs.LeastFixedPoint
import TypeFlow.Proofs.Vocabulary
import TypeFlow.Proofs.Textual
import TypeFlow.Proofs.Causes
import TypeFlow.Proofs.PassBound
import TypeFlow.Proofs.Course
import TypeFlow.Proofs.Tables
import TypeFlow.Proofs.Resolution
import TypeFlow.Proofs.Units
import TypeFlow.Proofs.LexicalWalk
import TypeFlow.Proofs.BodyText
import TypeFlow.Proofs.Creations
import TypeFlow.Proofs.LexicalNames
import TypeFlow.Proofs.FiniteSets
import TypeFlow.Proofs.CanonicalForms
import TypeFlow.Proofs.Ceiling
import TypeFlow.Proofs.Flattening
import TypeFlow.Proofs.JsonText
import TypeFlow.Proofs.Decoding
import TypeFlow.Proofs.ProgramIds
import TypeFlow.Proofs.ProgramText
import TypeFlow.Proofs.Hierarchy
import TypeFlow.Proofs.Narrowing
import TypeFlow.Proofs.Widening
import TypeFlow.Proofs.MethodCalls
import TypeFlow.Proofs.Lineage
import TypeFlow.Proofs.GrowthReports
import TypeFlow.Proofs.PropertyWrites
import TypeFlow.Proofs.Monotonicity
import TypeFlow.Proofs.Unbounded
import TypeFlow.Proofs.BodyLayout
import TypeFlow.Proofs.Recording
import TypeFlow.Proofs.FunctionCreation
import TypeFlow.Proofs.Hoisting
import TypeFlow.Proofs.ClassTree
import TypeFlow.Proofs.Coherence
import TypeFlow.Proofs.Charts
import TypeFlow.Proofs.Twins
import TypeFlow.Proofs.Definite
import TypeFlow.Proofs.Embedding
import TypeFlow.Proofs.Following
import TypeFlow.Proofs.FollowedInference
import TypeFlow.Proofs.FollowedCalls
import TypeFlow.Proofs.FollowedActions
import TypeFlow.Proofs.Confluence
