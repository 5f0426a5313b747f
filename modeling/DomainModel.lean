import DomainModel.Analysis
import DomainModel.Build.Basic
import DomainModel.Build.Crud
import DomainModel.Build.Declaration
import DomainModel.Build.Global
import DomainModel.Build.Opening
import DomainModel.Build.Relationship
import DomainModel.Build.Scope
import DomainModel.Build.Service
import DomainModel.Check.Classification
import DomainModel.Check.Validation
import DomainModel.Grammar.Annotation
import DomainModel.Grammar.Declaration
import DomainModel.Grammar.Rule
import DomainModel.Grammar.Service
import DomainModel.Grammar.Source
import DomainModel.Grammar.Test
import DomainModel.Model.Basic
import DomainModel.Model.Document
import DomainModel.Model.Locations
import DomainModel.Model.Problem
import DomainModel.Model.Symbols
import DomainModel.Name.Naming
import DomainModel.Name.Words
import DomainModel.Proofs.Build.Annotations
import DomainModel.Proofs.Build.Coherence
import DomainModel.Proofs.Build.Complete
import DomainModel.Proofs.Build.Crud
import DomainModel.Proofs.Build.Declared
import DomainModel.Proofs.Build.DeclaredDocument
import DomainModel.Proofs.Build.Direct
import DomainModel.Proofs.Build.DocComment
import DomainModel.Proofs.Build.Document
import DomainModel.Proofs.Build.Ends
import DomainModel.Proofs.Build.Essence
import DomainModel.Proofs.Build.Events
import DomainModel.Proofs.Build.Kept
import DomainModel.Proofs.Build.Kinds
import DomainModel.Proofs.Build.Locations
import DomainModel.Proofs.Build.Names
import DomainModel.Proofs.Build.Naming
import DomainModel.Proofs.Build.Options
import DomainModel.Proofs.Build.Pinned
import DomainModel.Proofs.Build.Quotes
import DomainModel.Proofs.Build.Records
import DomainModel.Proofs.Build.Redeclared
import DomainModel.Proofs.Build.RelationNames
import DomainModel.Proofs.Build.Relationships
import DomainModel.Proofs.Build.Rendered
import DomainModel.Proofs.Build.Safety
import DomainModel.Proofs.Build.Schema
import DomainModel.Proofs.Build.Simulation
import DomainModel.Proofs.Build.Slots
import DomainModel.Proofs.Build.Spacing
import DomainModel.Proofs.Build.Spans
import DomainModel.Proofs.Build.Starts
import DomainModel.Proofs.Build.Steps
import DomainModel.Proofs.Build.Stretch
import DomainModel.Proofs.Build.Tidy
import DomainModel.Proofs.Check.Classification
import DomainModel.Proofs.Check.Frame
import DomainModel.Proofs.Check.Located
import DomainModel.Proofs.Check.Naming
import DomainModel.Proofs.Check.Order
import DomainModel.Proofs.Check.Sessions
import DomainModel.Proofs.Check.Validation
import DomainModel.Proofs.Check.Views
import DomainModel.Proofs.Grammar.Accepts
import DomainModel.Proofs.Grammar.Clean
import DomainModel.Proofs.Grammar.Complaints
import DomainModel.Proofs.Grammar.Complete
import DomainModel.Proofs.Grammar.Declared
import DomainModel.Proofs.Grammar.Global
import DomainModel.Proofs.Grammar.Lossless
import DomainModel.Proofs.Grammar.Machine
import DomainModel.Proofs.Grammar.Origin
import DomainModel.Proofs.Grammar.Pace
import DomainModel.Proofs.Grammar.Progress
import DomainModel.Proofs.Grammar.Reads
import DomainModel.Proofs.Grammar.Reports
import DomainModel.Proofs.Grammar.Shape
import DomainModel.Proofs.Grammar.Spacing
import DomainModel.Proofs.Grammar.Tight
import DomainModel.Proofs.Grammar.Written
import DomainModel.Proofs.Model.Document
import DomainModel.Proofs.Model.Export
import DomainModel.Proofs.Model.History
import DomainModel.Proofs.Model.Locations
import DomainModel.Proofs.Model.Schema
import DomainModel.Proofs.Model.Symbols
import DomainModel.Proofs.Name.Forms
import DomainModel.Proofs.Name.Plural
import DomainModel.Proofs.Source.Index
import DomainModel.Proofs.Source.Lines
import DomainModel.Proofs.Text.Blank
import DomainModel.Proofs.Text.Casing
import DomainModel.Proofs.Text.DocComment
import DomainModel.Proofs.Text.Lines
import DomainModel.Proofs.Token.Closing
import DomainModel.Proofs.Token.Cut
import DomainModel.Proofs.Token.Scan
import DomainModel.Proofs.Tree.Essence
import DomainModel.Proofs.Tree.Questions
import DomainModel.Proofs.Tree.Terse
import DomainModel.Proofs.Value.Dict
import DomainModel.Proofs.Value.EqualBut
import DomainModel.Proofs.Value.Equality
import DomainModel.Proofs.Value.Json
import DomainModel.Proofs.Value.JsonGrammar
import DomainModel.Proofs.Value.Literal
import DomainModel.Proofs.Value.Notation
import DomainModel.Proofs.Value.Number
import DomainModel.Proofs.Value.Path
import DomainModel.Proofs.Value.Same
import DomainModel.Proofs.Value.Selection
import DomainModel.Proofs.Value.Update
import DomainModel.Source.Lines
import DomainModel.Text.Blank
import DomainModel.Text.CaseTable
import DomainModel.Text.Casing
import DomainModel.Text.ClassTable
import DomainModel.Text.DocComment
import DomainModel.Token.Basic
import DomainModel.Token.Comment
import DomainModel.Token.Kind
import DomainModel.Token.Lexer
import DomainModel.Tree.Basic
import DomainModel.Tree.Kind
import DomainModel.Tree.Value
import DomainModel.Tree.View
import DomainModel.Tree.Visit
import DomainModel.Value.Basic
import DomainModel.Value.Decimal
import DomainModel.Value.Dict
import DomainModel.Value.Json
import DomainModel.Value.Literal
import DomainModel.Value.Path
