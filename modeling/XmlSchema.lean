import XmlSchema.Catalog.Listing
import XmlSchema.Catalog.Reading
import XmlSchema.CodePointSet
import XmlSchema.Configuration.Basic
import XmlSchema.Configuration.Environment
import XmlSchema.Configuration.Launch
import XmlSchema.Configuration.Reader
import XmlSchema.Configuration.Setting
import XmlSchema.Configuration.VariableFile
import XmlSchema.Content.Matching
import XmlSchema.Content.Recovery
import XmlSchema.DependencyGraph
import XmlSchema.Failure
import XmlSchema.FileTree.Basic
import XmlSchema.FileTree.Canonical
import XmlSchema.FileTree.Edit
import XmlSchema.FileTree.Walk
import XmlSchema.Http.BodyLimit
import XmlSchema.Http.Message
import XmlSchema.Http.Routing
import XmlSchema.Http.ValidateBody
import XmlSchema.Json.Basic
import XmlSchema.Json.Encoding
import XmlSchema.Json.Quoting
import XmlSchema.Json.Reader
import XmlSchema.Main
import XmlSchema.Name
import XmlSchema.NameCharacter
import XmlSchema.Occurrence
import XmlSchema.Particle
import XmlSchema.Pattern.Escape
import XmlSchema.Pattern.Expression
import XmlSchema.Pattern.Matching
import XmlSchema.Pattern.Reader
import XmlSchema.Proofs.Content.Attempts
import XmlSchema.Proofs.Content.Derivations
import XmlSchema.Proofs.Content.Exploration
import XmlSchema.Proofs.Content.Language
import XmlSchema.Proofs.Content.Locality
import XmlSchema.Proofs.Content.Matchers
import XmlSchema.Proofs.Content.RecoveryLaw
import XmlSchema.Proofs.Content.Sweeps
import XmlSchema.Proofs.Content.Takers
import XmlSchema.Proofs.Content.Viability
import XmlSchema.Proofs.DependencyGraph.Order
import XmlSchema.Proofs.DependencyGraph.Search
import XmlSchema.Proofs.Pattern.Categories
import XmlSchema.Proofs.Pattern.CodePointSets
import XmlSchema.Proofs.Pattern.Escapes
import XmlSchema.Proofs.Pattern.Expressions
import XmlSchema.Proofs.Pattern.Grammar
import XmlSchema.Proofs.Pattern.Matching
import XmlSchema.Proofs.Pattern.Reading
import XmlSchema.Proofs.Pattern.Source
import XmlSchema.Proofs.Pattern.Writing
import XmlSchema.Proofs.Schema.Annotations
import XmlSchema.Proofs.Schema.Closed
import XmlSchema.Proofs.Schema.DeclarationOrder
import XmlSchema.Proofs.Schema.Definitions
import XmlSchema.Proofs.Schema.Dependencies
import XmlSchema.Proofs.Schema.Elements
import XmlSchema.Proofs.Schema.Filling
import XmlSchema.Proofs.Schema.Inheritance
import XmlSchema.Proofs.Schema.Levels
import XmlSchema.Proofs.Schema.Lookups
import XmlSchema.Proofs.Schema.Meaning
import XmlSchema.Proofs.Schema.Places
import XmlSchema.Proofs.Schema.Positions
import XmlSchema.Proofs.Schema.Reading
import XmlSchema.Proofs.Schema.References
import XmlSchema.Proofs.Schema.Registration
import XmlSchema.Proofs.Schema.Resolution
import XmlSchema.Proofs.Schema.Scopes
import XmlSchema.Proofs.Schema.Substitution
import XmlSchema.Proofs.Schema.WellFounded
import XmlSchema.Proofs.SimpleType.Links
import XmlSchema.Proofs.Validation.Clean
import XmlSchema.Proofs.Validation.Coverage
import XmlSchema.Proofs.Validation.Dispatch
import XmlSchema.Proofs.Validation.Locality
import XmlSchema.Proofs.Validation.Presentation
import XmlSchema.Proofs.Validation.Treatment
import XmlSchema.Proofs.Validation.Typing
import XmlSchema.Proofs.Validation.Visits
import XmlSchema.Schema.Basic
import XmlSchema.Schema.Contents
import XmlSchema.Schema.Elements
import XmlSchema.Schema.Fault
import XmlSchema.Schema.Item
import XmlSchema.Schema.Reader
import XmlSchema.Schema.SimpleTypes
import XmlSchema.Service
import XmlSchema.SimpleType.Basic
import XmlSchema.SimpleType.Builtin
import XmlSchema.SimpleType.Check
import XmlSchema.Text
import XmlSchema.Text.Blank
import XmlSchema.Text.Category
import XmlSchema.Text.Lines
import XmlSchema.Text.Numeral
import XmlSchema.Text.Percent
import XmlSchema.Text.Utf8
import XmlSchema.Text.WhiteSpace
import XmlSchema.Tools
import XmlSchema.Validation.Declarations
import XmlSchema.Validation.Diagnostic
import XmlSchema.Validation.Document
import XmlSchema.Validation.Element
import XmlSchema.Validation.Place
import XmlSchema.Validation.Run
import XmlSchema.Validation.Violation
import XmlSchema.Value.Basic
import XmlSchema.Value.Calendar
import XmlSchema.Value.Decimal
import XmlSchema.Value.Double
import XmlSchema.Value.General
import XmlSchema.Value.Lexical
import XmlSchema.Value.Rounding
import XmlSchema.Xml.Cursor
import XmlSchema.Xml.Document
import XmlSchema.Xml.Identifier
import XmlSchema.Xml.Line
import XmlSchema.Xml.Log
import XmlSchema.Xml.Node
import XmlSchema.Xml.Reader
import XmlSchema.Xml.StartTag
import XmlSchema.Xml.UriReference
import XmlSchema.Proofs.Validation.Stopping
import XmlSchema.Proofs.Catalog.Containment
import XmlSchema.Proofs.Schema.ValueConstraints
import XmlSchema.Proofs.Outcome
import XmlSchema.Proofs.Pattern.Failures
import XmlSchema.Proofs.Schema.ContentLimits
import XmlSchema.Proofs.Schema.Reporting
import XmlSchema.Proofs.Catalog.BadEntries
import XmlSchema.Proofs.Value.Instants
import XmlSchema.Proofs.Content.Rounds
import XmlSchema.Proofs.Content.Expectations
import XmlSchema.Proofs.SimpleType.Bounds
import XmlSchema.Proofs.Catalog.Isolation
import XmlSchema.Proofs.Content.TakenWords
import XmlSchema.Proofs.Content.Arrangements
import XmlSchema.Proofs.Schema.EmptyModels
import XmlSchema.Proofs.Schema.Extensions
import XmlSchema.Proofs.Schema.SubstitutionGroups
import XmlSchema.Proofs.Value.Digits
import XmlSchema.Proofs.SimpleType.Narrowing
import XmlSchema.Proofs.SimpleType.Checks
import XmlSchema.Proofs.Value.Integers
import XmlSchema.Proofs.SimpleType.Integers
import XmlSchema.Proofs.Schema.SimpleTypes
import XmlSchema.Proofs.Schema.Lists
import XmlSchema.Proofs.Value.Equality
import XmlSchema.Proofs.SimpleType.Equality
import XmlSchema.Proofs.Validation.FixedValues
import XmlSchema.Proofs.Schema.AllGroups
import XmlSchema.Proofs.Schema.AttributeOrder
import XmlSchema.Proofs.Schema.LocalNames
import XmlSchema.Proofs.Validation.LocalElements
import XmlSchema.Proofs.Schema.AttributeBodies
import XmlSchema.Proofs.Value.Scans
import XmlSchema.Proofs.Value.DateForms
import XmlSchema.Proofs.Value.Zones
import XmlSchema.Proofs.Value.DurationForms
import XmlSchema.Proofs.Value.ExactDurations
import XmlSchema.Proofs.Value.QualifiedNames
import XmlSchema.Proofs.Schema.ListEquality
import XmlSchema.Proofs.DependencyGraph.Cycles
import XmlSchema.Proofs.DependencyGraph.Orderability
import XmlSchema.Proofs.Validation.ChildPaths
import XmlSchema.Proofs.Validation.Places
import XmlSchema.Proofs.Validation.StrayText
import XmlSchema.Proofs.Pattern.CanonicalSets
import XmlSchema.Proofs.Text.Occurrences
import XmlSchema.Proofs.Xml.Prolog
import XmlSchema.Proofs.Pattern.Leaves
import XmlSchema.Proofs.Pattern.Repetitions
