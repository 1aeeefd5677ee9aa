import ComponentLens.Text.Naming
import ComponentLens.Text.Span
import ComponentLens.Text.Whitespace
import ComponentLens.Text.WordChar
import ComponentLens.Text.Digest
import ComponentLens.Text.Lines
import ComponentLens.Text.PlainLines
import ComponentLens.Uri
import ComponentLens.Fault
import ComponentLens.Mapping.Link
import ComponentLens.Mapping.LinkedText
import ComponentLens.Script.Tokens
import ComponentLens.Script.Statement
import ComponentLens.Script.Analysis
import ComponentLens.Style.Selector
import ComponentLens.Component.Split
import ComponentLens.Virtual.Build
import ComponentLens.Markup.Parse
import ComponentLens.Workspace.OpenFiles
import ComponentLens.Workspace.BuildCache
import ComponentLens.Workspace.Settings
import ComponentLens.Workspace.Basic
import ComponentLens.Service.Backend
import ComponentLens.Service.Rename
import ComponentLens.Service.Diagnostics
import ComponentLens.Service.Embedded
import ComponentLens.Service.Completion
import ComponentLens.Service.Session
import ComponentLens.Proofs.Virtual.Provenance
import ComponentLens.Proofs.Service.Closure
import ComponentLens.Proofs.Workspace.Owners
import ComponentLens.Proofs.Service.Reports
import ComponentLens.Proofs.Script.ReadsRight
import ComponentLens.Proofs.Markup.RoundTrip
import ComponentLens.Proofs.Service.Origins
import ComponentLens.Proofs.Virtual.TemplateRegions
import ComponentLens.Proofs.Virtual.SetupBody
import ComponentLens.Proofs.Service.Addresses
import ComponentLens.Proofs.Service.RenameSymmetry
import ComponentLens.Proofs.Component.Writing
import ComponentLens.Proofs.Virtual.Literals
import ComponentLens.Proofs.Service.Cancellation
import ComponentLens.Proofs.Markup.Sites
import ComponentLens.Proofs.Virtual.Expressions
import ComponentLens.Proofs.Virtual.BlockCopies
import ComponentLens.Proofs.Service.StartPoints
import ComponentLens.Proofs.Service.ClassRename
import ComponentLens.Proofs.Service.HandlerRename
import ComponentLens.Proofs.Workspace.Edits
import ComponentLens.Proofs.Text.PlainPositions
import ComponentLens.Proofs.Virtual.Bindings
import ComponentLens.Proofs.Virtual.Isolation
import ComponentLens.Proofs.Markup.Nesting
import ComponentLens.Proofs.Service.Calls
import ComponentLens.Proofs.Text.Spellings
import ComponentLens.Proofs.Script.Members
import ComponentLens.Proofs.Script.LabelPatterns
import ComponentLens.Proofs.Script.LabelPositions
import ComponentLens.Proofs.Script.Statements
import ComponentLens.Proofs.Script.PatternNames
import ComponentLens.Proofs.Component.NestedTemplates
import ComponentLens.Proofs.Virtual.Conditionals
import ComponentLens.Proofs.Style.Selectors
import ComponentLens.Proofs.Component.Faithful
import ComponentLens.Proofs.Markup.Lifting
import ComponentLens.Proofs.Markup.PropertyPlaces
import ComponentLens.Proofs.Virtual.CoarseMappings
import ComponentLens.Proofs.Script.Lossless
import ComponentLens.Proofs.Script.Imports
import ComponentLens.Proofs.Virtual.HeaderCopy
import ComponentLens.Proofs.Workspace.DistinctOwners
