import InlineProject.Calendar
import InlineProject.CommandLine.Options
import InlineProject.CommandLine.Run
import InlineProject.CommandLine.Word
import InlineProject.Configuration
import InlineProject.Descriptor.Attribute
import InlineProject.Descriptor.Comment
import InlineProject.Descriptor.Normalize
import InlineProject.Descriptor.Project
import InlineProject.Disk.Action
import InlineProject.Disk.Basic
import InlineProject.Expansion
import InlineProject.Failure
import InlineProject.Git.Call
import InlineProject.Git.Launcher
import InlineProject.Git.Repository
import InlineProject.Ignore.Glob
import InlineProject.Ignore.Pattern
import InlineProject.Journal
import InlineProject.Json.Parser
import InlineProject.Json.Printer
import InlineProject.Json.Value
import InlineProject.Machine.Run
import InlineProject.Machine.Script
import InlineProject.Machine.Tool
import InlineProject.Main
import InlineProject.Number.Binary64
import InlineProject.Number.Error
import InlineProject.Number.Integer
import InlineProject.Number.Real
import InlineProject.Number.Shortest
import InlineProject.Outcome
import InlineProject.Path
import InlineProject.Proofs.ActionEnds
import InlineProject.Proofs.ActionRun
import InlineProject.Proofs.AdoptedFiles
import InlineProject.Proofs.ArtifactFiles
import InlineProject.Proofs.BatchRuns
import InlineProject.Proofs.BracketRanges
import InlineProject.Proofs.CanonicalFixpoint
import InlineProject.Proofs.CanonicalMarkup
import InlineProject.Proofs.CheckedNames
import InlineProject.Proofs.ChosenDescriptor
import InlineProject.Proofs.ContainedRun
import InlineProject.Proofs.Conversation
import InlineProject.Proofs.DataLeaves
import InlineProject.Proofs.DescriptorText
import InlineProject.Proofs.DiskRun
import InlineProject.Proofs.DiskWays
import InlineProject.Proofs.DocumentationRuns
import InlineProject.Proofs.DocumentedHead
import InlineProject.Proofs.DraftedProject
import InlineProject.Proofs.DraftedValues
import InlineProject.Proofs.ExchangedMarks
import InlineProject.Proofs.ExpansionRun
import InlineProject.Proofs.FailedRun
import InlineProject.Proofs.HeadLexemes
import InlineProject.Proofs.HoistedTokens
import InlineProject.Proofs.IgnoredPaths
import InlineProject.Proofs.InPlaceRuns
import InlineProject.Proofs.InterruptedRuns
import InlineProject.Proofs.JsonRecords
import InlineProject.Proofs.JsonTexts
import InlineProject.Proofs.JsonValues
import InlineProject.Proofs.KeptEntries
import InlineProject.Proofs.KeptSpans
import InlineProject.Proofs.Listings
import InlineProject.Proofs.LoadedRegistry
import InlineProject.Proofs.LoadedSettings
import InlineProject.Proofs.LosslessParse
import InlineProject.Proofs.MadeDirectories
import InlineProject.Proofs.MarkupBytes
import InlineProject.Proofs.MarkupContent
import InlineProject.Proofs.MarkupDoctype
import InlineProject.Proofs.MarkupDocument
import InlineProject.Proofs.MarkupMarks
import InlineProject.Proofs.MarkupMeaning
import InlineProject.Proofs.MarkupReaders
import InlineProject.Proofs.MarkupReading
import InlineProject.Proofs.MarkupScopes
import InlineProject.Proofs.MarkupTree
import InlineProject.Proofs.MemoryProgram
import InlineProject.Proofs.NormalizedDescriptor
import InlineProject.Proofs.NullPaths
import InlineProject.Proofs.OctetLines
import InlineProject.Proofs.OctetRanges
import InlineProject.Proofs.OwnedLines
import InlineProject.Proofs.PathWays
import InlineProject.Proofs.PlacedSpans
import InlineProject.Proofs.PreparedDirectory
import InlineProject.Proofs.PrintedData
import InlineProject.Proofs.ProjectLayout
import InlineProject.Proofs.ProjectPlaces
import InlineProject.Proofs.ProjectRule
import InlineProject.Proofs.ProjectRun
import InlineProject.Proofs.ProjectWord
import InlineProject.Proofs.PromptProgram
import InlineProject.Proofs.RawMarkup
import InlineProject.Proofs.RefusedNumbers
import InlineProject.Proofs.RegisteredDescriptor
import InlineProject.Proofs.RegistryFile
import InlineProject.Proofs.RegistryNames
import InlineProject.Proofs.RegistryRun
import InlineProject.Proofs.RegistrySession
import InlineProject.Proofs.RepeatedRun
import InlineProject.Proofs.RepositoryRun
import InlineProject.Proofs.RescannedFiles
import InlineProject.Proofs.ResumedRun
import InlineProject.Proofs.RunAttempts
import InlineProject.Proofs.RunSteps
import InlineProject.Proofs.ScannedFiles
import InlineProject.Proofs.SettledProject
import InlineProject.Proofs.SharedUsings
import InlineProject.Proofs.SideBySide
import InlineProject.Proofs.SourceBytes
import InlineProject.Proofs.SourceLayout
import InlineProject.Proofs.StagedFiles
import InlineProject.Proofs.StockedFiles
import InlineProject.Proofs.TouchedFiles
import InlineProject.Proofs.TrackedFiles
import InlineProject.Proofs.TwinRuns
import InlineProject.Proofs.TwinWorlds
import InlineProject.Proofs.UnfoldedGraph
import InlineProject.Proofs.VersionControl
import InlineProject.Proofs.WantedFiles
import InlineProject.Proofs.WorldFrames
import InlineProject.Proofs.WrittenSource
import InlineProject.Proofs.YamlGraph
import InlineProject.Proofs.YamlTokens
import InlineProject.Proofs.YamlValues
import InlineProject.Registry.Basic
import InlineProject.Registry.File
import InlineProject.Registry.Registration
import InlineProject.Scaffold
import InlineProject.Scan
import InlineProject.Source.Directive
import InlineProject.Source.Lexeme
import InlineProject.Source.Node
import InlineProject.Source.Octets
import InlineProject.Source.Span
import InlineProject.Source.Tree
import InlineProject.Source.Unit
import InlineProject.Text.Blank
import InlineProject.Text.CodePoint
import InlineProject.Text.Dedent
import InlineProject.Text.Digit
import InlineProject.Text.Lines
import InlineProject.Text.Lowercase
import InlineProject.Text.Printable
import InlineProject.Text.Quoted
import InlineProject.Text.Replace
import InlineProject.Text.Utf8
import InlineProject.World
import InlineProject.Xml.Canonical
import InlineProject.Xml.Character
import InlineProject.Xml.Codepage
import InlineProject.Xml.Doctype
import InlineProject.Xml.Encoding
import InlineProject.Xml.Lexeme
import InlineProject.Xml.Namespace
import InlineProject.Xml.Parser
import InlineProject.Xml.Printer
import InlineProject.Xml.Tree
import InlineProject.Yaml.Access
import InlineProject.Yaml.Binary
import InlineProject.Yaml.Datum
import InlineProject.Yaml.Display
import InlineProject.Yaml.Error
import InlineProject.Yaml.Node
import InlineProject.Yaml.Plain
import InlineProject.Yaml.Tag
import InlineProject.Yaml.Timestamp
import InlineProject.Yaml.Token
import InlineProject.Yaml.Token.Cursor
import InlineProject.Yaml.Token.Mark
import InlineProject.Yaml.Token.Scalar
import InlineProject.Yaml.Token.Scan
import InlineProject.Yaml.Value
