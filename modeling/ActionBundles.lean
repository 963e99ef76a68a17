import ActionBundles.Binary64
import ActionBundles.Bundle.Basic
import ActionBundles.Bundle.Descriptor
import ActionBundles.Bundle.Dockerfile
import ActionBundles.Bundle.Entrypoint
import ActionBundles.Bundle.Identity
import ActionBundles.Bundle.SyncRecord
import ActionBundles.Command.Args
import ActionBundles.Command.Run
import ActionBundles.Config
import ActionBundles.Dict
import ActionBundles.Digest.Sha256
import ActionBundles.Disk.Action
import ActionBundles.Disk.Error
import ActionBundles.Disk.Locate
import ActionBundles.Disk.Tree
import ActionBundles.Disk.Walk
import ActionBundles.Failure
import ActionBundles.Generation
import ActionBundles.Json.Basic
import ActionBundles.Json.Decode
import ActionBundles.Json.Printer
import ActionBundles.Json.Reader
import ActionBundles.Json.Token
import ActionBundles.Layout
import ActionBundles.Main
import ActionBundles.Manifest.Basic
import ActionBundles.Manifest.Storage
import ActionBundles.Model.Basic
import ActionBundles.Model.Irregularity
import ActionBundles.Model.Item
import ActionBundles.Model.Json
import ActionBundles.Model.Line
import ActionBundles.Model.Parser
import ActionBundles.Path
import ActionBundles.Proofs.Addresses
import ActionBundles.Proofs.Agreement
import ActionBundles.Proofs.Alike
import ActionBundles.Proofs.Alongside
import ActionBundles.Proofs.Atomicity
import ActionBundles.Proofs.BatchHistory
import ActionBundles.Proofs.Bijection
import ActionBundles.Proofs.BundleDepth
import ActionBundles.Proofs.BundleHistory
import ActionBundles.Proofs.BundlePlaces
import ActionBundles.Proofs.Changes
import ActionBundles.Proofs.Commands
import ActionBundles.Proofs.Comments
import ActionBundles.Proofs.Confined
import ActionBundles.Proofs.Coverage
import ActionBundles.Proofs.Descriptors
import ActionBundles.Proofs.Discovery
import ActionBundles.Proofs.Effects
import ActionBundles.Proofs.FileOrder
import ActionBundles.Proofs.Following
import ActionBundles.Proofs.Freshness
import ActionBundles.Proofs.GenerationAlike
import ActionBundles.Proofs.Guarded
import ActionBundles.Proofs.GuardedTransactions
import ActionBundles.Proofs.Irregularities
import ActionBundles.Proofs.JsonDocuments
import ActionBundles.Proofs.Keeping
import ActionBundles.Proofs.Landing
import ActionBundles.Proofs.Lockstep
import ActionBundles.Proofs.MaintainedProjects
import ActionBundles.Proofs.ManifestHistory
import ActionBundles.Proofs.OneByOne
import ActionBundles.Proofs.Opening
import ActionBundles.Proofs.Ownership
import ActionBundles.Proofs.ParsedModels
import ActionBundles.Proofs.PassedChecks
import ActionBundles.Proofs.Places
import ActionBundles.Proofs.Plans
import ActionBundles.Proofs.Provenance
import ActionBundles.Proofs.Publication
import ActionBundles.Proofs.PublishingSteps
import ActionBundles.Proofs.Reach
import ActionBundles.Proofs.ReadDescriptors
import ActionBundles.Proofs.ReadDocuments
import ActionBundles.Proofs.ReadScalars
import ActionBundles.Proofs.ReadTokens
import ActionBundles.Proofs.Recording
import ActionBundles.Proofs.ReferentialIntegrity
import ActionBundles.Proofs.Regions
import ActionBundles.Proofs.Reports
import ActionBundles.Proofs.Rollback
import ActionBundles.Proofs.SamePlace
import ActionBundles.Proofs.Scripts
import ActionBundles.Proofs.ShellTokens
import ActionBundles.Proofs.SideBySide
import ActionBundles.Proofs.Steadiness
import ActionBundles.Proofs.StoredRecords
import ActionBundles.Proofs.Texts
import ActionBundles.Proofs.Together
import ActionBundles.Proofs.Twins
import ActionBundles.Proofs.Underway
import ActionBundles.Proofs.Verdicts
import ActionBundles.Proofs.Ways
import ActionBundles.Proofs.WorkingDirectory
import ActionBundles.Proofs.WrittenDocuments
import ActionBundles.Proofs.WrittenItems
import ActionBundles.Proofs.WrittenModels
import ActionBundles.Shell.Word
import ActionBundles.Text.Basic
import ActionBundles.Text.Capital
import ActionBundles.Text.Quoted
import ActionBundles.Text.Utf8
import ActionBundles.Timestamp
import ActionBundles.Transaction
import ActionBundles.Validation.Check
import ActionBundles.Validation.Report
import ActionBundles.Validation.Schema
import ActionBundles.Yaml.Character
import ActionBundles.Yaml.Cursor
import ActionBundles.Yaml.Lexer
import ActionBundles.Yaml.Node
import ActionBundles.Yaml.Printer
import ActionBundles.Yaml.Reader
import ActionBundles.Yaml.Scalar
import ActionBundles.Yaml.Token
import ActionBundles.Proofs.Drift
import ActionBundles.Proofs.ChoiceSpellings
import ActionBundles.Proofs.InterfaceKeys
import ActionBundles.Proofs.PersistedDocuments
import ActionBundles.Proofs.Enclosures
import ActionBundles.Proofs.Settlement
import ActionBundles.Proofs.Regeneration
import ActionBundles.Proofs.FrontMatter
import ActionBundles.Proofs.OptionalMarker
import ActionBundles.Proofs.Respacing
import ActionBundles.Proofs.DeclaredEntries
import ActionBundles.Proofs.MappingOrder
import ActionBundles.Proofs.KeptApart
import ActionBundles.Proofs.Requirements
import ActionBundles.Proofs.PublishedTrees
import ActionBundles.Proofs.RelativePaths
import ActionBundles.Proofs.Identities
import ActionBundles.Proofs.SoundModels
import ActionBundles.Proofs.CompleteDiscovery
