import TerraformLs.KeyedMap
import TerraformLs.InvertedIndex
import TerraformLs.Runs
import TerraformLs.Rope
import TerraformLs.Hcl
import TerraformLs.Symbols
import TerraformLs.Document
import TerraformLs.StateStore
import TerraformLs.StoreIndex
import TerraformLs.EditDelivery
import TerraformLs.OpenBuffers
import TerraformLs.Walks
import TerraformLs.CyclicLocals
import TerraformLs.FileSystem
import TerraformLs.AssignedTypes
import TerraformLs.JobQueue
import TerraformLs.Indexer
import TerraformLs.CompletedScans
import TerraformLs.ScheduledScans
import TerraformLs.Procedures
import TerraformLs.UnknownValue
import TerraformLs.UnknownTermination
import TerraformLs.Rename
import TerraformLs.IndexCache
import TerraformLs.JsonConfig
import TerraformLs.JsonSymbols
import TerraformLs.ValueShape
import TerraformLs.ShapeTermination
import TerraformLs.ModuleInputs
import TerraformLs.ModuleSnapshot
import TerraformLs.SnapshotAnswers
import TerraformLs.Fingerprint
import TerraformLs.PeerDiagnostics
import TerraformLs.ModuleAggregates
import TerraformLs.Replacement
import TerraformLs.PeerReads
import TerraformLs.UnnoticedEdits
import TerraformLs.Sweeps
import TerraformLs.PassedVariables
import TerraformLs.PassedContributions
import TerraformLs.RebuildOrder
import TerraformLs.PlainReader
import TerraformLs.JsonDocument
import TerraformLs.JsonReading
import TerraformLs.JsonFaithful
import TerraformLs.QueueHistory
import TerraformLs.Wakeups
import TerraformLs.CachedFetch
import TerraformLs.GitUrls
import TerraformLs.CacheKeys
import TerraformLs.VersionLists
import TerraformLs.DiskCaches
import TerraformLs.Watcher
import TerraformLs.DiskSync
import TerraformLs.SpannedTree
import TerraformLs.CodeActions
import TerraformLs.NullResource
import TerraformLs.MovedBlocks
import TerraformLs.BlockRename
import TerraformLs.ConversionReferences
import TerraformLs.ConsistentConversions
import TerraformLs.MovedScaffolds
import TerraformLs.TextSlices
import TerraformLs.VersionConstraint
import TerraformLs.ConstraintParsing
import TerraformLs.SemVer
import TerraformLs.VersionOrder
import TerraformLs.VersionRanges
import TerraformLs.ProgressStream
import TerraformLs.CacheLookups
import TerraformLs.WarmTargets
import TerraformLs.PathSpellings
import TerraformLs.IndexRaces
import TerraformLs.TypeChecks
import TerraformLs.Lines
import TerraformLs.PositionConversions
import TerraformLs.Blanking
import TerraformLs.Recovery
import TerraformLs.Merging
import TerraformLs.TypeMerging
import TerraformLs.MergeLaws
import TerraformLs.MergedLists
import TerraformLs.MergeOrder
import TerraformLs.MergeAcceptance
import TerraformLs.SaturatingCount
import TerraformLs.BracketNesting
import TerraformLs.NestingGuard
import TerraformLs.TypeTerms
import TerraformLs.TypeTexts
import TerraformLs.ConstraintGrammar
import TerraformLs.ExpressionWalks
import TerraformLs.JoinedCalls
import TerraformLs.NewerVersions
import TerraformLs.ProcedureAnswers
import TerraformLs.Hygiene
import TerraformLs.UnknownReasons
import TerraformLs.SemanticTokens
import TerraformLs.NestedReferences
import TerraformLs.Congruence
import TerraformLs.CongruentVerdicts
import TerraformLs.Parentheses
import TerraformLs.LocalDefinitions
import TerraformLs.BoundedLoops
import TerraformLs.ByteText
import TerraformLs.TextFrames
import TerraformLs.CursorScanners
import TerraformLs.CursorContexts
import TerraformLs.CursorReferences
import TerraformLs.CursorPanics
import TerraformLs.CursorClassification
import TerraformLs.SensitiveOutputs
import TerraformLs.PathTrees
import TerraformLs.TfvarsAttribution
import TerraformLs.LineBreaks
import TerraformLs.RopeLines
import TerraformLs.CompletionWindow
import TerraformLs.FormatEdits
import TerraformLs.LexicalStates
import TerraformLs.ScannerAgreement
import TerraformLs.TextTrees
import TerraformLs.ConcreteSyntax
import TerraformLs.LookupRewrites
import TerraformLs.InterpolationUnwraps
import TerraformLs.PartialRuns
import TerraformLs.BodyTrees
import TerraformLs.AttributeInsertion
import TerraformLs.FirstReports
import TerraformLs.SchemaValidation
import TerraformLs.Comparators
import TerraformLs.ProviderDedupe
import TerraformLs.TagLookups
import TerraformLs.VersionAgreement
import TerraformLs.OutputSegments
import TerraformLs.SourceLiterals
import TerraformLs.ShallowClones
import TerraformLs.Occurrences
import TerraformLs.ProviderReferences
import TerraformLs.RuleFlags
import TerraformLs.Scopes
import TerraformLs.MetaArguments
import TerraformLs.InstalledModules
import TerraformLs.BodyCursors
import TerraformLs.SchemaPaths
import TerraformLs.LeftOut
import TerraformLs.DynamicBlocks
import TerraformLs.OnTypeFormatting
import TerraformLs.TrailingComments
import TerraformLs.PinEdits
import TerraformLs.LexicalTrees
import TerraformLs.CommentSyntax
import TerraformLs.WorkflowCommands
import TerraformLs.FoldingRanges
import TerraformLs.Timelines
import TerraformLs.LockCache
import TerraformLs.DocumentAnswers
import TerraformLs.ProviderSchemas
import TerraformLs.ValueTypes
import TerraformLs.PlainShapes
import TerraformLs.DefaultTypes
import TerraformLs.RegistryDocs
import TerraformLs.SchemaInstalls
import TerraformLs.BodyCompletions
import TerraformLs.LockPoller
import TerraformLs.DuplicateKeys
import TerraformLs.DuplicateDefinitions
