import Rebuild.Artifact.ClassFile
import Rebuild.Artifact.ConstantPool
import Rebuild.Artifact.Error
import Rebuild.Artifact.Reader
import Rebuild.Artifact.Reference
import Rebuild.Artifact.Writer
import Rebuild.Ascending
import Rebuild.Build.Compiler
import Rebuild.Build.Diagnostic
import Rebuild.Build.LineCompiler
import Rebuild.Build.Options
import Rebuild.Build.Order
import Rebuild.Build.Queue
import Rebuild.Build.Scheduler
import Rebuild.Build.ScriptedCompiler
import Rebuild.Build.Session
import Rebuild.Build.SyntaxTrees
import Rebuild.Classpath
import Rebuild.Declaration.Basic
import Rebuild.Declaration.Scope
import Rebuild.Declaration.Table
import Rebuild.Deflate.Code
import Rebuild.Deflate.Size
import Rebuild.Deflate.Token
import Rebuild.Dependency.Cache
import Rebuild.Dependency.Reference
import Rebuild.Dependency.Shape
import Rebuild.Descriptor
import Rebuild.Dict
import Rebuild.FileId
import Rebuild.FileTree.Basic
import Rebuild.FileTree.Edit
import Rebuild.Finder
import Rebuild.Manifest.Basic
import Rebuild.Manifest.Level
import Rebuild.Manifest.Logging
import Rebuild.Manifest.Reader
import Rebuild.Name
import Rebuild.Path
import Rebuild.Proofs.Artifact.Pools
import Rebuild.Proofs.Artifact.Reading
import Rebuild.Proofs.Artifact.RoundTrip
import Rebuild.Proofs.Artifact.Size
import Rebuild.Proofs.Ascending
import Rebuild.Proofs.Build.Blocks
import Rebuild.Proofs.Build.Cycles
import Rebuild.Proofs.Build.Deletion
import Rebuild.Proofs.Build.Descent
import Rebuild.Proofs.Build.Diagnostics
import Rebuild.Proofs.Build.Effects
import Rebuild.Proofs.Build.Emission
import Rebuild.Proofs.Build.Heights
import Rebuild.Proofs.Build.History
import Rebuild.Proofs.Build.Order
import Rebuild.Proofs.Build.Ownership
import Rebuild.Proofs.Build.Propagation
import Rebuild.Proofs.Build.Queue
import Rebuild.Proofs.Build.Rebuilding
import Rebuild.Proofs.Build.Records
import Rebuild.Proofs.Build.Removal
import Rebuild.Proofs.Build.Replay
import Rebuild.Proofs.Build.Retention
import Rebuild.Proofs.Build.Retries
import Rebuild.Proofs.Build.Settlement
import Rebuild.Proofs.Build.ShortestCycles
import Rebuild.Proofs.Build.Soundness
import Rebuild.Proofs.Build.Termination
import Rebuild.Proofs.Build.Trees
import Rebuild.Proofs.Classpath
import Rebuild.Proofs.Declaration.Answers
import Rebuild.Proofs.Declaration.Brackets
import Rebuild.Proofs.Declaration.Calls
import Rebuild.Proofs.Declaration.Canonical
import Rebuild.Proofs.Declaration.Eviction
import Rebuild.Proofs.Declaration.Inheritance
import Rebuild.Proofs.Declaration.Interning
import Rebuild.Proofs.Declaration.Kinds
import Rebuild.Proofs.Declaration.Lookups
import Rebuild.Proofs.Declaration.Repetition
import Rebuild.Proofs.Declaration.Search
import Rebuild.Proofs.Declaration.Spelling
import Rebuild.Proofs.Declaration.Stores
import Rebuild.Proofs.Dependency.Completeness
import Rebuild.Proofs.Dependency.Consistency
import Rebuild.Proofs.Dependency.Edges
import Rebuild.Proofs.Dependency.Isolation
import Rebuild.Proofs.Dependency.Provenance
import Rebuild.Proofs.Dependency.Repetition
import Rebuild.Proofs.Dependency.Shapes
import Rebuild.Proofs.Dependency.Update
import Rebuild.Proofs.Descriptor
import Rebuild.Proofs.FileTree.Agreement
import Rebuild.Proofs.FileTree.Alike
import Rebuild.Proofs.FileTree.Edits
import Rebuild.Proofs.FileTree.Places
import Rebuild.Proofs.Signature.Parts
import Rebuild.Proofs.Text.Parsing
import Rebuild.Proofs.Text.Utf8
import Rebuild.Proofs.Workspace.Artifacts
import Rebuild.Proofs.Workspace.Coherence
import Rebuild.Proofs.Workspace.Construction
import Rebuild.Proofs.Workspace.Growth
import Rebuild.Proofs.Workspace.Reach
import Rebuild.Signature.Basic
import Rebuild.Signature.Parser
import Rebuild.Signature.Printer
import Rebuild.Signature.Tree
import Rebuild.Text.Alphanumeric
import Rebuild.Text.Basic
import Rebuild.Text.ModifiedUtf8
import Rebuild.Text.Parser
import Rebuild.Text.Split
import Rebuild.Text.Utf8
import Rebuild.Toml.Date
import Rebuild.Toml.Number
import Rebuild.Toml.Parser
import Rebuild.Toml.Quoted
import Rebuild.Toml.Table
import Rebuild.Toml.Value
import Rebuild.Workspace.Basic
import Rebuild.Workspace.FileRegistry
import Rebuild.Workspace.Project
import Rebuild.Workspace.Sources
import Rebuild.Proofs.Signature.Spellings
import Rebuild.Proofs.Signature.Acceptance
import Rebuild.Proofs.Signature.Reading
import Rebuild.Proofs.Signature.Descriptors
import Rebuild.Proofs.Text.ModifiedUtf8
import Rebuild.Proofs.Artifact.References
import Rebuild.Proofs.Artifact.Outcomes
import Rebuild.Proofs.Artifact.Bodies
import Rebuild.Proofs.Artifact.Faults
import Rebuild.Proofs.Nesting
import Rebuild.Proofs.Workspace.Preorder
import Rebuild.Proofs.Artifact.Symbols
import Rebuild.Proofs.Artifact.Uses
import Rebuild.Proofs.FileTree.Names
import Rebuild.Proofs.Workspace.SourceNames
import Rebuild.Proofs.Workspace.Deduplication
import Rebuild.Proofs.Classpath.Snapshots
import Rebuild.Proofs.FileTree.Walks
import Rebuild.Proofs.Classpath.Fingerprint
import Rebuild.Proofs.Workspace.ArtifactLookup
import Rebuild.Proofs.Build.Staleness
import Rebuild.Proofs.Build.SyntaxTrees
import Rebuild.Proofs.Artifact.PoolIndices
import Rebuild.Proofs.Workspace.Numbering
