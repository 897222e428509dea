import GDrive.Interaction.Code
import GDrive.Interaction.Program
import GDrive.Interaction.History
import GDrive.Interaction.Refinement
import GDrive.Base.Str
import GDrive.Upload.Range
import GDrive.Upload.RangeGrammar
import GDrive.Upload.Plan
import GDrive.Client.Errors
import GDrive.Client.Meta
import GDrive.Client.Wire
import GDrive.Client.Retry
import GDrive.Client.Resend
import GDrive.Client.Session
import GDrive.Client.Client
import GDrive.Write.Handle
import GDrive.Write.Lifecycle
import GDrive.Write.Server
import GDrive.Write.Requests
import GDrive.Write.Calls
import GDrive.Write.Fidelity
import GDrive.Base.Path
import GDrive.Fs.Uri
import GDrive.Base.Table
import GDrive.Fs.PathCache
import GDrive.Fs.GlobPattern
import GDrive.Fs.Resolve
import GDrive.Read.BlockCache
import GDrive.Read.Reader
import GDrive.Read.Content
import GDrive.Fs.Glob
import GDrive.Fs.Tree
import GDrive.Fs.Coherence
import GDrive.Fs.ParentWalk
import GDrive.Rewriting.Pass
import GDrive.Client.Redact
import GDrive.Auth.Identity
import GDrive.Read.BlockThreads
import GDrive.Fs.MetadataThreads
import GDrive.Fs.Reads
import GDrive.Fs.Served
import GDrive.Fs.Move
import GDrive.Fs.MoveFailure
import GDrive.Fs.GlobMatch
import GDrive.Fs.Listing
import GDrive.Fs.GlobRun
import GDrive.Fs.GlobExact
import GDrive.Fs.GlobAddress
import GDrive.Rewriting.Hole
import GDrive.Fs.GlobSegment
import GDrive.Client.SessionEnds
import GDrive.Write.Conformance
import GDrive.Write.Honesty
import GDrive.Fs.EnsureParents
import GDrive.Auth.TokenStorm
import GDrive.Auth.TokenPolicy
import GDrive.Fs.SlashRuns
import GDrive.Fs.Survival
import GDrive.Fs.SiblingNames
import GDrive.Fs.Lookups
import GDrive.Fs.Removal
import GDrive.Fs.Growth
import GDrive.Fs.FolderWalk
import GDrive.Fs.OpenFiles
import GDrive.Fs.OpenWrites
import GDrive.Fs.OpenRun
import GDrive.Fs.ReadYourWrites
import GDrive.Fs.Service
import GDrive.Fs.ServiceCalls
import GDrive.Fs.ServiceSessions
import GDrive.Fs.Transparency
import GDrive.Recency.Lru
import GDrive.Fs.PathRecency
import GDrive.Fs.Invalidation
import GDrive.Fs.CacheGauge
import GDrive.Fs.ImmutablePrefix
import GDrive.Client.RetryAfter
import GDrive.Coding.Spelling
import GDrive.Coding.Url
import GDrive.Client.QueryText
import GDrive.Coding.Json
import GDrive.Client.MetadataText
import GDrive.Coding.Base64
import GDrive.Auth.Assertion
import GDrive.Client.Picojson
import GDrive.Coding.Multipart
import GDrive.Client.RequestText
import GDrive.Fs.Pagination
import GDrive.Read.StoredBlock
import GDrive.Read.BlockCapacity
import GDrive.Fs.Shared
import GDrive.Fs.Evidence
import GDrive.Fs.Freshness
import GDrive.Client.Secrecy
import GDrive.Interaction.Pool
import GDrive.Auth.TokenRequests
import GDrive.Auth.Credentials
import GDrive.Auth.Mint
import GDrive.Auth.Sources
import GDrive.Auth.Process
import GDrive.Auth.Provenance
import GDrive.Auth.Custody
import GDrive.Auth.Resolution
import GDrive.Auth.Isolation
