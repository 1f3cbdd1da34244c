import Onelf.Lib.Bytes
import Onelf.Lib.Text
import Onelf.Lib.Utf8
import Onelf.Lib.Str
import Onelf.Lib.SortedMap
import Onelf.Lib.Checks
import Onelf.Lib.Checked
import Onelf.Lib.Codec
import Onelf.Lib.Worklist
import Onelf.Format.Selection
import Onelf.Format.Decision
import Onelf.Format.Resolve
import Onelf.Format.Rules
import Onelf.Format.Metadata.Wire
import Onelf.Format.Metadata.RuntimeRules
import Onelf.Format.Metadata.EntrypointSets
import Onelf.Format.Metadata.Backing
import Onelf.Runtime.HostEnv
import Onelf.Payloads.Exec
import Onelf.Payloads.Restoration
import Onelf.Lib.Image
import Onelf.Runtime.Package
import Onelf.Runtime.Update.Delta
import Onelf.Runtime.Update.Assembly
import Onelf.Lib.Chunks
import Onelf.Runtime.Loader
import Onelf.Runtime.Fuse.BlockCache
import Onelf.Runtime.Fuse.Prefetch
import Onelf.Runtime.Fuse.Server
import Onelf.Runtime.Fuse.Sound
import Onelf.Runtime.Fuse.Reads
import Onelf.Runtime.Fuse.Agreement
import Onelf.Runtime.ViewEnv
import Onelf.Payloads.RuntimeEnv
import Onelf.Payloads.ViewRecord
import Onelf.Lib.Delimited
import Onelf.Lib.Replace
import Onelf.Runtime.View.Identity
import Onelf.Runtime.View.Record
import Onelf.Runtime.View.Recorded
import Onelf.Runtime.View.ReadBack
import Onelf.Cli.Verify
import Onelf.Cli.Artifact
import Onelf.Lib.Path
import Onelf.Lib.Processes
import Onelf.Lib.Flock
import Onelf.Format.Manifest
import Onelf.Format.StringTable
import Onelf.Format.ProviderIndex
import Onelf.Format.Footer
import Onelf.Format.Reader
import Onelf.Format.RoundTrip
import Onelf.Cli.Pack.Collect
import Onelf.Cli.Pack.Payload
import Onelf.Cli.Pack.Decodes
import Onelf.Cli.Pack.Assemble
import Onelf.Cli.Pack.Entries
import Onelf.Format.EntryPaths
import Onelf.Cli.Pack.Paths
import Onelf.Cli.Pack.Walk
import Onelf.Cli.Pack.Inject
import Onelf.Cli.Pack.Shipped
import Onelf.Cli.Pack.Packed
import Onelf.Cli.Pack.Describes
import Onelf.Cli.Pack.Loads
import Onelf.Runtime.Multicall
import Onelf.Cli.Pack.Launch
import Onelf.Runtime.Cache.Extraction
import Onelf.Runtime.Cache.Pinned
import Onelf.Runtime.Mountpoints.Directory
import Onelf.Runtime.Mountpoints.Locks
import Onelf.Runtime.Mountpoints.Claimed
import Onelf.Runtime.Mountpoints.Joined
import Onelf.Runtime.Sets
import Onelf.Cli.Build.Exports
import Onelf.Cli.Build.SetTable
import Onelf.Cli.Build.Selections
import Onelf.Cli.Build.Metadata
import Onelf.Cli.Build.Acquired
import Onelf.Cli.Pack.Opened
import Onelf.Cli.Build.Published
import Onelf.Lib.References
import Onelf.Lib.LastWrite
import Onelf.Lib.Ascii
import Onelf.Runtime.CustomEnv
import Onelf.Payloads.CustomEnv
import Onelf.Payloads.EnvAgreement
import Onelf.Runtime.EnvTwice
import Onelf.Lib.PartitionPoint
import Onelf.Format.Verdef
import Onelf.Format.VersionChain
import Onelf.Format.VersionNames
import Onelf.Runtime.Update.Fetch
import Onelf.Runtime.Update.Stipple
import Onelf.Runtime.Update.StippleCover
import Onelf.Lib.FileTree
import Onelf.Cli.Cache.Clear
import Onelf.Cli.Cache.Spared
import Onelf.Lib.FirstChoice
import Onelf.Runtime.PathGroups
import Onelf.Lib.Unanimity
import Onelf.Runtime.Collisions
import Onelf.Runtime.LinkPipe
import Onelf.Runtime.Vulkan
import Onelf.Sysroot.Database
import Onelf.Sysroot.Closure
import Onelf.Lib.PathWalk
import Onelf.Lib.PathText
import Onelf.Sysroot.Path
import Onelf.Lib.Effects
import Onelf.Lib.FileSystem
import Onelf.Format.SafePaths
import Onelf.Lib.Confined
import Onelf.Format.ExtractedTree
import Onelf.Runtime.Extract
import Onelf.Runtime.ExtractToCas
import Onelf.Cli.Extract
import Onelf.Lib.Containment
import Onelf.Cli.Contained
import Onelf.Lib.Rows
import Onelf.Cli.Bundle.Elf
import Onelf.Cli.Bundle.Injected
import Onelf.Runtime.Update.Install
import Onelf.Lib.Escapes
import Onelf.Format.Desktop.Exec
import Onelf.Format.Desktop.Patch
import Onelf.Format.Desktop.Repatched
import Onelf.Lib.Words
import Onelf.Runtime.Ulexec.Stack
import Onelf.Cli.Pack.Tiled
import Onelf.Cli.Pack.Respelled
import Onelf.Lib.Relative
import Onelf.Cli.Bundle.RunPath
import Onelf.Cli.Bundle.SearchOrder
import Onelf.Lib.Saturation
import Onelf.Sysroot.Prune
import Onelf.Cli.Bundle.TraceLoop
import Onelf.Lib.Paging
import Onelf.Lib.Segments
import Onelf.Payloads.MapInterp
import Onelf.Runtime.Ulexec.Load
import Onelf.Format.HostNeeds
import Onelf.Format.ProviderCodec
import Onelf.Cli.Build.PinRecord
import Onelf.Cli.Bundle.Traced
import Onelf.Cli.Bundle.Ledger
import Onelf.Cli.Bundle.Candidates
import Onelf.Lib.TreeWalk
import Onelf.Cli.Bundle.TreeHash
import Onelf.Lib.Claims
import Onelf.Cli.Bundle.Plan
import Onelf.Cli.Bundle.Planned
import Onelf.Lib.NaturalOrder
import Onelf.Runtime.Snippets
import Onelf.Runtime.Fuse.Balanced
import Onelf.Format.Catalog
import Onelf.Cli.Bundle.Activate
import Onelf.Cli.Bundle.Mirrored
import Onelf.Format.LoaderCache
import Onelf.Cli.Pack.DeclaredEnv
import Onelf.Cli.Integrate
import Onelf.Runtime.LoweredRules
import Onelf.Lib.Folder
import Onelf.Runtime.Update.Staged
import Onelf.Format.Served
import Onelf.Lib.Pieces
import Onelf.Cli.Bundle.ModuleCache
import Onelf.Lib.Guards
import Onelf.Runtime.View.Store
import Onelf.Runtime.View.Leased
import Onelf.Lib.Listing
import Onelf.Runtime.Fuse.Tree
import Onelf.Runtime.Fuse.Beside
import Onelf.Runtime.Fuse.Rows
import Onelf.Runtime.Fuse.Wire
import Onelf.Runtime.Fuse.Handed
import Onelf.Runtime.Fuse.Mounted
import Onelf.Runtime.Fuse.Coherent
import Onelf.Cli.Pack.Mounted
