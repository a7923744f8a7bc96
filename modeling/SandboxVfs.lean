import SandboxVfs.Library.NameGraph
import SandboxVfs.Memory
import SandboxVfs.MemorySteps
import SandboxVfs.MemoryOps
import SandboxVfs.MemoryPaths
import SandboxVfs.LinuxDirents
import SandboxVfs.Overlay
import SandboxVfs.RootVfs
import SandboxVfs.Vfs
import SandboxVfs.WorldSteps
import SandboxVfs.BackendSteps
import SandboxVfs.Library.Runs
import SandboxVfs.VfsSteps
import SandboxVfs.NamespaceTree
import SandboxVfs.NamespaceView
import SandboxVfs.ReadOnlyLayers
import SandboxVfs.Library.LayeredNames
import SandboxVfs.OverlayVisibility
import SandboxVfs.BaseDirectory
import SandboxVfs.ListingBounds
import SandboxVfs.Library.Scans
import SandboxVfs.DirectoryScans
import SandboxVfs.HandleListings
import SandboxVfs.OverlayListings
import SandboxVfs.Orphans
import SandboxVfs.OverlayWrites
import SandboxVfs.OverlayOpens
import SandboxVfs.OverlayTree
import SandboxVfs.Mounts
import SandboxVfs.MountedRenames
import SandboxVfs.BindFs
import SandboxVfs.HostPaths
import SandboxVfs.HostCalls
import SandboxVfs.Interleavings
import SandboxVfs.WholeTrees
import SandboxVfs.InterleavedCalls
import SandboxVfs.MemoryCalls
import SandboxVfs.Renames
import SandboxVfs.Creations
import SandboxVfs.Library.Acyclic
import SandboxVfs.RelativeLookups
import SandboxVfs.InodeRecords
import SandboxVfs.Library.Ledgers
import SandboxVfs.SharedOffsets
import SandboxVfs.Library.LastSteps
import SandboxVfs.HookedCalls
import SandboxVfs.Processes
import SandboxVfs.TableLocks
import SandboxVfs.DescriptorOwners
import SandboxVfs.HandleRoutes
import SandboxVfs.PathDispatch
import SandboxVfs.MergedListings
import SandboxVfs.OverlayCreations
import SandboxVfs.Library.ByteBuffers
import SandboxVfs.DirentBytes
import SandboxVfs.ChunkedReads
import SandboxVfs.RecordLengths
import SandboxVfs.HostTree
import SandboxVfs.MaterializedDirs
import SandboxVfs.HookedRemovals
import SandboxVfs.MaterializedCleanups
import SandboxVfs.BackingFiles
import SandboxVfs.Library.Simulations
import SandboxVfs.FileContents
import SandboxVfs.ProgramRuns
import SandboxVfs.Library.FileTrees
import SandboxVfs.TreeBackends
import SandboxVfs.AlikeBackends
import SandboxVfs.AlikeRuns
import SandboxVfs.MemoryTrees
import SandboxVfs.TreeRuns
import SandboxVfs.Library.LockedPrograms
import SandboxVfs.LockOrder
import SandboxVfs.PathEdits
import SandboxVfs.ShorterListings
