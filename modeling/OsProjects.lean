import OsProjects.LinkedChain
import OsProjects.ProxyQueue
import OsProjects.ProxyWakeups
import OsProjects.Ownership
import OsProjects.ProxyServer
import OsProjects.Tokens
import OsProjects.ProxyRequests
import OsProjects.ProxyHeaders
import OsProjects.Word32
import OsProjects.MmapTable
import OsProjects.MmapTracking
import OsProjects.MmapPlacement
import OsProjects.ByteMemory
import OsProjects.CStrings
import OsProjects.LastCat
import OsProjects.Runs
import OsProjects.ProxyCrashes
import OsProjects.LastCatCopies
import OsProjects.PageCache
import OsProjects.PageCoherence
import OsProjects.PageSteps
import OsProjects.PageLocks
import OsProjects.FrameLedger
import OsProjects.PrivatePages
import OsProjects.MmapFrames
import OsProjects.MmapGuards
import OsProjects.MmapIndices
import OsProjects.MmapRanges
import OsProjects.MmapSafety
import OsProjects.MmapResidue
import OsProjects.FileRefs
import OsProjects.MmapReuse
import OsProjects.MmapExit
import OsProjects.MmapMemory
import OsProjects.MmapFaults
import OsProjects.MmapProgress
import OsProjects.MmapFills
import OsProjects.MmapFork
import OsProjects.MmapOrder
import OsProjects.MmapOffsets
import OsProjects.MmapPositions
import OsProjects.PageTables
import OsProjects.ForkFailure
import OsProjects.CopyMaps
import OsProjects.MmapIsolation
import OsProjects.WfsLookup
import OsProjects.WfsHandlers
import OsProjects.WfsLog
import OsProjects.WfsPaths
import OsProjects.WfsAppend
import OsProjects.WfsChange
import OsProjects.WfsDentries
import OsProjects.WfsRuns
import OsProjects.WfsSpace
import OsProjects.WfsNames
import OsProjects.WfsInodes
import OsProjects.WfsCompaction
import OsProjects.DirectoryTree
import OsProjects.WfsTree
import OsProjects.WfsModels
import OsProjects.WfsRefinement
import OsProjects.WfsScan
import OsProjects.WfsRemount
import OsProjects.WfsResolution
import OsProjects.WfsCreation
import OsProjects.WfsFrame
import OsProjects.SchedKernel
import OsProjects.SchedPriority
import OsProjects.SchedSteps
import OsProjects.SchedAccounts
import OsProjects.SchedBatch
import OsProjects.SchedDecay
import OsProjects.SchedWakeup
import OsProjects.SchedSleep
import OsProjects.WshModes
import OsProjects.WshJobs
import OsProjects.WshIds
import OsProjects.WshListing
import OsProjects.WshPipes
import OsProjects.WshParsing
import OsProjects.Lines
import OsProjects.WgroffMarks
import OsProjects.Wgroff
import OsProjects.WgroffLines
import OsProjects.WgroffColumns
import OsProjects.Wapropos
import OsProjects.WordArrays
import OsProjects.RedoLog
import OsProjects.AtomicStore
import OsProjects.DiskLog
import OsProjects.LogSpace
import OsProjects.LockedCells
import OsProjects.BufferCache
import OsProjects.BitMaps
import OsProjects.DiskBlocks
import OsProjects.DiskInodes
import OsProjects.FileBlocks
import OsProjects.FileContents
import OsProjects.FileStore
import OsProjects.DiskSpace
import OsProjects.Programs
import OsProjects.FileMachine
import OsProjects.Directories
import OsProjects.PathNames
import OsProjects.NameTrees
import OsProjects.NamedFiles
import OsProjects.LinkCounts
import OsProjects.NamePaths
import OsProjects.SystemRuns
