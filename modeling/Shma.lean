import Shma.PageTable.LongModeRefine
import Shma.PageTable.PaeRefine
import Shma.PageTable.ReversedCaching
import Shma.Walker.BufferPressure
import Shma.Walker.FrameUniqueness
import Shma.PageTable.ReversedInverse
import Shma.Walker.DirtyTracking
import Shma.Cache.FilterSound
import Shma.Cache.FlushRuns
import Shma.Nvmain.FlatExchange
import Shma.Tlb.Recency
import Shma.Walker.Shootdown
import Shma.Walker.Redirect
import Shma.Walker.SharedSearch
import Shma.Mmu.ZoneConfig
import Shma.Nvmain.HierDRAMCacheWrites
import Shma.Nvmain.CacheAssocRuns
import Shma.PageTable.ReversedWrapper
import Shma.PageTable.PaeCount
import Shma.Nvmain.MigrateThreshold
import Shma.Nvmain.AccessThreshold
import Shma.Nvmain.FlatRoundTrip
import Shma.PageTable.Ranges
import Shma.Mmu.PerCpuPages
import Shma.Nvmain.TranslatorCache
import Shma.Nvmain.FlatKeys
import Shma.Nvmain.VictimRotation
import Shma.Nvmain.SecondChance
import Shma.Nvmain.CommonMigrator
import Shma.Nvmain.VictimSearch
import Shma.Nvmain.Checkpoint
import Shma.Common.TrieRefine
import Shma.Walker.PageTransfer
import Shma.Nvmain.RejectedWrites
import Shma.Nvmain.RefusedRequests
import Shma.Nvmain.FineNVMain
import Shma.Cache.Lookahead
import Shma.Cache.UMon
import Shma.Mmu.Fragmentation
import Shma.Core.ReorderBuffer
