import CasKit.Gc
import CasKit.Puts
import CasKit.Verified
import CasKit.Calls
import CasKit.Crash
import CasKit.Exact
import CasKit.Copies
import CasKit.Marking
import CasKit.Repacking
import CasKit.Torn
import CasKit.Addressable
import CasKit.Session
import CasKit.Dedup
import CasKit.Reput
import CasKit.Partial
import CasKit.TornIndex
import CasKit.Accounting
import CasKit.Transparent
import CasKit.Failing
import CasKit.Lib.Pool
import CasKit.Threads
import CasKit.Readers
import CasKit.Sharing
import CasKit.Chunking
import CasKit.RoundTrip
import CasKit.HexParser
import CasKit.Lib.TextLines
import CasKit.Roots
import CasKit.Lib.Recency
import CasKit.BlobCache
import CasKit.CacheThreads
import CasKit.Partition
import CasKit.Lib.Lockstep
import CasKit.Trash
import CasKit.Modes
import CasKit.SweepReads
import CasKit.Stocked
import CasKit.Lib.History
import CasKit.Lasting
import CasKit.Salvage
import CasKit.Lib.Json
import CasKit.Lib.Tiers
import CasKit.Refinement
import CasKit.CasGc
import CasKit.Reports
import CasKit.Counting
import CasKit.Wording
import CasKit.Lib.Lock
import CasKit.Interleaving
