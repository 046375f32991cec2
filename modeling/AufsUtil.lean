import AufsUtil.Lib.SearchTree
import AufsUtil.Lib.CStr
import AufsUtil.Lib.Memory
import AufsUtil.Lib.Block
import AufsUtil.Lib.SortSearch
import AufsUtil.Lib.Runs
import AufsUtil.Lib.Parties
import AufsUtil.Lib.Keyed
import AufsUtil.Lib.FdTable
import AufsUtil.Lib.Octal
import AufsUtil.Lib.Substring
import AufsUtil.Lib.Getopt
import AufsUtil.Lib.Regex
import AufsUtil.Lib.Bitmap
import AufsUtil.Lib.Union
import AufsUtil.Lib.Shell
import AufsUtil.Rdu.Merge
import AufsUtil.Rdu.UnionView
import AufsUtil.Rdu.Compact
import AufsUtil.Rdu.Collect
import AufsUtil.Rdu.Interleave
import AufsUtil.Rdu.Readdir
import AufsUtil.Rdu.MixedReads
import AufsUtil.Rdu.Recycle
import AufsUtil.Rdu.EndOfDirectory
import AufsUtil.Rdu.Buffer
import AufsUtil.Plink.Nftw
import AufsUtil.Plink.Prune
import AufsUtil.Plink.Flush
import AufsUtil.Plink.Blocks
import AufsUtil.Fhsm.Table
import AufsUtil.Fhsm.Signature
import AufsUtil.Fhsm.Watermark
import AufsUtil.Fhsm.Resize
import AufsUtil.Fhsm.Rerun
import AufsUtil.Fhsm.Options
import AufsUtil.Fhsm.Control
import AufsUtil.Fhsm.TableRuns
import AufsUtil.Fhsm.List
import AufsUtil.Fhsm.Drain
import AufsUtil.Fhsm.Lister
import AufsUtil.Fhsm.Rollback
import AufsUtil.Fhsm.Descriptors
import AufsUtil.Fhsm.Mvdown
import AufsUtil.Fhsm.LowerBranch
import AufsUtil.Fhsm.Turnover
import AufsUtil.Fhsm.Statistics
import AufsUtil.Fhsm.Daemon
import AufsUtil.Fhsm.Reload
import AufsUtil.Fhsm.Notify
import AufsUtil.Fhsm.Children
import AufsUtil.Fhsm.Served
import AufsUtil.Fhsm.StopRequest
import AufsUtil.Fhsm.Numerals
import AufsUtil.Fhsm.ShmName
import AufsUtil.Fhsm.Publish.Model
import AufsUtil.Fhsm.Publish.Invariant
import AufsUtil.Fhsm.Publish.Serial
import AufsUtil.Fhsm.Publish.Name
import AufsUtil.Fhsm.Publish.Missed
import AufsUtil.Mtab.Machine
import AufsUtil.Mtab.Ownership
import AufsUtil.Mtab.Serial
import AufsUtil.Mtab.Rewrite
import AufsUtil.Mount.Escape
import AufsUtil.Mount.Vectors
import AufsUtil.Mount.Flush
import AufsUtil.Mount.Maintenance
import AufsUtil.Mount.FindMnt
import AufsUtil.Libau.TestFunc
import AufsUtil.Libau.Pathconf
import AufsUtil.Tools.Auibusy
import AufsUtil.Tools.Aubusy
import AufsUtil.Tools.Aumvdown
import AufsUtil.Tools.Aubrsync
import AufsUtil.Tools.Move
import AufsUtil.Tools.Auchk
import AufsUtil.Uloop.Driver
import AufsUtil.Uloop.Flat
import AufsUtil.Uloop.Restore
import AufsUtil.Uloop.Sizes
import AufsUtil.Uloop.Requests
import AufsUtil.Uloop.Coherence
import AufsUtil.Uloop.Custody
import AufsUtil.Uloop.Progress
