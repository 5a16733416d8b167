import Chbk.Lib.Bytes
import Chbk.Lib.Calendar
import Chbk.Lib.Codec
import Chbk.Lib.Fields
import Chbk.Lib.Groups
import Chbk.Lib.Growth
import Chbk.Lib.Hoare
import Chbk.Lib.Layer
import Chbk.Lib.Numerals
import Chbk.Lib.Outcome
import Chbk.Lib.Pool
import Chbk.Lib.Prog
import Chbk.Lib.Quoting
import Chbk.Lib.Run
import Chbk.Lib.Sharing
import Chbk.Lib.Sweep
import Chbk.Lib.Team
import Chbk.Lib.Tiers
import Chbk.Model.Clickhouse
import Chbk.Model.Collect
import Chbk.Model.Duration
import Chbk.Model.ExtractZip
import Chbk.Model.Extraction
import Chbk.Model.Gc
import Chbk.Model.Heartbeat
import Chbk.Model.Lock
import Chbk.Model.Main
import Chbk.Model.Manifest
import Chbk.Model.Paging
import Chbk.Model.PartZip
import Chbk.Model.Pipeline
import Chbk.Model.Prefix
import Chbk.Model.Restore
import Chbk.Model.Shared
import Chbk.Model.Snapshots
import Chbk.Model.Staging
import Chbk.Model.Storage
import Chbk.Model.Text
import Chbk.Model.Tui
import Chbk.Model.World
import Chbk.Safety.Accuracy
import Chbk.Safety.Answers
import Chbk.Safety.Archive
import Chbk.Safety.Backup
import Chbk.Safety.Bucket
import Chbk.Safety.Bulk
import Chbk.Safety.Catalog
import Chbk.Safety.Cleanup
import Chbk.Safety.Collector
import Chbk.Safety.Commands
import Chbk.Safety.Committed
import Chbk.Safety.Directory
import Chbk.Safety.Economy
import Chbk.Safety.Exclusion
import Chbk.Safety.Fencing
import Chbk.Safety.Filter
import Chbk.Safety.Fleet
import Chbk.Safety.Grace
import Chbk.Safety.Hashes
import Chbk.Safety.Heartbeat
import Chbk.Safety.History
import Chbk.Safety.Latest
import Chbk.Safety.Ledger
import Chbk.Safety.Limits
import Chbk.Safety.Listing
import Chbk.Safety.Multipart
import Chbk.Safety.Names
import Chbk.Safety.Orphans
import Chbk.Safety.Overlap
import Chbk.Safety.Paging
import Chbk.Safety.PartPaths
import Chbk.Safety.Paths
import Chbk.Safety.Progress
import Chbk.Safety.Prune
import Chbk.Safety.Quoting
import Chbk.Safety.Reading
import Chbk.Safety.Release
import Chbk.Safety.Removal
import Chbk.Safety.Replicas
import Chbk.Safety.Requests
import Chbk.Safety.Restore
import Chbk.Safety.Restored
import Chbk.Safety.Retention
import Chbk.Safety.Schedule
import Chbk.Safety.Selection
import Chbk.Safety.Sequential
import Chbk.Safety.Served
import Chbk.Safety.Shared
import Chbk.Safety.Shown
import Chbk.Safety.Snapshot
import Chbk.Safety.Staging
import Chbk.Safety.Tenants
import Chbk.Safety.Upload
import Chbk.Safety.Uploads
import Chbk.Safety.Whole
import Chbk.Safety.Wrapping
import Chbk.Zip.Accepted
import Chbk.Zip.Calls
import Chbk.Zip.Central
import Chbk.Zip.Directory
import Chbk.Zip.Entries
import Chbk.Zip.Hostile
import Chbk.Zip.Layout
import Chbk.Zip.Names
import Chbk.Zip.RoundTrip
import Chbk.Zip.Shares
import Chbk.Zip.Sizes
import Chbk.Zip.Tree
import Chbk.Zip.Truncation
