import Chbk.Model.Clickhouse
import Chbk.Model.Lock
import Chbk.Model.Manifest

/-!
# `gc.rs`

The three cleanup commands under the GC lock.

* `gcAllBlobs` — delete blobs no manifest refers to, but for young ones.
* `gcSnapshot` — delete one manifest, then the blobs only it had.
* `pruneOldLiveSnapshots` — delete old `live_` manifests, then the blobs only
  they had.

The heartbeat runs beside a command; the command sees of it whether the lock is
lost (`EnvOp.lockLost`). A lost lock may end the work at any of its calls. Of the
printed lines the targets of a dry run are kept.
-/

namespace Chbk

open Lib

def LOCK_LOST_MSG : String :=
  "GC lock lost mid-operation — aborted to prevent races with another GC instance"

def bailIfLockLost : P Unit := do
  if ← askEnv .lockLost then throw [LOCK_LOST_MSG]

/-- Work that is dropped, at one of its calls, when the lock is lost. -/
def raceLockLost {α : Type} : P α → P α
  | .done a => .done a
  | .fail e => .fail e
  | .call op k => do
    if ← askEnv .lockLost then throw [LOCK_LOST_MSG]
    .call op fun r => raceLockLost (k r)

def withGcLock (f : P Unit) : P Unit := do
  let instanceId ← askEnv .newV4
  match ← Prog.mapFail (withContext "Failed to acquire GC lock")
      (acquireWithRetry instanceId 10) with
  | none => throw ["Could not acquire GC lock - another operation may be running"]
  | some _etag =>
    let result ← Prog.attempt (raceLockLost f)
    if !(← askEnv .lockLost) then
      -- a failing release is printed and dropped
      let _ ← Prog.attempt (release instanceId)
    liftP result

/-! ## References -/

/-- The hashes of some manifests, each once. -/
def unionHashes (ms : List Manifest) : List String :=
  (ms.flatMap fun m => m.parts.map ManifestPart.blobHash).dedup

def referencedBlobHashes : P (List String) := do
  return unionHashes (← readAllManifests)

/-- `union_hashes_for_names`: all manifests are read, then the first failure, if
any, is the result. -/
def unionHashesForNames (names : List String) : P (List String) := do
  let order ← askEnv .order
  let results ← Prog.collect (fun n => Prog.attempt (readManifest n)) (reorder order names)
  return unionHashes (← Prog.collect liftP results)

/-- The hashes of `target` that are not among `other`, in some order. -/
def exclusiveHashes (target other : List String) : P (List String) := do
  let order ← askEnv .order
  return reorder order (target.filter fun h => h ∉ other)

/-- `delete_exclusive_blobs`: keys that fail to delete are printed. -/
def deleteExclusiveBlobs (exclusive : List String) : P Unit := do
  let keys ← Prog.collect keyOrPanic exclusive
  let _ ← deleteObjectsBulk keys
  return ()

/-- The blobs are deleted, or a key panics and nothing is done. -/
theorem deleteExclusiveBlobs_cases (exclusive : List String) :
    ((∀ hash ∈ exclusive, (blobShard hash).isSome = true) ∧ deleteExclusiveBlobs exclusive =
      deleteObjectsBulk (exclusive.map blobRemoteKey) >>= fun _ => pure ()) ∨
    ((∃ hash ∈ exclusive, blobShard hash = none) ∧ ∃ msg k,
      deleteExclusiveBlobs exclusive = .call (.env (.panic msg)) k) := by
  unfold deleteExclusiveBlobs
  rcases collect_keyOrPanic exclusive with ⟨hall, heq⟩ | ⟨hnone, msg, k, heq⟩
  · rw [heq]
    exact .inl ⟨hall, rfl⟩
  · rw [heq]
    exact .inr ⟨hnone, msg, _, rfl⟩

/-! ## `rm-snapshot` -/

def gcSnapshot (snapshotName : String) (dryRun : Bool) : P Unit :=
  withGcLock do
    let target ← Prog.mapFail (withContext ("Reading manifest for '" ++ snapshotName ++ "'"))
      (readManifest snapshotName)
    let allNames ← listManifestNames
    let otherHashes ← unionHashesForNames (allNames.filter fun n => n ≠ snapshotName)
    let exclusive ← exclusiveHashes (blobHashSet target) otherHashes
    if dryRun then
      printEach "Would delete manifest: " [snapshotName]
      printEach "Would delete blob: " exclusive
      return ()
    bailIfLockLost
    deleteManifest snapshotName
    if exclusive ≠ [] then
      bailIfLockLost
      deleteExclusiveBlobs exclusive

/-! ## `gc-live` -/

/-- The times `DateTime::from_timestamp` takes. -/
def inDateRange (ts : Int) : Bool := -8334601228800 ≤ ts && ts ≤ 8210266876799

/-- The UTC day a snapshot is grouped under, counted from 1970-01-01: a time out
of range counts as now, and now out of range as the first day. -/
def dayKey (currentTimestamp ts : Int) : Int :=
  if inDateRange ts then ts / 86400
  else if inDateRange currentTimestamp then currentTimestamp / 86400
  else 0

/-- `now - minutes * 60`, in `i64`. -/
def cutoffBefore (currentTimestamp : Int) (minutes : UInt64) : Int :=
  wrapI64 (currentTimestamp - wrapI64 (wrapI64 minutes.toNat * 60))

/-- Put a snapshot with the others of its day. -/
def pushDay (now : Int) (daily : List (Int × List (String × Int))) (x : String × Int) :
    List (Int × List (String × Int)) :=
  let day := dayKey now x.2
  match daily.lookup day with
  | some _ => daily.map fun d => if d.1 = day then (day, d.2 ++ [x]) else d
  | none => daily ++ [(day, [x])]

/-- The snapshots of one day but its latest; of equal times the first one is the
latest. -/
def allButLatest (day : List (String × Int)) : List String :=
  ((day.insertionSort fun x y => x.2 ≥ y.2).drop 1).map Prod.fst

/-- `compute_prune_set`. The days come in the order of their first snapshot. -/
def computePruneSet (liveByName : List (String × Int)) (retainAllMinutes : UInt64)
    (retainDailyMinutes : Option UInt64) (currentTimestamp : Int) : List String :=
  let allCutoff := cutoffBefore currentTimestamp retainAllMinutes
  let old := liveByName.filter fun x => x.2 < allCutoff
  match retainDailyMinutes with
  | none => old.map Prod.fst
  | some dailyMinutes =>
    let dailyCutoff := cutoffBefore currentTimestamp dailyMinutes
    let daily := (old.filter fun x => x.2 ≥ dailyCutoff).foldl (pushDay currentTimestamp) []
    (old.filter fun x => x.2 < dailyCutoff).map Prod.fst
      ++ daily.flatMap fun d => allButLatest d.2

/-- The names and times of the automatic snapshots, oldest first. -/
def liveByName (ms : List Manifest) : List (String × Int) :=
  ((ms.filter fun m => startsWith m.name "live_").map fun m => (m.name, m.timestamp)).insertionSort
    fun x y => x.2 ≤ y.2

/-- The deletions of the manifests: a failing one is printed, and the loop goes
on. -/
def pruneManifest (name : String) : P Unit := do
  bailIfLockLost
  let _ ← Prog.attempt (deleteManifest name)
  return ()

def pruneOldLiveSnapshots (retainAllMinutes : UInt64) (retainDailyMinutes : Option UInt64)
    (currentTimestamp : Int) (dryRun : Bool) : P Unit :=
  withGcLock do
    let allManifests ← readAllManifests
    let toPrune := computePruneSet (liveByName allManifests) retainAllMinutes retainDailyMinutes
      currentTimestamp
    if toPrune = [] then return ()
    let targetHashes := unionHashes (allManifests.filter fun m => m.name ∈ toPrune)
    let otherHashes := unionHashes (allManifests.filter fun m => m.name ∉ toPrune)
    let exclusive ← exclusiveHashes targetHashes otherHashes
    let order ← askEnv .order
    if dryRun then
      printEach "Would prune snapshot: " (reorder order toPrune)
      printEach "Would delete blob: " exclusive
      return ()
    let _ ← Prog.collect pruneManifest (reorder order toPrune)
    if exclusive ≠ [] then
      bailIfLockLost
      deleteExclusiveBlobs exclusive

/-! ## `gc-all` -/

/-- The hash in a blob key, unless it is referenced. -/
def parseUnreferencedBlob (key : String) (referenced : List BlobHash) : Option String :=
  match splitAt '/' key with
  | "base" :: "data" :: "blobs" :: shard :: hashStr :: _ =>
    if (utf8 shard).length ≠ 2 ∨ (utf8 hashStr).length ≠ 32
        ∨ (utf8 hashStr).take 2 ≠ utf8 shard then none
    else
      (fromHex hashStr).bind fun hash => if hash ∈ referenced then none else some hashStr
  | _ => none

/-- `Utc::now() - Duration::hours(n as i64)`, which panics out of range. -/
def graceCutoff (gracePeriodHours : UInt64) : P Int := do
  let now ← askEnv .utcNow
  let secs := wrapI64 gracePeriodHours.toNat * 3600
  -- the bound of a `TimeDelta` is `i64::MAX` milliseconds
  if secs.natAbs > 9223372036854775 then
    return (← askEnv (.panic "TimeDelta::hours out of bounds")).elim
  if !inDateRange (now - secs) then
    return (← askEnv (.panic "`DateTime - TimeDelta` overflowed")).elim
  return now - secs

/-- Delete a batch of orphans, unless it is a dry run. -/
def deleteOrReportBatch (batch : List String) (dryRun : Bool) : P Unit := do
  if dryRun then return ()
  let _ ← deleteObjectsBulk (batch.map blobRemoteKey)
  return ()

/-- `batch_size`. -/
def SCAN_BATCH_SIZE : Nat := 1000

/-- The orphan a listed object is, if it is one: old enough and unreferenced. -/
def orphanOf (referenced : List BlobHash) (cutoff : Int) (e : ListEntry) : Option String :=
  if e.lastModified > cutoff then none else parseUnreferencedBlob e.key referenced

/-- One orphan into the batch; a full batch is deleted. -/
def pushOrphan (dryRun : Bool) (batch : List String) (hash : String) : P (List String) := do
  let batch := batch ++ [hash]
  if batch.length ≥ SCAN_BATCH_SIZE then
    bailIfLockLost
    deleteOrReportBatch batch dryRun
    return []
  else return batch

/-- A scan under way: objects listed and not yet looked at, and the batch. -/
structure Scan where
  pending : List ListEntry
  batch : List String
  deriving DecidableEq, Repr

/-- Look at the first `n` pending objects. -/
def consumePending (referenced : List BlobHash) (cutoff : Int) (dryRun : Bool) (n : Nat)
    (scan : Scan) : P Scan := do
  let batch ← Prog.foldl (pushOrphan dryRun) scan.batch
    ((scan.pending.take n).filterMap (orphanOf referenced cutoff))
  return ⟨scan.pending.drop n, batch⟩

/-- `{shard:02x}/` under the blobs. -/
def shardPrefix (shard : Nat) : String := "base/data/blobs/" ++ formatHex 2 shard ++ "/"

/-- List one shard, some way into the stream of those listed before. A listing
that fails is printed and passed over. -/
def scanShard (referenced : List BlobHash) (cutoff : Int) (dryRun : Bool) (scan : Scan)
    (shard : Nat) : P Scan := do
  let scan ← consumePending referenced cutoff dryRun (← askEnv .ahead) scan
  match ← Prog.attempt (listObjects (shardPrefix shard)) with
  | .ok entries => return { scan with pending := scan.pending ++ entries }
  | .error _ => return scan

/-- `remote_scan_and_delete`. The shards are listed in some order. -/
def remoteScanAndDelete (referenced : List BlobHash) (dryRun : Bool) (gracePeriodHours : UInt64) :
    P Unit := do
  let cutoff ← graceCutoff gracePeriodHours
  let order ← askEnv .order
  let scan ← Prog.foldl (scanShard referenced cutoff dryRun) ⟨[], []⟩
    (reorder order (List.range 256))
  let scan ← consumePending referenced cutoff dryRun scan.pending.length scan
  if scan.batch ≠ [] then
    bailIfLockLost
    deleteOrReportBatch scan.batch dryRun

def gcAllBlobs (dryRun : Bool) (gracePeriodHours : UInt64) : P Unit :=
  withGcLock do
    let referenced ← referencedBlobHashes
    remoteScanAndDelete (referenced.filterMap fromHex) dryRun gracePeriodHours

end Chbk
