import Chbk.Model.Clickhouse
import Chbk.Model.Manifest

/-!
# `create_snapshot`

Staging, the HEAD checks, the uploads and the manifest of a backup, as one
program.

* `loadKnownFromLatestManifest` — the hashes a backup does not look at again.
* `headCheckExisting` — the hashes it finds in the bucket.
* `uploadPartArchives` — the hashes it uploads; all uploads are run before the
  first failure shows.

The HEAD checks run beside the staging passes, which do nothing to the bucket;
they stand before them. Progress, printed lines and the terminal interface are
left out.
-/

namespace Chbk

open Lib

def STAGING_DIR_NAME : String := "staging_parts"
def MAX_STAGING_ITERATIONS : Nat := 5

/-- `HEAD_CHECK_THRESHOLD`: smaller parts are uploaded without a look. -/
def HEAD_CHECK_THRESHOLD : UInt64 := 512 * 1024

/-- A step on the local disk. -/
def localStep (what : String) : P Unit := do
  liftP (← askEnv (.localStep what))

/-- `Path::join` of texts. -/
def pathJoin (a b : String) : String :=
  if startsWith b "/" ∨ a = "" then b
  else if (stripSuffix? a "/").isSome then a ++ b
  else a ++ "/" ++ b

/-! ## Settings -/

/-- `init_storage`. -/
def initStorage (cfg : Config) : Except AnyError Storage := do
  if cfg.s3Bucket.isNone then throw ["S3_BUCKET is required"]
  if cfg.s3Region.isNone then throw ["S3_REGION is required"]
  if cfg.s3AccessKeyId.isNone then throw ["S3_ACCESS_KEY_ID is required"]
  if cfg.s3SecretAccessKey.isNone then throw ["S3_SECRET_ACCESS_KEY is required"]
  return Storage.new cfg.uploadMinChunkSize cfg.uploadMaxChunkSize cfg.uploadTargetParts
    cfg.multipartPartConcurrency

/-- The macros of the server, where a flag leaves something open. A failing
query is printed, and nothing is known from it. -/
def macrosFor (json : Json) (cfg : Config) : P (List (String × String)) := do
  if (cfg.shard.isNone ∨ cfg.replica.isNone) ∧ !cfg.useClickhouseLocal then
    return ((queryMacros json (← askEnv (.runQuery macrosQuery))).toOption).getD []
  else return []

/-- Flags and environment first, then the macros. -/
def resolveShardReplica (json : Json) (cfg : Config) : P (String × String) := do
  let macros ← macrosFor json cfg
  match cfg.shard.or (macros.lookup "shard") with
  | none => throw ["Could not determine shard identity. Set --shard or define 'shard' in "
      ++ "ClickHouse system.macros"]
  | some shard =>
    match cfg.replica.or (macros.lookup "replica") with
    | none => throw ["Could not determine replica identity. Set --replica or define 'replica' in "
        ++ "ClickHouse system.macros"]
    | some replica => return (shard, replica)

/-! ## What is known already -/

/-- `max` of the names. -/
def maxName : List String → Option String
  | [] => none
  | n :: ns =>
    match maxName ns with
    | none => some n
    | some m => some (if m < n then n else m)

/-- The hashes of the latest automatic manifest of this identity, with their
sizes. -/
def loadKnownFromLatestManifest (shard replica : String) : P (List (String × UInt64)) := do
  let pfx := "live_" ++ shard ++ "_" ++ replica ++ "_"
  let names ← listManifestNames
  match maxName (names.filter fun n => startsWith n pfx) with
  | none => return []
  | some latest =>
    let m ← readManifest latest
    -- of two sizes of one hash the later one stays
    return (m.parts.map fun p => (p.blobHash, p.blobSize)).reverse

/-- The first part of each hash, but for the hashes in `seen`. -/
def firstOfEachHash : List String → List PartInfo → List PartInfo
  | _, [] => []
  | seen, p :: ps =>
    if p.hashOfAllFiles ∈ seen then firstOfEachHash seen ps
    else p :: firstOfEachHash (p.hashOfAllFiles :: seen) ps

def partsToUpload (parts : List PartInfo) (knownHashes : List String) : List PartInfo :=
  (firstOfEachHash [] parts).filter fun p => p.hashOfAllFiles ∉ knownHashes

/-- One HEAD check. A failing one counts as "not there". -/
def headCheck (hash : String) : P (String × Option Nat) := do
  match ← Prog.attempt (objectExists (blobRemoteKey hash)) with
  | .ok size => return (hash, size)
  | .error _ => return (hash, none)

/-- The hashes found, with the lengths of their objects. -/
def headCheckExisting (hashesWithSizes : List (String × UInt64)) : P (List (String × Nat)) := do
  let toCheck := (hashesWithSizes.filter fun x => x.2 ≥ HEAD_CHECK_THRESHOLD).map Prod.fst
  if toCheck = [] then return []
  let order ← askEnv .order
  let results ← Prog.collect headCheck (reorder order toCheck)
  return results.filterMap fun x => x.2.map fun size => (x.1, size)

/-! ## Staging -/

/-- The staging directory of a hash. -/
def stagedDir (cfg : Config) (hash : String) : String :=
  let shard := (firstTwoBytes hash).getD "__"
  pathJoin (pathJoin (pathJoin cfg.outputDir STAGING_DIR_NAME) shard) hash

/-- `as_os_str` of a component. -/
def Component.asOsStr : Component → String
  | rootDir => "/"
  | curDir => "."
  | parentDir => ".."
  | normal s => s

/-- Components collected into a path. -/
def collectPath (cs : List Component) : String := (cs.map Component.asOsStr).foldl pathJoin ""

/-- `resolve_part_path_sync`. `metadata` says of which paths the metadata can be
read. -/
def resolvePartPathSync (metadata : String → Bool) (part : PartInfo) (chDataPath : String) :
    String :=
  if startsWith part.path "/" then
    if metadata part.path then part.path
    else
      let comps := components part.path
      match comps.findIdx? fun c => c.asOsStr = "store" ∨ c.asOsStr = "data" with
      | some idx => pathJoin chDataPath (collectPath (comps.drop idx))
      | none => part.path
  else
    let direct := pathJoin chDataPath part.path
    if metadata direct then direct
    else if startsWith part.path "data/" then direct
    else
      let withData := pathJoin (pathJoin chDataPath "data") part.path
      if metadata withData then withData else direct

/-- Stage one part; `false` when it could not be staged. -/
def stagePart (cfg : Config) (part : PartInfo) : P (String × Bool) := do
  match ← askEnv (.stagePart part (stagedDir cfg part.hashOfAllFiles)) with
  | .ok _ => return (part.hashOfAllFiles, true)
  | .error _ => return (part.hashOfAllFiles, false)

/-- The parts query and its reading. -/
def queryParts (json : Json) (cfg : Config) : P (List PartInfo) := do
  liftP (queryActiveParts json (← askEnv (.runQuery (activePartsQuery cfg))))

/-- The staging passes, `left` of them. Returns the staged hashes and the
latest list of parts. -/
def stagePasses (json : Json) (cfg : Config) (knownHashes : List String) :
    Nat → List String → List PartInfo → P (List String × List PartInfo)
  | 0, staged, parts => return (staged, parts)
  | left + 1, staged, parts => do
    let needStage := (partsToUpload parts knownHashes).filter fun p =>
      p.hashOfAllFiles ∉ staged
    if needStage = [] then return (staged, parts)
    let results ← Prog.collect (stagePart cfg) needStage
    let staged := staged ++ (results.filter Prod.snd).map Prod.fst
    let missing := results.filter fun x => !x.2
    if missing = [] then return (staged, parts)
    if left = 0 then
      throw ["Some parts disappeared during staging after " ++ toString MAX_STAGING_ITERATIONS
        ++ " passes (" ++ toString missing.length ++ " missing)"]
    let parts ← queryParts json cfg
    stagePasses json cfg knownHashes left staged parts

/-! ## Metadata -/

/-- The tables of each database, in order. -/
def tableMapFromParts (parts : List PartInfo) : List (String × List String) :=
  ((parts.map PartInfo.database).dedup.insertionSort (· ≤ ·)).map fun db =>
    (db, (((parts.filter fun p => p.database = db).map PartInfo.table).dedup.insertionSort
      (· ≤ ·)))

/-- Read one DDL file into the manifest's place for it. -/
def readDdl (path : String) (manifestPath : String) : P ManifestFile := do
  match ← askEnv (.readFile path) with
  | .ok content => return ⟨manifestPath, content⟩
  | .error e => throw (withContext ("Failed to read " ++ path) e)

def collectTableFiles (dir db : String) (table : String) : P (List ManifestFile) := do
  -- the DDL of a materialized view recreates its inner table
  if startsWith table ".inner_id." then return []
  let f ← readDdl (pathJoin (pathJoin dir db) (table ++ ".sql"))
    ("metadata/" ++ db ++ "/" ++ table ++ ".sql")
  return [f]

def collectDatabaseFiles (dir : String) (entry : String × List String) :
    P (List ManifestFile) := do
  let f ← readDdl (pathJoin dir (entry.1 ++ ".sql")) ("metadata/" ++ entry.1 ++ ".sql")
  let fs ← Prog.collect (collectTableFiles dir entry.1) entry.2
  return f :: fs.flatten

def collectDirectoryFiles (dir pfx : String) : P (List ManifestFile) := do
  let files ← liftP (← askEnv (.walkFiles dir))
  return files.map fun x => ⟨pfx ++ "/" ++ x.1, x.2⟩

def collectMetadataFiles (cfg : Config) (tables : List (String × List String)) :
    P (List ManifestFile) := do
  let ddl ← Prog.collect (collectDatabaseFiles (pathJoin cfg.chDataPath "metadata")) tables
  let functions ← collectDirectoryFiles (pathJoin cfg.chDataPath "user_defined") "user_defined"
  let scripts ← collectDirectoryFiles (pathJoin cfg.chDataPath "user_scripts") "user_scripts"
  return ddl.flatten ++ functions ++ scripts

/-- The metadata attempts, `left` of them; each failing one but the last asks
for the parts again. -/
def metadataAttempts (json : Json) (cfg : Config) :
    Nat → List PartInfo → P (List ManifestFile × List PartInfo)
  | 0, _ => throw ["metadata collection did not complete"]
  | left + 1, parts => do
    match ← Prog.attempt (collectMetadataFiles cfg (tableMapFromParts parts)) with
    | .ok files => return (files, parts)
    | .error e =>
      if left = 0 then throw (withContext "metadata collection failed after retries" e)
      let parts ← queryParts json cfg
      metadataAttempts json cfg left parts

/-! ## Uploads -/

/-- The ZIP stream of a staged directory, into the bucket. When the writer ends,
with success or not, the upload sees the end of the stream behind what was
written. -/
def uploadPartArchive (storage : Storage) (cfg : Config) (hash : String) :
    P (String × UInt64) := do
  let remoteKey := blobRemoteKey hash
  let dir := stagedDir cfg hash
  let files ← liftP (← askEnv (.collectFiles hash dir))
  let expectedSize := estimateZipSize files
  let openFile ← askEnv (.openFiles hash dir)
  let cuts ← askEnv .pipe
  let (writerResult, stream) := zipOutput openFile files
  let uploaded ← Prog.mapFail (withContext ("Failed to upload " ++ remoteKey))
    (putObjectMultipartReader storage remoteKey ⟨stream, cuts.map Cut.short⟩ expectedSize.toNat)
  let written ← liftP writerResult
  if UInt64.ofNat uploaded ≠ written then
    throw ["ZIP upload size mismatch for " ++ hash ++ ": uploaded " ++ toString uploaded
      ++ " vs written " ++ toString written.toNat]
  Prog.mapFail (withContext ("Failed to clean up staged part " ++ hash))
    (localStep ("remove " ++ dir))
  return (hash, written)

/-- All uploads are run; then the first failure, if any, is the result. -/
def uploadPartArchives (storage : Storage) (cfg : Config) (hashes : List String) :
    P (List (String × UInt64)) := do
  let order ← askEnv .order
  let results ← Prog.collect (fun h => Prog.attempt (uploadPartArchive storage cfg h))
    (reorder order hashes)
  Prog.collect liftP results

/-! ## Sizes -/

/-- The integer next to `n / d`, ties to even. -/
def divToEven (n d : Nat) : Nat :=
  let q := n / d
  let rest := n % d
  if 2 * rest > d ∨ (2 * rest = d ∧ q % 2 = 1) then q + 1 else q

/-- `as f64`, which has 53 bits. Dividing it by 1024 is exact. -/
def asF64 (n : Nat) : Nat := divToEven n (2 ^ (n.log2 - 52)) * 2 ^ (n.log2 - 52)

/-- `{:.2}` of `n / d`. -/
def twoDecimals (n d : Nat) : String :=
  let q := divToEven (n * 100) d
  toString (q / 100) ++ "." ++ padZeros 2 (q % 100)

/-- Divide by 1024 until the value is below it or the units are used up. -/
def pickUnit (n : Nat) : Nat → List String → Nat × String
  | d, [u] => (d, u)
  | d, u :: us => if n < 1024 * d then (d, u) else pickUnit n (1024 * d) us
  | d, [] => (d, "")

/-- `format_bytes`. -/
def formatBytes (bytes : UInt64) : String :=
  let n := asF64 bytes.toNat
  match pickUnit n 1 ["B", "KB", "MB", "GB", "TB"] with
  | (1, u) => toString n ++ " " ++ u
  | (d, u) => twoDecimals n d ++ " " ++ u

example : [0, 1023, 1536, 5 * 1024 ^ 4, 2 ^ 53 + 2 ^ 37 + 1].map
    (fun n => formatBytes (UInt64.ofNat n)) =
      ["0 B", "1023 B", "1.50 KB", "5.00 TB", "8192.12 TB"] := by decide +kernel

/-- Enter one size; a different one must not be there already. -/
def addSize (known : List (String × UInt64)) (x : String × UInt64) :
    P (List (String × UInt64)) :=
  match known.lookup x.1 with
  | some prev =>
    if prev ≠ x.2 then
      throw ["Blob size mismatch for " ++ x.1 ++ ": manifest had " ++ formatBytes prev
        ++ " but uploaded " ++ formatBytes x.2]
    else return insertKey x.1 x.2 known
  | none => return insertKey x.1 x.2 known

def manifestPart (sizes : List (String × UInt64)) (p : PartInfo) : Except AnyError ManifestPart :=
  match sizes.lookup p.hashOfAllFiles with
  | some size => .ok ⟨p.database, p.table, p.name, p.hashOfAllFiles, size⟩
  | none => .error ["Missing size for " ++ p.hashOfAllFiles]

/-! ## The command -/

/-- The hashes to upload, of those that are staged and not in the bucket; every
one still needed must be among them. -/
def uploadHashes (needUpload staged headSkipped : List String) : Except AnyError (List String) := do
  let upload := staged.filter fun h => h ∈ needUpload ∧ h ∉ headSkipped
  needUpload.forM fun h =>
    if h ∉ headSkipped ∧ h ∉ upload then .error ["Need upload for " ++ h ++ " but not staged"]
    else .ok ()
  return upload

/-- Staging and the HEAD checks, up to the final list of parts and the hashes
found and staged. -/
def prepareParts (json : Json) (cfg : Config) (knownHashes : List String)
    (parts : List PartInfo) :
    P (List (String × Nat) × List String × List PartInfo × List ManifestFile) := do
  localStep "create the output directory"
  localStep "remove earlier staging directories"
  localStep "create the staging directory"
  let headSkipped ← headCheckExisting ((partsToUpload parts knownHashes).map fun p =>
    (p.hashOfAllFiles, p.bytesOnDisk))
  let (staged, parts) ← stagePasses json cfg knownHashes MAX_STAGING_ITERATIONS [] parts
  let (files, parts) ← metadataAttempts json cfg MAX_STAGING_ITERATIONS parts
  return (headSkipped, staged, parts, files)

/-- The uploads, and the size of every blob known by now. -/
def uploadPhase (storage : Storage) (cfg : Config) (known : List (String × UInt64))
    (headSkipped : List (String × Nat)) (staged : List String) (parts : List PartInfo) :
    P (List (String × UInt64)) := do
  let needUpload := (partsToUpload parts (known.map Prod.fst)).map PartInfo.hashOfAllFiles
  let upload ← liftP (uploadHashes needUpload staged (headSkipped.map Prod.fst))
  localStep "remove the staged parts not in use"
  let newUploads ← uploadPartArchives storage cfg upload
  localStep "remove the staging directory"
  let order ← askEnv .order
  let uploadedSizes := (headSkipped.map fun x => (x.1, UInt64.ofNat x.2)) ++ newUploads
  Prog.foldl addSize known (reorder order uploadedSizes)

/-- The name given, or an automatic one. -/
def nameOrAuto (name : Option String) (shard replica : String) (timestamp : Int) : P String :=
  match name with
  | some n => return n
  | none => do
    let uuid ← askEnv .newV4
    return buildAutoName shard replica timestamp uuid

def createSnapshot (json : Json) (cfg : Config) (name : Option String) : P String := do
  let timestamp ← askEnv .utcNow
  let storage ← liftP (initStorage cfg)
  let parts ← queryParts json cfg
  let (shard, replica) ← resolveShardReplica json cfg
  let snapshotName ← nameOrAuto name shard replica timestamp
  let known ← loadKnownFromLatestManifest shard replica
  let (headSkipped, staged, parts, files) ← prepareParts json cfg (known.map Prod.fst) parts
  let sizes ← uploadPhase storage cfg known headSkipped staged parts
  let manifestParts ← liftP (parts.mapM (manifestPart sizes))
  let createdBy ← askEnv .gethostname
  writeManifest ⟨snapshotName, timestamp, shard, replica, createdBy, manifestParts, files⟩
  return snapshotName

end Chbk
