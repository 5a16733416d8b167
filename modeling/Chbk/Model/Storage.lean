import Mathlib.Data.List.Sort
import Chbk.Model.World

/-!
# `retry.rs` and `storage.rs`

The storage methods as programs over S3 calls, with their retries.

* `withRetry`, `s3Retry` — up to five attempts; a fatal error ends them.
* `putObjectMultipartReader` — a stream in chunks, each chunk a part.
* `deleteObjectsBulk` — batches of one shard each, with single deletes where
  the bulk call is not supported.

Delays, progress counters and printed lines are left out.
-/

namespace Chbk

open Lib

/-! ## Retries -/

/-- A number of attempts; there is at least one. -/
structure RetryConfig where
  maxAttempts : Nat
  pos : 0 < maxAttempts

def s3RetryConfig : RetryConfig := ⟨5, by decide⟩

inductive RetryResult (T E : Type) where
  | ok (v : T)
  | retry (e : E)
  | fatal (e : E)

/-- The attempts from number `attempt` on, with `left` more behind it. -/
def withRetryFrom {T E : Type} (f : Nat → P (RetryResult T E)) : Nat → Nat → P (Except E T)
  | left, attempt => do
    match ← f attempt with
    | .ok v => return .ok v
    | .fatal e => return .error e
    | .retry e =>
      match left with
      | 0 => return .error e
      | left + 1 => withRetryFrom f left (attempt + 1)

def withRetry {T E : Type} (config : RetryConfig) (f : Nat → P (RetryResult T E)) :
    P (Except E T) :=
  withRetryFrom f (config.maxAttempts - 1) 1

inductive S3ErrorKind where
  | throttle
  | transient
  | fatal
  deriving DecidableEq, Repr

namespace S3ErrorKind

def fromCode : Option String → S3ErrorKind
  | some "SlowDown" | some "Throttling" | some "ThrottlingException" | some "RequestThrottled" =>
    throttle
  | some "InternalError" | some "ServiceUnavailable" | some "RequestTimeout" => transient
  | _ => fatal

def fromSdk : SdkError → S3ErrorKind
  | .timeoutError | .dispatchFailure | .responseError => transient
  | .serviceError status code =>
    let byCode := fromCode code
    if byCode = fatal ∧ status ≥ 500 then transient else byCode
  | .constructionFailure => fatal

def isRetryable (k : S3ErrorKind) : Bool := k = throttle || k = transient

end S3ErrorKind

/-- `AnyhowError::new` of an SDK error. -/
def sdkAnyError (e : SdkError) : AnyError := [e.text]

def classifyS3 {T : Type} : Except SdkError T → RetryResult T AnyError
  | .ok v => .ok v
  | .error e =>
    if (S3ErrorKind.fromSdk e).isRetryable then .retry (sdkAnyError e)
    else .fatal (sdkAnyError e)

/-- An S3 call under the standard retry policy. -/
def s3Retry (o : S3Op) : P (S3Ok o) := do
  let r ← withRetry s3RetryConfig fun _ => do return classifyS3 (← send o)
  liftP r

/-- `?` with a context on an SDK result. -/
def orContext {T : Type} (msg : String) : Except SdkError T → P T
  | .ok v => .done v
  | .error e => .fail [msg, e.text]

/-! ## Settings -/

def MULTIPART_MIN_CHUNK : Nat := 5 * 1024 * 1024
def MULTIPART_MAX_CHUNK : Nat := 5 * 1024 * 1024 * 1024

/-- What the methods use of `Storage`. -/
structure Storage where
  minChunkSize : Nat
  maxChunkSize : Nat
  targetParts : Nat
  multipartPartConcurrency : Nat
  deriving DecidableEq, Repr

def Storage.new (minChunkSize maxChunkSize targetParts multipartPartConcurrency : Nat) : Storage :=
  let minChunkSize := max minChunkSize MULTIPART_MIN_CHUNK
  ⟨minChunkSize, min (max maxChunkSize minChunkSize) MULTIPART_MAX_CHUNK, max targetParts 1,
    max multipartPartConcurrency 1⟩

def computeChunkSize (totalSize minChunk maxChunk targetParts : Nat) : Nat :=
  min (max (totalSize / max targetParts 1) minChunk) maxChunk

/-! ## Multipart upload -/

/-- Fill a buffer of `k` bytes, short of it at the end of the stream only. -/
def fillBuffer : Nat → Nat → Reader → Except AnyError Bytes × Reader
  | 0, _, r => (.ok [], r)
  | fuel + 1, k, r =>
    if k = 0 then (.ok [], r)
    else
      match r.read k with
      | (.error _, r) => (.error ["io error"], r)
      | (.ok [], r) => (.ok [], r)
      | (.ok (b :: bs), r) =>
        match fillBuffer fuel (k - (bs.length + 1)) r with
        | (.ok rest, r) => (.ok (b :: bs ++ rest), r)
        | (.error e, r) => (.error e, r)

/-- The reader task: the chunks it hands over, and how it ends. It stops at an
empty chunk and behind a short one. -/
def readChunks (chunkSize : Nat) : Nat → Reader → List Bytes × Except AnyError Unit
  | 0, _ => ([], .ok ())
  | fuel + 1, r =>
    match fillBuffer chunkSize chunkSize r with
    | (.error e, _) => ([], .error e)
    | (.ok buf, r) =>
      if buf.isEmpty then ([], .ok ())
      else if buf.length < chunkSize then ([buf], .ok ())
      else
        let (chunks, res) := readChunks chunkSize fuel r
        (buf :: chunks, res)

/-- Number the chunks from `n` on. -/
def numberChunks : Nat → List Bytes → List (Nat × Bytes)
  | _, [] => []
  | n, c :: cs => (n, c) :: numberChunks (n + 1) cs

/-- Upload one part; returns its number and size. -/
def uploadOnePart (key : String) (uploadId : UploadId) (part : Nat × Bytes) : P (Nat × Nat) := do
  let _ ← s3Retry (.uploadPart key uploadId part.1 part.2)
  return (part.1, part.2.length)

/-- `put_object_multipart_reader_inner`. The parts are uploaded in some order;
the reader's own failure shows when all chunks it handed over are under way. -/
def putObjectMultipartReaderInner (storage : Storage) (key : String) (uploadId : UploadId)
    (reader : Reader) (expectedSize : Nat) : P Nat := do
  let chunkSize := computeChunkSize (max expectedSize 1) storage.minChunkSize storage.maxChunkSize
    storage.targetParts
  let (chunks, readerResult) := readChunks chunkSize (reader.rest.length + 1) reader
  let order ← askEnv .order
  let done ← Prog.collect (uploadOnePart key uploadId) (reorder order (numberChunks 1 chunks))
  liftP (readerResult.mapError (withContext ("Reader task failed for " ++ key)))
  let completedParts := (done.map Prod.fst).insertionSort (· ≤ ·)
  Prog.mapFail (withContext ("Failed to complete multipart upload for " ++ key))
    (s3Retry (.completeMultipartUpload key uploadId completedParts))
  return (done.map Prod.snd).sum

def putObjectMultipartReader (storage : Storage) (key : String) (reader : Reader)
    (expectedSize : Nat) : P Nat := do
  let uploadId ← Prog.mapFail (withContext ("Failed to start multipart upload for " ++ key))
    (s3Retry (.createMultipartUpload key))
  match ← Prog.attempt (putObjectMultipartReaderInner storage key uploadId reader expectedSize) with
  | .ok total => return total
  | .error e =>
    -- a failing abort is printed and dropped
    let _ ← send (.abortMultipartUpload key uploadId)
    throw e

/-! ## Single requests -/

/-- `None` where there is no object; any other error is one. -/
def objectExists (key : String) : P (Option Nat) := do
  match ← send (.headObject key) with
  | .ok size => return some size
  | .error (.serviceError 404 _) => return none
  | .error e => throw ["Failed to HEAD " ++ key, e.text]

def deleteObject (key : String) : P Unit := do
  orContext ("Failed to delete " ++ key) (← send (.deleteObject key))

def getObject (key : String) : P Body := do
  orContext ("Failed to get " ++ key) (← send (.getObject key))

def isPreconditionFailed : SdkError → Bool
  | .serviceError status _ => status = 412
  | _ => false

/-- The ETag, and whether a condition did not hold. -/
def putObjectConditional (key : String) (data : Body) (ifMatch : Option ETag) (ifNoneMatch : Bool) :
    P (ETag × Bool) := do
  match ← send (.putObject key data ifMatch ifNoneMatch) with
  | .ok etag => return (etag, false)
  | .error e =>
    if isPreconditionFailed e then return (0, true)
    else throw ["Failed to put " ++ key, e.text]

def listObjects (pfx : String) : P (List ListEntry) := do
  match ← send (.listObjectsV2 pfx) with
  | .ok entries => return entries
  | .error e => throw (sdkAnyError e)

/-! ## Bulk delete -/

structure DeleteStats where
  success : Nat
  errors : Nat
  throttled : Nat
  deriving DecidableEq, Repr

def DeleteStats.default : DeleteStats := ⟨0, 0, 0⟩

def DeleteStats.add (a b : DeleteStats) : DeleteStats :=
  ⟨a.success + b.success, a.errors + b.errors, a.throttled + b.throttled⟩

/-- `s.get(..2)`: the first two bytes, where they end between two characters. -/
def firstTwoBytes (s : String) : Option String :=
  match s.toList with
  | [] => none
  | [c] => if c.utf8Size = 2 then some (String.ofList [c]) else none
  | c :: d :: _ =>
    if c.utf8Size = 2 then some (String.ofList [c])
    else if c.utf8Size = 1 ∧ d.utf8Size = 1 then some (String.ofList [c, d])
    else none

/-- What stands in the place of the shard in a key. -/
def keyShard (key : String) : String :=
  ((stripPrefix? key "base/data/blobs/").bind firstTwoBytes).getD "??"

/-- Put a key with the others of its shard. -/
def pushShard (bySlot : List (String × List String)) (key : String) : List (String × List String) :=
  let shard := keyShard key
  match bySlot.lookup shard with
  | some ks => bySlot.map fun x => if x.1 = shard then (shard, ks ++ [key]) else x
  | none => bySlot ++ [(shard, [key])]

/-- `chunks` of a slice. -/
def chunksOf (n : Nat) : Nat → List String → List (List String)
  | 0, _ => []
  | fuel + 1, ks => if ks = [] then [] else ks.take n :: chunksOf n fuel (ks.drop n)

/-- The shards come in the order of their first keys; `delete_objects_bulk`
serves the batches in some order. -/
def batchKeysByShard (keys : List String) (batchSize : Nat) : List (List String) :=
  (keys.foldl pushShard []).flatMap fun x => chunksOf batchSize x.2.length x.2

/-- One attempt at a bulk delete. -/
def deleteBatchOnce (batch : List String) : P (RetryResult (List DeleteError) SdkError) := do
  match ← send (.deleteObjects batch) with
  | .ok errs => return .ok errs
  | .error e => return if (S3ErrorKind.fromSdk e).isRetryable then .retry e else .fatal e

/-- One delete of the fallback. -/
def deleteFallback (key : String) : P DeleteStats := do
  match ← send (.deleteObject key) with
  | .ok _ => return ⟨1, 0, 0⟩
  | .error _ => return ⟨0, 1, 0⟩

def deleteBatch (batch : List String) : P DeleteStats := do
  if batch = [] then return .default
  match ← withRetry ⟨5, by decide⟩ fun _ => deleteBatchOnce batch with
  | .ok errs =>
    return ⟨batch.length - errs.length, errs.length,
      (errs.filter fun e => S3ErrorKind.fromCode e.code = .throttle).length⟩
  | .error e =>
    if (S3ErrorKind.fromSdk e).isRetryable then return ⟨0, batch.length, batch.length⟩
    else
      let order ← askEnv .order
      let stats ← Prog.collect deleteFallback (reorder order batch)
      return stats.foldl DeleteStats.add .default

def deleteObjectsBulk (keys : List String) : P DeleteStats := do
  if keys = [] then return .default
  let order ← askEnv .order
  let stats ← Prog.collect deleteBatch (reorder order (batchKeysByShard keys 1000))
  return stats.foldl DeleteStats.add .default

end Chbk
