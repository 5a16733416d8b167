import Chbk.Lib.Bytes
import Chbk.Lib.Prog
import Chbk.Model.PartZip

/-!
# The bucket, the calls, and how they are answered

The records the program stores, the bucket it stores them in, and the calls of
a command: to S3, and to the rest of its surroundings (ClickHouse, the clock,
the local disk).

* `World` — the bucket, the multipart uploads under way, and the clock.
* `S3Op.perform` — what S3 does with a request that does not fail.
* `Answers` — how a call may be answered: a request to S3 may also fail, with
  its effect or without.

Keys are relative to the configured prefix. A listing is one step. Every object
written gets an ETag of its own. Manifests and lock records stand in the bucket
as such (their JSON and zstd encodings are left to the libraries), with no size.
-/

namespace Chbk

open Lib

/-! ## Records -/

/-- `parts.rs`, one row of `system.parts`. -/
structure PartInfo where
  database : String
  table : String
  name : String
  path : String
  hashOfAllFiles : String
  bytesOnDisk : UInt64
  rowsCount : UInt64
  deriving DecidableEq, Repr

structure ManifestPart where
  database : String
  tableName : String
  partName : String
  blobHash : String
  blobSize : UInt64
  deriving DecidableEq, Repr

/-- A metadata file, with its content (the record holds it in base64). -/
structure ManifestFile where
  path : String
  content : Bytes
  deriving DecidableEq, Repr

structure Manifest where
  name : String
  timestamp : Int
  shard : String
  replica : String
  createdBy : String
  parts : List ManifestPart
  files : List ManifestFile
  deriving DecidableEq, Repr

/-- The record of the GC lock. -/
structure LockInfo where
  instanceId : String
  hostname : String
  acquiredAt : Int
  ttlSecs : UInt64
  deriving DecidableEq, Repr

/-- What an object holds. -/
inductive Body where
  | manifest (m : Manifest)
  | lock (info : LockInfo)
  | data (bs : Bytes)
  deriving DecidableEq, Repr

def Body.size : Body → Nat
  | data bs => bs.length
  | _ => 0

/-! ## Errors of S3 calls -/

/-- `SdkError`, with the status and the code of a service error. -/
inductive SdkError where
  | constructionFailure
  | timeoutError
  | dispatchFailure
  | responseError
  | serviceError (status : Nat) (code : Option String)
  deriving DecidableEq, Repr

/-- How the SDK prints an error. -/
def SdkError.text : SdkError → String
  | constructionFailure => "failed to construct request"
  | timeoutError => "request has timed out"
  | dispatchFailure => "dispatch failure"
  | responseError => "response error"
  | serviceError _ _ => "service error"

/-- One entry of the errors of a `DeleteObjects` answer. -/
structure DeleteError where
  key : String
  code : Option String
  deriving DecidableEq, Repr

structure ListEntry where
  key : String
  size : Nat
  lastModified : Int
  deriving DecidableEq, Repr

/-! ## The world -/

abbrev ETag := Nat
abbrev UploadId := Nat

structure Object where
  body : Body
  etag : ETag
  lastModified : Int
  deriving DecidableEq, Repr

/-- A multipart upload under way, with the parts it has so far. -/
structure Upload where
  key : String
  parts : List (Nat × Bytes)
  deriving DecidableEq, Repr

structure World where
  objects : List (String × Object) := []
  uploads : List (UploadId × Upload) := []
  /-- No ETag and no upload id from here on is in use. -/
  fresh : Nat := 0
  now : Int := 0
  deriving DecidableEq, Repr

/-- Put a value under a key, in place of the one there. -/
def insertKey {κ α : Type} [DecidableEq κ] (k : κ) (a : α) (l : List (κ × α)) : List (κ × α) :=
  (k, a) :: l.filter fun x => x.1 ≠ k

/-- Remove a key. -/
def eraseKey {κ α : Type} [DecidableEq κ] (k : κ) (l : List (κ × α)) : List (κ × α) :=
  l.filter fun x => x.1 ≠ k

namespace World

def get? (w : World) (key : String) : Option Object := w.objects.lookup key

def putBody (w : World) (key : String) (body : Body) : World :=
  { w with
    objects := insertKey key ⟨body, w.fresh, w.now⟩ w.objects
    fresh := w.fresh + 1 }

def erase (w : World) (key : String) : World := { w with objects := eraseKey key w.objects }

def eraseAll (w : World) (keys : List String) : World := keys.foldl erase w

end World

/-! ## Calls -/

/-- Requests to S3. -/
inductive S3Op where
  | listObjectsV2 (pfx : String)
  | headObject (key : String)
  | getObject (key : String)
  | putObject (key : String) (body : Body) (ifMatch : Option ETag) (ifNoneMatch : Bool)
  | deleteObject (key : String)
  | deleteObjects (keys : List String)
  | createMultipartUpload (key : String)
  | uploadPart (key : String) (uploadId : UploadId) (partNumber : Nat) (data : Bytes)
  | completeMultipartUpload (key : String) (uploadId : UploadId) (parts : List Nat)
  | abortMultipartUpload (key : String) (uploadId : UploadId)

/-- What S3 answers when a request succeeds. -/
@[reducible] def S3Ok : S3Op → Type
  | .listObjectsV2 _ => List ListEntry
  | .headObject _ => Nat
  | .getObject _ => Body
  | .putObject .. => ETag
  | .deleteObject _ => Unit
  | .deleteObjects _ => List DeleteError
  | .createMultipartUpload _ => UploadId
  | .uploadPart .. => Unit
  | .completeMultipartUpload .. => Unit
  | .abortMultipartUpload .. => Unit

/-- Questions to the surroundings of a command. -/
inductive EnvOp where
  /-- `Utc::now`, in seconds. -/
  | utcNow
  | newV4
  | gethostname
  /-- The order in which a hash map is walked or a batch of futures finishes. -/
  | order
  /-- How far a stream is taken before something else happens. -/
  | ahead
  | runQuery (sql : String)
  /-- A step on the local disk that answers nothing. -/
  | localStep (what : String)
  | readFile (path : String)
  | walkFiles (dir : String)
  /-- Hard-link the files of a part into a staging directory. -/
  | stagePart (part : PartInfo) (dir : String)
  /-- The files of the directory a hash is staged in. -/
  | collectFiles (hash dir : String)
  /-- What opening the files of that directory will give. -/
  | openFiles (hash dir : String)
  /-- How the pipe between the writer and the upload cuts the stream. -/
  | pipe
  /-- `fs::create_dir_all`, of the path with these components. -/
  | createDirAll (path : List Component)
  /-- `fs::write`. -/
  | writeFile (path : List Component) (content : Bytes)
  /-- `extract_zip` of a downloaded archive into a directory. -/
  | extractZip (dest : List Component) (archive : Body)
  | println (line : String)
  | lockLost
  /-- A panic: nothing comes back. -/
  | panic (msg : String)

@[reducible] def EnvResp : EnvOp → Type
  | .utcNow => Int
  | .newV4 => String
  | .gethostname => String
  | .order => List Nat
  | .ahead => Nat
  | .runQuery _ => Except AnyError String
  | .localStep _ => Except AnyError Unit
  | .readFile _ => Except AnyError Bytes
  | .walkFiles _ => Except AnyError (List (String × Bytes))
  | .stagePart _ _ => Except AnyError Unit
  | .collectFiles _ _ => Except AnyError (List ZipFileEntry)
  | .openFiles _ _ => String → Except AnyError Reader
  | .pipe => List Nat
  | .createDirAll _ => Except AnyError Unit
  | .writeFile _ _ => Except AnyError Unit
  | .extractZip _ _ => Except AnyError Unit
  | .println _ => Unit
  | .lockLost => Bool
  | .panic _ => Empty

inductive Op where
  | s3 (o : S3Op)
  | env (o : EnvOp)

@[reducible] def Resp : Op → Type
  | .s3 o => Except SdkError (S3Ok o)
  | .env o => EnvResp o

/-- The program's monad: calls, and `anyhow` errors. -/
abbrev P := Prog Op Resp AnyError

/-- Send a request to S3. -/
def send (o : S3Op) : P (Except SdkError (S3Ok o)) := Prog.ask (Op.s3 o)

/-- Ask the surroundings. -/
def askEnv (o : EnvOp) : P (EnvResp o) := Prog.ask (Op.env o)

/-- `?` on a result. -/
def liftP {α : Type} : Except AnyError α → P α
  | .ok a => .done a
  | .error e => .fail e

theorem liftP_ok_bind {α β : Type} (a : α) (f : α → P β) : liftP (.ok a) >>= f = f a := rfl

/-- Print one line for each item. -/
def printEach (text : String) (items : List String) : P Unit := do
  let _ ← Prog.collect (fun item => askEnv (.println (text ++ item))) items
  return ()

/-! ## Answers -/

/-- The error S3 gives for a request it refuses. -/
def refused (status : Nat) (code : String) : SdkError := .serviceError status (some code)

namespace S3Op

/-- The entries of a listing. -/
def listing (w : World) (pfx : String) : List ListEntry :=
  (w.objects.map Prod.fst).dedup.filterMap fun key =>
    if startsWith key pfx then
      (w.get? key).map fun o => ⟨key, o.body.size, o.lastModified⟩
    else none

/-- The data of the listed parts, in their order. -/
def assemble (u : Upload) (parts : List Nat) : Option Bytes :=
  (parts.mapM fun pn => u.parts.lookup pn).map List.flatten

/-- What S3 does with a request that reaches it. -/
def perform : (o : S3Op) → World → Except SdkError (S3Ok o) × World
  | listObjectsV2 pfx, w => (.ok (listing w pfx), w)
  | headObject key, w =>
    match w.get? key with
    | some o => (.ok o.body.size, w)
    | none => (.error (refused 404 "NotFound"), w)
  | getObject key, w =>
    match w.get? key with
    | some o => (.ok o.body, w)
    | none => (.error (refused 404 "NoSuchKey"), w)
  | putObject key body ifMatch ifNoneMatch, w =>
    match ifMatch, w.get? key with
    | some etag, some o =>
      if o.etag ≠ etag then (.error (refused 412 "PreconditionFailed"), w)
      else (.ok w.fresh, w.putBody key body)
    | some _, none => (.error (refused 404 "NoSuchKey"), w)
    | none, some _ =>
      if ifNoneMatch then (.error (refused 412 "PreconditionFailed"), w)
      else (.ok w.fresh, w.putBody key body)
    | none, none => (.ok w.fresh, w.putBody key body)
  | deleteObject key, w => (.ok (), w.erase key)
  | deleteObjects keys, w => (.ok [], w.eraseAll keys)
  | createMultipartUpload key, w =>
    (.ok w.fresh, { w with
      uploads := insertKey w.fresh ⟨key, []⟩ w.uploads
      fresh := w.fresh + 1 })
  | uploadPart key id pn data, w =>
    match w.uploads.lookup id with
    | some u =>
      if u.key ≠ key then (.error (refused 404 "NoSuchUpload"), w)
      else (.ok (), { w with uploads := insertKey id ⟨key, insertKey pn data u.parts⟩ w.uploads })
    | none => (.error (refused 404 "NoSuchUpload"), w)
  | completeMultipartUpload key id parts, w =>
    match w.uploads.lookup id with
    | some u =>
      if u.key ≠ key then (.error (refused 404 "NoSuchUpload"), w)
      else if parts = [] then (.error (refused 400 "MalformedXML"), w)
      else
        match assemble u parts with
        | some bs => (.ok (), { w.putBody key (.data bs) with uploads := eraseKey id w.uploads })
        | none => (.error (refused 400 "InvalidPart"), w)
    | none => (.error (refused 404 "NoSuchUpload"), w)
  | abortMultipartUpload _ id, w => (.ok (), { w with uploads := eraseKey id w.uploads })

end S3Op

/-- A failing request: an error, with the effect of the request or without. Of a
bulk delete any part of the keys may be gone. -/
def S3Fails : (o : S3Op) → World → SdkError → World → Prop
  | .deleteObjects keys, w, _, w' => ∃ gone, (∀ k ∈ gone, k ∈ keys) ∧ w' = w.eraseAll gone
  | o, w, _, w' => w' = w ∨ w' = (o.perform w).2

/-- How S3 may answer a request. A bulk delete that succeeds may list errors for
some of its keys; these may be gone or not, the others are gone. -/
def S3Answers : (o : S3Op) → World → Except SdkError (S3Ok o) → World → Prop
  | o, w, .error e, w' => (o.perform w = (.error e, w')) ∨ S3Fails o w e w'
  | .deleteObjects keys, w, .ok errs, w' =>
    ∃ gone, (∀ k ∈ gone, k ∈ keys) ∧ (∀ k ∈ keys, k ∈ gone ∨ k ∈ errs.map DeleteError.key) ∧
      w' = w.eraseAll gone
  | o, w, r, w' => o.perform w = (r, w')

/-- How the surroundings may answer: the clock is the world's, all else is
free. -/
def EnvAnswers : (o : EnvOp) → World → EnvResp o → Prop
  | .utcNow, w, t => t = w.now
  | _, _, _ => True

/-- How a call may be answered, and the world behind it. -/
def Answers : (op : Op) → World → Resp op → World → Prop
  | .s3 o, w, r, w' => S3Answers o w r w'
  | .env o, w, r, w' => EnvAnswers o w r ∧ w' = w

end Chbk
