import Chbk.Lib.Layer
import Chbk.Model.Storage

/-!
# `storage.rs`: the configured prefix

Every request goes out with its keys under the prefix, and the keys of a listing
come back without it.

* `sanitizeS3Prefix` — what becomes of the setting.
* `S3Op.prefixed`, `S3Op.relative` — a request as it is sent, and its answer as the
  program gets it.
* `World.under` — the part of a bucket below a prefix, as a bucket of its own.
* `SharedAnswers` — the bucket when others use it too.

The keys in the answer to a bulk delete are printed only.
-/

namespace Chbk

open Lib

-- ---------------------------------------------------------------------------
-- Keys
-- ---------------------------------------------------------------------------

/-- `str::trim_matches`. -/
def trimMatches (c : Char) (s : String) : String :=
  String.ofList ((s.toList.dropWhile (· = c)).reverse.dropWhile (· = c)).reverse

def sanitizeS3Prefix (pfx : Option String) : Option String :=
  pfx.bind fun p =>
    let trimmed := trimMatches '/' p
    if trimmed = "" then none else some trimmed

def prefixedKey (pfx : Option String) (key : String) : String :=
  match pfx with
  | some p => p ++ "/" ++ key
  | none => key

/-- The key of a listed object, for the program. -/
def relativeKey (pfx : Option String) (key : String) : String :=
  match pfx with
  | some p => (stripPrefix? key (p ++ "/")).getD key
  | none => key

namespace S3Op

/-- The request as it is sent. -/
def prefixed (pfx : Option String) : S3Op → S3Op
  | listObjectsV2 p => listObjectsV2 (prefixedKey pfx p)
  | headObject key => headObject (prefixedKey pfx key)
  | getObject key => getObject (prefixedKey pfx key)
  | putObject key body ifMatch ifNoneMatch =>
    putObject (prefixedKey pfx key) body ifMatch ifNoneMatch
  | deleteObject key => deleteObject (prefixedKey pfx key)
  | deleteObjects keys => deleteObjects (keys.map (prefixedKey pfx))
  | createMultipartUpload key => createMultipartUpload (prefixedKey pfx key)
  | uploadPart key id pn data => uploadPart (prefixedKey pfx key) id pn data
  | completeMultipartUpload key id parts => completeMultipartUpload (prefixedKey pfx key) id parts
  | abortMultipartUpload key id => abortMultipartUpload (prefixedKey pfx key) id

/-- The answer as the program gets it. -/
def relative (pfx : Option String) : (o : S3Op) → S3Ok (o.prefixed pfx) → S3Ok o
  | listObjectsV2 _, entries => entries.map fun e => { e with key := relativeKey pfx e.key }
  | headObject _, size => size
  | getObject _, body => body
  | putObject .., etag => etag
  | deleteObject _, u => u
  | deleteObjects _, errs => errs.map fun e => { e with key := relativeKey pfx e.key }
  | createMultipartUpload _, id => id
  | uploadPart .., u => u
  | completeMultipartUpload .., u => u
  | abortMultipartUpload .., u => u

end S3Op

/-- `Storage` with a prefix: requests to S3 are prefixed, all else is as it is. -/
def prefixLayer (pfx : Option String) : Layer Op Resp Op Resp where
  call
    | .s3 o => .s3 (o.prefixed pfx)
    | .env o => .env o
  back
    | .s3 o, r => r.map (o.relative pfx)
    | .env _, r => r

-- ---------------------------------------------------------------------------
-- The bucket
-- ---------------------------------------------------------------------------

/-- An object below the prefix, under its own key. -/
def objectUnder (p : String) (x : String × Object) : Option (String × Object) :=
  (stripPrefix? x.1 (p ++ "/")).map fun key => (key, x.2)

def uploadUnder (p : String) (x : UploadId × Upload) : Option (UploadId × Upload) :=
  (stripPrefix? x.2.key (p ++ "/")).map fun key => (x.1, { x.2 with key })

/-- What the bucket holds below the prefix. -/
def World.under (p : String) (w : World) : World :=
  { w with
    objects := w.objects.filterMap (objectUnder p)
    uploads := w.uploads.filterMap (uploadUnder p) }

/-- The call aborts an upload of another key. -/
def Op.AbortsForeign (w : World) : Op → Prop
  | .s3 (.abortMultipartUpload key id) => ∃ u, w.uploads.lookup id = some u ∧ u.key ≠ key
  | _ => False

/-- How calls are answered in a bucket that others use: S3 does not abort an upload
for a request that names another key. -/
def SharedAnswers (op : Op) (w : World) (r : Resp op) (w' : World) : Prop :=
  Answers op w r w' ∧ (op.AbortsForeign w → w' = w)

/-- Time passes. -/
def World.Ticks (w w' : World) : Prop := w.now ≤ w'.now ∧ w' = { w with now := w'.now }

/-- Time passes, and ETags and upload ids are given out elsewhere. -/
structure World.Beside (w w' : World) : Prop where
  objects : w'.objects = w.objects
  uploads : w'.uploads = w.uploads
  fresh : w.fresh ≤ w'.fresh
  now : w.now ≤ w'.now

end Chbk
