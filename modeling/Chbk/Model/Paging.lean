import Mathlib.Data.String.Basic
import Chbk.Lib.Sweep
import Chbk.Model.Prefix

/-!
# `storage.rs`: a listing in pages

`list_objects` asks for one page after the other until S3 gives out no token. Between
two pages others may change the bucket.

* `PageAnswers` — what S3 answers: the objects from the token's key on, in the order
  of their keys, as the bucket is then.
* `PagedList.Run` — the loop, with the number of its requests.

A token stands for the key behind which its page begins; the program hands it back
as it is. Where the bucket does not change meanwhile, `listObjects` asks once.
-/

namespace Chbk

open Lib

structure Page where
  contents : List ListEntry
  nextContinuationToken : Option String

/-- How S3 may answer the request for a page. -/
def PageAnswers (pfx : String) (token : Option String) (w : World) : Except SdkError Page → Prop
  | .error _ => True
  | .ok page =>
    IsPage ListEntry.key (· ∈ S3Op.listing w pfx) token page.contents page.nextContinuationToken

/-- `list_objects` under way. -/
inductive PagedList where
  | asking (continuation : Option String) (results : List ListEntry)
  | returned (results : List ListEntry)
  | failed (e : AnyError)

namespace PagedList

def start : PagedList := asking none []

/-- The entry, with the key the program knows it by. -/
def toRelative (pfx : Option String) (e : ListEntry) : ListEntry :=
  { e with key := relativeKey pfx e.key }

/-- Behind an answer. -/
def answered (pfx : Option String) (results : List ListEntry) : Except SdkError Page → PagedList
  | .error e => failed (sdkAnyError e)
  | .ok page =>
    let results := results ++ page.contents.map (toRelative pfx)
    match page.nextContinuationToken with
    | some token => asking (some token) results
    | none => returned results

/-- A run of the loop from world `w` on, where `prefixed` is listed and every world is
`ok`: its requests, and where it has come to. -/
inductive Run (pfx : Option String) (prefixed : String) (ok : World → Prop) (w : World) :
    List (Except SdkError Page) → PagedList → World → Prop
  | start : Run pfx prefixed ok w [] start w
  | request {rs : List (Except SdkError Page)} {token : Option String} {results : List ListEntry}
      {w' : World} {r : Except SdkError Page}
      (h : Run pfx prefixed ok w rs (asking token results) w')
      (hans : PageAnswers prefixed token w' r) :
      Run pfx prefixed ok w (rs ++ [r]) (answered pfx results r) w'
  | beside {rs : List (Except SdkError Page)} {p : PagedList} {w' w'' : World}
      (h : Run pfx prefixed ok w rs p w') (hok : ok w'') : Run pfx prefixed ok w rs p w''

end PagedList

/-- The bucket as a program with this prefix knows it. -/
def World.known (pfx : Option String) (w : World) : World :=
  match pfx with
  | some p => w.under p
  | none => w

end Chbk
