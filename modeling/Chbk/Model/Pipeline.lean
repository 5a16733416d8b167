import Chbk.Lib.Run
import Chbk.Model.Storage

/-!
# The tasks of a multipart upload

`put_object_multipart_reader` with its tasks: the reader task behind a bounded
channel, the part uploads in flight, and the loops that wait for them. The steps
of the tasks interleave in any order.

* `Phase` — where the upload itself is.
* `Pipeline.Step` — one step of one of the tasks; a request to S3 is one step,
  and may fail with its effect or without.

`putObjectMultipartReader` has one part upload after the other. Delays and the
shared progress counter are left out; `reported` is what `on_progress` is called
with. A task that is dropped may have a request under way, so its steps go on.
-/

namespace Chbk

open Lib

def READ_AHEAD_CHUNKS : Nat := 4

/-- A part: its number and its data. -/
abbrev Part := Nat × Bytes

/-- The reader task. -/
inductive Producer where
  /-- Part `n` is sent; the next buffer is to be filled. -/
  | reading (reader : Reader) (n : Nat)
  /-- A part waits for a place in the channel. -/
  | sending (reader : Reader) (part : Part)
  | ended (res : Except AnyError Unit)

inductive TaskState where
  /-- An attempt is under way, with `left` more behind it. -/
  | running (left : Nat)
  | finished (res : Except AnyError Unit)

/-- A part upload that is not joined yet. -/
structure Task where
  part : Part
  state : TaskState

/-- Where the upload is. -/
inductive Phase where
  | creating (left : Nat)
  /-- The loop over the channel. -/
  | receiving
  | awaitingReader
  /-- The loop over the last part uploads. -/
  | draining
  | completing (left : Nat)
  | aborting (e : AnyError)
  | returned (total : Nat)
  | failed (e : AnyError)

/-- The receiving end of the channel is there. -/
def Phase.isOpen : Phase → Bool
  | receiving | awaitingReader | draining | completing _ => true
  | _ => false

def Phase.isCreating : Phase → Bool
  | creating _ => true
  | _ => false

structure Pipeline where
  phase : Phase
  id : UploadId
  producer : Producer
  channel : List Part
  tasks : List Task
  completedParts : List Nat
  uploaded : Nat
  reported : List Nat
  hist : History Op Resp

-- ---------------------------------------------------------------------------
-- The tasks' moves
-- ---------------------------------------------------------------------------

/-- How one attempt of `with_retry` ends. -/
inductive Attempted (T : Type) where
  | ended (res : Except AnyError T)
  | again (left : Nat)

def attempted {T : Type} (left : Nat) (r : Except SdkError T) : Attempted T :=
  match classifyS3 r with
  | .ok v => .ended (.ok v)
  | .fatal e => .ended (.error e)
  | .retry e =>
    match left with
    | 0 => .ended (.error e)
    | left + 1 => .again left

/-- A buffer is filled: an empty one ends the task. -/
def Producer.filled (n : Nat) : Except AnyError Bytes × Reader → Producer
  | (.error e, _) => .ended (.error e)
  | (.ok buf, reader) => if buf.isEmpty then .ended (.ok ()) else .sending reader (n + 1, buf)

/-- A part is sent: a short one was the last. -/
def Producer.sent (chunkSize : Nat) (reader : Reader) (part : Part) : Producer :=
  if part.2.length < chunkSize then .ended (.ok ()) else .reading reader part.1

def TaskState.attempted (left : Nat) (r : Except SdkError Unit) : TaskState :=
  match Chbk.attempted left r with
  | .ended res => .finished res
  | .again left => .running left

namespace Pipeline

/-- The tasks are not started before the upload has an id. -/
def start (reader : Reader) : Pipeline where
  phase := .creating (s3RetryConfig.maxAttempts - 1)
  id := 0
  producer := .reading reader 0
  channel := []
  tasks := []
  completedParts := []
  uploaded := 0
  reported := []
  hist := []

/-- A request is answered. -/
def called (p : Pipeline) (o : S3Op) (r : Except SdkError (S3Ok o)) : Pipeline :=
  { p with hist := ⟨.s3 o, r⟩ :: p.hist }

def created (p : Pipeline) (key : String) (left : Nat) (r : Except SdkError UploadId) : Pipeline :=
  match attempted left r with
  | .ended (.ok id) => { p with phase := .receiving, id }
  | .ended (.error e) =>
    { p with phase := .failed (withContext ("Failed to start multipart upload for " ++ key) e) }
  | .again left => { p with phase := .creating left }

/-- `handle_completed_part`. -/
def handleCompletedPart (p : Pipeline) (part : Part) : Pipeline :=
  { p with
    uploaded := p.uploaded + part.2.length
    reported := p.reported ++ [p.uploaded + part.2.length]
    completedParts := p.completedParts ++ [part.1] }

/-- A part upload is joined. -/
def joined (p : Pipeline) (part : Part) : Except AnyError Unit → Pipeline
  | .ok _ => p.handleCompletedPart part
  | .error e => { p with phase := .aborting e }

/-- The reader task is joined. -/
def readerJoined (p : Pipeline) (key : String) : Except AnyError Unit → Pipeline
  | .ok _ => { p with phase := .draining }
  | .error e => { p with phase := .aborting (withContext ("Reader task failed for " ++ key) e) }

/-- The parts, as the last request lists them. -/
def listed (p : Pipeline) : List Nat := p.completedParts.insertionSort (· ≤ ·)

def completed (p : Pipeline) (key : String) (left : Nat) (r : Except SdkError Unit) : Pipeline :=
  match attempted left r with
  | .ended (.ok _) => { p with phase := .returned p.uploaded }
  | .ended (.error e) =>
    { p with
      phase := .aborting (withContext ("Failed to complete multipart upload for " ++ key) e) }
  | .again left => { p with phase := .completing left }

/-- The loop waits for a part upload: there are as many as there may be, or the
channel is done with. -/
def Joins (p : Pipeline) (storage : Storage) : Prop :=
  match p.phase with
  | .receiving => storage.multipartPartConcurrency ≤ p.tasks.length
  | .draining => True
  | _ => False

/-- One step of one task. -/
inductive Step (storage : Storage) (key : String) (chunkSize : Nat) :
    Pipeline → World → Pipeline → World → Prop
  | create {p : Pipeline} {w w' : World} {left : Nat} {r : Except SdkError UploadId}
      (hphase : p.phase = .creating left)
      (hans : S3Answers (.createMultipartUpload key) w r w') :
      Step storage key chunkSize p w
        ((p.created key left r).called (.createMultipartUpload key) r) w'
  | fill {p : Pipeline} {w : World} {reader : Reader} {n : Nat}
      (hphase : p.phase.isCreating = false) (hproducer : p.producer = .reading reader n) :
      Step storage key chunkSize p w
        { p with producer := .filled n (fillBuffer chunkSize chunkSize reader) } w
  | send {p : Pipeline} {w : World} {reader : Reader} {part : Part}
      (hphase : p.phase.isOpen = true) (hproducer : p.producer = .sending reader part)
      (hroom : p.channel.length < READ_AHEAD_CHUNKS) :
      Step storage key chunkSize p w
        { p with channel := p.channel ++ [part], producer := .sent chunkSize reader part } w
  | sendClosed {p : Pipeline} {w : World} {reader : Reader} {part : Part}
      (hphase : p.phase.isOpen = false) (hcreated : p.phase.isCreating = false)
      (hproducer : p.producer = .sending reader part) :
      Step storage key chunkSize p w { p with producer := .ended (.ok ()) } w
  | recv {p : Pipeline} {w : World} {part : Part} {rest : List Part}
      (hphase : p.phase = .receiving) (hroom : p.tasks.length < storage.multipartPartConcurrency)
      (hchannel : p.channel = part :: rest) :
      Step storage key chunkSize p w
        { p with
          channel := rest
          tasks := p.tasks ++ [⟨part, .running (s3RetryConfig.maxAttempts - 1)⟩] } w
  | closed {p : Pipeline} {w : World} {res : Except AnyError Unit}
      (hphase : p.phase = .receiving) (hroom : p.tasks.length < storage.multipartPartConcurrency)
      (hchannel : p.channel = []) (hproducer : p.producer = .ended res) :
      Step storage key chunkSize p w { p with phase := .awaitingReader } w
  | attempt {p : Pipeline} {w w' : World} {before after : List Task} {part : Part} {left : Nat}
      {r : Except SdkError Unit} (htasks : p.tasks = before ++ ⟨part, .running left⟩ :: after)
      (hans : S3Answers (.uploadPart key p.id part.1 part.2) w r w') :
      Step storage key chunkSize p w
        (called { p with tasks := before ++ ⟨part, .attempted left r⟩ :: after }
          (.uploadPart key p.id part.1 part.2) r) w'
  | join {p : Pipeline} {w : World} {before after : List Task} {part : Part}
      {res : Except AnyError Unit} (hjoins : p.Joins storage)
      (htasks : p.tasks = before ++ ⟨part, .finished res⟩ :: after) :
      Step storage key chunkSize p w (joined { p with tasks := before ++ after } part res) w
  | joinReader {p : Pipeline} {w : World} {res : Except AnyError Unit}
      (hphase : p.phase = .awaitingReader) (hproducer : p.producer = .ended res) :
      Step storage key chunkSize p w (p.readerJoined key res) w
  | drained {p : Pipeline} {w : World} (hphase : p.phase = .draining) (htasks : p.tasks = []) :
      Step storage key chunkSize p w
        { p with phase := .completing (s3RetryConfig.maxAttempts - 1) } w
  | complete {p : Pipeline} {w w' : World} {left : Nat} {r : Except SdkError Unit}
      (hphase : p.phase = .completing left)
      (hans : S3Answers (.completeMultipartUpload key p.id p.listed) w r w') :
      Step storage key chunkSize p w
        ((p.completed key left r).called (.completeMultipartUpload key p.id p.listed) r) w'
  /-- A failing abort is printed and dropped. -/
  | abort {p : Pipeline} {w w' : World} {e : AnyError} {r : Except SdkError Unit}
      (hphase : p.phase = .aborting e)
      (hans : S3Answers (.abortMultipartUpload key p.id) w r w') :
      Step storage key chunkSize p w
        (called { p with phase := .failed e } (.abortMultipartUpload key p.id) r) w'

/-- Any number of steps. -/
def Run (storage : Storage) (key : String) (chunkSize : Nat) :
    Pipeline × World → Pipeline × World → Prop :=
  Relation.ReflTransGen fun s s' => Step storage key chunkSize s.1 s.2 s'.1 s'.2

end Pipeline

end Chbk
