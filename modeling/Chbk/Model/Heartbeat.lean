import Chbk.Lib.Run
import Chbk.Model.Gc

/-!
# `with_gc_lock` and its heartbeat

A GC instance as the two tasks it is made of: the one that takes the lock, works
and gives the lock back, and the one of `spawn_heartbeat`, which refreshes the
lock until it is stopped or the lock is lost.

* `Heartbeat` — where the loop of the second task is.
* `GcInstance` — the instance, with its `lost` token.
* `GcInstance.Step` — one call of either task, or a step between two calls. What
  the code does between two calls is part of the first one's step.

The first task is `withGcLock`, cut where it meets the other one. Beside what the
code holds, an instance carries two records of its past: the ETag of the lock
object it has last written, and the time of its last success.
-/

namespace Chbk

open Lib

def HEARTBEAT_SECS : UInt64 := 30

-- ---------------------------------------------------------------------------
-- Tasks
-- ---------------------------------------------------------------------------

/-- Where the loop of `spawn_heartbeat` is, with the ETag it holds. -/
inductive Heartbeat where
  /-- In `sleep`, from this time on. -/
  | sleeping (etag : ETag) (since : Int)
  /-- In `refresh`, from this time on. -/
  | refreshing (etag : ETag) (since : Int) (p : Proc Op Resp AnyError (Option ETag))

/-- How far `with_gc_lock` is. -/
inductive Stage where
  | acquiring (p : Proc Op Resp AnyError (Option ETag))
  | holding (work : Proc Op Resp AnyError Unit)
  /-- The heartbeat is told to stop, and awaited. -/
  | stopping (result : Except AnyError Unit)
  | releasing (p : Proc Op Resp AnyError Unit) (result : Except AnyError Unit)
  | ended (result : Except AnyError Unit)

structure GcInstance where
  id : String
  stage : Stage
  heartbeat : Option Heartbeat := none
  /-- The token is cancelled. -/
  lost : Bool := false
  /-- The ETag of the lock object this instance has last written. -/
  written : Option ETag := none
  /-- The time of its last successful acquire or refresh. -/
  lastOk : Int := 0

/-- How the calls of the work are answered: a cancelled token may be seen late,
but none is seen that is not. -/
def WorkAnswers (lost : Bool) : (op : Op) → World → Resp op → World → Prop
  | .env .lockLost, w, seen, w' => (seen = true → lost = true) ∧ w' = w
  | op, w, r, w' => Answers op w r w'

namespace GcInstance

/-- The instance behind `Uuid::new_v4`. -/
def start (id : String) : GcInstance where
  id := id
  stage := .acquiring ⟨acquireWithRetry id 10, []⟩

/-- Keep the ETag a PUT has given the lock object. -/
def note (op : Op) (w w' : World) (i : GcInstance) : GcInstance :=
  match op with
  | .s3 (.putObject ..) => if w'.fresh = w.fresh then i else { i with written := some w.fresh }
  | _ => i

/-- Go on in `acquire_with_retry`, or with what it returns. -/
def acquired (f : P Unit) (p : Proc Op Resp AnyError (Option ETag)) (now : Int)
    (i : GcInstance) : GcInstance :=
  match p.outcome? with
  | none => { i with stage := .acquiring p }
  | some (.ok (some etag)) => { i with
      stage := .holding ⟨raceLockLost f, []⟩
      heartbeat := some (.sleeping etag now)
      lastOk := now }
  | some (.ok none) => { i with
      stage := .ended (.error
        ["Could not acquire GC lock - another operation may be running"]) }
  | some (.error e) => { i with
      stage := .ended (.error (withContext "Failed to acquire GC lock" e)) }

/-- Go on in `refresh`, or with the arm of the loop for what it returns. -/
def refreshed (etag : ETag) (since : Int) (p : Proc Op Resp AnyError (Option ETag)) (now : Int)
    (i : GcInstance) : GcInstance :=
  match p.outcome? with
  | none => { i with heartbeat := some (.refreshing etag since p) }
  | some (.ok (some newEtag)) => { i with
      heartbeat := some (.sleeping newEtag now)
      lastOk := now }
  | some (.ok none) => { i with heartbeat := none, lost := true }
  | some (.error _) => { i with heartbeat := some (.sleeping etag now) }

/-- Go on in `release`; its failure is printed and dropped. -/
def released (p : Proc Op Resp AnyError Unit) (result : Except AnyError Unit)
    (i : GcInstance) : GcInstance :=
  { i with stage := if p.outcome?.isSome then .ended result else .releasing p result }

/-- The heartbeat has ended; the lock is given back unless it is lost. -/
def stopped (result : Except AnyError Unit) (i : GcInstance) : GcInstance :=
  { i with
    heartbeat := none
    stage := if i.lost then .ended result else .releasing ⟨release i.id, []⟩ result }

/-- The heartbeat is in `refresh`. -/
def Refreshing (i : GcInstance) : Prop := ∃ etag since p, i.heartbeat = some (.refreshing etag since p)

end GcInstance

-- ---------------------------------------------------------------------------
-- Steps
-- ---------------------------------------------------------------------------

/-- What a step of an instance is: a call of one of the tasks, the end of the
sleep, the end of the work, or the end of the heartbeat. -/
inductive Move where
  | task (c : Called Op Resp)
  | heartbeat (c : Called Op Resp)
  | wake
  | workEnds
  | stop

/-- One step of an instance that works `f` under the lock. -/
inductive GcInstance.Step (f : P Unit) :
    GcInstance → World → Move → GcInstance → World → Prop
  | acquire {i : GcInstance} {w w' : World} {p p' : Proc Op Resp AnyError (Option ETag)}
      {c : Called Op Resp} (hs : i.stage = .acquiring p) (hc : p'.hist = c :: p.hist)
      (hstep : p.Step Answers w p' w') :
      Step f i w (.task c) ((i.note c.1 w w').acquired f p' w'.now) w'
  | work {i : GcInstance} {w w' : World} {p p' : Proc Op Resp AnyError Unit}
      {c : Called Op Resp} (hs : i.stage = .holding p) (hc : p'.hist = c :: p.hist)
      (hstep : p.Step (WorkAnswers i.lost) w p' w') :
      Step f i w (.task c) { i with stage := .holding p' } w'
  | workEnds {i : GcInstance} {w : World} {p : Proc Op Resp AnyError Unit}
      {result : Except AnyError Unit} (hs : i.stage = .holding p)
      (hresult : p.outcome? = some result) :
      Step f i w .workEnds { i with stage := .stopping result } w
  | stop {i : GcInstance} {w : World} {result : Except AnyError Unit}
      (hs : i.stage = .stopping result) (hidle : ¬ i.Refreshing) :
      Step f i w .stop (i.stopped result) w
  | release {i : GcInstance} {w w' : World} {p p' : Proc Op Resp AnyError Unit}
      {c : Called Op Resp} {result : Except AnyError Unit} (hs : i.stage = .releasing p result)
      (hc : p'.hist = c :: p.hist) (hstep : p.Step Answers w p' w') :
      Step f i w (.task c) (i.released p' result) w'
  | wake {i : GcInstance} {w : World} {etag : ETag} {since : Int}
      (hb : i.heartbeat = some (.sleeping etag since))
      (hdue : since + HEARTBEAT_SECS.toNat ≤ w.now) :
      Step f i w .wake
        { i with heartbeat := some (.refreshing etag w.now ⟨refresh i.id etag, []⟩) } w
  | refresh {i : GcInstance} {w w' : World} {etag : ETag} {since : Int}
      {p p' : Proc Op Resp AnyError (Option ETag)} {c : Called Op Resp}
      (hb : i.heartbeat = some (.refreshing etag since p)) (hc : p'.hist = c :: p.hist)
      (hstep : p.Step Answers w p' w') :
      Step f i w (.heartbeat c) ((i.note c.1 w w').refreshed etag since p' w'.now) w'

end Chbk
