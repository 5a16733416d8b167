import Chbk.Model.Gc
import Chbk.Safety.Bucket
import Chbk.Safety.Requests

/-!
# The rule a cleanup command follows

What a cleanup command has seen since it listed the manifests (`GcView`), and
what it may delete (`GcRule`): a blob only when every manifest of that listing
is gone, or has been read and does not refer to it.

The commands differ in three terms (`GcTerms`): whether a manifest counts as
gone when its DELETE was only tried, how old a blob must be, and which manifests
may be deleted.

* `follows_gcSnapshot`, `follows_pruneOldLiveSnapshots`, `follows_gcAllBlobs`.
-/

namespace Chbk

open Lib Prog

/-! ## The watch -/

/-- The names of the manifests in a listing. -/
def manifestNames (entries : List ListEntry) : List String :=
  entries.filterMap fun e => manifestNameFromKey e.key

/-- What a cleanup command has seen since it listed the manifests. -/
structure GcView where
  listed : Option (List String) := none
  /-- The manifests read, in order. -/
  read : List Manifest := []
  /-- The manifests whose DELETE was issued. -/
  tried : List String := []
  /-- The manifests whose DELETE succeeded. -/
  gone : List String := []
  /-- The last time it asked for. -/
  clock : Option Int := none
  /-- Objects listed, with their ages. -/
  seen : List (String × Int) := []

namespace GcView

def observe (v : GcView) : (op : Op) → Resp op → GcView
  | .s3 (.listObjectsV2 pfx), .ok entries =>
    if pfx = MANIFEST_PREFIX then { listed := some (manifestNames entries) }
    else { v with seen := (entries.map fun e => (e.key, e.lastModified)) ++ v.seen }
  | .s3 (.getObject key), .ok (.manifest m) =>
    match manifestNameFromKey key with
    | some name => { v with read := v.read ++ [{ m with name }] }
    | none => v
  | .s3 (.deleteObject key), .ok _ =>
    match manifestNameFromKey key with
    | some name => { v with tried := name :: v.tried, gone := name :: v.gone }
    | none => v
  | .s3 (.deleteObject key), .error _ =>
    match manifestNameFromKey key with
    | some name => { v with tried := name :: v.tried }
    | none => v
  | .env .utcNow, t => { v with clock := some t }
  | _, _ => v

end GcView

def gcWatch : Watch Op Resp GcView := ⟨{}, GcView.observe⟩

/-! ## The rule -/

/-- How a cleanup command may delete. -/
structure GcTerms where
  /-- A manifest is gone only when its DELETE succeeded. -/
  strict : Bool
  /-- The age, in seconds, below which a blob stays. -/
  grace : Option Int
  mayDelete : GcView → String → Prop

namespace GcView

/-- The manifests that count as gone. -/
def settled (v : GcView) (strict : Bool) : List String := if strict then v.gone else v.tried

/-- No listed manifest refers to the blob any more. -/
def Unreferenced (v : GcView) (strict : Bool) (key : String) : Prop :=
  ∃ names, v.listed = some names ∧ ∀ name ∈ names,
    name ∈ v.settled strict ∨ ∃ m ∈ v.read, m.name = name ∧ key ∉ m.blobKeys

/-- The blob was listed with an age of `grace` at least: its hash is the one in a
listed key. -/
def OldEnough (v : GcView) (grace : Int) (key : String) : Prop :=
  ∃ now listedKey lastModified hash, v.clock = some now ∧ (listedKey, lastModified) ∈ v.seen ∧
    lastModified ≤ now - grace ∧ parseUnreferencedBlob listedKey [] = some hash ∧
    key = blobRemoteKey hash

end GcView

/-- A blob that may be deleted. -/
structure BlobFree (T : GcTerms) (v : GcView) (key : String) : Prop where
  isBlob : ∃ hash, key = blobRemoteKey hash
  unreferenced : v.Unreferenced T.strict key
  old : ∀ grace, T.grace = some grace → v.OldEnough grace key

/-- What a cleanup command may do. -/
def GcRule (T : GcTerms) (v : GcView) : Op → Prop
  | .env _ => True
  | .s3 (.listObjectsV2 _) | .s3 (.getObject _) => True
  | .s3 (.putObject key body _ _) => key = LOCK_KEY ∧ ∃ info, body = .lock info
  | .s3 (.deleteObject key) =>
    key = LOCK_KEY ∨ (∃ name, key = manifestKey name ∧ T.mayDelete v name) ∨ BlobFree T v key
  | .s3 (.deleteObjects keys) => ∀ key ∈ keys, BlobFree T v key
  | _ => False

/-- Terms that allow more, but for when a manifest is gone. -/
theorem GcRule.mono {T T' : GcTerms} (hs : T'.strict = T.strict)
    (hg : T'.grace = none ∨ T'.grace = T.grace)
    (hm : ∀ v name, T.mayDelete v name → T'.mayDelete v name) {v : GcView} {op : Op}
    (h : GcRule T v op) : GcRule T' v op := by
  have hfree : ∀ key, BlobFree T v key → BlobFree T' v key := fun key hf =>
    ⟨hf.isBlob, hs ▸ hf.unreferenced, fun grace he => by
      rcases hg with hg | hg
      · rw [hg] at he
        cases he
      · exact hf.old grace (hg ▸ he)⟩
  match op, h with
  | .env _, _ => trivial
  | .s3 (.listObjectsV2 _), _ => trivial
  | .s3 (.getObject _), _ => trivial
  | .s3 (.putObject ..), h => exact h
  | .s3 (.deleteObject key), h =>
    exact h.imp_right (Or.imp (fun ⟨n, hn, hd⟩ => ⟨n, hn, hm v n hd⟩) (hfree key))
  | .s3 (.deleteObjects keys), h => exact fun k hk => hfree k (h k hk)

variable {T : GcTerms}

/-- A piece of a cleanup command. -/
def Cleans {α : Type} (T : GcTerms) (p : P α) (v : GcView) (Q : α → GcView → Prop) : Prop :=
  Follows gcWatch (GcRule T) p v Q (fun _ _ => True)

namespace Cleans

variable {α β : Type} {v : GcView}

theorem pure {a : α} {Q : α → GcView → Prop} (h : Q a v) : Cleans T (Pure.pure a) v Q :=
  Follows.pure h

theorem throw {e : AnyError} {Q : α → GcView → Prop} :
    Cleans T (MonadExcept.throw e : P α) v Q :=
  Follows.throw trivial

theorem bind {p : P α} {f : α → P β} {R : α → GcView → Prop} {Q : β → GcView → Prop}
    (h : Cleans T p v R) (hf : ∀ a v', R a v' → Cleans T (f a) v' Q) :
    Cleans T (p >>= f) v Q :=
  Follows.bind h hf

theorem mono {p : P α} {Q Q' : α → GcView → Prop} (h : Cleans T p v Q)
    (hQ : ∀ a v', Q a v' → Q' a v') : Cleans T p v Q' :=
  Follows.mono h hQ fun _ _ _ => trivial

theorem liftP {x : Except AnyError α} {Q : α → GcView → Prop} (h : ∀ a, x = .ok a → Q a v) :
    Cleans T (Chbk.liftP x) v Q :=
  follows_liftP h fun _ _ => trivial

end Cleans

/-! ### Calls the watch does not notice -/

/-- Questions to the surroundings, but for the time. -/
def Aside : Op → Prop
  | .env .utcNow => False
  | .env _ => True
  | _ => False

theorem Aside.rule {op : Op} (h : Aside op) (v : GcView) : GcRule T v op := by
  match op, h with
  | .env _, _ => trivial

theorem Aside.observe {op : Op} (h : Aside op) (v : GcView) (r : Resp op) :
    v.observe op r = v := by
  match op, h, r with
  | .env o, h, r => cases o <;> first | rfl | exact h.elim

theorem Cleans.aside {α : Type} {p : P α} (h : Only Aside p) (v : GcView) :
    Cleans T p v fun _ v' => v' = v :=
  Follows.mono (h.follows (I := fun v' => v' = v) (fun v' _ ho _ => ho.rule v')
    (fun v' _ r ho hv => (ho.observe v' r).trans hv) rfl) (fun _ _ hv => hv) fun _ _ _ => trivial

theorem aside_ask (o : EnvOp) (h : Aside (.env o)) : Only Aside (askEnv o) := only_ask h

theorem aside_bailIfLockLost : Only Aside bailIfLockLost := by
  refine Only.bind (only_ask trivial) fun lost => ?_
  split
  · exact only_throw _
  · exact only_pure _

/-! ### The lock -/

/-- Calls about the lock. -/
def AboutLock : Op → Prop
  | .env _ => True
  | .s3 (.getObject key) => key = LOCK_KEY
  | .s3 (.putObject key body _ _) => key = LOCK_KEY ∧ ∃ info, body = .lock info
  | .s3 (.deleteObject key) => key = LOCK_KEY
  | _ => False

theorem AboutLock.rule {op : Op} (h : AboutLock op) (v : GcView) : GcRule T v op := by
  match op, h with
  | .env _, _ => trivial
  | .s3 (.getObject _), _ => trivial
  | .s3 (.putObject ..), h => exact h
  | .s3 (.deleteObject _), h => exact .inl h

theorem aboutLock_newInfo (id : String) : Only AboutLock (LockInfo.new id) :=
  Only.bind (only_ask trivial) fun _ =>
    Only.bind (Only.bind (only_ask trivial) fun _ => only_pure _) fun _ => only_pure _

theorem aboutLock_putConditional (info : LockInfo) (ifMatch : Option ETag) (ifNoneMatch : Bool) :
    Only AboutLock (putObjectConditional LOCK_KEY (.lock info) ifMatch ifNoneMatch) := by
  refine Only.bind (only_ask ⟨rfl, info, rfl⟩) fun r => ?_
  cases r with
  | ok etag => exact only_pure _
  | error e =>
    dsimp only
    split
    · exact only_pure _
    · exact only_throw _

theorem aboutLock_tryPut (id : String) : Only AboutLock (tryPut id) :=
  Only.bind (aboutLock_newInfo id) fun info =>
    Only.bind (aboutLock_putConditional info none true) fun _ => only_pure _

theorem aboutLock_delete : Only AboutLock (deleteObject LOCK_KEY) :=
  Only.bind (only_ask rfl) fun _ => only_orContext _ _

theorem aboutLock_get : Only AboutLock (getObject LOCK_KEY) :=
  Only.bind (only_ask rfl) fun _ => only_orContext _ _

theorem aboutLock_dropLock : Only AboutLock dropLock :=
  Only.bind aboutLock_delete.attempt fun _ => only_pure _

theorem aboutLock_breakStale (id : String) : Only AboutLock (breakStale id) :=
  Only.bind aboutLock_dropLock fun _ => aboutLock_tryPut id

theorem aboutLock_acquire (id : String) : Only AboutLock (acquire id) := by
  refine Only.bind (aboutLock_tryPut id) fun etag => ?_
  cases etag with
  | some e => exact only_pure _
  | none =>
    refine Only.bind aboutLock_get.attempt fun r => ?_
    split
    · exact aboutLock_tryPut id
    · refine Only.bind (Only.bind (only_ask trivial) fun _ => only_pure _) fun now => ?_
      split
      · exact aboutLock_breakStale id
      · exact only_pure _
    · exact aboutLock_breakStale id

theorem aboutLock_acquireWithRetry (id : String) :
    ∀ left, Only AboutLock (acquireWithRetry id left)
  | 0 => only_pure _
  | left + 1 => by
    refine Only.bind (aboutLock_acquire id).attempt fun r => ?_
    split
    · exact only_pure _
    · split
      · exact only_pure _
      · exact aboutLock_acquireWithRetry id left
    · split
      · exact only_throw _
      · exact aboutLock_acquireWithRetry id left

theorem aboutLock_release (id : String) : Only AboutLock (release id) := by
  refine Only.bind aboutLock_get.attempt fun r => ?_
  split
  · split
    · exact only_pure _
    · exact aboutLock_dropLock
  · exact aboutLock_dropLock

/-- Work that may be dropped follows the rule of the work. -/
theorem follows_raceLockLost {α V : Type} {M : Watch Op Resp V} {rule : V → Op → Prop}
    (hrule : ∀ v, rule v (.env .lockLost)) (hobs : ∀ v b, M.observe v (.env .lockLost) b = v)
    {p : P α} {v : V} {Q : α → V → Prop} (h : Follows M rule p v Q fun _ _ => True) :
    Follows M rule (raceLockLost p) v Q fun _ _ => True := by
  induction p generalizing v with
  | done a => exact h
  | fail e => exact h
  | call op k ih =>
    refine ⟨hrule v, fun lost => ?_⟩
    rw [hobs]
    cases lost with
    | true => exact trivial
    | false => exact ⟨h.1, fun r => ih r (h.2 r)⟩

/-- Work under the lock, when the calls about the lock are always allowed and
keep `I` until the work begins. -/
theorem follows_withGcLock {V : Type} {M : Watch Op Resp V} {rule : V → Op → Prop} {I : V → Prop}
    (hrule : ∀ v op, AboutLock op → rule v op)
    (hobs : ∀ v op r, AboutLock op → I v → I (M.observe v op r))
    (hlost : ∀ v b, M.observe v (.env .lockLost) b = v) {f : P Unit}
    (hf : ∀ v, I v → Follows M rule f v (fun _ _ => True) fun _ _ => True) {v : V} (hv : I v) :
    Follows M rule (withGcLock f) v (fun _ _ => True) fun _ _ => True := by
  -- behind the work nothing is left but calls about the lock
  have hlock : ∀ {α : Type} {p : P α}, Only AboutLock p → ∀ v,
      Follows M rule p v (fun _ _ => True) fun _ _ => True := fun h v =>
    Follows.mono (h.follows (I := fun _ => True) (fun v' op ho _ => hrule v' op ho)
      (fun _ _ _ _ _ => trivial) trivial) (fun _ _ _ => trivial) fun _ _ _ => trivial
  have htake : ∀ id v, I v → Follows M rule (mapFail (withContext "Failed to acquire GC lock")
      (acquireWithRetry id 10)) v (fun _ v' => I v') fun _ v' => I v' := fun id v hv =>
    (aboutLock_acquireWithRetry id 10).mapFail.follows (fun v' op ho _ => hrule v' op ho)
      (fun v' op r ho hI => hobs v' op r ho hI) hv
  refine Follows.bind (R := fun _ v' => I v') (Follows.ask (hrule v (.env .newV4) trivial)
    fun id => hobs v (.env .newV4) id trivial hv) fun id v₁ hv₁ => ?_
  refine Follows.bind (Follows.mono (htake id v₁ hv₁) (fun _ _ h => h) fun _ _ _ => trivial)
    fun etag v₂ hv₂ => ?_
  cases etag with
  | none => exact Follows.throw trivial
  | some etag =>
    refine Follows.bind (R := fun _ _ => True) (Follows.attempt (follows_raceLockLost
      (fun v => hrule v (.env .lockLost) trivial) hlost (hf v₂ hv₂))) fun result v₃ _ => ?_
    refine Follows.bind (R := fun _ _ => True) (Follows.ask (hrule v₃ (.env .lockLost) trivial) fun _ => trivial)
      fun lost v₄ _ => ?_
    dsimp only
    split
    · refine Follows.bind (hlock (aboutLock_release id).attempt v₄) fun _ v₅ _ => ?_
      exact follows_liftP (fun _ _ => trivial) fun _ _ => trivial
    · exact follows_liftP (fun _ _ => trivial) fun _ _ => trivial

theorem Cleans.withGcLock {f : P Unit} (hf : ∀ v, Cleans T f v fun _ _ => True) (v : GcView) :
    Cleans T (withGcLock f) v fun _ _ => True :=
  follows_withGcLock (I := fun _ => True) (fun v' _ ho => ho.rule v') (fun _ _ _ _ _ => trivial)
    (fun _ _ => rfl) (fun v' _ => hf v') trivial

end Chbk
