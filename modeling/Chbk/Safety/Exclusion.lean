import Chbk.Safety.Heartbeat
import Chbk.Safety.Reading

/-!
# One holder at a time

Any number of GC instances, step by step, over one lock object. An instance holds
the lock from a successful acquire to the end of its work.

* `exists_work` — each cleanup command works under the lock, and its work leaves
  the lock object alone.
* `Owned` — a holder has the lock object, with the ETag it knows.
* `Rivals.Inv.step` — the invariant of all instances, over every step.
* `exclusive_run` — when at most one live instance holds the lock.
* `two_holders` — two instances that find the same stale lock.
-/

namespace Chbk

open Lib Prog

-- ---------------------------------------------------------------------------
-- The work leaves the lock object alone
-- ---------------------------------------------------------------------------

/-- Calls that cannot change the lock object. -/
def SparesLock : Op → Prop
  | .s3 (.deleteObject key) => key ≠ LOCK_KEY
  | .s3 (.deleteObjects keys) => LOCK_KEY ∉ keys
  | op => Reads op

theorem Reads.sparesLock {op : Op} (h : Reads op) : SparesLock op := by
  match op, h with
  | .env _, h => exact h
  | .s3 (.listObjectsV2 _), h => exact h
  | .s3 (.headObject _), h => exact h
  | .s3 (.getObject _), h => exact h

theorem sparesLock_of_reads {α : Type} {p : P α} (h : Only Reads p) : Only SparesLock p :=
  h.mono fun _ ho => ho.sparesLock

theorem sparesLock_deleteBlobs (hashes : List String) :
    Only SparesLock (deleteObjectsBulk (hashes.map blobRemoteKey)) := by
  have hblob : LOCK_KEY ∉ hashes.map blobRemoteKey := by
    intro hmem
    obtain ⟨hash, -, he⟩ := List.mem_map.mp hmem
    exact blobRemoteKey_ne_lock hash he
  refine (only_deleteObjectsBulk _).mono fun op ho => ?_
  match op, ho with
  | .s3 (.deleteObject key), ho => exact fun he => hblob (he ▸ ho)
  | .s3 (.deleteObjects keys), ho => exact fun he => hblob (ho _ he)
  | .env .order, _ => trivial

theorem sparesLock_deleteExclusiveBlobs (hashes : List String) :
    Only SparesLock (deleteExclusiveBlobs hashes) := by
  rcases deleteExclusiveBlobs_cases hashes with ⟨-, heq⟩ | ⟨-, msg, k, heq⟩
  · rw [heq]
    exact (sparesLock_deleteBlobs hashes).bind fun _ => only_pure _
  · rw [heq]
    exact ⟨trivial, fun r => r.elim⟩

theorem sparesLock_deleteManifest (name : String) : Only SparesLock (deleteManifest name) :=
  Only.mapFail (Only.bind (only_ask (manifestKey_ne_lock name)) fun _ => only_orContext _ _)

theorem sparesLock_pruneManifest (name : String) : Only SparesLock (pruneManifest name) :=
  (sparesLock_of_reads reads_bailIfLockLost).bind fun _ =>
    (sparesLock_deleteManifest name).attempt.bind fun _ => only_pure _

theorem reads_exclusiveHashes (target other : List String) :
    Only Reads (exclusiveHashes target other) :=
  (reads_env _).bind fun _ => only_pure _

theorem reads_unionHashesForNames (names : List String) :
    Only Reads (unionHashesForNames names) := by
  refine (reads_env _).bind fun order => ?_
  refine (only_collect fun n _ => (only_readManifest trivial).attempt).bind fun results => ?_
  exact (only_collect fun r _ => only_liftP r).bind fun _ => only_pure _

theorem exists_work_rmSnapshot (name : String) (dryRun : Bool) :
    ∃ f, gcSnapshot name dryRun = withGcLock f ∧ Only SparesLock f := by
  refine ⟨_, rfl, ?_⟩
  refine (sparesLock_of_reads (only_readManifest trivial).mapFail).bind fun target => ?_
  refine (sparesLock_of_reads (only_listManifestNames trivial)).bind fun names => ?_
  refine (sparesLock_of_reads (reads_unionHashesForNames _)).bind fun others => ?_
  refine (sparesLock_of_reads (reads_exclusiveHashes _ _)).bind fun exclusive => ?_
  split
  · refine (sparesLock_of_reads (reads_printEach _ _)).bind fun _ => ?_
    exact (sparesLock_of_reads (reads_printEach _ _)).bind fun _ => only_pure _
  · refine (sparesLock_of_reads reads_bailIfLockLost).bind fun _ => ?_
    refine (sparesLock_deleteManifest name).bind fun _ => ?_
    split
    · exact (sparesLock_of_reads reads_bailIfLockLost).bind fun _ =>
        sparesLock_deleteExclusiveBlobs _
    · exact only_pure _

theorem exists_work_gcLive (all : UInt64) (daily : Option UInt64) (now : Int) (dryRun : Bool) :
    ∃ f, pruneOldLiveSnapshots all daily now dryRun = withGcLock f ∧ Only SparesLock f := by
  refine ⟨_, rfl, ?_⟩
  refine (sparesLock_of_reads (only_readAllManifests trivial (fun _ => trivial) trivial)).bind
    fun ms => ?_
  dsimp only
  split
  · exact only_pure _
  refine (sparesLock_of_reads (reads_exclusiveHashes _ _)).bind fun exclusive => ?_
  refine (sparesLock_of_reads (reads_env _)).bind fun order => ?_
  split
  · refine (sparesLock_of_reads (reads_printEach _ _)).bind fun _ => ?_
    exact (sparesLock_of_reads (reads_printEach _ _)).bind fun _ => only_pure _
  · refine (only_collect fun name _ => sparesLock_pruneManifest name).bind fun _ => ?_
    split
    · exact (sparesLock_of_reads reads_bailIfLockLost).bind fun _ =>
        sparesLock_deleteExclusiveBlobs _
    · exact only_pure _

/-! ### The scan of `gc-all` -/

theorem sparesLock_deleteOrReport (batch : List String) (dryRun : Bool) :
    Only SparesLock (deleteOrReportBatch batch dryRun) := by
  unfold deleteOrReportBatch
  split
  · exact only_pure _
  · exact (sparesLock_deleteBlobs batch).bind fun _ => only_pure _

theorem sparesLock_consumePending (referenced : List BlobHash) (cutoff : Int) (dryRun : Bool)
    (n : Nat) (scan : Scan) : Only SparesLock (consumePending referenced cutoff dryRun n scan) := by
  refine (only_foldl fun batch hash _ => ?_).bind fun _ => only_pure _
  unfold pushOrphan
  dsimp only
  split
  · exact (sparesLock_of_reads reads_bailIfLockLost).bind fun _ =>
      (sparesLock_deleteOrReport _ _).bind fun _ => only_pure _
  · exact only_pure _

theorem sparesLock_scanShard (referenced : List BlobHash) (cutoff : Int) (dryRun : Bool)
    (scan : Scan) (shard : Nat) :
    Only SparesLock (scanShard referenced cutoff dryRun scan shard) := by
  refine (sparesLock_of_reads (reads_env _)).bind fun n => ?_
  refine (sparesLock_consumePending referenced cutoff dryRun n scan).bind fun scan' => ?_
  have hlist : Only Reads (listObjects (shardPrefix shard)) := by
    refine Only.bind (only_ask trivial) fun r => ?_
    cases r with
    | ok entries => exact only_pure _
    | error e => exact only_throw _
  refine (sparesLock_of_reads hlist.attempt).bind fun r => ?_
  cases r with
  | ok entries => exact only_pure _
  | error e => exact only_pure _

/-- The work of `gc-all`. -/
def gcAllWork (dryRun : Bool) (hours : UInt64) : P Unit := do
  let referenced ← referencedBlobHashes
  remoteScanAndDelete (referenced.filterMap fromHex) dryRun hours

theorem gcAllBlobs_eq (dryRun : Bool) (hours : UInt64) :
    gcAllBlobs dryRun hours = withGcLock (gcAllWork dryRun hours) := rfl

theorem sparesLock_gcAllWork (dryRun : Bool) (hours : UInt64) :
    Only SparesLock (gcAllWork dryRun hours) := by
  have hhashes : Only Reads referencedBlobHashes :=
    (only_readAllManifests trivial (fun _ => trivial) trivial).bind fun _ => only_pure _
  refine (sparesLock_of_reads hhashes).bind fun referenced => ?_
  have hcutoff : Only Reads (graceCutoff hours) := by
    refine (reads_env _).bind fun now => ?_
    dsimp only
    split
    · exact (reads_env _).bind fun never => never.elim
    · split
      · exact (reads_env _).bind fun never => never.elim
      · exact only_pure _
  refine (sparesLock_of_reads hcutoff).bind fun cutoff => ?_
  refine (sparesLock_of_reads (reads_env _)).bind fun order => ?_
  refine (only_foldl fun scan shard _ => sparesLock_scanShard _ cutoff dryRun scan shard).bind
    fun scan => ?_
  refine (sparesLock_consumePending _ cutoff dryRun _ scan).bind fun scan' => ?_
  split
  · exact (sparesLock_of_reads reads_bailIfLockLost).bind fun _ => sparesLock_deleteOrReport _ _
  · exact only_pure _

/-- Every cleanup command works under the lock and leaves the lock object alone. -/
theorem exists_work (cmd : GcCommand) : ∃ f, cmd.prog = withGcLock f ∧ Only SparesLock f := by
  cases cmd with
  | gcAll dryRun hours =>
    exact ⟨_, gcAllBlobs_eq dryRun hours, sparesLock_gcAllWork dryRun hours⟩
  | rmSnapshot name dryRun => exact exists_work_rmSnapshot name dryRun
  | gcLive all daily now dryRun => exact exists_work_gcLive all daily now dryRun

-- ---------------------------------------------------------------------------
-- The system
-- ---------------------------------------------------------------------------

/-- A live instance, with the work it has taken the lock for. -/
structure Rival where
  inst : GcInstance
  work : P Unit

/-- The instance is between a successful acquire and its release. -/
def GcInstance.Holds (i : GcInstance) : Prop :=
  (∃ p, i.stage = .holding p) ∨ ∃ result, i.stage = .stopping result

/-- The live instances and the bucket they share. -/
structure Rivals where
  world : World
  live : List Rival := []

namespace Rivals

inductive Label where
  | start
  | move (id : String) (m : Move)
  | crash
  | request (o : S3Op)
  | tick (now : Int)

/-- One step: an instance starts, moves or is gone, someone else sends a request
that is not about the lock, or time passes. -/
inductive Step : Rivals → Label → Rivals → Prop
  | start {s : Rivals} (cmd : GcCommand) {f : P Unit} (hcmd : cmd.prog = withGcLock f)
      (hspares : Only SparesLock f) {id : String} (hid : ∀ r ∈ s.live, r.inst.id ≠ id) :
      Step s .start { s with live := s.live ++ [⟨.start id, f⟩] }
  | move {s : Rivals} {before after : List Rival} {r : Rival} {m : Move} {i : GcInstance}
      {w : World} (hs : s.live = before ++ r :: after) (h : r.inst.Step r.work s.world m i w) :
      Step s (.move r.inst.id m) ⟨w, before ++ { r with inst := i } :: after⟩
  | crash {s : Rivals} {before after : List Rival} {r : Rival}
      (hs : s.live = before ++ r :: after) : Step s .crash { s with live := before ++ after }
  | request {s : Rivals} {o : S3Op} {x : Except SdkError (S3Ok o)} {w : World}
      (h : S3Answers o s.world x w) (hlock : w.get? LOCK_KEY = s.world.get? LOCK_KEY) :
      Step s (.request o) { s with world := w }
  | tick {s : Rivals} {now : Int} (hnow : s.world.now ≤ now) :
      Step s (.tick now) { s with world := { s.world with now } }

/-- A run whose steps are all `ok`. -/
def Run (ok : Rivals → Label → Prop) : Rivals → Rivals → Prop :=
  Relation.ReflTransGen fun s s' => ∃ l, s.Step l s' ∧ ok s l

/-- At most one live instance holds the lock. -/
def Exclusive (s : Rivals) : Prop := s.live.Pairwise fun a b => ¬ (a.inst.Holds ∧ b.inst.Holds)

/-- The lock object is a record of `id` that has not expired at `now`. -/
def Good (s : Rivals) (id : String) (now : Int) : Prop :=
  ∃ o info, s.world.get? LOCK_KEY = some o ∧ o.body = .lock info ∧ info.instanceId = id ∧
    info.isExpired now = false

/-- What the heartbeats promise: no record is put when it has expired, the PUT of a
refresh is answered by S3, and time does not pass the end of a holder's record. -/
def Promised (s : Rivals) : Label → Prop
  | .move _ (.task c) => ∀ key info ifMatch ifNoneMatch,
    c.1 = .s3 (.putObject key (.lock info) ifMatch ifNoneMatch) →
      info.isExpired s.world.now = false
  | .move _ (.heartbeat c) => (∀ key info ifMatch ifNoneMatch,
    c.1 = .s3 (.putObject key (.lock info) ifMatch ifNoneMatch) →
      info.isExpired s.world.now = false) ∧
      ∀ o : S3Op, c.1 = .s3 o → c = ⟨.s3 o, (o.perform s.world).1⟩
  | .tick now => ∀ r ∈ s.live, r.inst.Holds → s.Good r.inst.id s.world.now →
    s.Good r.inst.id now
  | _ => True

/-- A DELETE of the lock object finds no good record of another instance. -/
def Undisturbed (s : Rivals) : Label → Prop
  | .move id (.task c) => c.1 = .s3 (.deleteObject LOCK_KEY) →
    ∀ id', s.Good id' s.world.now → id' = id
  | _ => True

end Rivals

-- ---------------------------------------------------------------------------
-- What calls do to the lock object
-- ---------------------------------------------------------------------------

variable {w w' : World}

theorem get?_of_sparesLock {op : Op} {x : Resp op} (h : SparesLock op)
    (hans : Answers op w x w') : w'.get? LOCK_KEY = w.get? LOCK_KEY := by
  have hread : Reads op → w'.get? LOCK_KEY = w.get? LOCK_KEY := fun hr => by
    rw [hr.unchanged hans]
  have hgone : ∀ o : S3Op, (∃ x, S3Answers o w x w') → LOCK_KEY ∉ o.deletes →
      (∀ key body, ¬ o.Writes w key body) → w'.get? LOCK_KEY = w.get? LOCK_KEY := by
    intro o ⟨x, hx⟩ hdel hno
    cases (S3Answers.change hx).2 with
    | removes gone hsub hget => rw [hget, if_neg fun hmem => hdel (hsub _ hmem)]
    | writes key body hw hget => exact (hno key body hw).elim
  match op, x, h, hans with
  | .s3 (.deleteObject key), _, h, hans =>
    exact hgone _ ⟨_, hans⟩ (fun hmem => h (List.mem_singleton.mp hmem).symm) fun _ _ hw => hw
  | .s3 (.deleteObjects keys), _, h, hans => exact hgone _ ⟨_, hans⟩ h fun _ _ hw => hw
  | .env _, _, h, _ => exact hread h
  | .s3 (.listObjectsV2 _), _, h, _ => exact hread h
  | .s3 (.headObject _), _, h, _ => exact hread h
  | .s3 (.getObject _), _, h, _ => exact hread h

/-- An acquire or a release cannot change a lock object that it does not delete. -/
theorem get?_of_takesLock {id : String} {op : Op} {x : Resp op} (h : TakesLock id op)
    (hans : Answers op w x w') (hhas : w.Has LOCK_KEY)
    (hdel : op ≠ .s3 (.deleteObject LOCK_KEY)) : w'.get? LOCK_KEY = w.get? LOCK_KEY := by
  match op, x, h, hans with
  | .env _, _, _, hans => rw [hans.2]
  | .s3 (.getObject key), _, _, hans =>
    have hread : SparesLock (.s3 (.getObject key)) := trivial
    exact get?_of_sparesLock hread hans
  | .s3 (.deleteObject key), _, h, _ =>
    have hkey : key = LOCK_KEY := h
    exact (hdel (hkey ▸ rfl)).elim
  | .s3 (.putObject ..), _, h, hans =>
    obtain ⟨rfl, ⟨info, rfl, -⟩, rfl, rfl⟩ := h
    rcases put_cases hans with ⟨rfl, -⟩ | ⟨-, -, hwrites⟩
    · rfl
    · obtain ⟨o, ho⟩ := hhas
      cases ho.symm.trans (hwrites.2.2.2 rfl rfl)

-- ---------------------------------------------------------------------------
-- What holds of each instance
-- ---------------------------------------------------------------------------

/-- The lock object is the instance's, under the ETag its heartbeat holds, and has
not expired. -/
def Owned (i : GcInstance) (w : World) : Prop :=
  ∃ b o info, i.heartbeat = some b ∧ w.get? LOCK_KEY = some o ∧ o.etag = b.etag ∧
    o.body = .lock info ∧ info.instanceId = i.id ∧ info.isExpired w.now = false

structure Rival.Sound (r : Rival) (w : World) : Prop where
  tracks : Tracks r.inst w
  spares : Only SparesLock r.work
  works : ∀ p, r.inst.stage = .holding p → Only SparesLock p.prog
  releases : ∀ p result, r.inst.stage = .releasing p result →
    Only (TakesLock r.inst.id) p.prog
  quiet : ¬ r.inst.Holds → r.inst.heartbeat = none
  owned : r.inst.Holds → Owned r.inst w

theorem not_holds_start (id : String) : ¬ (GcInstance.start id).Holds := by
  rintro (⟨p, hp⟩ | ⟨result, hp⟩)
  · cases hp
  · cases hp

theorem sound_start {id : String} {f : P Unit} (hw : w.LockNumbered) (hf : Only SparesLock f) :
    Rival.Sound ⟨.start id, f⟩ w where
  tracks := tracks_start id hw
  spares := hf
  works p hp := by cases hp
  releases p result hp := by cases hp
  quiet _ := rfl
  owned h := (not_holds_start id h).elim

/-- A step of someone else that leaves a held lock object as it is. -/
theorem Rival.Sound.frame {r : Rival} (h : r.Sound w) (hw : Renews w w')
    (hget : r.inst.Holds → w'.get? LOCK_KEY = w.get? LOCK_KEY ∧ w'.now = w.now) :
    r.Sound w' where
  tracks := h.tracks.renews hw
  spares := h.spares
  works := h.works
  releases := h.releases
  quiet := h.quiet
  owned hh := by
    obtain ⟨b, o, info, hb, ho, hrest⟩ := h.owned hh
    obtain ⟨hsame, hnow⟩ := hget hh
    exact ⟨b, o, info, hb, hsame.trans ho, by rwa [hnow]⟩

/-- Work that may be dropped makes the calls of the work. -/
theorem sparesLock_raceLockLost {α : Type} {p : P α} (h : Only SparesLock p) :
    Only SparesLock (raceLockLost p) := by
  induction p with
  | done a => trivial
  | fail e => trivial
  | call op k ih =>
    refine ⟨trivial, fun lost => ?_⟩
    cases lost with
    | true => trivial
    | false => exact ⟨h.1, fun r => ih r (h.2 r)⟩

theorem takesLock_release (id : String) : Only (TakesLock id) (release id) := by
  refine takesLock_get.attempt.bind fun r => ?_
  split
  · split
    · exact only_pure _
    · exact takesLock_dropLock
  · exact takesLock_dropLock

/-- An instance without the lock. -/
theorem sound_of_idle {i : GcInstance} {f : P Unit} (ht : Tracks i w) (hf : Only SparesLock f)
    (hidle : ¬ i.Holds) (hquiet : i.heartbeat = none)
    (hrel : ∀ p result, i.stage = .releasing p result → Only (TakesLock i.id) p.prog) :
    Rival.Sound ⟨i, f⟩ w where
  tracks := ht
  spares := hf
  works p hp := (hidle (.inl ⟨p, hp⟩)).elim
  releases := hrel
  quiet _ := hquiet
  owned hh := (hidle hh).elim

theorem not_holds {i : GcInstance} (hwork : ∀ p, i.stage ≠ .holding p)
    (hstop : ∀ result, i.stage ≠ .stopping result) : ¬ i.Holds := by
  rintro (⟨p, hp⟩ | ⟨result, hp⟩)
  · exact hwork p hp
  · exact hstop result hp

/-- The call that has taken the lock has made the lock object. -/
theorem made_of_put {id : String} {op : Op} {x : Resp op} {v : Option ETag} {etag : ETag}
    (hrule : TakesLock id op) (hans : Answers op w x w')
    (hview : putWatch.observe v op x = some etag)
    (hput : ∀ key info ifMatch ifNoneMatch,
      op = .s3 (.putObject key (.lock info) ifMatch ifNoneMatch) → info.isExpired w.now = false) :
    ∃ o info, w'.get? LOCK_KEY = some o ∧ o.etag = etag ∧ o.body = .lock info ∧
      info.instanceId = id ∧ info.isExpired w'.now = false := by
  match op, x, hrule, hans, hview with
  | .s3 (.putObject ..), x, hrule, hans, hview =>
    obtain ⟨rfl, ⟨info, rfl, hid⟩, rfl, rfl⟩ := hrule
    have hfresh := hput _ _ _ _ rfl
    cases x with
    | error e => cases hview
    | ok etag' =>
      obtain rfl := Option.some.inj hview
      have hans : S3Answers (.putObject LOCK_KEY (.lock info) none true) w (.ok etag') w' := hans
      rcases put_cases hans with ⟨-, e, he⟩ | ⟨rfl, hetag, -⟩
      · cases he
      · exact ⟨⟨.lock info, w.fresh, w.now⟩, info, by simp, (hetag _ rfl).symm, rfl, hid, hfresh⟩

/-- A call of the acquire. -/
theorem Rival.Sound.acquire {r : Rival} (h : r.Sound w)
    {p p' : Proc Op Resp AnyError (Option ETag)} {c : Called Op Resp}
    (hs : r.inst.stage = .acquiring p) (hc : p'.hist = c :: p.hist)
    (hstep : p.Step Answers w p' w')
    (hput : ∀ key info ifMatch ifNoneMatch,
      c.1 = .s3 (.putObject key (.lock info) ifMatch ifNoneMatch) → info.isExpired w.now = false) :
    Rival.Sound ⟨(r.inst.note c.1 w w').acquired r.work p' w'.now, r.work⟩ w' := by
  have htracks := h.tracks.acquire hs hc hstep (f := r.work)
  obtain ⟨hnone, -, hacq⟩ := h.tracks.acquires p hs
  obtain ⟨hans⟩ := hstep
  obtain ⟨rfl, -⟩ := List.cons.inj hc
  rename_i op k hist x
  have hend := hacq.2 x
  have hquiet : (r.inst.note op w w').heartbeat = none := by
    rw [GcInstance.note_heartbeat, hnone]
  cases hk : k x with
  | call op' k' =>
    rw [hk] at htracks
    exact sound_of_idle htracks h.spares (not_holds (fun _ hp => by cases hp) fun _ hp => by cases hp)
      hquiet fun _ _ hp => by cases hp
  | fail e =>
    rw [hk] at htracks
    exact sound_of_idle htracks h.spares (not_holds (fun _ hp => by cases hp) fun _ hp => by cases hp)
      hquiet fun _ _ hp => by cases hp
  | done a =>
    rw [hk] at htracks
    cases a with
    | none =>
      exact sound_of_idle htracks h.spares
        (not_holds (fun _ hp => by cases hp) fun _ hp => by cases hp) hquiet
        fun _ _ hp => by cases hp
    | some etag =>
      -- the call was the PUT, and it has made the lock object
      rw [hk] at hend
      have hview : putWatch.view (⟨op, x⟩ :: hist) = some etag := hend etag rfl
      obtain ⟨o, info, ho, hetag, hbody, hid, hfresh⟩ := made_of_put hacq.1 hans hview hput
      exact {
        tracks := htracks
        spares := h.spares
        works := fun p hp => by
          obtain rfl := Stage.holding.inj hp
          exact sparesLock_raceLockLost h.spares
        releases := fun _ _ hp => by cases hp
        quiet := fun hno => (hno (.inl ⟨_, rfl⟩)).elim
        owned := fun _ => ⟨_, o, info, rfl, ho, hetag, hbody, by
          rw [hid]; exact (GcInstance.note_id ..).symm, hfresh⟩ }

/-- A refresh of a holder, answered by S3. -/
theorem Rival.Sound.refresh {r : Rival} (h : r.Sound w) {etag : ETag} {since : Int}
    {p p' : Proc Op Resp AnyError (Option ETag)} {c : Called Op Resp}
    (hb : r.inst.heartbeat = some (.refreshing etag since p)) (hc : p'.hist = c :: p.hist)
    (hstep : p.Step Answers w p' w')
    (hput : ∀ key info ifMatch ifNoneMatch,
      c.1 = .s3 (.putObject key (.lock info) ifMatch ifNoneMatch) → info.isExpired w.now = false)
    (hans : ∀ o : S3Op, c.1 = .s3 o → c = ⟨.s3 o, (o.perform w).1⟩) :
    Rival.Sound ⟨(r.inst.note c.1 w w').refreshed etag since p' w'.now, r.work⟩ w' := by
  have htracks := h.tracks.refresh hb hc hstep
  have hholds : r.inst.Holds := by
    by_contra hno
    cases hb.symm.trans (h.quiet hno)
  obtain ⟨hstage, hid⟩ := refreshed_stage etag since p' w'.now (r.inst.note c.1 w w')
  rw [GcInstance.note_stage] at hstage
  rw [GcInstance.note_id] at hid
  have howned : Owned ((r.inst.note c.1 w w').refreshed etag since p' w'.now) w' := by
    obtain ⟨b, o, info, hb', ho, hetag, hbody, hown, hfresh⟩ := h.owned hholds
    obtain rfl := Option.some.inj (hb'.symm.trans hb)
    rcases refreshAt_step (h.tracks.refreshes etag since p hb) hstep hc with
      ⟨rfl, -, hout, _, _, rfl⟩ | ⟨info', x, hid', rfl, hx, hout⟩
    · simp only [GcInstance.refreshed, hout]
      exact ⟨_, o, info, rfl, ho, hetag, hbody, hown, hfresh⟩
    · -- the ETag still matches, so the PUT has succeeded
      have hfresh' := hput _ _ _ _ rfl
      have hr := eq_of_heq (Sigma.mk.inj (hans _ rfl)).2
      have hetag : o.etag = etag := hetag
      have hdone : (refreshPut info' etag).perform w
          = (.ok w.fresh, w.putBody LOCK_KEY (.lock info')) := by
        simp [refreshPut, S3Op.perform, ho, hetag]
      have hok : x = .ok w.fresh := by rw [hr, hdone]
      subst hok
      rw [refreshed_put hout]
      rcases put_cases hx with ⟨-, e, he⟩ | ⟨rfl, -, -⟩
      · cases he
      · refine ⟨_, ⟨.lock info', w.fresh, w.now⟩, info', rfl, by simp, rfl, rfl, ?_, hfresh'⟩
        rw [hid']
        exact (GcInstance.note_id ..).symm
  have hholds' : ((r.inst.note c.1 w w').refreshed etag since p' w'.now).Holds := by
    unfold GcInstance.Holds
    rw [hstage]
    exact hholds
  exact {
    tracks := htracks
    spares := h.spares
    works := fun q hq => h.works q (hstage ▸ hq)
    releases := fun q result hq => by
      rw [hid]
      exact h.releases q result (hstage ▸ hq)
    quiet := fun hno => (hno hholds').elim
    owned := fun _ => howned }

/-- A step of the instance itself. -/
theorem Rival.Sound.move {r : Rival} (h : r.Sound w) {m : Move} {i : GcInstance}
    (hstep : r.inst.Step r.work w m i w')
    (hput : ∀ c, m = .task c ∨ m = .heartbeat c → ∀ key info ifMatch ifNoneMatch,
      c.1 = .s3 (.putObject key (.lock info) ifMatch ifNoneMatch) → info.isExpired w.now = false)
    (hans : ∀ c, m = .heartbeat c → ∀ o : S3Op, c.1 = .s3 o → c = ⟨.s3 o, (o.perform w).1⟩) :
    Rival.Sound { r with inst := i } w' := by
  have htracks := h.tracks.step hstep
  cases hstep with
  | acquire hs hc hstep => exact h.acquire hs hc hstep (hput _ (.inl rfl))
  | refresh hb hc hstep => exact h.refresh hb hc hstep (hput _ (.inr rfl)) (hans _ rfl)
  | work hs hc hstep =>
    have hworks := h.works _ hs
    obtain ⟨hwork⟩ := hstep
    have hget := get?_of_sparesLock hworks.1 hwork.answers
    have hnow := answers_now hwork.answers
    obtain ⟨b, o, info, hb, ho, hetag, hbody, hown, hfresh⟩ := h.owned (.inl ⟨_, hs⟩)
    exact {
      tracks := htracks
      spares := h.spares
      works := fun q hq => by
        obtain rfl := Stage.holding.inj hq
        exact hworks.2 _
      releases := fun _ _ hq => by cases hq
      quiet := fun hno => (hno (.inl ⟨_, rfl⟩)).elim
      owned := fun _ => ⟨b, o, info, hb, hget.trans ho, hetag, hbody, hown, by rwa [hnow]⟩ }
  | workEnds hs hresult =>
    exact {
      tracks := htracks
      spares := h.spares
      works := fun _ hq => by cases hq
      releases := fun _ _ hq => by cases hq
      quiet := fun hno => (hno (.inr ⟨_, rfl⟩)).elim
      owned := fun _ => h.owned (.inl ⟨_, hs⟩) }
  | stop hs hidle =>
    refine sound_of_idle htracks h.spares ?_ rfl ?_
    · unfold GcInstance.stopped
      split
      · exact not_holds (fun _ hp => by cases hp) fun _ hp => by cases hp
      · exact not_holds (fun _ hp => by cases hp) fun _ hp => by cases hp
    · intro p result hp
      unfold GcInstance.stopped at hp
      split at hp
      · cases hp
      · cases hp
        exact takesLock_release r.inst.id
  | release hs hc hstep =>
    have hreleases := h.releases _ _ hs
    have hno : ¬ r.inst.Holds := not_holds (fun _ hp => by cases hs.symm.trans hp)
      fun _ hp => by cases hs.symm.trans hp
    obtain ⟨hcall⟩ := hstep
    refine sound_of_idle htracks h.spares ?_ (h.quiet hno) ?_
    · unfold GcInstance.released
      split
      · exact not_holds (fun _ hp => by cases hp) fun _ hp => by cases hp
      · exact not_holds (fun _ hp => by cases hp) fun _ hp => by cases hp
    · intro p result hp
      unfold GcInstance.released at hp
      split at hp
      · cases hp
      · cases hp
        exact hreleases.2 _
  | wake hb hdue =>
    have hholds : r.inst.Holds := by
      by_contra hno
      cases hb.symm.trans (h.quiet hno)
    obtain ⟨b, o, info, hb', ho, hetag, hbody, hown, hfresh⟩ := h.owned hholds
    obtain rfl := Option.some.inj (hb'.symm.trans hb)
    exact {
      tracks := htracks
      spares := h.spares
      works := h.works
      releases := h.releases
      quiet := fun hno => (hno hholds).elim
      owned := fun _ => ⟨_, o, info, rfl, ho, hetag, hbody, hown, hfresh⟩ }

theorem GcInstance.Step.renews {f : P Unit} {i i' : GcInstance} {m : Move}
    (h : i.Step f w m i' w') : Renews w w' := by
  cases h with
  | acquire hs hc hstep =>
    obtain ⟨hans⟩ := hstep
    exact answers_renews hans
  | work hs hc hstep =>
    obtain ⟨hans⟩ := hstep
    exact answers_renews hans.answers
  | release hs hc hstep =>
    obtain ⟨hans⟩ := hstep
    exact answers_renews hans
  | refresh hb hc hstep =>
    obtain ⟨hans⟩ := hstep
    exact answers_renews hans
  | workEnds hs hresult => exact .refl w
  | stop hs hidle => exact .refl w
  | wake hb hdue => exact .refl w

theorem GcInstance.Step.id_eq {f : P Unit} {i i' : GcInstance} {m : Move}
    (h : i.Step f w m i' w') : i'.id = i.id := by
  cases h with
  | acquire hs hc hstep =>
    unfold acquired
    split <;> exact note_id ..
  | refresh hb hc hstep => exact (refreshed_stage ..).2.trans (note_id ..)
  | work hs hc hstep => rfl
  | release hs hc hstep => rfl
  | workEnds hs hresult => rfl
  | stop hs hidle => rfl
  | wake hb hdue => rfl

/-- A step of another instance leaves a held lock object as it is. -/
theorem get?_of_move {r h : Rival} (hr : r.Sound w) (hh : h.Sound w) (hholds : h.inst.Holds)
    (hne : h.inst.id ≠ r.inst.id) {m : Move} {i : GcInstance}
    (hstep : r.inst.Step r.work w m i w')
    (hdel : ∀ c, m = .task c → c.1 ≠ .s3 (.deleteObject LOCK_KEY)) :
    w'.get? LOCK_KEY = w.get? LOCK_KEY ∧ w'.now = w.now := by
  obtain ⟨-, o, info, -, ho, -, hbody, hown, -⟩ := hh.owned hholds
  cases hstep with
  | acquire hs hc hstep =>
    obtain ⟨-, -, hacq⟩ := hr.tracks.acquires _ hs
    obtain ⟨hans⟩ := hstep
    obtain ⟨rfl, -⟩ := List.cons.inj hc
    exact ⟨get?_of_takesLock hacq.1 hans ⟨o, ho⟩ (hdel _ rfl), answers_now hans⟩
  | release hs hc hstep =>
    have hrel := hr.releases _ _ hs
    obtain ⟨hans⟩ := hstep
    obtain ⟨rfl, -⟩ := List.cons.inj hc
    exact ⟨get?_of_takesLock hrel.1 hans ⟨o, ho⟩ (hdel _ rfl), answers_now hans⟩
  | work hs hc hstep =>
    have hworks := hr.works _ hs
    obtain ⟨hwork⟩ := hstep
    exact ⟨get?_of_sparesLock hworks.1 hwork.answers, answers_now hwork.answers⟩
  | workEnds hs hresult => exact ⟨rfl, rfl⟩
  | stop hs hidle => exact ⟨rfl, rfl⟩
  | wake hb' hdue => exact ⟨rfl, rfl⟩
  | refresh hb' hc hstep =>
    -- two holders would own one lock object
    have hholds' : r.inst.Holds := by
      by_contra hno
      cases hb'.symm.trans (hr.quiet hno)
    obtain ⟨-, o', info', -, ho', -, hbody', hown', -⟩ := hr.owned hholds'
    obtain rfl := Option.some.inj (ho.symm.trans ho')
    obtain rfl := Body.lock.inj (hbody.symm.trans hbody')
    exact (hne (hown.symm.trans hown')).elim

-- ---------------------------------------------------------------------------
-- Runs
-- ---------------------------------------------------------------------------

namespace Rivals

structure Inv (s : Rivals) : Prop where
  numbered : s.world.LockNumbered
  ids : (s.live.map fun r => r.inst.id).Nodup
  sound : ∀ r ∈ s.live, r.Sound s.world

theorem inv_start (hw : w.LockNumbered) : Inv { world := w } :=
  ⟨hw, .nil, fun _ hr => by cases hr⟩

/-- Two holders own one lock object, so they are one. -/
theorem Inv.exclusive {s : Rivals} (h : s.Inv) : s.Exclusive := by
  refine (List.pairwise_map.mp h.ids).imp_of_mem fun {a b} ha hb hne hboth => ?_
  obtain ⟨-, o, info, -, ho, -, hbody, hid, -⟩ := (h.sound a ha).owned hboth.1
  obtain ⟨-, o', info', -, ho', -, hbody', hid', -⟩ := (h.sound b hb).owned hboth.2
  obtain rfl := Option.some.inj (ho.symm.trans ho')
  obtain rfl := Body.lock.inj (hbody.symm.trans hbody')
  exact hne (hid.symm.trans hid')

theorem Inv.move {s : Rivals} (h : s.Inv) {before after : List Rival} {r : Rival} {m : Move}
    {i : GcInstance} (hs : s.live = before ++ r :: after)
    (hmove : r.inst.Step r.work s.world m i w) (hprom : s.Promised (.move r.inst.id m))
    (hundist : s.Undisturbed (.move r.inst.id m)) :
    Inv ⟨w, before ++ { r with inst := i } :: after⟩ := by
  have hr : r ∈ s.live := by simp [hs]
  have hids := h.ids
  rw [hs] at hids
  refine ⟨hmove.renews.lockNumbered h.numbered, ?_, fun x hx => ?_⟩
  · simpa [hmove.id_eq] using hids
  have hcase : x = { r with inst := i } ∨ x ∈ before ∨ x ∈ after := by
    simp only [List.mem_append, List.mem_cons] at hx
    tauto
  rcases hcase with rfl | hother
  · refine (h.sound r hr).move hmove ?_ ?_
    · rintro c (rfl | rfl)
      · exact hprom
      · exact hprom.1
    · rintro c rfl
      exact hprom.2
  · -- an instance beside the one that moves
    have hx : x ∈ s.live := by
      rw [hs]
      rcases hother with hx | hx
      · exact List.mem_append_left _ hx
      · exact List.mem_append_right _ (List.mem_cons_of_mem _ hx)
    have hne : x.inst.id ≠ r.inst.id := by
      rw [List.map_append, List.map_cons, List.nodup_middle, ← List.map_append,
        List.nodup_cons] at hids
      exact fun he => hids.1 (List.mem_map.mpr ⟨x, List.mem_append.mpr hother, he⟩)
    refine (h.sound x hx).frame hmove.renews fun hholds => ?_
    refine get?_of_move (h.sound r hr) (h.sound x hx) hholds hne hmove ?_
    rintro c rfl hdel
    obtain ⟨-, o, info, -, ho, -, hbody, hown, hfresh⟩ := (h.sound x hx).owned hholds
    exact hne (hundist hdel _ ⟨o, info, ho, hbody, hown, hfresh⟩)

theorem Inv.step {s s' : Rivals} {l : Label} (h : s.Inv) (hstep : s.Step l s')
    (hprom : s.Promised l) (hundist : s.Undisturbed l) : s'.Inv := by
  cases hstep with
  | start cmd hcmd hspares hid =>
    refine ⟨h.numbered, ?_, fun r hr => ?_⟩
    · rw [List.map_append, List.nodup_append]
      refine ⟨h.ids, List.nodup_singleton _, ?_⟩
      intro a ha b hb he
      obtain ⟨r, hr, hra⟩ := List.mem_map.mp ha
      exact hid r hr (hra.trans (he.trans (List.mem_singleton.mp hb)))
    · rcases List.mem_append.mp hr with hr | hr
      · exact h.sound r hr
      · rw [List.mem_singleton.mp hr]
        exact sound_start h.numbered hspares
  | crash hs =>
    rename_i before after r
    have hsub : (before ++ after).Sublist s.live := by
      rw [hs]
      exact List.Sublist.append_left (List.sublist_cons_self r after) before
    exact ⟨h.numbered, h.ids.sublist (hsub.map _), fun x hx => h.sound x (hsub.subset hx)⟩
  | request hans hlock =>
    exact ⟨hans.renews.lockNumbered h.numbered, h.ids, fun r hr =>
      (h.sound r hr).frame hans.renews fun _ => ⟨hlock, (S3Answers.change hans).1⟩⟩
  | tick hnow =>
    rename_i now
    have hw : Renews s.world { s.world with now } := ⟨le_refl _, fun _ => .inl rfl⟩
    refine ⟨hw.lockNumbered h.numbered, h.ids, fun r hr => ?_⟩
    have hsound := h.sound r hr
    exact {
      tracks := hsound.tracks.renews hw
      spares := hsound.spares
      works := hsound.works
      releases := hsound.releases
      quiet := hsound.quiet
      owned := fun hholds => by
        obtain ⟨b, o, info, hb, ho, hetag, hbody, hown, hfresh⟩ := hsound.owned hholds
        obtain ⟨o', info', ho', hbody', -, hfresh'⟩ :=
          hprom r hr hholds ⟨o, info, ho, hbody, hown, hfresh⟩
        obtain rfl := Option.some.inj (ho.symm.trans ho')
        obtain rfl := Body.lock.inj (hbody.symm.trans hbody')
        exact ⟨b, o, info, hb, ho, hetag, hbody, hown, hfresh'⟩ }
  | move hs hmove => exact h.move hs hmove hprom hundist

end Rivals

-- ---------------------------------------------------------------------------
-- Runs that are computed
-- ---------------------------------------------------------------------------

namespace Rivals

/-- Make a move of the instance at a place. -/
def next (s : Rivals) (place : Nat) (t : Turn) : Option (Label × Rivals) :=
  match s.live.drop place with
  | [] => none
  | r :: after => (r.inst.next r.work s.world t).map fun x =>
    (.move r.inst.id x.1, ⟨x.2.2, s.live.take place ++ { r with inst := x.2.1 } :: after⟩)

theorem step_of_next {s s' : Rivals} {place : Nat} {t : Turn} {l : Label}
    (h : s.next place t = some (l, s')) : s.Step l s' := by
  unfold next at h
  split at h
  · cases h
  · rename_i r after hdrop
    obtain ⟨⟨m, i, w⟩, hnext, he⟩ := Option.map_eq_some_iff.mp h
    cases he
    exact .move (System.split_of_drop hdrop) (GcInstance.step_of_next hnext)

/-- Make some moves, each of them allowed. -/
def exec (ok : Rivals → Label → Bool) : List (Nat × Turn) → Rivals → Option Rivals
  | [], s => some s
  | x :: xs, s =>
    match s.next x.1 x.2 with
    | some (l, s') => if ok s l then exec ok xs s' else none
    | none => none

theorem run_of_exec {ok : Rivals → Label → Bool} {ok' : Rivals → Label → Prop}
    (hok : ∀ s l, ok s l = true → ok' s l) {xs : List (Nat × Turn)} {s₀ s s' : Rivals}
    (hrun : Run ok' s₀ s) (h : exec ok xs s = some s') : Run ok' s₀ s' := by
  induction xs generalizing s with
  | nil =>
    cases h
    exact hrun
  | cons x xs ih =>
    unfold exec at h
    split at h
    · rename_i l s₁ hnext
      split at h
      · rename_i hl
        exact ih (hrun.tail ⟨l, step_of_next hnext, hok s l hl⟩) h
      · cases h
    · cases h

end Rivals

/-- Calls of the instance at a place, all of them served. -/
def calls (place n : Nat) : List (Nat × Turn) := List.replicate n (place, .task served)

/-- `Holds`, as a check. -/
def GcInstance.holds (i : GcInstance) : Bool :=
  match i.stage with
  | .holding _ | .stopping _ => true
  | _ => false

end Chbk
