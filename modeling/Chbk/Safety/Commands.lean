import Chbk.Lib.Team
import Chbk.Model.Main
import Chbk.Safety.Exclusion
import Chbk.Safety.Limits
import Chbk.Safety.Snapshot
import Chbk.Safety.Wrapping

/-!
# What each command may do to the bucket

The calls of a command, from its arguments alone (`Commands.May`): which objects it
may write, and which it may delete.

* `only_asyncMain` — no command makes another call.
* `commands_footprint` — whatever goes on beside it, a command changes an object
  only as its arguments say: a backup adds blobs and one manifest that was not
  there, a cleanup command deletes, and nothing else changes anything.
-/

namespace Chbk

open Lib Prog

-- ---------------------------------------------------------------------------
-- What the arguments say
-- ---------------------------------------------------------------------------

namespace Commands

/-- It works under the lock. -/
def Locks : Commands → Prop
  | rmSnapshot .. | gcAll .. | gcLive .. => True
  | _ => False

/-- It may delete the manifest of this name. -/
def Removes : Commands → String → Prop
  | rmSnapshot name dryRun, n => dryRun = false ∧ n = name
  | gcLive _ _ dryRun _, n => dryRun = false ∧ startsWith n "live_" = true
  | _, _ => False

/-- It may delete blobs. -/
def Sweeps : Commands → Prop
  | rmSnapshot _ dryRun | gcAll dryRun _ | gcLive _ _ dryRun _ => dryRun = false
  | _ => False

/-- It is a backup, and may write a manifest of this name. -/
def Creates : Commands → String → Prop
  | createSnapshot none, _ => True
  | createSnapshot (some name), n => n = name
  | _, _ => False

/-- It is a backup. -/
def BacksUp : Commands → Prop
  | createSnapshot _ => True
  | _ => False

def MayDelete (cmd : Commands) (key : String) : Prop :=
  (cmd.Locks ∧ key = LOCK_KEY) ∨ (∃ n, key = manifestKey n ∧ cmd.Removes n) ∨
    (cmd.Sweeps ∧ ∃ hash, key = blobRemoteKey hash)

/-- The calls a command may make. -/
def May (cmd : Commands) : Op → Prop
  | .env _ => True
  | .s3 (.listObjectsV2 _) | .s3 (.headObject _) | .s3 (.getObject _) => True
  | .s3 (.putObject key body ifMatch ifNoneMatch) =>
    (cmd.Locks ∧ key = LOCK_KEY ∧ ∃ info, body = .lock info) ∨
      ∃ m, cmd.Creates m.name ∧ key = manifestKey m.name ∧ body = .manifest m ∧ ifMatch = none
        ∧ ifNoneMatch = true
  | .s3 (.deleteObject key) => cmd.MayDelete key
  | .s3 (.deleteObjects keys) => ∀ key ∈ keys, cmd.MayDelete key
  | .s3 (.createMultipartUpload key) | .s3 (.uploadPart key _ _ _)
  | .s3 (.completeMultipartUpload key _ _) => cmd.BacksUp ∧ ∃ hash, key = blobRemoteKey hash
  | .s3 (.abortMultipartUpload ..) => cmd.BacksUp

end Commands

variable {cmd : Commands}

theorem Reads.may {op : Op} (h : Reads op) : cmd.May op := by
  match op, h with
  | .env _, _ => trivial
  | .s3 (.listObjectsV2 _), _ => trivial
  | .s3 (.headObject _), _ => trivial
  | .s3 (.getObject _), _ => trivial

theorem may_of_reads {α : Type} {p : P α} (h : Only Reads p) : Only cmd.May p :=
  h.mono fun _ hop => hop.may

theorem AboutLock.may (hcmd : cmd.Locks) (op : Op) (h : AboutLock op) : cmd.May op := by
  match op, h with
  | .env _, _ => trivial
  | .s3 (.getObject _), _ => trivial
  | .s3 (.putObject ..), h => exact .inl ⟨hcmd, h⟩
  | .s3 (.deleteObject _), h => exact .inl ⟨hcmd, h⟩

theorem may_deleteBlobs (hcmd : cmd.Sweeps) (hashes : List String) :
    Only cmd.May (deleteObjectsBulk (hashes.map blobRemoteKey)) := by
  have hmay : ∀ key ∈ hashes.map blobRemoteKey, cmd.MayDelete key := by
    intro key hkey
    obtain ⟨hash, -, rfl⟩ := List.mem_map.mp hkey
    exact .inr (.inr ⟨hcmd, hash, rfl⟩)
  refine (only_deleteObjectsBulk _).mono fun op hop => ?_
  match op, hop with
  | .s3 (.deleteObject key), hop => exact hmay key hop
  | .s3 (.deleteObjects keys), hop => exact fun key hkey => hmay key (hop key hkey)
  | .env .order, _ => trivial

theorem may_deleteExclusiveBlobs {cmd : Commands} (h : cmd.Sweeps) (hashes : List String) :
    Only cmd.May (deleteExclusiveBlobs hashes) := by
  rcases deleteExclusiveBlobs_cases hashes with ⟨-, heq⟩ | ⟨-, msg, k, heq⟩
  · rw [heq]
    exact (may_deleteBlobs h _).bind fun _ => only_pure _
  · rw [heq]
    exact ⟨trivial, fun r => r.elim⟩

theorem may_deleteManifest {name : String} (hcmd : cmd.Removes name) :
    Only cmd.May (deleteManifest name) :=
  Only.mapFail (Only.bind (only_ask (.inr (.inl ⟨name, rfl, hcmd⟩))) fun _ => only_orContext _ _)

-- ---------------------------------------------------------------------------
-- The cleanup commands
-- ---------------------------------------------------------------------------

theorem only_raceLockLost {α : Type} {S : Op → Prop} (hlost : S (.env .lockLost)) {p : P α}
    (h : Only S p) : Only S (raceLockLost p) := by
  induction p with
  | done a => trivial
  | fail e => trivial
  | call op k ih =>
    refine ⟨hlost, fun lost => ?_⟩
    cases lost with
    | true => trivial
    | false => exact ⟨h.1, fun r => ih r (h.2 r)⟩

theorem only_withGcLock {S : Op → Prop} (hlock : ∀ op, AboutLock op → S op) {f : P Unit}
    (hf : Only S f) : Only S (withGcLock f) := by
  refine (only_ask (hlock (.env .newV4) trivial)).bind fun id => ?_
  refine ((aboutLock_acquireWithRetry id 10).mono hlock).mapFail.bind fun etag => ?_
  cases etag with
  | none => exact only_throw _
  | some etag =>
    refine (only_raceLockLost (hlock (.env .lockLost) trivial) hf).attempt.bind fun result => ?_
    refine (only_ask (hlock (.env .lockLost) trivial)).bind fun lost => ?_
    dsimp only
    split
    · exact ((aboutLock_release id).mono hlock).attempt.bind fun _ => only_liftP _
    · exact only_liftP _

theorem may_withGcLock (hcmd : cmd.Locks) {f : P Unit} (hf : Only cmd.May f) :
    Only cmd.May (withGcLock f) :=
  only_withGcLock (AboutLock.may hcmd) hf

theorem may_gcSnapshot (name : String) (dryRun : Bool) :
    Only (Commands.rmSnapshot name dryRun).May (gcSnapshot name dryRun) := by
  have hlocks : (Commands.rmSnapshot name dryRun).Locks := trivial
  refine may_withGcLock hlocks ?_
  refine (may_of_reads (only_readManifest trivial).mapFail).bind fun target => ?_
  refine (may_of_reads (only_listManifestNames trivial)).bind fun names => ?_
  refine (may_of_reads (reads_unionHashesForNames _)).bind fun others => ?_
  refine (may_of_reads (reads_exclusiveHashes _ _)).bind fun exclusive => ?_
  split
  · refine (may_of_reads (reads_printEach _ _)).bind fun _ => ?_
    exact (may_of_reads (reads_printEach _ _)).bind fun _ => only_pure _
  · rename_i hdry
    have hrun : dryRun = false := by simpa using hdry
    have hsweeps : (Commands.rmSnapshot name dryRun).Sweeps := hrun
    have hremoves : (Commands.rmSnapshot name dryRun).Removes name := ⟨hrun, rfl⟩
    refine (may_of_reads reads_bailIfLockLost).bind fun _ => ?_
    refine (may_deleteManifest hremoves).bind fun _ => ?_
    split
    · exact (may_of_reads reads_bailIfLockLost).bind fun _ =>
        may_deleteExclusiveBlobs hsweeps _
    · exact only_pure _

/-- Only automatic snapshots are pruned. -/
theorem startsWith_of_mem_computePruneSet {ms : List Manifest} {all : UInt64}
    {daily : Option UInt64} {now : Int} {name : String}
    (h : name ∈ computePruneSet (liveByName ms) all daily now) :
    startsWith name "live_" = true := by
  obtain ⟨x, hx, rfl, -⟩ := old_of_mem_computePruneSet h
  unfold liveByName at hx
  rw [List.mem_insertionSort] at hx
  obtain ⟨m, hm, rfl⟩ := List.mem_map.mp hx
  exact (List.mem_filter.mp hm).2

/-- `gc-live`, with the settings it has worked out. -/
theorem may_pruneOldLiveSnapshots {retainAll : String} {retainDaily : Option String}
    {now : Option Int} (all : UInt64) (daily : Option UInt64) (t : Int) (dryRun : Bool) :
    Only (Commands.gcLive retainAll retainDaily dryRun now).May
      (pruneOldLiveSnapshots all daily t dryRun) := by
  have hlocks : (Commands.gcLive retainAll retainDaily dryRun now).Locks := trivial
  refine may_withGcLock hlocks ?_
  refine (may_of_reads (only_readAllManifests trivial (fun _ => trivial) trivial)).bind fun ms => ?_
  dsimp only
  split
  · exact only_pure _
  refine (may_of_reads (reads_exclusiveHashes _ _)).bind fun exclusive => ?_
  refine (may_of_reads (reads_env _)).bind fun order => ?_
  split
  · refine (may_of_reads (reads_printEach _ _)).bind fun _ => ?_
    exact (may_of_reads (reads_printEach _ _)).bind fun _ => only_pure _
  · rename_i hdry
    have hrun : dryRun = false := by simpa using hdry
    have hsweeps : (Commands.gcLive retainAll retainDaily dryRun now).Sweeps := hrun
    refine (only_collect fun name hname => ?_).bind fun _ => ?_
    · have hremoves : (Commands.gcLive retainAll retainDaily dryRun now).Removes name :=
        ⟨hrun, startsWith_of_mem_computePruneSet (mem_reorder.mp hname)⟩
      exact (may_of_reads reads_bailIfLockLost).bind fun _ =>
        (may_deleteManifest hremoves).attempt.bind fun _ => only_pure _
    · split
      · exact (may_of_reads reads_bailIfLockLost).bind fun _ =>
          may_deleteExclusiveBlobs hsweeps _
      · exact only_pure _

/-! ### The scan of `gc-all` -/

variable {dryRun : Bool} {hours : UInt64}

theorem may_deleteOrReportBatch (batch : List String) :
    Only (Commands.gcAll dryRun hours).May (deleteOrReportBatch batch dryRun) := by
  unfold deleteOrReportBatch
  split
  · exact only_pure _
  · rename_i hdry
    have hrun : dryRun = false := by simpa using hdry
    have hsweeps : (Commands.gcAll dryRun hours).Sweeps := hrun
    exact (may_deleteBlobs hsweeps batch).bind fun _ => only_pure _

theorem may_pushOrphan (batch : List String) (hash : String) :
    Only (Commands.gcAll dryRun hours).May (pushOrphan dryRun batch hash) := by
  unfold pushOrphan
  dsimp only
  split
  · exact (may_of_reads reads_bailIfLockLost).bind fun _ =>
      (may_deleteOrReportBatch _).bind fun _ => only_pure _
  · exact only_pure _

theorem may_consumePending (referenced : List BlobHash) (cutoff : Int) (n : Nat) (scan : Scan) :
    Only (Commands.gcAll dryRun hours).May (consumePending referenced cutoff dryRun n scan) :=
  (only_foldl fun batch hash _ => may_pushOrphan batch hash).bind fun _ => only_pure _

theorem may_scanShard (referenced : List BlobHash) (cutoff : Int) (scan : Scan) (shard : Nat) :
    Only (Commands.gcAll dryRun hours).May (scanShard referenced cutoff dryRun scan shard) := by
  refine (may_of_reads (reads_env .ahead)).bind fun n => ?_
  refine (may_consumePending referenced cutoff n scan).bind fun scan => ?_
  have hlist : Only Reads (listObjects (shardPrefix shard)) := by
    refine (only_ask trivial).bind fun r => ?_
    cases r with
    | ok entries => exact only_pure _
    | error e => exact only_throw _
  refine (may_of_reads hlist.attempt).bind fun r => ?_
  cases r with
  | ok entries => exact only_pure _
  | error e => exact only_pure _

theorem may_graceCutoff : Only (Commands.gcAll dryRun hours).May (graceCutoff hours) := by
  refine (may_of_reads (reads_env .utcNow)).bind fun now => ?_
  dsimp only
  split
  · exact (may_of_reads (reads_env _)).bind fun r => r.elim
  · split
    · exact (may_of_reads (reads_env _)).bind fun r => r.elim
    · exact only_pure _

theorem may_gcAllBlobs : Only (Commands.gcAll dryRun hours).May (gcAllBlobs dryRun hours) := by
  have hlocks : (Commands.gcAll dryRun hours).Locks := trivial
  refine may_withGcLock hlocks ?_
  have hread : Only Reads referencedBlobHashes :=
    (only_readAllManifests trivial (fun _ => trivial) trivial).bind fun _ => only_pure _
  refine (may_of_reads hread).bind fun referenced => ?_
  refine may_graceCutoff.bind fun cutoff => ?_
  refine (may_of_reads (reads_env .order)).bind fun order => ?_
  refine (only_foldl fun scan shard _ => may_scanShard _ cutoff scan shard).bind fun scan => ?_
  refine (may_consumePending _ cutoff _ scan).bind fun scan => ?_
  split
  · exact (may_of_reads reads_bailIfLockLost).bind fun _ => may_deleteOrReportBatch _
  · exact only_pure _

-- ---------------------------------------------------------------------------
-- The calls of a backup's pieces
-- ---------------------------------------------------------------------------

section

variable {S : Op → Prop}

theorem only_loadKnown {shard replica : String}
    (hlist : S (.s3 (.listObjectsV2 MANIFEST_PREFIX)))
    (hget : ∀ name, S (.s3 (.getObject (manifestKey name)))) :
    Only S (loadKnownFromLatestManifest shard replica) := by
  refine (only_listManifestNames hlist).bind fun names => ?_
  split
  · exact only_pure _
  · exact (only_readManifest (hget _)).bind fun _ => only_pure _

theorem only_headCheckExisting (horder : S (.env .order))
    (hhead : ∀ key, S (.s3 (.headObject key))) (hashes : List (String × UInt64)) :
    Only S (headCheckExisting hashes) := by
  have hcheck : ∀ hash, Only S (headCheck hash) := by
    intro hash
    refine Only.bind (Only.attempt ((only_ask (hhead _)).bind fun r => ?_)) fun r => ?_
    · split
      · exact only_pure _
      · exact only_pure _
      · exact only_throw _
    · cases r with
      | ok size => exact only_pure _
      | error e => exact only_pure _
  unfold headCheckExisting
  dsimp only
  split
  · exact only_pure _
  · refine (only_ask horder).bind fun order => ?_
    exact (only_collect fun hash _ => hcheck hash).bind fun _ => only_pure _

theorem only_addSizes (known : List (String × UInt64)) (sizes : List (String × UInt64)) :
    Only S (Prog.foldl addSize known sizes) := by
  refine only_foldl fun known x _ => ?_
  unfold addSize
  split
  · split
    · exact only_throw _
    · exact only_pure _
  · exact only_pure _

/-- An upload under one key. -/
theorem only_putObjectMultipartReader {key : String} (horder : S (.env .order))
    (hcreate : S (.s3 (.createMultipartUpload key)))
    (hpart : ∀ id n data, S (.s3 (.uploadPart key id n data)))
    (hcomplete : ∀ id ns, S (.s3 (.completeMultipartUpload key id ns)))
    (habort : ∀ id, S (.s3 (.abortMultipartUpload key id))) (storage : Storage) (reader : Reader)
    (expectedSize : Nat) : Only S (putObjectMultipartReader storage key reader expectedSize) := by
  refine (only_s3Retry hcreate).mapFail.bind fun id => ?_
  refine Only.bind (Only.attempt ?_) fun r => ?_
  · refine (only_ask horder).bind fun order => ?_
    refine (only_collect fun part _ =>
      (only_s3Retry (hpart id _ _)).bind fun _ => only_pure _).bind fun done => ?_
    refine (only_liftP _).bind fun _ => ?_
    exact (only_s3Retry (hcomplete id _)).mapFail.bind fun _ => only_pure _
  · cases r with
    | ok total => exact only_pure _
    | error e => exact (only_ask (habort id)).bind fun _ => only_throw _

theorem only_writeManifest {m : Manifest}
    (hput : S (.s3 (.putObject (manifestKey m.name) (.manifest m) none true))) :
    Only S (writeManifest m) := by
  refine Only.bind (Only.mapFail ((only_ask hput).bind fun r => ?_)) fun x => ?_
  · cases r with
    | ok etag => exact only_pure _
    | error e =>
      dsimp only
      split
      · exact only_pure _
      · exact only_throw _
  · dsimp only
    split
    · exact only_throw _
    · exact only_pure _

end

-- ---------------------------------------------------------------------------
-- A backup
-- ---------------------------------------------------------------------------

section

variable {name : Option String}

theorem Quiet.may {op : Op} (h : Quiet op) : (Commands.createSnapshot name).May op := by
  match op, h with
  | .env _, _ => trivial
  | .s3 (.listObjectsV2 _), _ => trivial
  | .s3 (.abortMultipartUpload ..), _ => trivial

theorem may_of_quiet {α : Type} {p : P α} (h : Only Quiet p) :
    Only (Commands.createSnapshot name).May p :=
  h.mono fun _ hop => hop.may

theorem may_loadKnown (shard replica : String) :
    Only (Commands.createSnapshot name).May (loadKnownFromLatestManifest shard replica) :=
  only_loadKnown trivial fun _ => trivial

theorem may_headCheckExisting (hashes : List (String × UInt64)) :
    Only (Commands.createSnapshot name).May (headCheckExisting hashes) :=
  only_headCheckExisting trivial (fun _ => trivial) hashes

/-- An upload of a blob. -/
theorem may_putObjectMultipartReader (storage : Storage) (hash : String) (reader : Reader)
    (expectedSize : Nat) : Only (Commands.createSnapshot name).May
      (putObjectMultipartReader storage (blobRemoteKey hash) reader expectedSize) :=
  only_putObjectMultipartReader trivial ⟨trivial, hash, rfl⟩ (fun _ _ _ => ⟨trivial, hash, rfl⟩)
    (fun _ _ => ⟨trivial, hash, rfl⟩) (fun _ => trivial) storage reader expectedSize

theorem may_uploadPartArchive (storage : Storage) (cfg : Config) (hash : String) :
    Only (Commands.createSnapshot name).May (uploadPartArchive storage cfg hash) := by
  unfold uploadPartArchive
  refine (may_of_reads (reads_env _)).bind fun r => ?_
  refine (only_liftP r).bind fun files => ?_
  refine (may_of_reads (reads_env _)).bind fun openFile => ?_
  refine (may_of_reads (reads_env _)).bind fun cuts => ?_
  refine (may_putObjectMultipartReader storage hash _ _).mapFail.bind fun uploaded => ?_
  refine (only_liftP _).bind fun written => ?_
  split
  · exact (only_throw _).bind fun _ => (may_of_quiet (quiet_localStep _)).mapFail.bind
      fun _ => only_pure _
  · exact (may_of_quiet (quiet_localStep _)).mapFail.bind fun _ => only_pure _

theorem may_uploadPhase (storage : Storage) (cfg : Config) (known : List (String × UInt64))
    (head : List (String × Nat)) (staged : List String) (parts : List PartInfo) :
    Only (Commands.createSnapshot name).May (uploadPhase storage cfg known head staged parts) := by
  refine (only_liftP _).bind fun upload => ?_
  refine (may_of_quiet (quiet_localStep _)).bind fun _ => ?_
  refine Only.bind ?_ fun new => ?_
  · refine (may_of_reads (reads_env .order)).bind fun order => ?_
    exact (only_collect fun hash _ => (may_uploadPartArchive storage cfg hash).attempt).bind
      fun results => only_collect fun r _ => only_liftP r
  · refine (may_of_quiet (quiet_localStep _)).bind fun _ => ?_
    exact (may_of_reads (reads_env .order)).bind fun order => only_addSizes known _

theorem may_prepareParts (json : Json) (cfg : Config) (known : List String)
    (parts : List PartInfo) :
    Only (Commands.createSnapshot name).May (prepareParts json cfg known parts) := by
  refine (may_of_quiet (quiet_localStep _)).bind fun _ => ?_
  refine (may_of_quiet (quiet_localStep _)).bind fun _ => ?_
  refine (may_of_quiet (quiet_localStep _)).bind fun _ => ?_
  refine (may_headCheckExisting _).bind fun head => ?_
  refine (may_of_quiet (quiet_stagePasses json cfg _ _ _ _)).bind fun x => ?_
  exact (may_of_quiet (quiet_metadataAttempts json cfg _ _)).bind fun _ => only_pure _

theorem may_writeManifest {m : Manifest} (h : (Commands.createSnapshot name).Creates m.name) :
    Only (Commands.createSnapshot name).May (writeManifest m) :=
  only_writeManifest (.inr ⟨m, h, rfl, rfl, rfl, rfl⟩)

/-- A name that was given is the name of the snapshot. -/
theorem creates_of_canReturn {shard replica n : String} {timestamp : Int}
    (h : CanReturn (nameOrAuto name shard replica timestamp) n) :
    (Commands.createSnapshot name).Creates n := by
  cases name with
  | none => trivial
  | some given => exact Eq.symm h

theorem may_createSnapshot (json : Json) (cfg : Config) (name : Option String) :
    Only (Commands.createSnapshot name).May (createSnapshot json cfg name) := by
  refine (may_of_reads (reads_env .utcNow)).bind fun timestamp => ?_
  refine (only_liftP _).bind fun storage => ?_
  refine (may_of_quiet (quiet_queryParts json cfg)).bind fun parts => ?_
  refine (may_of_quiet (quiet_resolveShardReplica json cfg)).bind fun ident => ?_
  refine only_bind_iff.mpr ⟨may_of_quiet (quiet_nameOrAuto _ _ _ _), fun snapshotName hname => ?_⟩
  refine (may_loadKnown _ _).bind fun known => ?_
  refine (may_prepareParts json cfg _ parts).bind fun prep => ?_
  refine (may_uploadPhase storage cfg known _ _ _).bind fun sizes => ?_
  refine (only_liftP _).bind fun manifestParts => ?_
  refine (may_of_reads (reads_env .gethostname)).bind fun createdBy => ?_
  exact (may_writeManifest (creates_of_canReturn hname)).bind fun _ => only_pure _

end

-- ---------------------------------------------------------------------------
-- All commands
-- ---------------------------------------------------------------------------

theorem reads_attachPart (db table part : String) : Only Reads (attachPart db table part) := by
  refine (reads_env _).bind fun r => (only_liftP r).bind fun text => ?_
  split
  · exact only_throw _
  · exact only_pure _

theorem only_keyOrPanic {S : Op → Prop} (h : ∀ msg, S (.env (.panic msg))) (hash : String) :
    Only S (keyOrPanic hash) := by
  unfold keyOrPanic
  split
  · exact Only.bind (only_ask (h _)) fun r => r.elim
  · exact only_pure _

theorem reads_restoreSnapshot (decodeContent : ManifestFile → Except AnyError Bytes)
    (name toDir : String) (flags : RestoreFlags) :
    Only Reads (restoreSnapshot decodeContent name toDir flags) := by
  have hcreate : ∀ path, Only Reads (createDirAll path) := fun path =>
    (reads_env _).bind fun _ => only_liftP _
  refine (only_readManifest trivial).mapFail.bind fun m => ?_
  refine (only_liftP _).bind fun items => ?_
  refine (reads_printEach _ _).bind fun _ => ?_
  refine (hcreate _).mapFail.bind fun _ => ?_
  refine (only_collect fun file _ => ?_).bind fun _ => ?_
  · refine (only_liftP _).bind fun content => ?_
    refine Only.bind ?_ fun _ => (reads_env _).bind fun _ => only_liftP _
    unfold createParents
    split
    · exact hcreate _
    · exact only_pure _
  split
  · exact only_pure _
  refine (reads_env .order).bind fun order => ?_
  refine (only_collect fun part _ => Only.attempt ?_).bind fun results => ?_
  · refine (only_keyOrPanic (fun _ => trivial) _).bind fun remoteKey => ?_
    refine (hcreate _).mapFail.bind fun _ => ?_
    refine Only.bind (Only.mapFail ((only_ask trivial).bind fun r => only_orContext _ _))
      fun body => ?_
    exact (reads_env _).bind fun _ => (only_liftP _).bind fun _ => only_pure _
  refine (only_collect fun r _ => only_liftP r).bind fun restored => ?_
  split
  · refine (reads_env .order).bind fun order => ?_
    refine (only_collect fun part _ => Only.attempt (Only.mapFail ?_)).bind fun results => ?_
    · exact reads_attachPart _ _ _
    · exact (only_collect fun r _ => only_liftP r).bind fun _ => only_pure _
  · exact only_pure _

variable (json : Json) (isAlphabetic : Char → Bool)
  (decodeContent : ManifestFile → Except AnyError Bytes) (cfg : Config)
  (occupied : Except AnyError Bool)

/-- **No command makes a call that its arguments do not allow.** -/
theorem only_asyncMain (cmd : Commands) :
    Only cmd.May (asyncMain json isAlphabetic decodeContent cfg occupied cmd) := by
  cases cmd with
  | createSnapshot name =>
    exact (may_createSnapshot json cfg name).bind fun _ => may_of_reads (reads_env _)
  | restore args =>
    refine (only_liftP _).bind fun tableFilter => ?_
    refine (only_liftP _).bind fun isOccupied => ?_
    have hrest : Only Reads (do
        let excludeTables ← excludedTables json args.skipExisting
        let _ ← liftP (initStorage cfg)
        restoreSnapshot decodeContent args.name args.toDir
          ⟨tableFilter, args.shard, args.replica, excludeTables, args.attach⟩) := by
      refine Only.bind ?_ fun exclude => (only_liftP _).bind fun _ => reads_restoreSnapshot ..
      unfold excludedTables
      split
      · exact (reads_env _).bind fun r => (only_liftP _).bind fun _ => only_pure _
      · exact only_pure _
    split
    · exact (only_throw _).bind fun _ => may_of_reads hrest
    · exact may_of_reads hrest
  | rmSnapshot name dryRun => exact (only_liftP _).bind fun _ => may_gcSnapshot name dryRun
  | gcAll dryRun hours => exact (only_liftP _).bind fun _ => may_gcAllBlobs
  | listSnapshots shard replica =>
    refine (only_liftP _).bind fun _ => ?_
    refine (may_of_reads (only_readAllManifests trivial (fun _ => trivial) trivial)).bind
      fun ms => ?_
    exact may_of_reads (reads_printEach _ _)
  | gcLive retainAll retainDaily dryRun now =>
    refine (only_liftP _).bind fun _ => ?_
    refine (only_liftP _).bind fun all => ?_
    refine (only_liftP _).bind fun daily => ?_
    cases now with
    | some t => exact may_pruneOldLiveSnapshots all daily t dryRun
    | none =>
      exact (may_of_reads (reads_env .utcNow)).bind fun t =>
        may_pruneOldLiveSnapshots all daily t dryRun

-- ---------------------------------------------------------------------------
-- What becomes of the bucket
-- ---------------------------------------------------------------------------

/-- What a command may make of the object under a key. -/
inductive Commands.Touches (cmd : Commands) (key : String) (before after : Option Object) : Prop
  /-- The lock comes and goes. -/
  | lock (hcmd : cmd.Locks) (hkey : key = LOCK_KEY)
  /-- A manifest is written where none was. -/
  | wrote (m : Manifest) (o : Object) (hcmd : cmd.Creates m.name) (hkey : key = manifestKey m.name)
      (hbefore : before = none) (hafter : after = some o) (hbody : o.body = .manifest m)
  | uploaded (hash : String) (o : Object) (bs : Bytes) (hcmd : cmd.BacksUp)
      (hkey : key = blobRemoteKey hash) (hafter : after = some o) (hbody : o.body = .data bs)
  | removed (name : String) (hcmd : cmd.Removes name) (hkey : key = manifestKey name)
      (hafter : after = none)
  | swept (hash : String) (hcmd : cmd.Sweeps) (hkey : key = blobRemoteKey hash)
      (hafter : after = none)

theorem Commands.MayDelete.touches {key : String} {before after : Option Object}
    (h : cmd.MayDelete key) (hafter : after = none) : cmd.Touches key before after := by
  rcases h with ⟨hcmd, hkey⟩ | ⟨name, hkey, hcmd⟩ | ⟨hcmd, hash, hkey⟩
  · exact .lock hcmd hkey
  · exact .removed name hcmd hkey hafter
  · exact .swept hash hcmd hkey hafter

theorem Commands.May.mayDelete {o : S3Op} (h : cmd.May (.s3 o)) {key : String}
    (hkey : key ∈ o.deletes) : cmd.MayDelete key := by
  cases o with
  | deleteObject key' => exact List.mem_singleton.mp hkey ▸ h
  | deleteObjects keys => exact h key hkey
  | _ => simp [S3Op.deletes] at hkey

/-- One call. -/
theorem Commands.May.touches {op : Op} (h : cmd.May op) {w w' : World} {r : Resp op}
    (hans : Answers op w r w') {key : String} (hne : w'.get? key ≠ w.get? key) :
    cmd.Touches key (w.get? key) (w'.get? key) := by
  cases op with
  | env o => exact absurd (by rw [hans.2]) hne
  | s3 o =>
    cases (S3Answers.change hans).2 with
    | removes gone hsub hget =>
      have hgone : key ∈ gone := by
        by_contra hno
        exact hne (by rw [hget, if_neg hno])
      exact (h.mayDelete (hsub key hgone)).touches (by rw [hget, if_pos hgone])
    | writes key' body hw hget =>
      have hkey : key = key' := by
        by_contra hno
        exact hne (by rw [hget, if_neg hno])
      subst hkey
      have hafter : w'.get? key = some ⟨body, w.fresh, w.now⟩ := by rw [hget, if_pos rfl]
      cases o with
      | putObject key' body' ifMatch ifNoneMatch =>
        obtain ⟨rfl, rfl, -, hnew⟩ := hw
        rcases h with ⟨hcmd, hkey, -⟩ | ⟨m, hcmd, hkey, rfl, rfl, rfl⟩
        · exact .lock hcmd hkey
        · exact .wrote m _ hcmd hkey (hnew rfl rfl) hafter rfl
      | completeMultipartUpload key' id parts =>
        obtain ⟨rfl, u, bs, -, -, -, rfl⟩ := hw
        obtain ⟨hcmd, hash, hkey⟩ := h
        exact .uploaded hash _ bs hcmd hkey hafter rfl
      | _ => exact hw.elim

/-- The program, started with a command in its surroundings. -/
structure Invocation where
  json : Json
  isAlphabetic : Char → Bool
  decodeContent : ManifestFile → Except AnyError Bytes
  cfg : Config
  occupied : Except AnyError Bool
  cmd : Commands

def Invocation.prog (x : Invocation) : P Unit :=
  asyncMain x.json x.isAlphabetic x.decodeContent x.cfg x.occupied x.cmd

theorem Invocation.only (x : Invocation) : Only x.cmd.May x.prog := only_asyncMain ..

/-- **A command changes the bucket only as its arguments say.** Whatever else changes
the bucket between its calls, and however they are answered. -/
theorem commands_footprint {x : Invocation} {tr : List (Event Op Resp World)}
    {p : Proc Op Resp AnyError Unit} {w w' : World}
    (hrun : Proc.Trace Answers (fun _ _ => True) ⟨x.prog, []⟩ w tr p w') :
    ∀ e ∈ tr, ∀ key, e.after.get? key ≠ e.before.get? key →
      x.cmd.Touches key (e.before.get? key) (e.after.get? key) := by
  have hobeys : Proc.Obeys gcWatch (fun _ op => x.cmd.May op) ⟨x.prog, []⟩ :=
    Proc.obeys_of_only x.only
  intro e he key hne
  exact ((hrun.follows hobeys).2 e he).touches (hrun.answered e he) hne

/-- A bucket with one snapshot. -/
def oneSnapshot : World where
  objects := [(manifestKey "a", ⟨.manifest ⟨"a", 0, "s1", "r1", "host", [], []⟩, 0, 0⟩)]
  fresh := 1

/-- The site runs a command. -/
def siteRuns (cmd : Commands) : Invocation :=
  ⟨siteJson, fun _ => false, fun _ => .ok [], siteConfig, .ok false, cmd⟩

/-- Where all answers keep to `answers`, so does a run that is computed from them. -/
theorem trace_of_answers {α : Type} {answers : (op : Op) → World → Resp op → World → Prop}
    {beside : World → World → Prop} {as : List Answer}
    (hans : ∀ a ∈ as, ∀ op w r w', a.answer op w = some (r, w') → answers op w r w')
    {p₀ p p' : Proc Op Resp AnyError α} {w₀ w w' : World} {tr tr' : List (Event Op Resp World)}
    (h : Proc.Trace answers beside p₀ w₀ tr p w)
    (hrun : runAlone as tr p w = some (tr', p', w')) :
    Proc.Trace answers beside p₀ w₀ tr' p' w' := by
  induction as generalizing tr p w with
  | nil =>
    cases hrun
    exact h
  | cons a as ih =>
    unfold runAlone callAlone at hrun
    split at hrun
    · rename_i x p₁ w₁ hcall
      split at hcall
      · rename_i prog c hist w₂ hexec
        cases hcall
        have hstep := Proc.exec_step (hans a (List.mem_cons_self ..)) hexec
        obtain ⟨op, r, -, hhist, -⟩ := hstep.cases
        have hc : c :: hist = c :: p.hist := hhist.trans ((List.cons.inj hhist).1 ▸ rfl)
        exact ih (fun a' ha' => hans a' (List.mem_cons_of_mem _ ha')) (h.call hstep hc) hrun
      · cases hcall
    · cases hrun

theorem exists_trace_of_answers {α : Type} {answers : (op : Op) → World → Resp op → World → Prop}
    {beside : World → World → Prop} {as : List Answer}
    (hans : ∀ a ∈ as, ∀ op w r w', a.answer op w = some (r, w') → answers op w r w')
    {p : Proc Op Resp AnyError α} {w : World}
    {check : List (Event Op Resp World) × Proc Op Resp AnyError α × World → Bool}
    (h : (runAlone as [] p w).any check = true) :
    ∃ tr p' w', Proc.Trace answers beside p w tr p' w' ∧ check (tr, p', w') = true := by
  cases hrun : runAlone as [] p w with
  | none =>
    rw [hrun] at h
    cases h
  | some x =>
    rw [hrun] at h
    exact ⟨x.1, x.2.1, x.2.2, trace_of_answers hans .start hrun, h⟩

/-- A run that is computed, with what is checked at its end. -/
theorem exists_trace_of_runAlone {α : Type} {beside : World → World → Prop} {as : List Answer}
    {p : Proc Op Resp AnyError α} {w : World}
    {check : List (Event Op Resp World) × Proc Op Resp AnyError α × World → Bool}
    (h : (runAlone as [] p w).any check = true) :
    ∃ tr p' w', Proc.Trace Answers beside p w tr p' w' ∧ check (tr, p', w') = true :=
  exists_trace_of_answers (fun _ _ op w r w' => Answer.answers_answer op w r w') h

/-- A program that has returned. -/
def returned (p : Proc Op Resp AnyError Unit) : Bool :=
  match p.prog with
  | .done _ => true
  | _ => false

theorem done_of_returned {p : Proc Op Resp AnyError Unit} (h : returned p = true) :
    p.prog = .done () := by
  unfold returned at h
  split at h
  · assumption
  · cases h

/-- The snapshot is removed: up to its DELETE. -/
theorem commands_footprint_oneSnapshot : ∃ tr p w',
    Proc.Trace Answers (fun _ _ => True) ⟨(siteRuns (.rmSnapshot "a" false)).prog, []⟩ oneSnapshot
      tr p w' ∧
    w'.get? (manifestKey "a") = none ∧
    ∀ e ∈ tr, ∀ key, e.after.get? key ≠ e.before.get? key →
      (Commands.rmSnapshot "a" false).Touches key (e.before.get? key) (e.after.get? key) := by
  have hend : (runAlone (List.replicate 16 served) []
      ⟨(siteRuns (.rmSnapshot "a" false)).prog, []⟩ oneSnapshot).any
      (fun x => decide (x.2.2.get? (manifestKey "a") = none)) = true := by
    decide +kernel
  obtain ⟨tr, p, w', hrun, hgone⟩ := exists_trace_of_runAlone hend
  exact ⟨tr, p, w', hrun, of_decide_eq_true hgone, commands_footprint hrun⟩

end Chbk
