import Chbk.Lib.Run
import Chbk.Safety.Cleanup
import Chbk.Safety.Snapshot

/-!
# Backups and a cleanup command on one bucket

Any number of backups run on one bucket, call by call in any order, with at most
one cleanup command at a time. Runs may crash at any point, calls may fail with
their effect or without, time passes, and heartbeats refresh the lock.

* `System.Step` — one step of such a run.
* `System.Inv` — what holds along the way: no manifest dangles, every blob a
  backup under way relies on is there, and the cleanup command has accounted for
  every manifest in the bucket.
* `System.Inv.step` — kept by every step but one: the delete of a blob some
  backup still needs (`System.Spares`).
-/

namespace Chbk

open Lib Prog

/-! ## The system -/

/-- A backup, with what an observer of the whole knows of it. -/
structure BackupRun where
  proc : Proc Op Resp AnyError String
  /-- When it started. -/
  start : Int
  alive : Bool := true
  /-- Its manifest has been written. -/
  committed : Bool := false
  /-- It had been when the cleanup command listed the manifests. -/
  listed : Bool := false

namespace BackupRun

def view (b : BackupRun) : BackupView := backupWatch.view b.proc.hist

/-- It may still write its manifest. -/
def Pending (b : BackupRun) : Prop := b.alive = true ∧ b.proc.Running ∧ b.view.put = none

/-- It has written its manifest, or may still do so. -/
def Counts (b : BackupRun) : Prop := b.committed = true ∨ b.Pending

end BackupRun

/-- The cleanup commands. -/
inductive GcCommand where
  | gcAll (dryRun : Bool) (gracePeriodHours : UInt64)
  | rmSnapshot (snapshotName : String) (dryRun : Bool)
  | gcLive (retainAllMinutes : UInt64) (retainDailyMinutes : Option UInt64)
      (currentTimestamp : Int) (dryRun : Bool)

def GcCommand.prog : GcCommand → P Unit
  | gcAll dryRun hours => gcAllBlobs dryRun hours
  | rmSnapshot name dryRun => gcSnapshot name dryRun
  | gcLive all daily now dryRun => pruneOldLiveSnapshots all daily now dryRun

structure System where
  world : World
  backups : List BackupRun := []
  gc : Option (Proc Op Resp AnyError Unit) := none

/-- What the cleanup command has seen. -/
def gcView (p : Proc Op Resp AnyError Unit) : GcView := gcWatch.view p.hist

/-- The call has written a manifest that was not there. -/
def commits (op : Op) (w w' : World) : Bool :=
  match op with
  | .s3 (.putObject key (.manifest _) _ _) => w'.get? key ≠ w.get? key
  | _ => false

/-- The call has listed the manifests. -/
def listsManifests : Called Op Resp → Bool
  | ⟨.s3 (.listObjectsV2 pfx), .ok _⟩ => pfx = MANIFEST_PREFIX
  | _ => false

/-- A backup behind one of its calls. -/
def BackupRun.after (b : BackupRun) (proc : Proc Op Resp AnyError String) (op : Op)
    (w w' : World) : BackupRun :=
  { b with proc, committed := b.committed || commits op w w' }

/-- The backups behind a call of the cleanup command. -/
def relist (c : Called Op Resp) (bs : List BackupRun) : List BackupRun :=
  if listsManifests c then bs.map fun b => { b with listed := b.committed } else bs

/-- What a step is. -/
inductive Label where
  | startBackup
  | startGc (cmd : GcCommand)
  | backup (b : BackupRun) (c : Called Op Resp) (after : World)
  | gc (c : Called Op Resp)
  | crashBackup
  | crashGc
  | tick (now : Int)
  | heartbeat

/-- One step. -/
inductive System.Step (json : Json) : System → Label → System → Prop
  | startBackup {s : System} (cfg : Config) (name : Option String) :
      Step json s .startBackup
        { s with backups := s.backups ++ [⟨⟨createSnapshot json cfg name, []⟩, s.world.now,
            true, false, false⟩] }
  | startGc {s : System} (cmd : GcCommand) (hidle : ∀ p, s.gc = some p → ¬ p.Running) :
      Step json s (.startGc cmd) { s with gc := some ⟨cmd.prog, []⟩ }
  | backup {s : System} {l r : List BackupRun} {b : BackupRun} {w' : World}
      {proc : Proc Op Resp AnyError String} {c : Called Op Resp}
      (hs : s.backups = l ++ b :: r) (halive : b.alive = true)
      (hc : proc.hist = c :: b.proc.hist) (hstep : b.proc.Step Answers s.world proc w') :
      Step json s (.backup b c w') ⟨w', l ++ b.after proc c.1 s.world w' :: r, s.gc⟩
  | gc {s : System} {p p' : Proc Op Resp AnyError Unit} {w' : World} {c : Called Op Resp}
      (hs : s.gc = some p) (hc : p'.hist = c :: p.hist) (hstep : p.Step Answers s.world p' w') :
      Step json s (.gc c) ⟨w', relist c s.backups, some p'⟩
  | crashBackup {s : System} {l r : List BackupRun} {b : BackupRun} (hs : s.backups = l ++ b :: r) :
      Step json s .crashBackup { s with backups := l ++ { b with alive := false } :: r }
  | crashGc {s : System} : Step json s .crashGc { s with gc := none }
  | tick {s : System} {now : Int} (hnow : s.world.now ≤ now) :
      Step json s (.tick now) { s with world := { s.world with now } }
  | heartbeat {s : System} {info : LockInfo} {etag : ETag} {r : Except SdkError ETag} {w' : World}
      (h : S3Answers (.putObject LOCK_KEY (.lock info) (some etag) false) s.world r w') :
      Step json s .heartbeat { s with world := w' }

/-- A run whose steps are all `ok`. -/
def System.Run (json : Json) (ok : System → Label → System → Prop) : System → System → Prop :=
  Relation.ReflTransGen fun s s' => ∃ l, s.Step json l s' ∧ ok s l s'

/-! ## What calls do to the bucket -/

/-- The keys a call may delete. -/
def Op.deletes : Op → List String
  | .s3 o => o.deletes
  | .env _ => []

theorem now_of_answers {op : Op} {w w' : World} {r : Resp op} (hans : Answers op w r w') :
    w'.now = w.now := by
  cases op with
  | env o => rw [hans.2]
  | s3 o => exact (S3Answers.change hans).1

theorem has_of_answers {op : Op} {w w' : World} {r : Resp op} (h : Answers op w r w') {k : String}
    (hk : w.Has k) : w'.Has k ∨ k ∈ op.deletes := by
  obtain ⟨o, ho⟩ := hk
  cases op with
  | env e => exact .inl ⟨o, by rw [h.2]; exact ho⟩
  | s3 op =>
    cases (S3Answers.change h).2 with
    | removes gone hsub hget =>
      by_cases hg : k ∈ gone
      · exact .inr (hsub k hg)
      · exact .inl ⟨o, by rw [hget, if_neg hg]; exact ho⟩
    | writes key body hw hget =>
      left
      by_cases hkey : k = key
      · exact ⟨_, by rw [hget, if_pos hkey]⟩
      · exact ⟨o, by rw [hget, if_neg hkey]; exact ho⟩

/-- A call that puts this manifest where none was. -/
def PutsNew (op : Op) (w : World) (name : String) (m : Manifest) : Prop :=
  ∃ inm, op = .s3 (.putObject (manifestKey name) (.manifest m) none inm) ∧
    w.get? (manifestKey name) = none

/-- Behind a call of a backup, a manifest was there before, or is the one it has
put. -/
theorem holds_of_backup {v : BackupView} {op : Op} (hrule : BackupRule v op) {w w' : World}
    {r : Resp op} (h : Answers op w r w') {name : String} {m : Manifest}
    (hm : w'.Holds name m) : w.Holds name m ∨ PutsNew op w name m := by
  obtain ⟨o, ho, hb⟩ := hm
  cases op with
  | env e => exact .inl ⟨o, by rw [← h.2]; exact ho, hb⟩
  | s3 op =>
    cases (S3Answers.change h).2 with
    | removes gone hsub hget =>
      rw [hget] at ho
      split at ho
      · cases ho
      · exact .inl ⟨o, ho, hb⟩
    | writes key body hw hget =>
      rw [hget] at ho
      split at ho
      · rename_i hkey
        obtain rfl := Option.some.inj ho
        cases op with
        | putObject key' body' im inm =>
          obtain ⟨rfl, rfl, -, hnew⟩ := hw
          obtain ⟨-, m', hk', rfl, rfl, rfl, -⟩ := hrule
          obtain rfl := Body.manifest.inj hb
          exact .inr ⟨true, by rw [hkey], by rw [hkey]; exact hnew rfl rfl⟩
        | completeMultipartUpload key' id parts =>
          obtain ⟨rfl, u, bs, -, -, -, rfl⟩ := hw
          cases hb
        | _ => exact hw.elim
      · exact .inl ⟨o, ho, hb⟩

/-- A backup leaves every manifest as it is. -/
theorem holds_backup {v : BackupView} {op : Op} (hrule : BackupRule v op) {w w' : World}
    {r : Resp op} (h : Answers op w r w') {name : String} {m : Manifest}
    (hm : w.Holds name m) : w'.Holds name m := by
  obtain ⟨o, ho, hb⟩ := hm
  cases op with
  | env e => exact ⟨o, by rw [h.2]; exact ho, hb⟩
  | s3 op =>
    refine ⟨o, ?_, hb⟩
    cases (S3Answers.change h).2 with
    | removes gone hsub hget =>
      have hno : manifestKey name ∉ gone := fun hg => by
        have := hsub _ hg
        cases op <;> first | exact hrule.elim | simp [S3Op.deletes] at this
      rw [hget, if_neg hno]
      exact ho
    | writes key body hw hget =>
      have hne : manifestKey name ≠ key := by
        rintro rfl
        cases op with
        | putObject key' body' im inm =>
          obtain ⟨rfl, rfl, -, hnew⟩ := hw
          obtain ⟨-, m', -, -, rfl, rfl, -⟩ := hrule
          rw [hnew rfl rfl] at ho
          cases ho
        | completeMultipartUpload key' id parts =>
          obtain ⟨rfl, -⟩ := hw
          obtain ⟨hash, -, -, hk, -⟩ := hrule
          exact manifestKey_ne_blobRemoteKey _ _ hk
        | _ => exact hw.elim
      rw [hget, if_neg hne]
      exact ho

/-- A cleanup command puts no manifests. -/
theorem holds_of_gc {T : GcTerms} {v : GcView} {op : Op} (hrule : GcRule T v op) {w w' : World}
    {r : Resp op} (h : Answers op w r w') {name : String} {m : Manifest}
    (hm : w'.Holds name m) : w.Holds name m := by
  obtain ⟨o, ho, hb⟩ := hm
  cases op with
  | env e => exact ⟨o, by rw [← h.2]; exact ho, hb⟩
  | s3 op =>
    refine ⟨o, ?_, hb⟩
    cases (S3Answers.change h).2 with
    | removes gone hsub hget =>
      rw [hget] at ho
      split at ho
      · cases ho
      · exact ho
    | writes key body hw hget =>
      rw [hget] at ho
      split at ho
      · rename_i hkey
        obtain rfl := Option.some.inj ho
        cases op with
        | putObject key' body' im inm =>
          obtain ⟨rfl, rfl, -⟩ := hw
          obtain ⟨-, info, rfl⟩ := hrule
          cases hb
        | _ => first | exact hw.elim | exact hrule.elim
      · exact ho

/-- A cleanup command deletes only blobs that are free, its manifests, and the
lock. -/
theorem blobFree_of_deletes {T : GcTerms} {v : GcView} {op : Op} (hrule : GcRule T v op)
    {hash : String} (hk : blobRemoteKey hash ∈ op.deletes) : BlobFree T v (blobRemoteKey hash) := by
  match op, hrule, hk with
  | .s3 (.deleteObject key), hrule, hk =>
    obtain rfl := List.mem_singleton.mp hk
    rcases hrule with h | ⟨name, h, -⟩ | h
    · exact absurd h (blobRemoteKey_ne_lock hash)
    · exact absurd h.symm (manifestKey_ne_blobRemoteKey name hash)
    · exact h
  | .s3 (.deleteObjects keys), hrule, hk => exact hrule _ hk

theorem exists_hash_of_mem_blobKeys {m : Manifest} {k : String} (h : k ∈ m.blobKeys) :
    ∃ hash, k = blobRemoteKey hash := by
  obtain ⟨p, -, rfl⟩ := List.mem_map.mp h
  exact ⟨_, rfl⟩

/-! ## What a backup learns -/

/-- What a backup newly relies on is there. -/
theorem relied_observe {v : BackupView} {op : Op} (hrule : BackupRule v op) {w w' : World}
    {r : Resp op} (h : Answers op w r w') (hsafe : NoDangling w) {k : String}
    (hk : k ∈ (v.observe op r).relied) : k ∈ v.relied ∨ w'.Has k := by
  unfold BackupView.observe at hk
  split at hk
  · -- a manifest read: its blobs are there, as no manifest dangles
    obtain ⟨rfl, o, ho, hb⟩ := get?_of_getObject h
    obtain ⟨name, rfl⟩ := hrule
    rw [BackupView.mem_relied] at hk
    rcases hk with hk | hk
    · rcases List.mem_append.mp hk with hk | hk
      · exact .inr (hsafe name _ ⟨o, ho, hb⟩ k hk)
      · exact .inl (BackupView.mem_relied.mpr (.inl hk))
    · exact .inl (BackupView.mem_relied.mpr (.inr hk))
  · -- a HEAD check that found an object
    obtain ⟨rfl, hhas⟩ := has_of_headObject h
    rw [BackupView.mem_relied] at hk
    rcases hk with hk | hk | hk
    · exact .inl (BackupView.mem_relied.mpr (.inl hk))
    · rcases List.mem_cons.mp hk with rfl | hk
      · exact .inr hhas
      · exact .inl (BackupView.mem_relied.mpr (.inr (.inl hk)))
    · exact .inl (BackupView.mem_relied.mpr (.inr (.inr hk)))
  · exact .inl hk
  · exact .inl hk
  · exact .inl hk
  · -- a completed upload
    obtain ⟨-, bs, -, -, hget⟩ := get?_of_completeMultipartUpload h
    rw [BackupView.mem_relied] at hk
    rcases hk with hk | hk | hk
    · exact .inl (BackupView.mem_relied.mpr (.inl hk))
    · exact .inl (BackupView.mem_relied.mpr (.inr (.inl hk)))
    · rcases List.mem_cons.mp hk with rfl | hk
      · exact .inr ⟨_, hget⟩
      · exact .inl (BackupView.mem_relied.mpr (.inr (.inr hk)))
  · exact .inl hk
  · exact .inl hk
  · exact .inl hk

/-- The manifest a backup has put stays what it is, but for another PUT. -/
theorem put_observe {v : BackupView} {op : Op} {r : Resp op} {ks : List String}
    (hrule : BackupRule v op) (hput : v.put = some ks) : (v.observe op r).put = some ks := by
  unfold BackupView.observe
  split
  any_goals exact hput
  exact absurd hput (by rw [hrule.1]; simp)

/-- A backup may put its manifest once, and relies on every blob of it. -/
theorem put_of_putsNew {v : BackupView} {op : Op} {r : Resp op} {w : World} {name : String}
    {m : Manifest} (hrule : BackupRule v op) (h : PutsNew op w name m) :
    v.put = none ∧ (v.observe op r).put = some m.blobKeys ∧ ∀ k ∈ m.blobKeys, k ∈ v.relied := by
  obtain ⟨inm, rfl, -⟩ := h
  obtain ⟨hput, m', -, hb, -, -, hk⟩ := hrule
  obtain rfl := Body.manifest.inj hb
  exact ⟨hput, rfl, hk⟩

theorem put_of_commits {v : BackupView} {op : Op} {r : Resp op} {w w' : World}
    (h : commits op w w' = true) : ∃ ks, (v.observe op r).put = some ks := by
  unfold commits at h
  split at h
  · exact ⟨_, rfl⟩
  · cases h

theorem commits_of_putsNew {op : Op} {w w' : World} {name : String} {m : Manifest}
    (h : PutsNew op w name m) (hm : w'.Holds name m) : commits op w w' = true := by
  obtain ⟨inm, rfl, hnone⟩ := h
  obtain ⟨o, ho, -⟩ := hm
  simp [commits, ho, hnone]

/-! ## The invariant -/

/-- The cleanup command knows where a manifest comes from: it was listed, and if
it has been read, then as it is; or a backup has written it since. -/
def Accounted (strict : Bool) (v : GcView) (names : List String) (bs : List BackupRun)
    (name : String) (m : Manifest) : Prop :=
  (name ∈ names ∧ name ∉ v.settled strict ∧ ∀ m' ∈ v.read, m'.name = name → m'.parts = m.parts) ∨
    ∃ b ∈ bs, b.committed = true ∧ b.listed = false ∧ b.view.put = some m.blobKeys

namespace System

structure Inv (T : GcTerms) (s : System) : Prop where
  safe : NoDangling s.world
  obeys : ∀ b ∈ s.backups, b.proc.Obeys backupWatch BackupRule
  present : ∀ b ∈ s.backups, b.Pending → ∀ hash, blobRemoteKey hash ∈ b.view.relied →
    s.world.Has (blobRemoteKey hash)
  committedPut : ∀ b ∈ s.backups, b.committed = true → ∃ ks, b.view.put = some ks
  listedCommitted : ∀ b ∈ s.backups, b.listed = true → b.committed = true
  gcObeys : ∀ p, s.gc = some p → p.Obeys gcWatch (GcRule T)
  accounted : ∀ p names, s.gc = some p → (gcView p).listed = some names →
    ∀ name m, s.world.Holds name m → Accounted T.strict (gcView p) names s.backups name m

/-- A backup the last listing does not show needs this blob, for the manifest it
has written or may still write. -/
def Needed (s : System) (k : String) : Prop :=
  ∃ b ∈ s.backups, b.listed = false ∧ b.Counts ∧ k ∈ b.view.needs

/-- The step deletes no blob that is needed. -/
def Spares (s : System) : Label → Prop
  | .gc c => ∀ hash, blobRemoteKey hash ∈ c.1.deletes → s.world.Has (blobRemoteKey hash) →
      ¬ s.Needed (blobRemoteKey hash)
  | _ => True

/-- The cleanup command's calls keep to the terms: a started command obeys the
rule, and unless the terms are strict no DELETE of an object fails. -/
def Keeps (T : GcTerms) : Label → Prop
  | .startGc cmd => ∀ v, Cleans T cmd.prog v fun _ _ => True
  | .gc ⟨.s3 (.deleteObject _), .error _⟩ => T.strict = true
  | _ => True

/-! ### Steps that leave the runs alone -/

theorem Inv.frame {T : GcTerms} {s : System} (h : s.Inv T) {w : World}
    (hhas : ∀ k, s.world.Has k → w.Has k)
    (hholds : ∀ name m, w.Holds name m → s.world.Holds name m) :
    Inv T { s with world := w } where
  safe := fun name m hm k hk => hhas k (h.safe name m (hholds name m hm) k hk)
  obeys := h.obeys
  present := fun b hb hp hash hk => hhas _ (h.present b hb hp hash hk)
  committedPut := h.committedPut
  listedCommitted := h.listedCommitted
  gcObeys := h.gcObeys
  accounted := fun p names hp hl name m hm => h.accounted p names hp hl name m (hholds name m hm)

/-- A heartbeat touches the lock object only. -/
theorem Inv.heartbeat {T : GcTerms} {s : System} (h : s.Inv T) {info : LockInfo} {etag : ETag}
    {r : Except SdkError ETag} {w : World}
    (hr : S3Answers (.putObject LOCK_KEY (.lock info) (some etag) false) s.world r w) :
    Inv T { s with world := w } := by
  have hrule : GcRule T {} (.s3 (.putObject LOCK_KEY (.lock info) (some etag) false)) :=
    ⟨rfl, info, rfl⟩
  have hans : Answers (.s3 (.putObject LOCK_KEY (.lock info) (some etag) false)) s.world r w := hr
  refine h.frame (fun k hk => ?_) fun name m hm => holds_of_gc hrule hans hm
  exact (has_of_answers hans hk).resolve_right (by simp [Op.deletes, S3Op.deletes])

/-! ### Steps of backups -/

theorem mem_replace {α : Type} {l r : List α} {b b' x : α} (h : x ∈ l ++ b' :: r) :
    x = b' ∨ x ∈ l ++ b :: r := by
  simp only [List.mem_append, List.mem_cons] at h ⊢
  tauto

theorem mem_replace_of_mem {α : Type} {l r : List α} {b c x : α} (h : x ∈ l ++ b :: r) :
    x = b ∨ x ∈ l ++ c :: r := by
  simp only [List.mem_append, List.mem_cons] at h ⊢
  tauto

theorem Inv.startBackup {T : GcTerms} {s : System} (h : s.Inv T) (json : Json) (cfg : Config)
    (name : Option String) :
    Inv T { s with backups := s.backups ++ [⟨⟨createSnapshot json cfg name, []⟩, s.world.now,
      true, false, false⟩] } := by
  have hmem : ∀ {P : BackupRun → Prop}, (∀ b ∈ s.backups, P b) →
      P ⟨⟨createSnapshot json cfg name, []⟩, s.world.now, true, false, false⟩ →
      ∀ b ∈ s.backups ++ [⟨⟨createSnapshot json cfg name, []⟩, s.world.now, true, false, false⟩],
        P b := by
    intro P hall hnew b hb
    rcases List.mem_append.mp hb with hb | hb
    · exact hall b hb
    · exact List.mem_singleton.mp hb ▸ hnew
  refine ⟨h.safe, hmem h.obeys (follows_createSnapshot json cfg name), hmem h.present ?_,
    hmem h.committedPut (by simp), hmem h.listedCommitted (by simp), h.gcObeys, ?_⟩
  · intro _ hash hk
    simp [BackupRun.view, Watch.view, backupWatch, BackupView.relied] at hk
  · intro p names hp hl n m hm
    refine (h.accounted p names hp hl n m hm).imp_right ?_
    rintro ⟨b, hb, hrest⟩
    exact ⟨b, List.mem_append_left _ hb, hrest⟩

theorem Inv.crashBackup {T : GcTerms} {s : System} (h : s.Inv T) {l r : List BackupRun}
    {b : BackupRun} (hs : s.backups = l ++ b :: r) :
    Inv T { s with backups := l ++ { b with alive := false } :: r } := by
  have hb : b ∈ s.backups := by simp [hs]
  have hmem : ∀ {P : BackupRun → Prop}, (∀ b ∈ s.backups, P b) → P { b with alive := false } →
      ∀ x ∈ l ++ { b with alive := false } :: r, P x := by
    intro P hall hnew x hx
    rcases mem_replace (b := b) hx with rfl | hx
    · exact hnew
    · exact hall x (hs ▸ hx)
  refine ⟨h.safe, hmem h.obeys (h.obeys b hb), hmem h.present ?_,
    hmem h.committedPut (h.committedPut b hb), hmem h.listedCommitted (h.listedCommitted b hb),
    h.gcObeys, ?_⟩
  · rintro ⟨halive, -⟩
    cases halive
  · intro p names hp hl n m hm
    refine (h.accounted p names hp hl n m hm).imp_right ?_
    rintro ⟨x, hx, hrest⟩
    rcases mem_replace_of_mem (c := { b with alive := false }) (hs ▸ hx) with rfl | hx
    · exact ⟨{ x with alive := false }, by simp, hrest⟩
    · exact ⟨x, hx, hrest⟩

theorem deletes_of_backupRule {v : BackupView} {op : Op} (h : BackupRule v op) :
    op.deletes = [] := by
  match op, h with
  | .env _, _ => rfl
  | .s3 o, h => cases o <;> first | rfl | exact h.elim

theorem pending_unlisted {T : GcTerms} {s : System} (h : s.Inv T) {b : BackupRun}
    (hb : b ∈ s.backups) (hput : b.view.put = none) : b.listed = false := by
  by_contra hl
  obtain ⟨ks, hks⟩ := h.committedPut b hb (h.listedCommitted b hb (by simpa using hl))
  rw [hput] at hks
  cases hks

theorem Inv.backup {T : GcTerms} {s : System} (h : s.Inv T) {l r : List BackupRun} {b : BackupRun}
    {w : World} {proc : Proc Op Resp AnyError String} {c : Called Op Resp}
    (hs : s.backups = l ++ b :: r) (halive : b.alive = true) (hc : proc.hist = c :: b.proc.hist)
    (hstep : b.proc.Step Answers s.world proc w) :
    Inv T ⟨w, l ++ b.after proc c.1 s.world w :: r, s.gc⟩ := by
  have hb : b ∈ s.backups := by simp [hs]
  obtain ⟨op, a, hnext, hhist, hans, hobey⟩ := hstep.cases
  obtain rfl : c = ⟨op, a⟩ := List.head_eq_of_cons_eq (hc.symm.trans hhist)
  obtain ⟨hrule, hobeys⟩ := hobey (h.obeys b hb)
  change BackupRule b.view op at hrule
  have hview : (b.after proc op s.world w).view = b.view.observe op a := by
    show backupWatch.view proc.hist = _
    rw [hhist]
    rfl
  have hhas : ∀ k, s.world.Has k → w.Has k := fun k hk =>
    (has_of_answers hans hk).resolve_right (by simp [deletes_of_backupRule hrule])
  have hpend : b.view.put = none → b.Pending := fun hput =>
    ⟨halive, by simp [Proc.Running, hnext], hput⟩
  have hmem : ∀ {P : BackupRun → Prop}, (∀ b ∈ s.backups, P b) → P (b.after proc op s.world w) →
      ∀ x ∈ l ++ b.after proc op s.world w :: r, P x := by
    intro P hall hnew x hx
    rcases mem_replace (b := b) hx with rfl | hx
    · exact hnew
    · exact hall x (hs ▸ hx)
  -- what it newly puts was there: the backup was pending, and relied on it
  have hput : ∀ name m, PutsNew op s.world name m → b.view.put = none ∧
      (b.after proc op s.world w).view.put = some m.blobKeys ∧
      ∀ hash, blobRemoteKey hash ∈ m.blobKeys → s.world.Has (blobRemoteKey hash) := by
    intro name m hm
    obtain ⟨hnone, hsome, hrel⟩ := put_of_putsNew (r := a) hrule hm
    exact ⟨hnone, hview ▸ hsome, fun hash hk => h.present b hb (hpend hnone) hash (hrel _ hk)⟩
  refine ⟨?_, hmem h.obeys hobeys, hmem (fun x hx hp hash hk => hhas _ (h.present x hx hp hash hk)) ?_,
    hmem h.committedPut ?_, hmem h.listedCommitted ?_, h.gcObeys, ?_⟩
  · intro name m hm k hk
    obtain ⟨hash, rfl⟩ := exists_hash_of_mem_blobKeys hk
    rcases holds_of_backup hrule hans hm with hold | hnew
    · exact hhas _ (h.safe name m hold _ hk)
    · exact hhas _ ((hput name m hnew).2.2 hash hk)
  · rintro ⟨-, -, hnone⟩ hash hk
    rw [hview] at hnone hk
    have hbnone : b.view.put = none := by
      by_contra hne
      obtain ⟨ks, hks⟩ := Option.ne_none_iff_exists'.mp hne
      rw [put_observe hrule hks] at hnone
      cases hnone
    rcases relied_observe hrule hans h.safe hk with hk | hk
    · exact hhas _ (h.present b hb (hpend hbnone) hash hk)
    · exact hk
  · intro hcom
    rw [hview]
    rcases Bool.or_eq_true _ _ ▸ hcom with hcom | hcom
    · obtain ⟨ks, hks⟩ := h.committedPut b hb hcom
      exact ⟨ks, put_observe hrule hks⟩
    · exact put_of_commits hcom
  · intro hlist
    exact Bool.or_eq_true _ _ ▸ .inl (h.listedCommitted b hb hlist)
  · intro p names hp hl name m hm
    rcases holds_of_backup hrule hans hm with hold | hnew
    · refine (h.accounted p names hp hl name m hold).imp_right ?_
      rintro ⟨x, hx, hcom, hlist, hxput⟩
      rcases mem_replace_of_mem (hs ▸ hx) with rfl | hx
      · refine ⟨x.after proc op s.world w, by simp, ?_, hlist, ?_⟩
        · simp [BackupRun.after, hcom]
        · rw [hview]
          exact put_observe hrule hxput
      · exact ⟨x, hx, hcom, hlist, hxput⟩
    · obtain ⟨hnone, hsome, -⟩ := hput name m hnew
      have hlist : b.listed = false := pending_unlisted h hb hnone
      refine .inr ⟨b.after proc op s.world w, by simp, ?_, hlist, hsome⟩
      simp [BackupRun.after, commits_of_putsNew hnew hm]

/-! ### Steps of the cleanup command -/

/-- What was read stays what is in the bucket. -/
theorem read_observe {v : GcView} {op : Op} {a : Resp op} {w w' : World} {name : String}
    {m : Manifest} (hans : Answers op w a w') (hold : w.Holds name m)
    (h : ∀ m' ∈ v.read, m'.name = name → m'.parts = m.parts) :
    ∀ m' ∈ (v.observe op a).read, m'.name = name → m'.parts = m.parts := by
  unfold GcView.observe
  split
  · split
    · simp
    · exact h
  · -- a manifest read: it is the one in the bucket
    split
    · rename_i n hn
      obtain ⟨rfl, o, ho, hb⟩ := get?_of_getObject hans
      intro m' hm' hname
      rcases List.mem_append.mp hm' with hm' | hm'
      · exact h m' hm' hname
      · obtain rfl := List.mem_singleton.mp hm'
        obtain rfl : n = name := hname
        rw [manifestNameFromKey_eq_some.mp hn] at ho
        have heq := World.Holds.unique ⟨o, ho, hb⟩ hold
        rw [← heq]
    · exact h
  · split <;> exact h
  · split <;> exact h
  · exact h
  · exact h

/-- A manifest that is still there does not count as gone. -/
theorem not_settled_observe {T : GcTerms} {v : GcView} {op : Op} {a : Resp op} {w w' : World}
    {name : String} {m : Manifest} (hans : Answers op w a w') (hkeep : Keeps T (.gc ⟨op, a⟩))
    (hnew : w'.Holds name m) (h : name ∉ v.settled T.strict) :
    name ∉ (v.observe op a).settled T.strict := by
  have hgone : w'.get? (manifestKey name) ≠ none := by
    obtain ⟨o, ho, -⟩ := hnew
    simp [ho]
  unfold GcView.observe
  split
  · split
    · simp [GcView.settled]
    · exact h
  · split <;> exact h
  · -- a DELETE that succeeded: the manifest is not there any more
    split
    · rename_i n hn
      intro hmem
      have hne : name ≠ n := by
        rintro rfl
        rw [manifestNameFromKey_eq_some.mp hn] at hans
        exact hgone (get?_of_deleteObject hans)
      refine h ?_
      cases hst : T.strict <;> simpa [GcView.settled, hst, hne] using hmem
    · exact h
  · -- a DELETE that failed counts only under terms that are not strict
    split
    · simp only [Keeps] at hkeep
      simp only [GcView.settled, hkeep, if_true] at h ⊢
      exact h
    · exact h
  · exact h
  · exact h

theorem listed_observe_eq {v : GcView} {op : Op} {a : Resp op}
    (h : listsManifests ⟨op, a⟩ = false) : (v.observe op a).listed = v.listed := by
  unfold GcView.observe
  split
  · split
    · rename_i hpfx
      simp [listsManifests, hpfx] at h
    · rfl
  all_goals first | rfl | (split <;> rfl)

/-- A listing accounts for every manifest in the bucket. -/
theorem accounted_of_listing {T : GcTerms} {v : GcView} {op : Op} {a : Resp op} {w w' : World}
    (hans : Answers op w a w') (hlist : listsManifests ⟨op, a⟩ = true) {names : List String}
    (hnames : (v.observe op a).listed = some names) {name : String} {m : Manifest}
    (hm : w.Holds name m) (bs : List BackupRun) :
    Accounted T.strict (v.observe op a) names bs name m := by
  unfold listsManifests at hlist
  split at hlist
  · rename_i pfx entries heq
    obtain ⟨rfl, ha⟩ := Sigma.mk.inj heq
    obtain rfl := eq_of_heq ha
    have hpfx : pfx = MANIFEST_PREFIX := by simpa using hlist
    obtain ⟨-, rfl⟩ := entries_of_listObjectsV2 hans
    subst hpfx
    simp only [GcView.observe, if_true] at hnames ⊢
    obtain rfl := Option.some.inj hnames
    refine .inl ⟨?_, by simp [GcView.settled], by simp⟩
    obtain ⟨o, ho, -⟩ := hm
    refine List.mem_filterMap.mpr ⟨⟨manifestKey name, o.body.size, o.lastModified⟩, ?_,
      manifestNameFromKey_manifestKey name⟩
    exact mem_listing.mpr ⟨startsWith_manifestKey name, o, ho, rfl, rfl⟩
  · cases hlist

theorem mem_relist {c : Called Op Resp} {bs : List BackupRun} {b : BackupRun}
    (h : b ∈ relist c bs) : ∃ b₀ ∈ bs, b = b₀ ∨ b = { b₀ with listed := b₀.committed } := by
  unfold relist at h
  split at h
  · obtain ⟨b₀, hb₀, rfl⟩ := List.mem_map.mp h
    exact ⟨b₀, hb₀, .inr rfl⟩
  · exact ⟨b, h, .inl rfl⟩

theorem Inv.gc {T : GcTerms} {s : System} (h : s.Inv T) {p p' : Proc Op Resp AnyError Unit}
    {w : World} {c : Called Op Resp} (hs : s.gc = some p) (hc : p'.hist = c :: p.hist)
    (hstep : p.Step Answers s.world p' w) (hkeep : Keeps T (.gc c)) (hspare : s.Spares (.gc c)) :
    Inv T ⟨w, relist c s.backups, some p'⟩ := by
  obtain ⟨op, a, -, hhist, hans, hobey⟩ := hstep.cases
  obtain rfl : c = ⟨op, a⟩ := List.head_eq_of_cons_eq (hc.symm.trans hhist)
  obtain ⟨hrule, hobeys⟩ := hobey (h.gcObeys p hs)
  have hview : gcView p' = (gcView p).observe op a := by
    unfold gcView
    rw [hhist]
    rfl
  have hhas : ∀ hash, s.world.Has (blobRemoteKey hash) → ¬ s.Needed (blobRemoteKey hash) ∧
      BlobFree T (gcView p) (blobRemoteKey hash) ∨ w.Has (blobRemoteKey hash) := by
    intro hash hk
    rcases has_of_answers hans hk with hk' | hk'
    · exact .inr hk'
    · exact .inl ⟨hspare hash hk' hk, blobFree_of_deletes hrule hk'⟩
  have hmem : ∀ {P : BackupRun → Prop}, (∀ b ∈ s.backups, P b) →
      (∀ b, P b → P { b with listed := b.committed }) → ∀ x ∈ relist ⟨op, a⟩ s.backups, P x := by
    intro P hall hnew x hx
    obtain ⟨b, hb, rfl | rfl⟩ := mem_relist hx
    · exact hall _ hb
    · exact hnew b (hall b hb)
  have hpresent : ∀ b ∈ s.backups, b.Pending → ∀ hash, blobRemoteKey hash ∈ b.view.relied →
      w.Has (blobRemoteKey hash) := by
    intro b hb hp hash hk
    refine (hhas hash (h.present b hb hp hash hk)).resolve_left fun hno => hno.1 ?_
    refine ⟨b, hb, pending_unlisted h hb hp.2.2, .inr hp, ?_⟩
    rwa [BackupView.needs, hp.2.2]
  refine ⟨?_, hmem h.obeys fun _ hb => hb, hmem hpresent fun _ hb => hb,
    hmem h.committedPut fun _ hb => hb, hmem h.listedCommitted fun _ _ hl => hl, ?_, ?_⟩
  · intro name m hm k hk
    obtain ⟨hash, rfl⟩ := exists_hash_of_mem_blobKeys hk
    have hold := holds_of_gc hrule hans hm
    refine (hhas hash (h.safe name m hold _ hk)).resolve_left ?_
    rintro ⟨hneed, hfree⟩
    -- the manifest is accounted for: it was read, or a backup needs its blobs
    obtain ⟨names, hl, hall⟩ := hfree.unreferenced
    rcases h.accounted p names hs hl name m hold with ⟨hn, hset, hread⟩ | ⟨b, hb, hcom, hlist, hput⟩
    · obtain ⟨m', hm', hname, hno⟩ := (hall name hn).resolve_left hset
      refine hno ?_
      unfold Manifest.blobKeys at hk ⊢
      rwa [hread m' hm' hname]
    · refine hneed ⟨b, hb, hlist, .inl hcom, ?_⟩
      rwa [BackupView.needs, hput]
  · rintro _ ⟨⟩
    exact hobeys
  · rintro _ names ⟨⟩ hl name m hm
    have hold := holds_of_gc hrule hans hm
    rw [hview] at hl ⊢
    cases hlist : listsManifests ⟨op, a⟩ with
    | true => exact accounted_of_listing hans hlist hl hold _
    | false =>
      rw [listed_observe_eq hlist] at hl
      rcases h.accounted p names hs hl name m hold with h₁ | h₂
      · exact .inl ⟨h₁.1, not_settled_observe hans hkeep hm h₁.2.1, read_observe hans hold h₁.2.2⟩
      · rw [relist, hlist]
        exact .inr h₂

theorem Inv.startGc {T : GcTerms} {s : System} (h : s.Inv T) {cmd : GcCommand}
    (hcmd : ∀ v, Cleans T cmd.prog v fun _ _ => True) :
    Inv T { s with gc := some ⟨cmd.prog, []⟩ } where
  safe := h.safe
  obeys := h.obeys
  present := h.present
  committedPut := h.committedPut
  listedCommitted := h.listedCommitted
  gcObeys := by
    rintro _ ⟨⟩
    exact hcmd _
  accounted := by
    rintro _ names ⟨⟩ hl
    simp [gcView, Watch.view, gcWatch] at hl

/-- Every step that keeps to the terms and spares the blobs that are needed keeps
the invariant. -/
theorem Inv.step {T : GcTerms} {json : Json} {s s' : System} {l : Label} (h : s.Inv T)
    (hstep : s.Step json l s') (hkeep : Keeps T l) (hspare : s.Spares l) : s'.Inv T := by
  cases hstep with
  | startBackup cfg name => exact h.startBackup json cfg name
  | startGc cmd hidle => exact h.startGc hkeep
  | backup hs halive hc hstep => exact h.backup hs halive hc hstep
  | gc hs hc hstep => exact h.gc hs hc hstep hkeep hspare
  | crashBackup hs => exact h.crashBackup hs
  | crashGc =>
    exact ⟨h.safe, h.obeys, h.present, h.committedPut, h.listedCommitted, by simp, by simp⟩
  | tick hnow => exact h.frame (fun _ hk => hk) fun _ _ hm => hm
  | heartbeat hr => exact h.heartbeat hr

/-- A system no command runs in yet. -/
def Idle (w : World) : System := { world := w }

theorem Inv.start {T : GcTerms} {w : World} (h : NoDangling w) : (Idle w).Inv T :=
  ⟨h, by simp [Idle], by simp [Idle], by simp [Idle], by simp [Idle], by simp [Idle],
    by simp [Idle]⟩

end System

end Chbk
