import Chbk.Model.Prefix
import Chbk.Safety.Whole

/-!
# Blobs behind failed backups

Backups on one bucket, one after the other, each of which may stop anywhere: a request
fails, a file of a staged part cannot be opened or read, its name cannot be written. To the
upload a writer that fails is a writer that is done, so it may complete a part of an archive.
The run fails then, but the object stays, and a later run finds it by its HEAD check.

* `InTurn` — the backups one after the other, each run as far as it gets.
* `committed_whole` — as long as no upload of a failed writer is completed, each manifest
  has a whole archive for every blob it names.
* `committed_truncated` — without that, a later run commits a manifest whose blob is cut off.
-/

namespace Chbk

open Lib Prog

-- ---------------------------------------------------------------------------
-- The runs
-- ---------------------------------------------------------------------------

/-- What is read of the staged directory of a hash is of the part with this hash, if it can
be read. -/
def PartIsRead (site : String → Tree) : (op : Op) → Resp op → Prop
  | .env (.collectFiles hash dir), .ok files => ∃ paths, Listing dir (site hash) files paths
  | .env (.openFiles hash dir), openFile =>
    ∀ p bs r, (site hash).fileAt p = some bs → openFile (shown dir p) = .ok r → r.rest = bs
  | _, _ => True

/-- Any answer, but that no other files are read. -/
def RunAnswers (site : String → Tree) (op : Op) (w : World) (r : Resp op) (w' : World) : Prop :=
  Answers op w r w' ∧ PartIsRead site op r

/-- A backup whose calls are all `ok`, as far as it gets. -/
def BackupRuns (site : String → Tree) (ok : Event Op Resp World → Prop) (w w' : World) : Prop :=
  ∃ (json : Json) (cfg : Config) (name : Option String) (tr : List (Event Op Resp World))
    (p : Proc Op Resp AnyError String),
    Proc.Trace (RunAnswers site) World.Ticks ⟨createSnapshot json cfg name, []⟩ w tr p w' ∧
      ∀ x ∈ tr, ok x

/-- Backups one after the other. -/
def InTurn (site : String → Tree) (ok : Event Op Resp World → Prop) : World → World → Prop :=
  Relation.ReflTransGen (BackupRuns site ok)

/-- Each blob that a manifest names is there, and is whole. -/
def CommittedWhole (site : String → Tree) (w : World) : Prop :=
  ∀ name m, w.Holds name m → ∀ p ∈ m.parts, ∃ o,
    w.get? (blobRemoteKey p.blobHash) = some o ∧ HoldsPart site p.blobHash o.body

/-- The call does not put what a failed writer has left. -/
def WriterDone (x : Event Op Resp World) : Prop :=
  ∀ key id pns, x.call.1 = .s3 (.completeMultipartUpload key id pns) →
    x.after.get? key ≠ x.before.get? key → ∀ hash files openFile, key = blobRemoteKey hash →
      (hash, files) ∈ (backupWatch.view x.hist).files →
      (hash, openFile) ∈ (backupWatch.view x.hist).opened →
      ∃ n, (zipOutput openFile files).1 = .ok n

-- ---------------------------------------------------------------------------
-- One backup
-- ---------------------------------------------------------------------------

/-- What a backup keeps to. -/
def SnapshotRule (cfg : Config) (h : History Op Resp) (op : Op) : Prop :=
  BackupRule (backupWatch.view h) op ∧ StartedRule cfg (startedWatch.view h) op

theorem follows_snapshotRule (json : Json) (cfg : Config) (name : Option String) :
    Follows (Watch.record Op Resp) (SnapshotRule cfg) (createSnapshot json cfg name) []
      (fun _ _ => True) fun _ _ => True := by
  have hbackup : Follows (Watch.record Op Resp) (fun h op => BackupRule (backupWatch.view h) op)
      (createSnapshot json cfg name) [] (fun _ _ => True) fun _ _ => True :=
    Follows.record (M := backupWatch) (h := []) (follows_createSnapshot json cfg name)
  have hstarts : Follows (Watch.record Op Resp)
      (fun h op => StartedRule cfg (startedWatch.view h) op) (createSnapshot json cfg name) []
      (fun _ _ => True) fun _ _ => True :=
    Follows.record (M := startedWatch) (h := []) (starts_createSnapshot json cfg name [])
  exact Follows.mono (hbackup.and hstarts) (fun _ _ _ => trivial) fun _ _ _ => trivial

/-- A backup alone on the bucket, with what it has learned and sent. -/
structure Committing (site : String → Tree) (cfg : Config) (h : History Op Resp) (w : World) :
    Prop where
  inStore : InStore h w
  files : ∀ hash files, (hash, files) ∈ (backupWatch.view h).files →
    ∃ paths, Listing (stagedDir cfg hash) (site hash) files paths
  opened : ∀ hash openFile, (hash, openFile) ∈ (backupWatch.view h).opened →
    PartIsRead site (.env (.openFiles hash (stagedDir cfg hash))) openFile
  /-- What it takes to be in the bucket is there, -/
  relied : ∀ k ∈ (backupWatch.view h).relied, w.Has k
  /-- no manifest dangles, and all blobs are whole. -/
  safe : NoDangling w
  blobs : WholeBlobs site w

variable {site : String → Tree} {cfg : Config} {h : History Op Resp} {w w' : World}

theorem Committing.start (hsafe : NoDangling w) (hblobs : WholeBlobs site w) :
    Committing site cfg [] w where
  inStore := ⟨by simp [startedWatch, Watch.view], by simp [backupWatch, Watch.view]⟩
  files := by simp [backupWatch, Watch.view]
  opened := by simp [backupWatch, Watch.view]
  relied := by simp [backupWatch, Watch.view, BackupView.relied]
  safe := hsafe
  blobs := hblobs

theorem Committing.ticks (hx : Committing site cfg h w) (hw : World.Ticks w w') :
    Committing site cfg h w' := by
  obtain ⟨-, hw⟩ := hw
  rw [hw]
  exact ⟨⟨hx.inStore.below, hx.inStore.sent⟩, hx.files, hx.opened, hx.relied, hx.safe, hx.blobs⟩

section

variable {op : Op} {r : Resp op}

/-- What the call leaves of the uploads of the backup. -/
theorem Committing.inStore_call (hx : Committing site cfg h w) (hrule : SnapshotRule cfg h op)
    (hans : Answers op w r w') : InStore (⟨op, r⟩ :: h) w' := by
  have hafter : InStore h w' := by
    cases op with
    | env e =>
      obtain ⟨-, rfl⟩ := hans
      exact hx.inStore
    | s3 o =>
      have huploads := S3Answers.uploads hans
      refine hx.inStore.world huploads.fresh (huploads.stays hx.inStore ?_)
      rintro key id pn data rfl -
      exact hrule.1.2
  refine hafter.call hans ?_
  rintro key id pn data rfl
  exact hrule.2

/-- The blobs stay whole: a blob is put where its writer is done. -/
theorem Committing.blobs_call (hx : Committing site cfg h w) (hrule : SnapshotRule cfg h op)
    (hans : Answers op w r w') (hdone : WriterDone ⟨h, w, ⟨op, r⟩, w'⟩) :
    WholeBlobs site w' := by
  intro hash o ho
  by_cases hsame : w'.get? (blobRemoteKey hash) = w.get? (blobRemoteKey hash)
  · exact hx.blobs hash o (hsame.symm.trans ho)
  cases op with
  | env e =>
    obtain ⟨-, rfl⟩ := hans
    exact absurd rfl hsame
  | s3 s =>
    cases (S3Answers.change hans).2 with
    | removes gone _ hget =>
      rw [hget] at ho
      split at ho
      · cases ho
      · exact hx.blobs hash o ho
    | writes key body hw hget =>
      rw [hget] at ho
      split at ho
      · rename_i hkey
        obtain rfl := Option.some.inj ho
        subst hkey
        cases s with
        | putObject key' body' ifMatch ifNoneMatch =>
          obtain ⟨rfl, -⟩ := hw
          obtain ⟨-, m, hmanifest, -⟩ := hrule.1
          exact absurd hmanifest.symm (manifestKey_ne_blobRemoteKey m.name hash)
        | completeMultipartUpload key' id pns =>
          obtain ⟨rfl, u, bs, hu, -, hassemble, rfl⟩ := hw
          obtain ⟨hash', files, openFile, hkey, hfiles, hopen, rfl⟩ :=
            hx.inStore.completes hrule.1 hu hassemble
          obtain rfl := blobRemoteKey_inj hkey
          obtain ⟨n, hn⟩ := hdone _ id pns rfl hsame _ files openFile rfl hfiles hopen
          obtain ⟨paths, hlisting⟩ := hx.files _ files hfiles
          exact ⟨_, rfl, _, files, paths, openFile, n, hlisting, hx.opened _ openFile hopen,
            Prod.ext hn rfl⟩
        | _ => exact hw.elim
      · exact hx.blobs hash o ho

/-- A call of the backup. -/
theorem Committing.call (hx : Committing site cfg h w) (hrule : SnapshotRule cfg h op)
    (hans : RunAnswers site op w r w') (hdone : WriterDone ⟨h, w, ⟨op, r⟩, w'⟩) :
    Committing site cfg (⟨op, r⟩ :: h) w' := by
  have hhas : ∀ k, w.Has k → w'.Has k := fun k hk =>
    (has_of_answers hans.1 hk).resolve_right (by simp [System.deletes_of_backupRule hrule.1])
  refine ⟨hx.inStore_call hrule hans.1, ?_, ?_, ?_, ?_, hx.blobs_call hrule hans.1 hdone⟩
  · intro hash files hmem
    rcases (observed _ op r).files hash files hmem with hmem | ⟨dir, hcall⟩
    · exact hx.files hash files hmem
    · cases hcall
      obtain rfl : dir = stagedDir cfg hash := hrule.2
      exact hans.2
  · intro hash openFile hmem
    rcases (observed _ op r).opened hash openFile hmem with hmem | ⟨dir, hcall⟩
    · exact hx.opened hash openFile hmem
    · cases hcall
      obtain rfl : dir = stagedDir cfg hash := hrule.2
      exact hans.2
  · intro k hk
    rcases relied_observe hrule.1 hans.1 hx.safe hk with hk | hk
    · exact hhas k (hx.relied k hk)
    · exact hk
  · intro name m hm k hk
    rcases holds_of_backup hrule.1 hans.1 hm with hold | hnew
    · exact hhas k (hx.safe name m hold k hk)
    · obtain ⟨-, -, hrelied⟩ := put_of_putsNew (r := r) hrule.1 hnew
      exact hhas k (hx.relied k (hrelied k hk))

end

/-- Along a backup. -/
theorem Committing.run {json : Json} {name : Option String} {tr : List (Event Op Resp World)}
    {p : Proc Op Resp AnyError String} (hsafe : NoDangling w) (hblobs : WholeBlobs site w)
    (hrun : Proc.Trace (RunAnswers site) World.Ticks ⟨createSnapshot json cfg name, []⟩ w tr p w')
    (hdone : ∀ x ∈ tr, WriterDone x) : Committing site cfg p.hist w' := by
  have hrule := (hrun.follows (M := Watch.record Op Resp) (follows_snapshotRule json cfg name)).2
  simp only [Watch.view_record] at hrule
  induction hrun with
  | start => exact .start hsafe hblobs
  | beside _ hw ih => exact (ih hdone hrule).ticks hw
  | @call tr p₁ p₂ w₁ w₂ c _ hstep hc ih =>
    have hbefore := ih (fun x hx => hdone x (List.mem_append_left _ hx))
      fun x hx => hrule x (List.mem_append_left _ hx)
    have hlast := List.mem_append_right tr
      (List.mem_singleton_self (⟨p₁.hist, w₁, c, w₂⟩ : Event ..))
    obtain ⟨hans⟩ := hstep
    obtain ⟨rfl, -⟩ := List.cons.inj hc
    exact hbefore.call (hrule _ hlast) hans (hdone _ hlast)

-- ---------------------------------------------------------------------------
-- All backups
-- ---------------------------------------------------------------------------

theorem committedWhole_of {site : String → Tree} {w : World} (hsafe : NoDangling w)
    (hblobs : WholeBlobs site w) : CommittedWhole site w := by
  intro name m hm p hp
  obtain ⟨o, ho⟩ := hsafe name m hm (blobRemoteKey p.blobHash) (List.mem_map_of_mem hp)
  exact ⟨o, ho, hblobs _ o ho⟩

/-- **Manifests name whole blobs.** Backups run one after the other, each of which may fail
at any call, in a bucket whose blobs are whole; no upload of a failed writer is completed.
Then each manifest that is committed, at any time, has a whole archive for each of its
blobs. -/
theorem committed_whole {site : String → Tree} {w w' : World} (hsafe : NoDangling w)
    (hblobs : WholeBlobs site w) (hruns : InTurn site WriterDone w w') :
    CommittedWhole site w' := by
  have hstep : ∀ v v', NoDangling v ∧ WholeBlobs site v → BackupRuns site WriterDone v v' →
      NoDangling v' ∧ WholeBlobs site v' := by
    rintro v v' ⟨hv, hv'⟩ ⟨json, cfg, name, tr, p, hrun, hdone⟩
    have hend := Committing.run hv hv' hrun hdone
    exact ⟨hend.safe, hend.blobs⟩
  obtain ⟨hend, hend'⟩ := invariant_of_step hstep ⟨hsafe, hblobs⟩ hruns
  exact committedWhole_of hend hend'

-- ---------------------------------------------------------------------------
-- A site with a part of one file
-- ---------------------------------------------------------------------------

/-- A part of one file. -/
def filePart (bs : Bytes) : Tree := [([], .dir), (["data.bin"], .file bs)]

theorem fileAt_filePart {bs bs' : Bytes} {p : RelPath} (hp : (filePart bs).fileAt p = some bs') :
    p = ["data.bin"] ∧ bs' = bs := by
  have hmem := mem_of_lookup (Tree.fileAt_eq_some.mp hp)
  simpa [filePart] using hmem

/-- The file, as it is collected. -/
def partFile (size : UInt64) (dir : String) : ZipFileEntry :=
  ⟨shown dir ["data.bin"], "data.bin", size⟩

theorem listing_filePart (bs : Bytes) (dir : String) :
    Listing dir (filePart bs) [partFile (UInt64.ofNat bs.length) dir] [["data.bin"]] where
  sorted := List.pairwise_singleton ..
  mem_iff p := by
    rw [List.mem_singleton]
    constructor
    · rintro rfl
      rfl
    · intro hp
      obtain ⟨bs', hbs⟩ := Option.isSome_iff_exists.mp hp
      exact (fileAt_filePart hbs).1
  files_eq := rfl

/-- The site, where the file is read with these cuts. -/
def fileEnv (bs : Bytes) (size : UInt64) (cuts : List Cut) : (o : EnvOp) → Option (EnvResp o)
  | .collectFiles _ dir => some (.ok [partFile size dir])
  | .openFiles .. => some fun _ => .ok ⟨bs, cuts⟩
  | o => siteEnv o

/-- All calls are served. -/
def fileAnswer (bs : Bytes) (size : UInt64) (cuts : List Cut) : Answer :=
  ⟨fileEnv bs size cuts, none⟩

theorem runAnswers_fileAnswer {bs : Bytes} {size : UInt64} {cuts : List Cut}
    (hsize : size = UInt64.ofNat bs.length) (op : Op) (w : World) (r : Resp op) (w' : World)
    (h : (fileAnswer bs size cuts).answer op w = some (r, w')) :
    RunAnswers (fun _ => filePart bs) op w r w' := by
  refine ⟨Answer.answers_answer op w r w' h, ?_⟩
  cases op with
  | s3 o => trivial
  | env o =>
    cases o with
    | collectFiles hash dir =>
      obtain ⟨rfl, -⟩ := Prod.mk.inj (Option.some.inj h)
      exact ⟨_, hsize ▸ listing_filePart bs dir⟩
    | openFiles hash dir =>
      obtain ⟨rfl, -⟩ := Prod.mk.inj (Option.some.inj h)
      intro p bs' r hp hopen
      obtain rfl := Except.ok.inj hopen
      exact (fileAt_filePart hp).2.symm
    | _ => trivial

/-- The check `WriterDone` makes of a call, for all keys at once. -/
def writerDone (x : Event Op Resp World) : Bool :=
  match x.call.1 with
  | .s3 (.completeMultipartUpload ..) => (backupWatch.view x.hist).files.all fun f =>
      (backupWatch.view x.hist).opened.all fun o => (zipOutput o.2 f.2).1.toOption.isSome
  | _ => true

theorem writerDone_of_check {x : Event Op Resp World} (h : writerDone x = true) :
    WriterDone x := by
  intro key id pns hcall _ hash files openFile _ hfiles hopen
  unfold writerDone at h
  rw [hcall] at h
  have hwrites := List.all_eq_true.mp (List.all_eq_true.mp h _ hfiles) _ hopen
  cases hres : (zipOutput openFile files).1 with
  | ok n => exact ⟨n, rfl⟩
  | error e =>
    dsimp only at hwrites
    rw [hres] at hwrites
    cases hwrites

/-- The first backup cannot read the file and stops before its upload is completed; the
second one reads it. -/
theorem committed_whole_secondRun : ∃ w', w'.Has (manifestKey "snap2") ∧
    w'.Has (blobRemoteKey siteHash) ∧ CommittedWhole (fun _ => filePart [1]) w' := by
  have hans : ∀ n cuts, ∀ a ∈ List.replicate n (fileAnswer [1] 1 cuts), ∀ op w r w',
      a.answer op w = some (r, w') → RunAnswers (fun _ => filePart [1]) op w r w' := by
    intro n cuts a ha
    rw [List.eq_of_mem_replicate ha]
    exact runAnswers_fileAnswer rfl
  have hend : (runAlone (List.replicate 19 (fileAnswer [1] 1 [.fail])) []
      ⟨createSnapshot siteJson siteConfig (some "snap1"), []⟩ {}).any (fun x =>
        x.1.all writerDone && (runAlone (List.replicate 25 (fileAnswer [1] 1 [])) []
          ⟨createSnapshot siteJson siteConfig (some "snap2"), []⟩ x.2.2).any fun y =>
            y.1.all writerDone && ((y.2.2.get? (manifestKey "snap2")).isSome &&
              (y.2.2.get? (blobRemoteKey siteHash)).isSome)) = true := by
    decide +kernel
  obtain ⟨tr₁, p₁, w₁, hfirst, hend₁⟩ :=
    @exists_trace_of_answers _ _ World.Ticks _ (hans 19 [.fail]) _ _ _ hend
  obtain ⟨hdone₁, hend₁⟩ := Bool.and_eq_true_iff.mp hend₁
  obtain ⟨tr₂, p₂, w₂, hsecond, hend₂⟩ :=
    @exists_trace_of_answers _ _ World.Ticks _ (hans 25 []) _ _ _ hend₁
  obtain ⟨hdone₂, hend₂⟩ := Bool.and_eq_true_iff.mp hend₂
  obtain ⟨hmanifest, hblob⟩ := Bool.and_eq_true_iff.mp hend₂
  have hruns : InTurn (fun _ => filePart [1]) WriterDone {} w₂ := by
    have hrun₁ : BackupRuns (fun _ => filePart [1]) WriterDone {} w₁ :=
      ⟨_, _, _, tr₁, p₁, hfirst, fun x hx => writerDone_of_check (List.all_eq_true.mp hdone₁ x hx)⟩
    have hrun₂ : BackupRuns (fun _ => filePart [1]) WriterDone w₁ w₂ :=
      ⟨_, _, _, tr₂, p₂, hsecond, fun x hx => writerDone_of_check (List.all_eq_true.mp hdone₂ x hx)⟩
    exact .tail (.single hrun₁) hrun₂
  have hsafe : NoDangling {} := by
    rintro name m ⟨o, ho, -⟩
    cases ho
  have hblobs : WholeBlobs (fun _ => filePart [1]) {} := fun hash o ho => nomatch ho
  exact ⟨w₂, Option.isSome_iff_exists.mp hmanifest, Option.isSome_iff_exists.mp hblob,
    committed_whole hsafe hblobs hruns⟩

-- ---------------------------------------------------------------------------
-- A blob that is cut off
-- ---------------------------------------------------------------------------

/-- The data of each file is in an entry. -/
theorem Written.exists_data {openFile : String → Except AnyError Reader} :
    ∀ {files : List ZipFileEntry} {offset : UInt64} {es : List ArchiveEntry},
      Written openFile offset files es → ∀ f ∈ files, ∃ e ∈ es, e.data.length = f.size.toNat
  | _ :: _, offset, e :: _, h, f, hf => by
    rcases List.mem_cons.mp hf with rfl | hf
    · exact ⟨e, List.mem_cons_self .., h.1.size⟩
    · obtain ⟨e', he', hdata⟩ := h.2.exists_data f hf
      exact ⟨e', List.mem_cons_of_mem _ he', hdata⟩

/-- An archive of a part is at least as long as each of its files. -/
theorem ArchiveOf.length_le {part : Tree} {bytes : Bytes} (h : ArchiveOf part bytes)
    {p : RelPath} {bs : Bytes} (hp : part.fileAt p = some bs) (hsize : bs.length < 2 ^ 64) :
    bs.length ≤ bytes.length := by
  obtain ⟨dir, files, paths, openFile, n, hlisting, -, hzip⟩ := h
  have hmem : zipEntryOf dir part p ∈ files := by
    rw [hlisting.files_eq]
    exact List.mem_map_of_mem ((hlisting.mem_iff p).mpr (by rw [hp]; rfl))
  obtain ⟨hwritten, hbytes⟩ := zipOutput_ok hzip
  obtain ⟨e, he, hdata⟩ := hwritten.exists_data _ hmem
  have hlength : e.data.length = bs.length := by
    rw [hdata, zipEntryOf, hp, Option.getD_some, UInt64.toNat_ofNat']
    exact Nat.mod_eq_of_lt hsize
  have hentry : e.data.length ≤ e.bytes.length := by
    simp only [ArchiveEntry.bytes, ArchiveEntry.body, List.length_append]
    omega
  have hentries : e.bytes.length ≤ (List.flatMap ArchiveEntry.bytes _).length :=
    (List.sublist_flatten_of_mem (List.mem_map_of_mem he)).length_le
  rw [hbytes, archiveBytes, List.length_append]
  omega

/-- The part that is to be backed up: half a mebibyte, so that it is looked for by HEAD. -/
def bigFile : Bytes := List.replicate 524288 1

/-- The JSON library, for the row of that part. -/
def bigJson : Json where
  fromStr line :=
    if line = "row" then
      some (.object [("database", .string "db"), ("table", .string "t"),
        ("name", .string "all_1_1_0"), ("path", .string "/ch/t/all_1_1_0/"),
        ("hash_of_all_files", .string siteHash), ("bytes_on_disk", .string "524288"),
        ("rows", .string "1")])
    else none
  toStr _ := ""

/-- The parts of the manifest under this name. -/
def World.partsOf (w : World) (name : String) : List ManifestPart :=
  match w.get? (manifestKey name) with
  | some ⟨.manifest m, _, _⟩ => m.parts
  | _ => []

theorem World.holds_of_mem_partsOf {w : World} {name : String} {p : ManifestPart}
    (hp : p ∈ w.partsOf name) : ∃ m, w.Holds name m ∧ p ∈ m.parts := by
  unfold partsOf at hp
  split at hp
  · rename_i m etag lastModified hget
    exact ⟨m, ⟨_, hget, rfl⟩, hp⟩
  · cases hp

/-- A blob of this manifest that is there, and is shorter than the file. -/
def cutOff (w : World) (name : String) : Bool :=
  (w.partsOf name).any fun p => (w.get? (blobRemoteKey p.blobHash)).any fun o =>
    decide (o.body.size < 524288)

theorem not_committedWhole_of_cutOff {w : World} {name : String} (h : cutOff w name = true) :
    ¬ CommittedWhole (fun _ => filePart bigFile) w := by
  intro hwhole
  obtain ⟨p, hp, hshort⟩ := List.any_eq_true.mp h
  obtain ⟨m, hm, hpm⟩ := World.holds_of_mem_partsOf hp
  obtain ⟨o, ho, bs, hbody, harchive⟩ := hwhole name m hm p hpm
  rw [ho, Option.any_some, hbody] at hshort
  have hshort : bs.length < 524288 := of_decide_eq_true hshort
  have hfile : (filePart bigFile).fileAt ["data.bin"] = some bigFile := rfl
  have hlength : bigFile.length = 524288 := List.length_replicate
  have hle := harchive.length_le hfile (by omega)
  omega

/-- The first backup fails to read the file, and has completed the upload of what it has
written; the second one finds the object and names it in its manifest. -/
theorem committed_truncated : ¬ ∀ (site : String → Tree) (w w' : World), NoDangling w →
    WholeBlobs site w → InTurn site (fun _ => True) w w' → CommittedWhole site w' := by
  intro hall
  have hans : ∀ n, ∀ a ∈ List.replicate n (fileAnswer bigFile 524288 [.fail]), ∀ op w r w',
      a.answer op w = some (r, w') → RunAnswers (fun _ => filePart bigFile) op w r w' := by
    intro n a ha
    rw [List.eq_of_mem_replicate ha]
    refine runAnswers_fileAnswer ?_
    rw [bigFile, List.length_replicate]
    rfl
  have hend : (runAlone (List.replicate 22 (fileAnswer bigFile 524288 [.fail])) []
      ⟨createSnapshot bigJson siteConfig (some "snap1"), []⟩ {}).any (fun x =>
        (runAlone (List.replicate 19 (fileAnswer bigFile 524288 [.fail])) []
          ⟨createSnapshot bigJson siteConfig (some "snap2"), []⟩ x.2.2).any fun y =>
            cutOff y.2.2 "snap2") = true := by
    decide +kernel
  obtain ⟨tr₁, p₁, w₁, hfirst, hend₁⟩ :=
    @exists_trace_of_answers _ _ World.Ticks _ (hans 22) _ _ _ hend
  obtain ⟨tr₂, p₂, w₂, hsecond, hend₂⟩ :=
    @exists_trace_of_answers _ _ World.Ticks _ (hans 19) _ _ _ hend₁
  have hruns : InTurn (fun _ => filePart bigFile) (fun _ => True) {} w₂ :=
    .tail (.single ⟨_, _, _, tr₁, p₁, hfirst, fun _ _ => trivial⟩)
      ⟨_, _, _, tr₂, p₂, hsecond, fun _ _ => trivial⟩
  have hsafe : NoDangling {} := by
    rintro name m ⟨o, ho, -⟩
    cases ho
  have hblobs : WholeBlobs (fun _ => filePart bigFile) {} := fun hash o ho => nomatch ho
  exact not_committedWhole_of_cutOff hend₂ (hall _ {} w₂ hsafe hblobs hruns)

end Chbk
