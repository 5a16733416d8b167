import Chbk.Safety.Archive
import Chbk.Safety.Selection
import Chbk.Safety.Uploads

/-!
# Blobs are whole

Any number of commands of every kind on one bucket, in any interleaving and with any
requests failing, while what a backup reads of a staged part is the part. A blob is then
the archive of the part that its key names, from the moment it is in the bucket.

* `ReadsPart` — what a backup reads of a staged part is the part.
* `Whole` — the invariant: the blobs are whole, what is stored for an upload is what its
  backup has sent to it, and no two backups share an upload.
* `restored_whole` — so a restore that returns has extracted whole archives, and its
  directories hold the files of the parts.
-/

namespace Chbk

open Lib Prog

-- ---------------------------------------------------------------------------
-- The site
-- ---------------------------------------------------------------------------

/-- What is read of the staged directory of a hash are the files of the part with this
hash, and the writer does not fail. -/
def ReadsPart (site : String → Tree) : (op : Op) → Resp op → Prop
  | .env (.collectFiles hash dir), .ok files => ∃ paths, Listing dir (site hash) files paths
  | .env (.openFiles hash dir), openFile =>
    (∀ p bs r, (site hash).fileAt p = some bs → openFile (shown dir p) = .ok r → r.rest = bs) ∧
      ∀ files paths, Listing dir (site hash) files paths →
        ∃ n, (zipOutput openFile files).1 = .ok n
  | _, _ => True

/-- Any answer, but that parts are read as they are. -/
def SiteAnswers (site : String → Tree) (op : Op) (w : World) (r : Resp op) (w' : World) : Prop :=
  Answers op w r w' ∧ ReadsPart site op r

/-- What may change beside the commands: the lock, the time, and uploads that end. -/
structure Drift (w w' : World) : Prop where
  objects : SameButLock w w'
  fresh : w.fresh ≤ w'.fresh
  uploads : ∀ id u, w'.uploads.lookup id = some u → w.uploads.lookup id = some u

/-- The object holds an archive of the part with this hash. -/
def HoldsPart (site : String → Tree) (hash : String) (body : Body) : Prop :=
  ∃ bs, body = .data bs ∧ ArchiveOf (site hash) bs

/-- Every blob is whole. -/
def WholeBlobs (site : String → Tree) (w : World) : Prop :=
  ∀ hash o, w.get? (blobRemoteKey hash) = some o → HoldsPart site hash o.body

-- ---------------------------------------------------------------------------
-- What a command has sent
-- ---------------------------------------------------------------------------

variable {site : String → Tree} {x : Invocation} {h : History Op Resp} {w w' : World}

section

variable {op : Op} {r : Resp op}

theorem mem_started {ids : List UploadId} {id : UploadId}
    (hid : id ∈ startedWatch.observe ids op r) :
    id ∈ ids ∨ ∃ key, (⟨op, r⟩ : Called Op Resp) =
      ⟨.s3 (.createMultipartUpload key), (Except.ok id : Except SdkError UploadId)⟩ := by
  simp only [startedWatch] at hid
  split at hid
  · rcases List.mem_cons.mp hid with rfl | hid
    · exact .inr ⟨_, rfl⟩
    · exact .inl hid
  · exact .inl hid

/-- What a call adds to the view of a backup. -/
structure Observed (v : BackupView) (op : Op) (r : Resp op) : Prop where
  sent : ∀ id pn data, (id, pn, data) ∈ (v.observe op r).sent → (id, pn, data) ∈ v.sent ∨
    ∃ key, (⟨op, r⟩ : Called Op Resp) =
      ⟨.s3 (.uploadPart key id pn data), (Except.ok () : Except SdkError Unit)⟩
  files : ∀ hash files, (hash, files) ∈ (v.observe op r).files → (hash, files) ∈ v.files ∨
    ∃ dir, (⟨op, r⟩ : Called Op Resp) =
      ⟨.env (.collectFiles hash dir), (Except.ok files : Except AnyError (List ZipFileEntry))⟩
  opened : ∀ hash openFile, (hash, openFile) ∈ (v.observe op r).opened →
    (hash, openFile) ∈ v.opened ∨
    ∃ dir, (⟨op, r⟩ : Called Op Resp) = ⟨.env (.openFiles hash dir), openFile⟩

/-- Nothing is sent to S3 by a call of another kind, -/
theorem observe_env_sent (v : BackupView) (o : EnvOp) (r : EnvResp o) :
    (v.observe (.env o) r).sent = v.sent := by
  cases o with
  | collectFiles hash dir =>
    cases r with
    | error e => rfl
    | ok files => rfl
  | _ => rfl

/-- and no part is read by a request. -/
theorem observe_s3_read (v : BackupView) (o : S3Op) (r : Except SdkError (S3Ok o)) :
    (v.observe (.s3 o) r).files = v.files ∧ (v.observe (.s3 o) r).opened = v.opened := by
  cases o with
  | getObject key =>
    cases r with
    | error e => exact ⟨rfl, rfl⟩
    | ok body => cases body <;> exact ⟨rfl, rfl⟩
  | putObject key body ifMatch ifNoneMatch => cases body <;> exact ⟨rfl, rfl⟩
  | _ => cases r <;> exact ⟨rfl, rfl⟩

theorem observed (v : BackupView) (op : Op) (r : Resp op) : Observed v op r := by
  cases op with
  | s3 o =>
    obtain ⟨hfiles, hopened⟩ := observe_s3_read v o r
    refine ⟨fun id pn data hmem => ?_, fun hash files hmem => .inl (hfiles ▸ hmem),
      fun hash openFile hmem => .inl (hopened ▸ hmem)⟩
    cases o with
    | createMultipartUpload key =>
      cases r with
      | error e => exact .inl hmem
      | ok id' => exact .inl (List.mem_filter.mp hmem).1
    | uploadPart key id' pn' data' =>
      cases r with
      | error e => exact .inl hmem
      | ok u =>
        rcases List.mem_cons.mp hmem with heq | hmem
        · obtain ⟨rfl, rfl, rfl⟩ := by simpa using heq
          exact .inr ⟨_, rfl⟩
        · exact .inl hmem
    | getObject key =>
      cases r with
      | error e => exact .inl hmem
      | ok body => cases body <;> exact .inl hmem
    | putObject key body ifMatch ifNoneMatch => cases body <;> exact .inl hmem
    | _ => cases r <;> exact .inl hmem
  | env o =>
    have hsent := observe_env_sent v o r
    refine ⟨fun id pn data hmem => .inl (hsent ▸ hmem), fun hash files hmem => ?_,
      fun hash openFile hmem => ?_⟩
    · cases o with
      | collectFiles hash' dir =>
        cases r with
        | error e => exact .inl hmem
        | ok files' =>
          rcases List.mem_cons.mp hmem with heq | hmem
          · obtain ⟨rfl, rfl⟩ := Prod.mk.inj heq
            exact .inr ⟨_, rfl⟩
          · exact .inl hmem
      | _ => exact .inl hmem
    · cases o with
      | openFiles hash' dir =>
        rcases List.mem_cons.mp hmem with heq | hmem
        · obtain ⟨rfl, rfl⟩ := Prod.mk.inj heq
          exact .inr ⟨_, rfl⟩
        · exact .inl hmem
      | collectFiles hash' dir => cases r <;> exact .inl hmem
      | _ => exact .inl hmem

/-- The uploads of a command have been started, and what it has sent to them is stored
there. -/
structure InStore (h : History Op Resp) (w : World) : Prop where
  below : ∀ id ∈ startedWatch.view h, id < w.fresh
  sent : ∀ id pn data, (id, pn, data) ∈ (backupWatch.view h).sent → id ∈ startedWatch.view h ∧
    ∀ u, w.uploads.lookup id = some u → u.parts.lookup pn = some data

/-- The bucket changes, and what the command has sent stays. -/
theorem InStore.world (hx : InStore h w) (hfresh : w.fresh ≤ w'.fresh)
    (hstays : ∀ id ∈ startedWatch.view h, ∀ u, w'.uploads.lookup id = some u →
      ∃ u₀, w.uploads.lookup id = some u₀ ∧ ∀ pn data, (id, pn, data) ∈ (backupWatch.view h).sent →
        u₀.parts.lookup pn = some data → u.parts.lookup pn = some data) : InStore h w' where
  below id hid := lt_of_lt_of_le (hx.below id hid) hfresh
  sent := by
    intro id pn data hsent
    obtain ⟨hid, hstored⟩ := hx.sent id pn data hsent
    refine ⟨hid, fun u hu => ?_⟩
    obtain ⟨u₀, hu₀, hkept⟩ := hstays id hid u hu
    exact hkept pn data hsent (hstored u₀ hu₀)

/-- The call of a command that sends parts to its own uploads. -/
theorem InStore.call (hx : InStore h w') (hans : Answers op w r w')
    (hown : ∀ key id pn data, op = .s3 (.uploadPart key id pn data) → id ∈ startedWatch.view h) :
    InStore (⟨op, r⟩ :: h) w' where
  below := by
    intro id hid
    rcases mem_started hid with hid | ⟨key, hcall⟩
    · exact hx.below id hid
    · cases hcall
      obtain ⟨hid, hw⟩ := Prod.mk.inj hans
      obtain rfl := Except.ok.inj hid
      rw [← hw]
      exact Nat.lt_succ_self _
  sent := by
    intro id pn data hmem
    rcases (observed _ op r).sent id pn data hmem with hmem | ⟨key, hcall⟩
    · obtain ⟨hid, hstored⟩ := hx.sent id pn data hmem
      refine ⟨?_, hstored⟩
      show id ∈ startedWatch.observe _ op r
      simp only [startedWatch]
      split
      · exact List.mem_cons_of_mem _ hid
      · exact hid
    · cases hcall
      refine ⟨hown key id pn data rfl, fun u hu => ?_⟩
      have hperform : (S3Op.uploadPart key id pn data).perform w = (.ok (), w') := hans
      simp only [S3Op.perform] at hperform
      split at hperform
      · split at hperform
        · cases (Prod.mk.inj hperform).1
        · obtain ⟨-, rfl⟩ := Prod.mk.inj hperform
          dsimp only at hu
          rw [lookup_insertKey, if_pos rfl] at hu
          obtain rfl := Option.some.inj hu
          show (insertKey pn data _).lookup pn = some data
          rw [lookup_insertKey, if_pos rfl]
      · cases (Prod.mk.inj hperform).1

end

/-- An upload of the command, behind a request of some command: the request was not about
it, or is this command's own and of another number. -/
theorem UploadsAfter.stays {o : S3Op} (hafter : UploadsAfter o w w') (hx : InStore h w)
    (hnumber : ∀ key id pn data, o = .uploadPart key id pn data → id ∈ startedWatch.view h →
      ∀ data', (id, pn, data') ∉ (backupWatch.view h).sent) :
    ∀ id ∈ startedWatch.view h, ∀ u, w'.uploads.lookup id = some u →
      ∃ u₀, w.uploads.lookup id = some u₀ ∧ ∀ pn data, (id, pn, data) ∈ (backupWatch.view h).sent →
        u₀.parts.lookup pn = some data → u.parts.lookup pn = some data := by
  intro id hid u hu
  rcases hafter.lookup id u hu with hsame | rfl | ⟨key, pn', data', parts, ho, hu₀, rfl⟩
  · exact ⟨u, hsame, fun _ _ _ h => h⟩
  · exact absurd (hx.below _ hid) (lt_irrefl _)
  · refine ⟨_, hu₀, fun pn data hsent hstored => ?_⟩
    have hne : pn ≠ pn' := by
      rintro rfl
      exact hnumber key id pn data' ho hid data hsent
    show (insertKey pn' data' parts).lookup pn = some data
    rw [lookup_insertKey, if_neg hne]
    exact hstored

/-- What is assembled of the parts that were sent. -/
theorem assemble_of_sent {u : Upload} {pns : List Nat} {datas : List Bytes}
    (hall : List.Forall₂ (fun pn data => u.parts.lookup pn = some data) pns datas) :
    S3Op.assemble u pns = some datas.flatten := by
  have hmap : pns.mapM (fun pn => u.parts.lookup pn) = some datas := by
    induction hall with
    | nil => rfl
    | cons hab _ ih => simp [hab, ih]
  unfold S3Op.assemble
  rw [hmap]
  rfl

/-- A completed upload is all that the writer has written of a part. -/
theorem InStore.completes (hx : InStore h w) {key : String} {id : UploadId} {pns : List Nat}
    {u : Upload} {bs : Bytes}
    (hrule : BackupRule (backupWatch.view h) (.s3 (.completeMultipartUpload key id pns)))
    (hu : w.uploads.lookup id = some u) (hbs : S3Op.assemble u pns = some bs) :
    ∃ hash files openFile, key = blobRemoteKey hash ∧ (hash, files) ∈ (backupWatch.view h).files ∧
      (hash, openFile) ∈ (backupWatch.view h).opened ∧ bs = (zipOutput openFile files).2 := by
  obtain ⟨hash, files, openFile, hkey, hfiles, hopen, datas, hsent, hflat⟩ := hrule
  rw [assemble_of_sent (hsent.imp fun pn data hs => (hx.sent id pn data hs).2 u hu),
    Option.some.injEq] at hbs
  exact ⟨hash, files, openFile, hkey, hfiles, hopen, hbs.symm.trans hflat⟩

-- ---------------------------------------------------------------------------
-- One command
-- ---------------------------------------------------------------------------

/-- What a command may do, with what is behind it. -/
def CommandRule (x : Invocation) (h : History Op Resp) (op : Op) : Prop :=
  x.cmd.May op ∧ (x.cmd.BacksUp →
    BackupRule (backupWatch.view h) op ∧ StartedRule x.cfg (startedWatch.view h) op)

theorem follows_command (x : Invocation) :
    Follows (Watch.record Op Resp) (CommandRule x) x.prog [] (fun _ _ => True)
      fun _ _ => True := by
  have hmay : Follows (Watch.record Op Resp) (fun _ op => x.cmd.May op) x.prog []
      (fun _ _ => True) fun _ _ => True :=
    x.only.follows (I := fun _ => True) (fun _ _ hop _ => hop) (fun _ _ _ _ _ => trivial) trivial
  obtain ⟨json, isAlphabetic, decodeContent, cfg, occupied, cmd⟩ := x
  cases cmd with
  | createSnapshot name =>
    have hbackup : Follows (Watch.record Op Resp) (fun h op => BackupRule (backupWatch.view h) op)
        (Invocation.prog ⟨json, isAlphabetic, decodeContent, cfg, occupied, .createSnapshot name⟩)
        [] (fun _ _ => True) fun _ _ => True :=
      Follows.bind (R := fun _ _ => True) (Follows.record (M := backupWatch) (h := [])
        (follows_createSnapshot json cfg name)) fun _ _ _ => Follows.ask trivial fun _ => trivial
    have hstarts : Follows (Watch.record Op Resp)
        (fun h op => StartedRule cfg (startedWatch.view h) op)
        (Invocation.prog ⟨json, isAlphabetic, decodeContent, cfg, occupied, .createSnapshot name⟩)
        [] (fun _ _ => True) fun _ _ => True :=
      Follows.bind (R := fun _ _ => True) (Follows.record (M := startedWatch) (h := [])
        (starts_createSnapshot json cfg name [])) fun _ _ _ => Follows.ask trivial fun _ => trivial
    refine Follows.mono ((hmay.and (hbackup.and hstarts)).weaken ?_) (fun _ _ _ => trivial)
      fun _ _ _ => trivial
    rintro h op ⟨hop, hop'⟩
    exact ⟨hop, fun _ => hop'⟩
  | _ =>
    refine hmay.weaken ?_
    intro h op hop
    exact ⟨hop, fun hcmd => hcmd.elim⟩

/-- Parts are sent by backups only, to uploads of their own. -/
theorem CommandRule.started {op : Op} (hrule : CommandRule x h op) (key : String) (id : UploadId)
    (pn : Nat) (data : Bytes) (hop : op = .s3 (.uploadPart key id pn data)) :
    id ∈ startedWatch.view h := by
  subst hop
  exact (hrule.2 hrule.1.1).2

/-- What a command has learned and done, against the bucket. -/
structure Backing (site : String → Tree) (x : Invocation) (h : History Op Resp) (w : World) :
    Prop where
  /-- Its uploads have been started, -/
  below : ∀ id ∈ startedWatch.view h, id < w.fresh
  /-- and what it has sent to them is stored there. -/
  sent : ∀ id pn data, (id, pn, data) ∈ (backupWatch.view h).sent → id ∈ startedWatch.view h ∧
    ∀ u, w.uploads.lookup id = some u → u.parts.lookup pn = some data
  /-- What it has read of a staged part is the part, -/
  files : x.cmd.BacksUp → ∀ hash files, (hash, files) ∈ (backupWatch.view h).files →
    ∃ paths, Listing (stagedDir x.cfg hash) (site hash) files paths
  opened : x.cmd.BacksUp → ∀ hash openFile, (hash, openFile) ∈ (backupWatch.view h).opened →
    ReadsPart site (.env (.openFiles hash (stagedDir x.cfg hash))) openFile
  /-- and the blobs it has downloaded are whole. -/
  fetched : ∀ hash body, ⟨.s3 (.getObject (blobRemoteKey hash)), .ok body⟩ ∈ h →
    HoldsPart site hash body

theorem Backing.start : Backing site x [] w where
  below := by simp [startedWatch, Watch.view]
  sent := by simp [backupWatch, Watch.view]
  files := by simp [backupWatch, Watch.view]
  opened := by simp [backupWatch, Watch.view]
  fetched := by simp

theorem Backing.inStore (hx : Backing site x h w) : InStore h w := ⟨hx.below, hx.sent⟩

/-- The bucket changes, and what the command has sent stays. -/
theorem Backing.world (hx : Backing site x h w) (hstored : InStore h w') :
    Backing site x h w' where
  below := hstored.below
  sent := hstored.sent
  files := hx.files
  opened := hx.opened
  fetched := hx.fetched

section

variable {op : Op} {r : Resp op}

/-- The call of a command, in the bucket behind it. -/
theorem Backing.call (hx : Backing site x h w') (hblobs : WholeBlobs site w)
    (hrule : CommandRule x h op) (hans : SiteAnswers site op w r w') :
    Backing site x (⟨op, r⟩ :: h) w' where
  below := (hx.inStore.call hans.1 hrule.started).below
  sent := (hx.inStore.call hans.1 hrule.started).sent
  files := by
    intro hcmd hash files hmem
    rcases (observed _ op r).files hash files hmem with hmem | ⟨dir, hcall⟩
    · exact hx.files hcmd hash files hmem
    · cases hcall
      obtain rfl : dir = stagedDir x.cfg hash := (hrule.2 hcmd).2
      exact hans.2
  opened := by
    intro hcmd hash openFile hmem
    rcases (observed _ op r).opened hash openFile hmem with hmem | ⟨dir, hcall⟩
    · exact hx.opened hcmd hash openFile hmem
    · cases hcall
      obtain rfl : dir = stagedDir x.cfg hash := (hrule.2 hcmd).2
      exact hans.2
  fetched := by
    intro hash body hmem
    rcases List.mem_cons.mp hmem with hcall | hmem
    · cases hcall
      obtain ⟨-, o, ho, rfl⟩ := get?_of_getObject hans.1
      exact hblobs hash o ho
    · exact hx.fetched hash body hmem

end

/-- **The blobs stay whole.** What a command does to a blob is to delete it, or to complete
an upload of the whole archive. -/
theorem Backing.blobs {op : Op} {r : Resp op} (hx : Backing site x h w)
    (hblobs : WholeBlobs site w) (hrule : CommandRule x h op) (hans : Answers op w r w') :
    WholeBlobs site w' := by
  intro hash o ho
  cases op with
  | env e =>
    obtain ⟨-, rfl⟩ := hans
    exact hblobs hash o ho
  | s3 s =>
    cases (S3Answers.change hans).2 with
    | removes gone _ hget =>
      rw [hget] at ho
      split at ho
      · cases ho
      · exact hblobs hash o ho
    | writes key body hw hget =>
      rw [hget] at ho
      split at ho
      · rename_i hkey
        obtain rfl := Option.some.inj ho
        subst hkey
        cases s with
        | putObject key' body' ifMatch ifNoneMatch =>
          obtain ⟨rfl, -⟩ := hw
          rcases hrule.1 with ⟨-, hlock, -⟩ | ⟨m, -, hmanifest, -⟩
          · exact absurd hlock (blobRemoteKey_ne_lock hash)
          · exact absurd hmanifest.symm (manifestKey_ne_blobRemoteKey m.name hash)
        | completeMultipartUpload key' id pns =>
          obtain ⟨hkey, u, bs, hu, -, hassemble, rfl⟩ := hw
          have hcmd := hrule.1.1
          obtain ⟨hash', files, openFile, hkey', hfiles, hopen, rfl⟩ :=
            hx.inStore.completes (hrule.2 hcmd).1 hu hassemble
          obtain rfl := blobRemoteKey_inj (hkey.trans hkey')
          obtain ⟨paths, hlisting⟩ := hx.files hcmd hash files hfiles
          obtain ⟨hread, hwrites⟩ := hx.opened hcmd hash openFile hopen
          obtain ⟨n, hn⟩ := hwrites files paths hlisting
          exact ⟨_, rfl, _, files, paths, openFile, n, hlisting, hread, Prod.ext hn rfl⟩
        | _ => exact hw.elim
      · exact hblobs hash o ho

-- ---------------------------------------------------------------------------
-- All commands together
-- ---------------------------------------------------------------------------

variable {κ : Type} [DecidableEq κ] {runs : κ → Invocation}

/-- What holds of the bucket and its commands along the way. -/
structure Whole (site : String → Tree) (runs : κ → Invocation) (hs : κ → History Op Resp)
    (w : World) : Prop where
  blobs : WholeBlobs site w
  backing : ∀ k, Backing site (runs k) (hs k) w
  apart : ∀ k l, ∀ id ∈ startedWatch.view (hs k), id ∈ startedWatch.view (hs l) → k = l

theorem Whole.keeps : Team.Keeps (SiteAnswers site) Drift (Watch.record Op Resp)
    (fun k => CommandRule (runs k)) (Whole site runs) where
  beside := by
    intro hs w w' hI hw
    refine ⟨fun hash o ho => hI.blobs hash o ?_,
      fun k => (hI.backing k).world ((hI.backing k).inStore.world hw.fresh ?_), hI.apart⟩
    · rw [← hw.objects _ (blobRemoteKey_ne_lock hash)]
      exact ho
    · exact fun id _ u hu => ⟨u, hw.uploads id u hu, fun _ _ _ hstored => hstored⟩
  call := by
    intro hs w w' i op r hI hrule hans
    have hafter : ∀ k, Backing site (runs k) (hs k) w' := by
      intro k
      cases op with
      | env e =>
        obtain ⟨-, rfl⟩ := hans.1
        exact hI.backing k
      | s3 o =>
        have huploads := S3Answers.uploads hans.1
        refine (hI.backing k).world ((hI.backing k).inStore.world huploads.fresh
          (huploads.stays (hI.backing k).inStore ?_))
        -- a part goes to an upload of the command that sends it
        rintro key id pn data rfl hid
        obtain ⟨hbackup, hown⟩ := hrule.2 hrule.1.1
        obtain rfl := hI.apart k i id hid hown
        exact hbackup.2
    refine ⟨(hI.backing i).blobs hI.blobs hrule hans.1, fun k => ?_, ?_⟩
    · by_cases hk : k = i
      · subst hk
        rw [Function.update_self]
        exact (hafter k).call hI.blobs hrule hans
      · rw [Function.update_of_ne hk]
        exact hafter k
    · -- an upload that has just been started is nobody else's
      have hwho : ∀ k, ∀ id ∈ startedWatch.view (Function.update hs i (⟨op, r⟩ :: hs i) k),
          id ∈ startedWatch.view (hs k) ∨ (k = i ∧ id = w.fresh) := by
        intro k id hid
        by_cases hk : k = i
        · subst hk
          rw [Function.update_self] at hid
          refine (mem_started hid).imp_right ?_
          rintro ⟨key, hcall⟩
          cases hcall
          exact ⟨rfl, (Except.ok.inj (Prod.mk.inj hans.1).1).symm⟩
        · rw [Function.update_of_ne hk] at hid
          exact .inl hid
      intro k l id hk hl
      rcases hwho k id hk with hold | ⟨rfl, rfl⟩
      · rcases hwho l id hl with hold' | ⟨rfl, rfl⟩
        · exact hI.apart k l id hold hold'
        · exact absurd ((hI.backing k).below _ hold) (lt_irrefl _)
      · rcases hwho l _ hl with hold' | ⟨rfl, -⟩
        · exact absurd ((hI.backing l).below _ hold') (lt_irrefl _)
        · rfl

-- ---------------------------------------------------------------------------
-- What a restore has extracted
-- ---------------------------------------------------------------------------

/-- What a restore has fetched was downloaded. -/
theorem mem_of_fetched {json : Json} {key : String} {body : Body} : ∀ {h : History Op Resp},
    (key, body) ∈ ((restoreWatch json).view h).fetched → ⟨.s3 (.getObject key), .ok body⟩ ∈ h
  | [], hmem => absurd hmem List.not_mem_nil
  | ⟨op, r⟩ :: h, hmem => by
    have hmem : (key, body) ∈ (((restoreWatch json).view h).observe json op r).fetched := hmem
    cases op with
    | s3 o =>
      cases o with
      | getObject key' =>
        cases r with
        | error e => exact List.mem_cons_of_mem _ (mem_of_fetched hmem)
        | ok body' =>
          rcases List.mem_cons.mp hmem with heq | hmem
          · obtain ⟨rfl, rfl⟩ := Prod.mk.inj heq
            exact List.mem_cons_self ..
          · exact List.mem_cons_of_mem _ (mem_of_fetched hmem)
      | _ => exact List.mem_cons_of_mem _ (mem_of_fetched hmem)
    | env o =>
      cases o with
      | extractZip dest archive =>
        cases r <;> exact List.mem_cons_of_mem _ (mem_of_fetched hmem)
      | writeFile path content =>
        cases r <;> exact List.mem_cons_of_mem _ (mem_of_fetched hmem)
      | _ => exact List.mem_cons_of_mem _ (mem_of_fetched hmem)

/-- A part of regular files and directories, with sizes that an archive can tell. -/
structure Archivable (part : Tree) : Prop where
  tree : PartTree part
  sizes : ∀ p bs, part.fileAt p = some bs → bs.length < 2 ^ 64 ∧ bs.length ≠ U32_MAX

/-- Extracted into a fresh directory, in reads of any size, the archive gives the files of
the part and no others. -/
def ExtractsTo (bs : Bytes) (part : Tree) : Prop :=
  ∀ r : Reader, r.Serves bs → ∀ (dest : AbsPath) (fs : Fs), Fresh dest fs →
    (runExtract dest r fs).1 = .ok () ∧
      ∀ q, (runExtract dest r fs).2.files (dest ++ q) = part.fileAt q

/-- A restore has put back what it was to, and each part is the part its hash names. -/
structure PutBack (site : String → Tree) (decodeContent : ManifestFile → Except AnyError Bytes)
    (args : RestoreArgs) (v : RestoreView) (m : Manifest) : Prop where
  done : RestoreDone decodeContent args v m
  whole : ∀ p ∈ m.parts, WantedTable args v p.tableKey → ∃ bs,
    (components (partDir args.toDir args.attach p), .data bs) ∈ v.extracted ∧
      (Archivable (site p.blobHash) → ExtractsTo bs (site p.blobHash))

theorem Backing.putBack {args : RestoreArgs} {m : Manifest} (hx : Backing site x h w)
    (hdone : RestoreDone x.decodeContent args ((restoreWatch x.json).view h) m) :
    PutBack site x.decodeContent args ((restoreWatch x.json).view h) m where
  done := hdone
  whole := by
    intro p hp hwanted
    obtain ⟨archive, hfetched, hextracted⟩ := hdone.parts p hp hwanted
    obtain ⟨bs, rfl, harchive⟩ := hx.fetched _ _ (mem_of_fetched hfetched)
    exact ⟨bs, hextracted, fun hpart r hr dest fs hfresh =>
      harchive.extracts hpart.tree hpart.sizes hr hfresh⟩

/-- **What a restore puts back.** Any number of commands of every kind run on one bucket,
any of their requests failing; what the backups read of the staged parts are the parts.
Then every blob is whole at any time, and a restore that returns has put back the parts. -/
theorem restored_whole {y : (κ → Proc Op Resp AnyError Unit) × World}
    (hstart : WholeBlobs site w)
    (hrun : Team.Moves (SiteAnswers site) Drift (fun k => ⟨(runs k).prog, []⟩, w) y) :
    WholeBlobs site y.2 ∧ ∀ k args, (runs k).cmd = .restore args → (y.1 k).prog = .done () →
      ∃ m, PutBack site (runs k).decodeContent args
        ((restoreWatch (runs k).json).view (y.1 k).hist) m := by
  have hwhole := (Whole.keeps.moves hrun (fun k => follows_command (runs k))
    ⟨hstart, fun k => .start, fun k l id hid => absurd hid List.not_mem_nil⟩).2
  have hviews : Team.views (Watch.record Op Resp) y.1 = fun k => (y.1 k).hist :=
    funext fun k => Watch.view_record _
  rw [hviews] at hwhole
  refine ⟨hwhole.blobs, fun k args hcmd hdone => ?_⟩
  obtain ⟨tr, htrace⟩ := Team.trace_of_moves hrun k
  have hprog : (runs k).prog = restoreCommand (runs k).json (runs k).decodeContent (runs k).cfg
      (runs k).occupied args := by
    unfold Invocation.prog
    rw [hcmd]
    rfl
  dsimp only at htrace
  rw [hprog] at htrace
  have hend := (htrace.follows (restores_restoreCommand (runs k).cfg (runs k).occupied)).1
  rw [hdone] at hend
  obtain ⟨m, hm⟩ := hend.2
  exact ⟨m, (hwhole.backing k).putBack hm⟩

-- ---------------------------------------------------------------------------
-- A site with one part
-- ---------------------------------------------------------------------------

/-- The only file of the part, in a staging directory. -/
def onePartFile (dir : String) : ZipFileEntry := ⟨shown dir ["data.bin"], "data.bin", 1⟩

/-- Where the part is staged. -/
def onePartDir : String := stagedDir siteConfig siteHash

/-- The site, with the part as it is. -/
def onePartEnv : (o : EnvOp) → Option (EnvResp o)
  | .collectFiles _ dir => some (.ok [onePartFile dir])
  | .openFiles _ dir => if dir = onePartDir then some openOnePart else none
  | o => siteEnv o

theorem listing_onePart {dir : String} {files : List ZipFileEntry} {paths : List RelPath}
    (h : Listing dir onePart files paths) : files = [onePartFile dir] := by
  have hpaths : paths = [["data.bin"]] := by
    refine List.Pairwise.eq_of_mem_iff h.sorted (List.pairwise_singleton ..) fun p => ?_
    rw [h.mem_iff, List.mem_singleton]
    constructor
    · intro hp
      obtain ⟨bs, hbs⟩ := Option.isSome_iff_exists.mp hp
      exact (fileAt_onePart (.inl rfl) hbs).1
    · rintro rfl
      rfl
  rw [h.files_eq, hpaths]
  rfl

theorem listing_onePartFile (dir : String) :
    Listing dir onePart [onePartFile dir] [["data.bin"]] where
  sorted := List.pairwise_singleton ..
  mem_iff p := by
    rw [List.mem_singleton]
    constructor
    · rintro rfl
      rfl
    · intro hp
      obtain ⟨bs, hbs⟩ := Option.isSome_iff_exists.mp hp
      exact (fileAt_onePart (.inl rfl) hbs).1
  files_eq := rfl

/-- All calls are served, and the part is read as it is. -/
def onePartAnswer : Answer := ⟨onePartEnv, none⟩

theorem siteAnswers_onePart (op : Op) (w : World) (r : Resp op) (w' : World)
    (h : onePartAnswer.answer op w = some (r, w')) :
    SiteAnswers (fun _ => onePart) op w r w' := by
  refine ⟨Answer.answers_answer op w r w' h, ?_⟩
  cases op with
  | s3 o => trivial
  | env o =>
    cases o with
    | collectFiles hash dir =>
      obtain ⟨rfl, -⟩ := Prod.mk.inj (Option.some.inj h)
      exact ⟨_, listing_onePartFile dir⟩
    | openFiles hash dir =>
      have h : ((if dir = onePartDir then some openOnePart else none).map fun r => (r, w)) =
        some (r, w') := h
      split at h
      · rename_i hdir
        obtain ⟨rfl, -⟩ := Prod.mk.inj (Option.some.inj h)
        refine ⟨fun p bs r hp hopen => ?_, fun files paths hlisting => ⟨131, ?_⟩⟩
        · obtain rfl := Except.ok.inj hopen
          exact (fileAt_onePart (.inl rfl) hp).2.symm
        · rw [listing_onePart hlisting, hdir]
          decide +kernel
      · cases h
    | _ => trivial

/-- The snapshot, restored elsewhere. -/
def restoreArgs : RestoreArgs where
  name := "snap1"
  toDir := "/out"
  table := none
  force := false
  shard := none
  replica := none
  skipExisting := false
  attach := false

/-- A backup, and a restore of its snapshot. -/
def backupAndRestore : Bool → Invocation
  | true => siteRuns (.createSnapshot (some "snap1"))
  | false => siteRuns (.restore restoreArgs)

/-- The restore starts when the backup has ended. -/
theorem exists_backupAndRestore : ∃ ps w', Team.Moves (SiteAnswers fun _ => onePart) Drift
    (fun k => ⟨(backupAndRestore k).prog, []⟩, {}) (ps, w') ∧ (ps false).prog = .done () ∧
      w'.Has (blobRemoteKey siteHash) := by
  have hans : ∀ n, ∀ a ∈ List.replicate n onePartAnswer, ∀ op w r w',
      a.answer op w = some (r, w') → SiteAnswers (fun _ => onePart) op w r w' := by
    intro n a ha
    rw [List.eq_of_mem_replicate ha]
    exact siteAnswers_onePart
  have hend : (runAlone (List.replicate 26 onePartAnswer) []
      ⟨(backupAndRestore true).prog, []⟩ {}).any (fun x =>
        (runAlone (List.replicate 10 onePartAnswer) []
          ⟨(backupAndRestore false).prog, []⟩ x.2.2).any fun y =>
            returned y.2.1 && (y.2.2.get? (blobRemoteKey siteHash)).isSome) = true := by
    decide +kernel
  obtain ⟨tr₁, p₁, w₁, hbackup, hend₁⟩ := @exists_trace_of_answers _ _ Eq _ (hans 26) _ _ _ hend
  obtain ⟨tr₂, p₂, w₂, hrestore, hend₂⟩ := @exists_trace_of_answers _ _ Eq _ (hans 10) _ _ _ hend₁
  obtain ⟨hdone, hblob⟩ := Bool.and_eq_true_iff.mp hend₂
  refine ⟨_, w₂, (Team.moves_of_trace (i := true) hbackup).trans
    (Team.moves_of_trace (i := false) hrestore), ?_, Option.isSome_iff_exists.mp hblob⟩
  rw [Function.update_self]
  exact done_of_returned hdone

theorem archivable_onePart : Archivable onePart where
  tree := partTree_onePart
  sizes p bs hp := by
    obtain ⟨-, rfl⟩ := fileAt_onePart (.inl rfl) hp
    decide

/-- The restore has put back the part, from the blob. -/
theorem restored_whole_onePart : ∃ (ps : Bool → Proc Op Resp AnyError Unit) (w' : World) (m : _),
    (ps false).prog = .done () ∧ w'.Has (blobRemoteKey siteHash) ∧ Archivable onePart ∧
      WholeBlobs (fun _ => onePart) w' ∧
      PutBack (fun _ => onePart) (fun _ => .ok []) restoreArgs
        ((restoreWatch siteJson).view (ps false).hist) m := by
  obtain ⟨ps, w', hrun, hdone, hblob⟩ := exists_backupAndRestore
  have hempty : WholeBlobs (fun _ => onePart) {} := fun hash o ho => nomatch ho
  obtain ⟨hwhole, hrestores⟩ := restored_whole hempty hrun
  obtain ⟨m, hm⟩ := hrestores false restoreArgs rfl hdone
  exact ⟨ps, w', m, hdone, hblob, archivable_onePart, hwhole, hm⟩

end Chbk
