import Chbk.Safety.Commands

/-!
# Uploads under way

Who works on which upload, and what requests do to the uploads under way.

* `starts_createSnapshot` — a backup sends parts to uploads it has started itself, and
  archives its own staging directories.
* `S3Answers.uploads` — behind any request, failed or not: uploads end, start under new
  ids, and one of them may have got a part.
-/

namespace Chbk

open Lib Prog

-- ---------------------------------------------------------------------------
-- The uploads of a backup are its own
-- ---------------------------------------------------------------------------

/-- The uploads a command has started. -/
def startedWatch : Watch Op Resp (List UploadId) where
  init := []
  observe ids
    | .s3 (.createMultipartUpload _), .ok id => id :: ids
    | _, _ => ids

/-- What a backup archives, and the uploads it sends it to. -/
def StartedRule (cfg : Config) (ids : List UploadId) : Op → Prop
  | .env (.collectFiles hash dir) | .env (.openFiles hash dir) => dir = stagedDir cfg hash
  | .s3 (.uploadPart _ id _ _) | .s3 (.completeMultipartUpload _ id _) => id ∈ ids
  | _ => True

/-- Calls that are free of the rule. -/
def Elsewhere : Op → Prop
  | .env (.collectFiles ..) | .env (.openFiles ..) => False
  | .s3 (.uploadPart ..) | .s3 (.completeMultipartUpload ..) => False
  | _ => True

theorem Elsewhere.rule {op : Op} (h : Elsewhere op) (cfg : Config) (ids : List UploadId) :
    StartedRule cfg ids op := by
  cases op with
  | env o => cases o <;> trivial
  | s3 o => cases o <;> trivial

theorem Quiet.elsewhere {op : Op} (h : Quiet op) : Elsewhere op := by
  match op, h with
  | .env o, h => cases o <;> trivial
  | .s3 (.listObjectsV2 _), _ => trivial
  | .s3 (.abortMultipartUpload ..), _ => trivial

/-- The program keeps to the rule. -/
def Starts {α : Type} (cfg : Config) (p : P α) : Prop :=
  ∀ ids, Follows startedWatch (StartedRule cfg) p ids (fun _ _ => True) fun _ _ => True

namespace Starts

variable {α β : Type} {cfg : Config}

theorem of_only {p : P α} (h : Only Elsewhere p) : Starts cfg p := fun _ =>
  h.follows (I := fun _ => True) (fun ids _ hop _ => hop.rule cfg ids)
    (fun _ _ _ _ _ => trivial) trivial

theorem of_quiet {p : P α} (h : Only Quiet p) : Starts cfg p :=
  of_only (h.mono fun _ hop => hop.elsewhere)

theorem bind {p : P α} {f : α → P β} (h : Starts cfg p) (hf : ∀ a, Starts cfg (f a)) :
    Starts cfg (p >>= f) := fun ids => Follows.bind (h ids) fun a ids' _ => hf a ids'

theorem attempt {p : P α} (h : Starts cfg p) : Starts cfg (Prog.attempt p) := fun ids =>
  Follows.attempt (h ids)

theorem mapFail {p : P α} {g : AnyError → AnyError} (h : Starts cfg p) :
    Starts cfg (Prog.mapFail g p) := fun ids => Follows.mapFail (h ids)

theorem collect {f : α → P β} {l : List α} (hf : ∀ a, Starts cfg (f a)) :
    Starts cfg (Prog.collect f l) := fun _ =>
  follows_collect (fun _ _ _ => True) (fun _ _ a _ ids' _ _ => hf a ids') trivial

end Starts

/-- What is sent to one upload. -/
def SendsTo (id : UploadId) : Op → Prop
  | .env .order => True
  | .s3 (.uploadPart _ id' _ _) | .s3 (.completeMultipartUpload _ id' _) => id' = id
  | _ => False

theorem sendsTo_putObjectMultipartReaderInner (storage : Storage) (key : String) (id : UploadId)
    (reader : Reader) (expectedSize : Nat) :
    Only (SendsTo id) (putObjectMultipartReaderInner storage key id reader expectedSize) := by
  have hpart : ∀ part, Only (SendsTo id) (uploadOnePart key id part) := by
    intro part
    refine Only.bind (only_s3Retry ?_) fun _ => only_pure _
    exact rfl
  refine Only.bind (only_ask trivial) fun order => ?_
  refine (only_collect fun part _ => hpart part).bind fun done => ?_
  refine (only_liftP _).bind fun _ => ?_
  refine Only.bind (Only.mapFail (only_s3Retry ?_)) fun _ => only_pure _
  exact rfl

/-- An upload is told its id and then works on it. -/
theorem starts_putObjectMultipartReader (cfg : Config) (storage : Storage) (key : String)
    (reader : Reader) (expectedSize : Nat) :
    Starts cfg (putObjectMultipartReader storage key reader expectedSize) := by
  intro ids
  refine Follows.bind (R := fun id ids' => id ∈ ids') (Follows.mapFail ?_) fun id ids₁ hid => ?_
  · exact follows_s3Retry (I := fun _ => True) (fun _ _ => trivial) (fun _ _ _ => trivial)
      (fun _ _ _ => List.mem_cons_self ..) trivial
  refine Follows.bind (R := fun _ _ => True) (Follows.attempt ?_) fun r ids₂ _ => ?_
  · refine Follows.mono ((sendsTo_putObjectMultipartReaderInner storage key id reader
      expectedSize).follows (I := fun ids' => id ∈ ids') ?_ ?_ hid) (fun _ _ _ => trivial)
      fun _ _ _ => trivial
    · intro ids' op hop hid'
      match op, hop with
      | .env .order, _ => trivial
      | .s3 (.uploadPart ..), rfl => exact hid'
      | .s3 (.completeMultipartUpload ..), rfl => exact hid'
    · intro ids' op r hop hid'
      match op, hop with
      | .env .order, _ => exact hid'
      | .s3 (.uploadPart ..), _ => exact hid'
      | .s3 (.completeMultipartUpload ..), _ => exact hid'
  · cases r with
    | ok total => exact Follows.pure trivial
    | error e =>
      exact Follows.bind (R := fun _ _ => True) (Follows.ask trivial fun _ => trivial)
        fun _ _ _ => Follows.throw trivial

theorem starts_uploadPartArchive (storage : Storage) (cfg : Config) (hash : String) :
    Starts cfg (uploadPartArchive storage cfg hash) := by
  unfold uploadPartArchive
  refine Starts.bind (fun _ => Follows.ask rfl fun _ => trivial) fun r => ?_
  refine (Starts.of_only (only_liftP r)).bind fun files => ?_
  refine Starts.bind (fun _ => Follows.ask rfl fun _ => trivial) fun openFile => ?_
  refine Starts.bind (Starts.of_only (only_ask trivial)) fun cuts => ?_
  refine (starts_putObjectMultipartReader cfg storage _ _ _).mapFail.bind fun uploaded => ?_
  refine (Starts.of_only (only_liftP _)).bind fun written => ?_
  have hclean : Starts cfg (Prog.mapFail
      (withContext ("Failed to clean up staged part " ++ hash))
      (localStep ("remove " ++ stagedDir cfg hash))) :=
    (Starts.of_quiet (quiet_localStep _)).mapFail
  split
  · exact (Starts.of_only (only_throw _)).bind fun _ =>
      hclean.bind fun _ => Starts.of_only (only_pure _)
  · exact hclean.bind fun _ => Starts.of_only (only_pure _)

theorem starts_uploadPhase (storage : Storage) (cfg : Config) (known : List (String × UInt64))
    (head : List (String × Nat)) (staged : List String) (parts : List PartInfo) :
    Starts cfg (uploadPhase storage cfg known head staged parts) := by
  refine (Starts.of_only (only_liftP _)).bind fun upload => ?_
  refine (Starts.of_quiet (quiet_localStep _)).bind fun _ => ?_
  refine Starts.bind ?_ fun new => ?_
  · refine Starts.bind (Starts.of_only (only_ask trivial)) fun order => ?_
    exact (Starts.collect fun hash => (starts_uploadPartArchive storage cfg hash).attempt).bind
      fun results => Starts.of_only (only_collect fun r _ => only_liftP r)
  · refine (Starts.of_quiet (quiet_localStep _)).bind fun _ => ?_
    exact Starts.bind (Starts.of_only (only_ask trivial)) fun order =>
      Starts.of_only (only_addSizes known _)

theorem starts_prepareParts (json : Json) (cfg : Config) (known : List String)
    (parts : List PartInfo) : Starts cfg (prepareParts json cfg known parts) := by
  refine (Starts.of_quiet (quiet_localStep _)).bind fun _ => ?_
  refine (Starts.of_quiet (quiet_localStep _)).bind fun _ => ?_
  refine (Starts.of_quiet (quiet_localStep _)).bind fun _ => ?_
  refine (Starts.of_only (only_headCheckExisting trivial (fun _ => trivial) _)).bind fun head => ?_
  refine (Starts.of_quiet (quiet_stagePasses json cfg _ _ _ _)).bind fun x => ?_
  exact (Starts.of_quiet (quiet_metadataAttempts json cfg _ _)).bind fun _ =>
    Starts.of_only (only_pure _)

theorem starts_createSnapshot (json : Json) (cfg : Config) (name : Option String) :
    Starts cfg (createSnapshot json cfg name) := by
  refine Starts.bind (Starts.of_only (only_ask trivial)) fun timestamp => ?_
  refine (Starts.of_only (only_liftP _)).bind fun storage => ?_
  refine (Starts.of_quiet (quiet_queryParts json cfg)).bind fun parts => ?_
  refine (Starts.of_quiet (quiet_resolveShardReplica json cfg)).bind fun ident => ?_
  refine (Starts.of_quiet (quiet_nameOrAuto _ _ _ _)).bind fun snapshotName => ?_
  refine (Starts.of_only (only_loadKnown trivial fun _ => trivial)).bind fun known => ?_
  refine (starts_prepareParts json cfg _ parts).bind fun prep => ?_
  refine (starts_uploadPhase storage cfg known _ _ _).bind fun sizes => ?_
  refine (Starts.of_only (only_liftP _)).bind fun manifestParts => ?_
  refine Starts.bind (Starts.of_only (only_ask trivial)) fun createdBy => ?_
  exact (Starts.of_only (only_writeManifest trivial)).bind fun _ => Starts.of_only (only_pure _)

-- ---------------------------------------------------------------------------
-- What a request does to the uploads
-- ---------------------------------------------------------------------------

/-- Behind any request: it has done nothing, or what it says, or it has deleted some of
its keys. -/
theorem S3Answers.world {o : S3Op} {w w' : World} {r : Except SdkError (S3Ok o)}
    (h : S3Answers o w r w') :
    w' = w ∨ w' = (o.perform w).2 ∨ ∃ gone, w' = w.eraseAll gone := by
  have hdone : ∀ r, o.perform w = (r, w') → w' = (o.perform w).2 := fun r hr => by rw [hr]
  cases r with
  | ok a =>
    cases o with
    | deleteObjects keys =>
      obtain ⟨gone, -, -, hw⟩ := h
      exact .inr (.inr ⟨gone, hw⟩)
    | _ => exact .inr (.inl (hdone _ h))
  | error e =>
    rcases h with h | h
    · exact .inr (.inl (hdone _ h))
    · cases o with
      | deleteObjects keys =>
        obtain ⟨gone, -, hw⟩ := h
        exact .inr (.inr ⟨gone, hw⟩)
      | _ => exact h.imp id .inl

/-- What a request leaves of the uploads: they end, they start under new ids, and one of
them gets a part. -/
structure UploadsAfter (o : S3Op) (w w' : World) : Prop where
  fresh : w.fresh ≤ w'.fresh
  lookup : ∀ id u, w'.uploads.lookup id = some u → w.uploads.lookup id = some u ∨ id = w.fresh ∨
    ∃ key pn data parts, o = .uploadPart key id pn data ∧
      w.uploads.lookup id = some ⟨key, parts⟩ ∧ u = ⟨key, insertKey pn data parts⟩

theorem UploadsAfter.of_eq {o : S3Op} {w w' : World} (hfresh : w.fresh ≤ w'.fresh)
    (h : w'.uploads = w.uploads) : UploadsAfter o w w' :=
  ⟨hfresh, fun _ _ hu => .inl (h ▸ hu)⟩

/-- An upload has ended. -/
theorem UploadsAfter.of_erase {o : S3Op} {w w' : World} {id₀ : UploadId}
    (hfresh : w.fresh ≤ w'.fresh) (h : w'.uploads = eraseKey id₀ w.uploads) :
    UploadsAfter o w w' := by
  refine ⟨hfresh, fun id u hu => .inl ?_⟩
  rw [h, lookup_eraseKey] at hu
  split at hu
  · cases hu
  · exact hu

theorem S3Op.perform_uploads (o : S3Op) (w : World) : UploadsAfter o w (o.perform w).2 := by
  cases o with
  | listObjectsV2 pfx => exact .of_eq le_rfl rfl
  | headObject key =>
    simp only [perform]
    split <;> exact .of_eq le_rfl rfl
  | getObject key =>
    simp only [perform]
    split <;> exact .of_eq le_rfl rfl
  | putObject key body ifMatch ifNoneMatch =>
    simp only [perform]
    split
    · split
      · exact .of_eq le_rfl rfl
      · exact .of_eq (Nat.le_succ _) rfl
    · exact .of_eq le_rfl rfl
    · split
      · exact .of_eq le_rfl rfl
      · exact .of_eq (Nat.le_succ _) rfl
    · exact .of_eq (Nat.le_succ _) rfl
  | deleteObject key => exact .of_eq le_rfl rfl
  | deleteObjects keys =>
    simp only [perform]
    exact .of_eq (by rw [World.fresh_eraseAll]) (World.uploads_eraseAll ..)
  | createMultipartUpload key =>
    refine ⟨Nat.le_succ _, fun id u hu => ?_⟩
    simp only [perform, lookup_insertKey] at hu
    split at hu
    · rename_i hid
      exact .inr (.inl hid)
    · exact .inl hu
  | uploadPart key id pn data =>
    simp only [perform]
    split
    · rename_i u₀ hu₀
      split
      · exact .of_eq le_rfl rfl
      · rename_i hkey
        refine ⟨le_rfl, fun id' u hu => ?_⟩
        dsimp only at hu
        rw [lookup_insertKey] at hu
        split at hu
        · rename_i hid
          subst hid
          obtain ⟨key₀, parts⟩ := u₀
          obtain rfl : key₀ = key := not_not.mp hkey
          exact .inr (.inr ⟨key₀, pn, data, parts, rfl, hu₀, (Option.some.inj hu).symm⟩)
        · exact .inl hu
    · exact .of_eq le_rfl rfl
  | completeMultipartUpload key id parts =>
    simp only [perform]
    split
    · split
      · exact .of_eq le_rfl rfl
      · split
        · exact .of_eq le_rfl rfl
        · split
          · exact .of_erase (Nat.le_succ _) rfl
          · exact .of_eq le_rfl rfl
    · exact .of_eq le_rfl rfl
  | abortMultipartUpload key id => exact .of_erase le_rfl rfl

theorem S3Answers.uploads {o : S3Op} {w w' : World} {r : Except SdkError (S3Ok o)}
    (h : S3Answers o w r w') : UploadsAfter o w w' := by
  rcases h.world with rfl | rfl | ⟨gone, rfl⟩
  · exact .of_eq le_rfl rfl
  · exact o.perform_uploads w
  · exact .of_eq (by rw [World.fresh_eraseAll]) (World.uploads_eraseAll ..)

end Chbk
