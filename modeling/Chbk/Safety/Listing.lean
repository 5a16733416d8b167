import Chbk.Lib.Outcome
import Chbk.Safety.Ledger

/-!
# The manifest and the list of parts

The uploads of a backup and its manifest, in its ledger.

* `tells_uploadPartArchives` — the sizes of the uploads are the bytes sent.
* `Covered` — every hash of the list has its size from one source; with it the
  checks of the sizes pass.
* `follows_ledger` — a backup keeps to its ledger.
-/

namespace Chbk

open Lib Prog

-- ---------------------------------------------------------------------------
-- The errors of the ZIP writer
-- ---------------------------------------------------------------------------

instance : Std.Refl fun _ _ : Bytes => True where
  refl _ := trivial

instance : IsTrans Bytes fun _ _ => True where
  trans _ _ _ _ _ := trivial

/-- A writer whose errors are not those of the checks. -/
def WritesFine {α : Type} (m : ZipWriter α) : Prop :=
  Keeps (fun _ _ => True) (fun e => ¬ CheckError e) m

theorem forM_error {α : Type} {f : α → Except AnyError Unit} {e : AnyError} : ∀ {l : List α},
    l.forM f = .error e → ∃ a ∈ l, f a = .error e
  | [], h => by cases h
  | a :: l, h => by
    have hcons : (f a >>= fun _ => l.forM f) = .error e := h
    cases ha : f a with
    | error e' =>
      rw [ha] at hcons
      exact ⟨a, List.mem_cons_self .., ha.trans hcons⟩
    | ok u =>
      rw [ha] at hcons
      obtain ⟨b, hb, hf⟩ := forM_error hcons
      exact ⟨b, List.mem_cons_of_mem _ hb, hf⟩

theorem pathToZipName_error {path : String} {e : AnyError} (h : pathToZipName path = .error e) :
    ¬ CheckError e := by
  unfold pathToZipName at h
  cases hvalid : validateRelPath path with
  | error e' =>
    rw [hvalid] at h
    obtain rfl := Except.error.inj h
    unfold validateRelPath at hvalid
    split at hvalid
    · obtain rfl := Except.error.inj hvalid
      exact not_checkError ⟨_, rfl⟩ (by decide)
    · obtain ⟨c, -, hc⟩ := forM_error hvalid
      cases c with
      | normal s => cases hc
      | curDir => cases hc
      | parentDir =>
        obtain rfl := Except.error.inj hc
        exact not_checkError ⟨_, by rw [String.toList_append]; rfl⟩ (by decide)
      | rootDir =>
        obtain rfl := Except.error.inj hc
        exact not_checkError ⟨_, by rw [String.toList_append]; rfl⟩ (by decide)
  | ok u =>
    rw [hvalid] at h
    dsimp only [Bind.bind, Except.bind] at h
    split at h
    · obtain rfl := Except.error.inj h
      exact not_checkError ⟨_, rfl⟩ (by decide)
    · split at h
      · obtain rfl := Except.error.inj h
        exact not_checkError ⟨_, by rw [String.toList_append]; rfl⟩ (by decide)
      · cases h

theorem writesFine_writeAll (bs : Bytes) : WritesFine (writeAll bs) := fun _ => trivial

theorem writesFine_tryIntoU16 {msg : String} {n : Nat} (h : ∀ rest, ¬ CheckError (msg :: rest)) :
    WritesFine (tryIntoU16 msg n) := by
  unfold tryIntoU16
  split
  · exact Keeps.pure n
  · exact Keeps.throw (h _)

theorem writesFine_bind {α β : Type} {m : ZipWriter α} {f : α → ZipWriter β} (h : WritesFine m)
    (hf : ∀ a, WritesFine (f a)) : WritesFine (m >>= f) := Keeps.bind h hf

theorem writesFine_writeHeaderSizes (needsZip64 : Bool) (size : UInt64) :
    WritesFine (writeHeaderSizes needsZip64 size) := by
  unfold writeHeaderSizes
  split
  · exact writesFine_bind (writesFine_writeAll _) fun _ => writesFine_writeAll _
  · exact writesFine_bind (writesFine_writeAll _) fun _ => writesFine_writeAll _

theorem writesFine_nameTooLong (n : Nat) : WritesFine (tryIntoU16 "ZIP filename too long" n) :=
  writesFine_tryIntoU16 fun _ => not_checkError ⟨_, rfl⟩ (by decide)

theorem writesFine_extraTooLong (n : Nat) : WritesFine (tryIntoU16 "ZIP extra too long" n) :=
  writesFine_tryIntoU16 fun _ => not_checkError ⟨_, rfl⟩ (by decide)

theorem writesFine_writeLocalHeader (nameBytes : Bytes) (size : UInt64) (needsZip64 : Bool) :
    WritesFine (writeLocalHeader nameBytes size needsZip64) := by
  unfold writeLocalHeader
  iterate 7 refine writesFine_bind (writesFine_writeAll _) fun _ => ?_
  refine writesFine_bind (writesFine_writeHeaderSizes _ _) fun _ => ?_
  refine writesFine_bind (writesFine_nameTooLong _) fun _ => ?_
  refine writesFine_bind (writesFine_writeAll _) fun _ => ?_
  refine writesFine_bind (writesFine_extraTooLong _) fun _ => ?_
  iterate 3 refine writesFine_bind (writesFine_writeAll _) fun _ => ?_
  exact Keeps.pure _

theorem writesFine_copyFileData {absPath : String} : ∀ {fuel remaining : Nat} {file : Reader}
    {crc : UInt32} {offset : UInt64},
    WritesFine (copyFileData absPath fuel remaining file crc offset)
  | 0, _, _, crc, offset => Keeps.pure _
  | fuel + 1, remaining, file, crc, offset => by
    unfold copyFileData
    split
    · exact Keeps.pure _
    · split
      · exact Keeps.throw (not_checkError ⟨_, by rw [String.toList_append]; rfl⟩ (by decide))
      · exact Keeps.throw (not_checkError ⟨_, by simp only [String.toList_append]; rfl⟩ (by decide))
      · exact writesFine_bind (writesFine_writeAll _) fun _ => writesFine_copyFileData

theorem writesFine_writeDataDescriptor (crc32 : UInt32) (size : UInt64) (needsZip64 : Bool) :
    WritesFine (writeDataDescriptor crc32 size needsZip64) := by
  unfold writeDataDescriptor
  iterate 2 refine writesFine_bind (writesFine_writeAll _) fun _ => ?_
  split
  · iterate 2 refine writesFine_bind (writesFine_writeAll _) fun _ => ?_
    exact Keeps.pure _
  · iterate 2 refine writesFine_bind (writesFine_writeAll _) fun _ => ?_
    exact Keeps.pure _

theorem writesFine_writeEntry {openFile : String → Except AnyError Reader} (offset : UInt64)
    (f : ZipFileEntry) : WritesFine (writeEntry openFile offset f) := by
  unfold writeEntry
  cases hname : pathToZipName f.relPath with
  | error e => exact Keeps.throw_bind (pathToZipName_error hname)
  | ok name =>
    refine writesFine_bind (Keeps.pure name) fun name => ?_
    refine writesFine_bind (writesFine_writeLocalHeader _ _ _) fun header => ?_
    cases openFile f.absPath with
    | error e =>
      have hfine : ¬ CheckError (withContext ("Failed to open " ++ f.absPath) e) :=
        not_checkError ⟨_, by rw [String.toList_append]; rfl⟩ (by decide)
      exact Keeps.throw_bind hfine
    | ok r =>
      refine writesFine_bind (Keeps.pure r) fun file => ?_
      refine writesFine_bind writesFine_copyFileData fun x => ?_
      exact writesFine_bind (writesFine_writeDataDescriptor _ _ _) fun _ => Keeps.pure _

theorem writesFine_writeEntries {openFile : String → Except AnyError Reader} :
    ∀ {offset : UInt64} {files : List ZipFileEntry},
      WritesFine (writeEntries openFile offset files)
  | _, [] => Keeps.pure _
  | offset, f :: fs => by
    unfold writeEntries
    refine writesFine_bind (writesFine_writeEntry offset f) fun x => ?_
    exact writesFine_bind writesFine_writeEntries fun _ => Keeps.pure _

theorem writesFine_writeCentralHeader (c : CentralEntry) : WritesFine (writeCentralHeader c) := by
  unfold writeCentralHeader
  iterate 8 refine writesFine_bind (writesFine_writeAll _) fun _ => ?_
  refine writesFine_bind (writesFine_writeHeaderSizes _ _) fun _ => ?_
  refine writesFine_bind (writesFine_nameTooLong _) fun _ => ?_
  refine writesFine_bind (writesFine_writeAll _) fun _ => ?_
  refine writesFine_bind (writesFine_extraTooLong _) fun _ => ?_
  iterate 5 refine writesFine_bind (writesFine_writeAll _) fun _ => ?_
  refine writesFine_bind ?_ fun _ => ?_
  · unfold writeCentralOffset
    split
    · exact writesFine_writeAll _
    · exact writesFine_writeAll _
  · iterate 2 refine writesFine_bind (writesFine_writeAll _) fun _ => ?_
    exact Keeps.pure _

theorem writesFine_writeCentralDirectory : ∀ {offset : UInt64} {cs : List CentralEntry},
    WritesFine (writeCentralDirectory offset cs)
  | _, [] => Keeps.pure _
  | offset, c :: cs => by
    unfold writeCentralDirectory
    exact writesFine_bind (writesFine_writeCentralHeader c) fun n =>
      writesFine_writeCentralDirectory

theorem writesFine_writeEndRecords (fileCount : Nat) (dirOffset dirSize offset : UInt64) :
    WritesFine (writeEndRecords fileCount dirOffset dirSize offset) := by
  have hend : ∀ big, WritesFine (writeEndRecord big fileCount dirOffset dirSize) := by
    intro big
    unfold writeEndRecord
    iterate 3 refine writesFine_bind (writesFine_writeAll _) fun _ => ?_
    refine writesFine_bind ?_ fun _ => writesFine_writeAll _
    unfold writeEndCounts
    split
    · iterate 3 refine writesFine_bind (writesFine_writeAll _) fun _ => ?_
      exact writesFine_writeAll _
    · iterate 3 refine writesFine_bind (writesFine_writeAll _) fun _ => ?_
      exact writesFine_writeAll _
  unfold writeEndRecords
  dsimp only
  split
  · refine writesFine_bind ?_ fun _ => writesFine_bind (hend true) fun _ => Keeps.pure _
    unfold writeZip64EndRecords
    iterate 13 refine writesFine_bind (writesFine_writeAll _) fun _ => ?_
    exact writesFine_writeAll _
  · exact writesFine_bind (hend false) fun _ => Keeps.pure _

/-- The ZIP writer fails with none of the errors of the checks. -/
theorem zipOutput_error {openFile : String → Except AnyError Reader} {files : List ZipFileEntry}
    {e : AnyError} (h : (zipOutput openFile files).1 = .error e) : ¬ CheckError e := by
  have hfine : WritesFine (writeZip openFile files) := by
    unfold writeZip
    refine writesFine_bind writesFine_writeEntries fun x => ?_
    refine writesFine_bind writesFine_writeCentralDirectory fun _ => ?_
    exact writesFine_writeEndRecords _ _ _ _
  have hmeets := hfine []
  unfold Meets at hmeets
  unfold zipOutput at h
  cases hzip : writeZip openFile files [] with
  | ok n bs =>
    rw [hzip] at h
    cases h
  | error e' bs =>
    rw [hzip] at h hmeets
    obtain rfl := Except.error.inj h
    exact hmeets.2

-- ---------------------------------------------------------------------------
-- Uploads
-- ---------------------------------------------------------------------------

section

variable {json : Json} {cfg : Config} {v : Ledger}

/-- What uploads leave in the ledger, whether they fail or not. -/
def Uploading (v v' : Ledger) : Prop :=
  ∃ sent uploaded es, v' = { v with sent := sent, uploaded := uploaded, told := es }

theorem sentTo_cons (v : Ledger) (id : UploadId) (n : Nat) :
    ({ v with sent := (id, n) :: v.sent } : Ledger).sentTo id = n + v.sentTo id := by
  simp [Ledger.sentTo]

theorem follows_uploadOnePart {key : String} {id : UploadId} {part : Nat × Bytes} :
    Follows (ledgerWatch json cfg) LedgerRule (uploadOnePart key id part) v
      (fun x v' => x.2 = part.2.length ∧ v' = { v with sent := (id, part.2.length) :: v.sent })
      fun _ v' => v' = v := by
  refine Follows.bind (R := fun _ v' => v' = { v with sent := (id, part.2.length) :: v.sent }) ?_
    fun _ v' hv' => Follows.pure ⟨rfl, hv'⟩
  refine follows_s3Retry (I := fun v' => v' = v) (fun _ _ => trivial) ?_ ?_ rfl
  · rintro v' e rfl
    rfl
  · rintro v' a rfl
    rfl

/-- A completed upload is entered with the bytes it was sent. -/
theorem follows_putObjectMultipartReaderInner {storage : Storage} {key : String} {id : UploadId}
    {reader : Reader} {expectedSize : Nat} (hid : v.sentTo id = 0) :
    Follows (ledgerWatch json cfg) LedgerRule
      (putObjectMultipartReaderInner storage key id reader expectedSize) v
      (fun total v' => ∃ sent, v' =
        { v with sent := sent, uploaded := (key, total) :: v.uploaded })
      fun _ v' => Uploading v v' := by
  unfold putObjectMultipartReaderInner
  dsimp only
  refine Follows.bind (R := fun _ v' => v' = v) (follows_askEnv trivial fun r => rfl)
    fun order v₁ hv₁ => ?_
  subst hv₁
  refine Follows.bind (follows_collect (fun _ done v' => v'.sentTo id = (done.map Prod.snd).sum ∧
    ∃ sent, v' = { v₁ with sent := sent }) ?_ ⟨hid, v₁.sent, rfl⟩) fun done v₂ hdone => ?_
  · rintro pre done part post v' - ⟨hsum, sent, rfl⟩
    refine Follows.mono follows_uploadOnePart (fun x v'' hx => ?_) ?_
    · obtain ⟨hlen, rfl⟩ := hx
      refine ⟨?_, _, rfl⟩
      rw [sentTo_cons, hsum, List.map_append, List.sum_append, List.map_singleton,
        List.sum_singleton, hlen, Nat.add_comm]
    · rintro e v'' rfl
      exact ⟨sent, v₁.uploaded, v₁.told, rfl⟩
  · obtain ⟨hsum, sent, rfl⟩ := hdone
    refine Follows.bind (R := fun _ v' => v' = { v₁ with sent := sent }) (follows_liftP
      (fun _ _ => rfl) fun _ _ => ⟨sent, v₁.uploaded, v₁.told, rfl⟩) fun _ v' hv' => ?_
    subst hv'
    refine Follows.bind (R := fun _ v' => v' = { v₁ with
      sent := sent, uploaded := (key, (done.map Prod.snd).sum) :: v₁.uploaded })
      (Follows.mapFail (Follows.mono (follows_s3Retry (I := fun v' => v' = { v₁ with sent := sent })
        (Q := fun _ v' => v' = { v₁ with
          sent := sent, uploaded := (key, (done.map Prod.snd).sum) :: v₁.uploaded })
        (fun _ _ => trivial) ?_ ?_ rfl) (fun _ _ h => h) ?_)) fun _ v' hv' => Follows.pure ⟨sent, hv'⟩
    · rintro v' e rfl
      rfl
    · rintro v' a rfl
      rw [← hsum]
      rfl
    · rintro e v' rfl
      exact ⟨sent, v₁.uploaded, v₁.told, rfl⟩

theorem follows_putObjectMultipartReader {storage : Storage} {key : String}
    {reader : Reader} {expectedSize : Nat} :
    Follows (ledgerWatch json cfg) LedgerRule
      (putObjectMultipartReader storage key reader expectedSize) v
      (fun total v' => ∃ sent, v' =
        { v with sent := sent, uploaded := (key, total) :: v.uploaded })
      fun _ v' => Uploading v v' := by
  unfold putObjectMultipartReader
  refine Follows.bind (R := fun id v' => v' = { v with sent := v.sent.filter fun x => x.1 ≠ id })
    (Follows.mapFail (Follows.mono (follows_s3Retry (I := fun v' => v' = v)
      (Q := fun id v' => v' = { v with sent := v.sent.filter fun x => x.1 ≠ id })
      (fun _ _ => trivial) ?_ ?_ rfl) (fun _ _ h => h) ?_)) fun id v₁ hv₁ => ?_
  · rintro v' e rfl
    rfl
  · rintro v' id rfl
    rfl
  · rintro e v' rfl
    exact ⟨v'.sent, v'.uploaded, v'.told, rfl⟩
  · subst hv₁
    have hid : ({ v with sent := v.sent.filter fun x => x.1 ≠ id } : Ledger).sentTo id = 0 := by
      simp [Ledger.sentTo, List.filter_filter]
    refine Follows.bind (R := fun r v' => Uploading v v' ∧ ∀ total, r = .ok total →
      ∃ sent, v' = { v with sent := sent, uploaded := (key, total) :: v.uploaded })
      (Follows.attempt (Follows.mono (follows_putObjectMultipartReaderInner hid) ?_ ?_))
      fun r v₂ hr => ?_
    · rintro total v' ⟨sent, rfl⟩
      refine ⟨⟨sent, (key, total) :: v.uploaded, v.told, rfl⟩, ?_⟩
      rintro _ ⟨⟩
      exact ⟨sent, rfl⟩
    · rintro e v' ⟨sent, uploaded, es, rfl⟩
      exact ⟨⟨sent, uploaded, es, rfl⟩, by simp⟩
    · cases r with
      | ok total => exact Follows.pure (hr.2 total rfl)
      | error e =>
        obtain ⟨⟨sent, uploaded, es, rfl⟩, -⟩ := hr
        refine Follows.bind (R := fun _ v' => Uploading v v') (follows_send trivial fun r => ?_)
          fun _ v' hv' => Follows.throw hv'
        exact ⟨sent, uploaded, es, rfl⟩

theorem slash_mem_pathJoin {a b : String} (h : a ≠ "") : '/' ∈ (pathJoin a b).toList := by
  unfold pathJoin
  split
  · rename_i hb
    obtain ⟨rest, hrest⟩ := List.isPrefixOf_iff_prefix.mp (hb.resolve_right h)
    rw [← hrest]
    exact List.mem_append_left _ (List.mem_singleton_self _)
  · split
    · rename_i hsuffix
      unfold stripSuffix? at hsuffix
      split at hsuffix
      · rename_i ha
        obtain ⟨front, hfront⟩ := List.isSuffixOf_iff_suffix.mp ha
        rw [String.toList_append, ← hfront]
        exact List.mem_append_left _ (List.mem_append_right _ (List.mem_singleton_self _))
      · cases hsuffix
    · simp only [String.toList_append]
      exact List.mem_append_left _ (List.mem_append_right _ (List.mem_singleton_self _))

/-- There is a slash in the path of a staged part. -/
theorem slash_mem_remove (cfg : Config) (hash : String) :
    '/' ∈ ("remove " ++ stagedDir cfg hash).toList := by
  have hne : pathJoin cfg.outputDir STAGING_DIR_NAME ≠ "" := by
    by_cases hout : cfg.outputDir = ""
    · rw [hout]
      decide
    · intro h
      have hslash := slash_mem_pathJoin (b := STAGING_DIR_NAME) hout
      rw [h] at hslash
      cases hslash
  have hne' : ∀ shard, pathJoin (pathJoin cfg.outputDir STAGING_DIR_NAME) shard ≠ "" := by
    intro shard h
    have hslash := slash_mem_pathJoin (b := shard) hne
    rw [h] at hslash
    cases hslash
  rw [String.toList_append]
  exact List.mem_append_right _ (slash_mem_pathJoin (hne' _))

/-- The removal of a staged part is not a step without a slash in it. -/
theorem remove_ne {what : String} (hwhat : '/' ∉ what.toList) (cfg : Config) (hash : String) :
    "remove " ++ stagedDir cfg hash ≠ what := by
  intro h
  exact hwhat (h ▸ slash_mem_remove cfg hash)

/-- An upload that returns is entered with its size. -/
theorem follows_uploadPartArchive (storage : Storage) (hash : String) :
    Follows (ledgerWatch json cfg) LedgerRule (uploadPartArchive storage cfg hash) v
      (fun x v' => ∃ n sent es, x = (hash, UInt64.ofNat n) ∧ v' =
        { v with sent := sent, uploaded := (blobRemoteKey hash, n) :: v.uploaded, told := es })
      fun e v' => Uploading v v' ∧ (CheckError e → e ∈ v'.told) := by
  unfold uploadPartArchive
  dsimp only
  have hfail : ∀ {msg : String} {e : AnyError} {c d : Char} {w : Ledger},
      (∃ cs, msg.toList = c :: d :: cs) → [c, d] ∉ [['M', 'i'], ['B', 'l'], ['N', 'e']] →
      CheckError (withContext msg e) → withContext msg e ∈ w.told :=
    fun hmsg hcd h => absurd h (not_checkError hmsg hcd)
  refine Follows.bind (R := fun r v' => (∃ es, v' = { v with told := es }) ∧
    ∀ e, r = .error e → e ∈ v'.told) (follows_askEnv trivial fun r => ⟨?_, ?_⟩) fun r v₁ hr => ?_
  · cases r with
    | ok files => exact ⟨_, rfl⟩
    | error e => exact ⟨_, rfl⟩
  · rintro e rfl
    exact List.mem_cons_self ..
  obtain ⟨⟨es, rfl⟩, htold⟩ := hr
  refine Follows.bind (R := fun _ v' => v' = { v with told := es }) (follows_liftP
    (fun _ _ => rfl) fun e he => ⟨⟨v.sent, v.uploaded, es, rfl⟩, fun _ => htold e he⟩)
    fun files v₂ hv₂ => ?_
  subst hv₂
  refine Follows.bind (R := fun _ v' => v' = { v with told := es })
    (follows_askEnv trivial fun r => rfl) fun openFile v₃ hv₃ => ?_
  subst hv₃
  refine Follows.bind (R := fun _ v' => v' = { v with told := es })
    (follows_askEnv trivial fun r => rfl) fun cuts v₄ hv₄ => ?_
  subst hv₄
  refine Follows.bind (Follows.mapFail (Follows.mono follows_putObjectMultipartReader
    (fun _ _ h => h) ?_)) fun uploaded v₅ hv₅ => ?_
  · rintro e v' ⟨sent, up, es', rfl⟩
    exact ⟨⟨sent, up, es', rfl⟩, hfail ⟨_, by rw [String.toList_append]; rfl⟩ (by decide)⟩
  obtain ⟨sent, rfl⟩ := hv₅
  -- the upload is entered; what is left looks at its size
  have hup : Uploading v { v with
      sent := sent, uploaded := (blobRemoteKey hash, uploaded) :: v.uploaded, told := es } :=
    ⟨_, _, _, rfl⟩
  refine Follows.bind (R := fun _ v' => v' = { v with
    sent := sent, uploaded := (blobRemoteKey hash, uploaded) :: v.uploaded, told := es })
    (follows_liftP (fun _ _ => rfl) fun e he => ⟨hup, fun h => absurd h (zipOutput_error he)⟩)
    fun written v₆ hv₆ => ?_
  subst hv₆
  split
  · refine Follows.bind (R := fun _ _ => False) (Follows.throw ⟨hup, fun h => ?_⟩)
      fun _ _ h => h.elim
    exact absurd h (not_checkError ⟨_, by simp only [String.toList_append]; rfl⟩ (by decide))
  · rename_i hsize
    refine Follows.bind (R := fun _ v' => ∃ es, v' = { v with
      sent := sent, uploaded := (blobRemoteKey hash, uploaded) :: v.uploaded, told := es })
      (Follows.mapFail (Follows.mono (follows_localStep fun h => absurd h (remove_ne (by decide) cfg hash))
        (fun _ _ h => h) ?_)) fun _ v₇ hv₇ => ?_
    · rintro e v' ⟨⟨es', rfl⟩, -⟩
      exact ⟨⟨_, _, _, rfl⟩, hfail ⟨_, by rw [String.toList_append]; rfl⟩ (by decide)⟩
    · obtain ⟨es', rfl⟩ := hv₇
      refine Follows.pure ⟨uploaded, sent, es', ?_, rfl⟩
      rw [not_not.mp hsize]

/-- An upload that is attempted, with either outcome. -/
theorem follows_attemptUpload (storage : Storage) (hash : String) :
    Follows (ledgerWatch json cfg) LedgerRule (Prog.attempt (uploadPartArchive storage cfg hash)) v
      (fun r v' => (Uploading v v' ∧ (∀ e, r = .error e → CheckError e → e ∈ v'.told) ∧
        ∀ x, r = .ok x → ∃ n, x = (hash, UInt64.ofNat n) ∧
          v'.uploaded = (blobRemoteKey hash, n) :: v.uploaded) ∧ ∀ e ∈ v.told, e ∈ v'.told)
      fun _ _ => False := by
  refine Follows.mono (Follows.keeps (E := fun _ _ => False) (I := fun v' => ∀ e ∈ v.told, e ∈ v'.told)
    (Follows.attempt (Follows.mono (follows_uploadPartArchive storage hash) ?_ ?_)) (only_true _)
    (fun v' op r _ hI e he => List.mem_append_right _ (hI e he)) fun _ he => he)
    (fun _ _ h => h) fun _ _ h => h.1
  · rintro x v' ⟨n, sent, es, rfl, rfl⟩
    refine ⟨⟨sent, _, es, rfl⟩, by simp, ?_⟩
    rintro _ ⟨⟩
    exact ⟨n, rfl, rfl⟩
  · rintro e v' ⟨hup, htold⟩
    refine ⟨hup, ?_, by simp⟩
    rintro _ ⟨⟩
    exact htold

/-- What the uploads of these hashes have left, when they have ended so. -/
structure Entered (v : Ledger) (hashes : List String)
    (results : List (Except AnyError (String × UInt64))) (v' : Ledger) : Prop where
  uploading : Uploading v v'
  told : ∀ e, .error e ∈ results → CheckError e → e ∈ v'.told
  sizes : ∀ xs, results = xs.map .ok → ∃ ns : List (String × Nat),
    xs = ns.map (fun x => (x.1, UInt64.ofNat x.2)) ∧ ns.map Prod.fst = hashes ∧
    v'.uploaded = (ns.map fun x => (blobRemoteKey x.1, x.2)).reverse ++ v.uploaded

theorem Entered.snoc {hashes : List String} {results : List (Except AnyError (String × UInt64))}
    {v₁ v₂ : Ledger} {hash : String} {r : Except AnyError (String × UInt64)}
    (h : Entered v hashes results v₁) (hup : Uploading v₁ v₂)
    (herr : ∀ e, r = .error e → CheckError e → e ∈ v₂.told)
    (hok : ∀ x, r = .ok x → ∃ n, x = (hash, UInt64.ofNat n) ∧
      v₂.uploaded = (blobRemoteKey hash, n) :: v₁.uploaded)
    (htold : ∀ e ∈ v₁.told, e ∈ v₂.told) : Entered v (hashes ++ [hash]) (results ++ [r]) v₂ where
  uploading := by
    obtain ⟨sent, uploaded, es, rfl⟩ := h.uploading
    obtain ⟨sent', uploaded', es', rfl⟩ := hup
    exact ⟨sent', uploaded', es', rfl⟩
  told e he hcheck := by
    rcases List.mem_append.mp he with he | he
    · exact htold e (h.told e he hcheck)
    · exact herr e (List.mem_singleton.mp he).symm hcheck
  sizes xs hxs := by
    obtain ⟨front, last, rfl, hfront, hlast⟩ := List.append_eq_map_iff.mp hxs
    obtain ⟨x, rfl, hx⟩ := List.map_eq_singleton_iff.mp hlast
    obtain ⟨ns, rfl, rfl, hns⟩ := h.sizes front hfront.symm
    obtain ⟨n, rfl, hn⟩ := hok x hx.symm
    refine ⟨ns ++ [(hash, n)], by simp, by simp, ?_⟩
    rw [hn, hns]
    simp

/-- All uploads are entered, each hash once. -/
theorem tells_uploadPartArchives (storage : Storage) (hashes : List String) :
    Tells json cfg (uploadPartArchives storage cfg hashes) v fun xs v' =>
      ∃ (ns : List (String × Nat)) (sent : List (UploadId × Nat)) (es : List AnyError),
        xs = ns.map (fun x => (x.1, UInt64.ofNat x.2)) ∧ (ns.map Prod.fst).Perm hashes ∧
        v' = { v with
          sent := sent
          uploaded := (ns.map fun x => (blobRemoteKey x.1, x.2)).reverse ++ v.uploaded
          told := es } := by
  refine Tells.bind (R := fun _ v' => v' = v) (tells_askEnv trivial fun r => rfl)
    fun order v₁ hv₁ => ?_
  subst hv₁
  refine Tells.bind (follows_collect (Entered v₁) ?_ ?_) fun results v₂ hresults => ?_
  · intro pre results hash post v' _ hpre
    refine Follows.mono (follows_attemptUpload storage hash) (fun r v'' hr => ?_) fun _ _ h => h.elim
    exact hpre.snoc hr.1.1 hr.1.2.1 hr.1.2.2 hr.2
  · refine ⟨⟨v₁.sent, v₁.uploaded, v₁.told, rfl⟩, by simp, fun xs hxs => ⟨[], ?_⟩⟩
    rw [List.map_eq_nil_iff.mp hxs.symm]
    exact ⟨rfl, rfl, rfl⟩
  · obtain ⟨⟨sent, uploaded, es, rfl⟩, herr, hok⟩ := hresults
    refine Follows.mono (follows_collect (fun pre (xs : List (String × UInt64)) v' => v' = { v₁ with
      sent := sent, uploaded := uploaded, told := es } ∧ pre = xs.map .ok) ?_ ⟨rfl, rfl⟩)
      ?_ fun _ _ h => h
    · rintro pre xs r post v' hsplit ⟨rfl, rfl⟩
      refine follows_liftP ?_ ?_
      · rintro x rfl
        exact ⟨rfl, by rw [List.map_append]; rfl⟩
      · rintro e rfl
        exact .inl (herr e (by rw [hsplit]; simp))
    · rintro xs v' ⟨rfl, hxs⟩
      obtain ⟨ns, hns, hfst, hup⟩ := hok xs hxs
      refine ⟨ns, sent, es, hns, hfst ▸ reorder_perm _ _, ?_⟩
      rw [← hup]

-- ---------------------------------------------------------------------------
-- Sizes
-- ---------------------------------------------------------------------------

/-- Sizes of hashes that have none are entered without a mismatch. -/
theorem foldl_addSize : ∀ {xs known : List (String × UInt64)}, (xs.map Prod.fst).Nodup →
    (∀ h ∈ xs.map Prod.fst, known.lookup h = none) →
    ∃ sizes, Prog.foldl addSize known xs = .done sizes ∧
      ∀ h, sizes.lookup h = (xs.lookup h).or (known.lookup h)
  | [], known, _, _ => ⟨known, rfl, fun h => rfl⟩
  | x :: xs, known, hnodup, hnone => by
    rw [List.map_cons, List.nodup_cons] at hnodup
    have hadd : addSize known x = .done (insertKey x.1 x.2 known) := by
      unfold addSize
      rw [hnone x.1 (List.mem_cons_self ..)]
      rfl
    have hnone' : ∀ h ∈ xs.map Prod.fst, (insertKey x.1 x.2 known).lookup h = none := by
      intro h hh
      have hne : h ≠ x.1 := fun heq => hnodup.1 (heq ▸ hh)
      rw [lookup_insertKey, if_neg hne]
      exact hnone h (List.mem_cons_of_mem _ hh)
    obtain ⟨sizes, hfold, hlook⟩ := foldl_addSize hnodup.2 hnone'
    refine ⟨sizes, ?_, fun h => ?_⟩
    · show addSize known x >>= (fun k => Prog.foldl addSize k xs) = .done sizes
      rw [hadd]
      exact hfold
    · rw [hlook, lookup_insertKey, List.lookup_cons]
      by_cases heq : h = x.1
      · subst heq
        rw [lookup_eq_none.mpr hnodup.1, if_pos rfl, beq_self_eq_true]
        rfl
      · rw [if_neg heq, beq_false_of_ne heq]

/-- With a size for each hash the parts of the manifest are those of the list. -/
theorem mapM_manifestPart {sizes : List (String × UInt64)} : ∀ {parts : List PartInfo},
    (∀ p ∈ parts, ∃ size, sizes.lookup p.hashOfAllFiles = some size) →
    ∃ mps, parts.mapM (manifestPart sizes) = .ok mps ∧
      mps.map (fun p => (p.database, p.tableName, p.partName, p.blobHash)) =
        parts.map (fun p => (p.database, p.table, p.name, p.hashOfAllFiles)) ∧
      ∀ mp ∈ mps, mp.blobHash ∈ parts.map PartInfo.hashOfAllFiles ∧
        sizes.lookup mp.blobHash = some mp.blobSize
  | [], _ => ⟨[], rfl, rfl, by simp⟩
  | p :: ps, h => by
    obtain ⟨size, hsize⟩ := h p (List.mem_cons_self ..)
    obtain ⟨mps, hmps, hmap, hmem⟩ := mapM_manifestPart fun q hq => h q (List.mem_cons_of_mem _ hq)
    have hp : manifestPart sizes p = .ok ⟨p.database, p.table, p.name, p.hashOfAllFiles, size⟩ := by
      unfold manifestPart
      rw [hsize]
    refine ⟨⟨p.database, p.table, p.name, p.hashOfAllFiles, size⟩ :: mps, ?_, ?_, ?_⟩
    · rw [List.mapM_cons, hp, hmps]
      rfl
    · rw [List.map_cons, List.map_cons, hmap]
    · intro mp hmp
      rcases List.mem_cons.mp hmp with rfl | hmp
      · exact ⟨List.mem_cons_self .., hsize⟩
      · exact ⟨List.mem_cons_of_mem _ (hmem mp hmp).1, (hmem mp hmp).2⟩

-- ---------------------------------------------------------------------------
-- The check that all is staged
-- ---------------------------------------------------------------------------

/-- The ledger when the staging and the metadata are done. -/
structure Prepared (known : List (String × UInt64)) (head : List (String × Nat))
    (staged : List String) (v : Ledger) : Prop where
  latest : known = (v.latest.map fun p => (p.blobHash, p.blobSize)).reverse
  found : v.found = (head.map fun x => (blobRemoteKey x.1, x.2)).reverse
  foundNodup : (head.map Prod.fst).Nodup
  unknown : ∀ h ∈ head.map Prod.fst, h ∉ known.map Prod.fst
  mem_staged : ∀ h, h ∈ v.staged ↔ h ∈ staged
  stagedNodup : staged.Nodup
  covered : ∀ h ∈ (v.settled.getD v.listing).map PartInfo.hashOfAllFiles,
    h ∉ known.map Prod.fst → h ∈ staged
  fresh : v.uploaded = []

/-- The hashes to upload, but for those in the bucket. -/
def needUpload (known : List (String × UInt64)) (v : Ledger) : List String :=
  (partsToUpload v.listing (known.map Prod.fst)).map PartInfo.hashOfAllFiles

section

variable {known : List (String × UInt64)} {head : List (String × Nat)} {staged : List String}

theorem Prepared.mem_found (h : Prepared known head staged v) {hash : String} {n : Nat} :
    (blobRemoteKey hash, n) ∈ v.found ↔ (hash, n) ∈ head := by
  rw [h.found, List.mem_reverse, List.mem_map]
  constructor
  · rintro ⟨x, hx, he⟩
    obtain ⟨hkey, rfl⟩ := Prod.mk.inj he
    rw [← blobRemoteKey_inj hkey]
    exact hx
  · intro hx
    exact ⟨_, hx, rfl⟩

theorem Prepared.mem_known (h : Prepared known head staged v) {hash : String} :
    hash ∈ known.map Prod.fst ↔ hash ∈ v.latest.map ManifestPart.blobHash := by
  rw [h.latest, List.map_reverse, List.mem_reverse, List.map_map]
  rfl

theorem uploadHashes_ok {need up headHashes : List String}
    (h : uploadHashes need staged headHashes = .ok up) :
    up = (staged.filter fun h => h ∈ need ∧ h ∉ headHashes) ∧
      ∀ h ∈ need, h ∈ headHashes ∨ h ∈ up := by
  unfold uploadHashes at h
  obtain ⟨_, hcheck, hup⟩ := except_bind_eq_ok h
  obtain rfl := Except.ok.inj hup
  refine ⟨rfl, fun hash hhash => ?_⟩
  have hpass := forM_eq_ok.mp hcheck hash hhash
  by_contra hnot
  rw [not_or] at hnot
  rw [if_pos hnot] at hpass
  cases hpass

theorem uploadHashes_error {need headHashes : List String} {e : AnyError}
    (h : uploadHashes need staged headHashes = .error e) :
    NotStaged e ∧ ∃ h ∈ need, h ∉ headHashes ∧ h ∉ staged := by
  unfold uploadHashes at h
  dsimp only at h
  -- the list of the uploads itself is always had
  have hcheck : need.forM (fun hash => if hash ∉ headHashes ∧
      hash ∉ (staged.filter fun h => h ∈ need ∧ h ∉ headHashes) then
      (.error ["Need upload for " ++ hash ++ " but not staged"] : Except AnyError Unit)
      else .ok ()) = .error e := by
    cases hloop : need.forM (fun hash => if hash ∉ headHashes ∧
      hash ∉ (staged.filter fun h => h ∈ need ∧ h ∉ headHashes) then
      (.error ["Need upload for " ++ hash ++ " but not staged"] : Except AnyError Unit)
      else .ok ()) with
    | error e' =>
      rw [hloop] at h
      exact congrArg Except.error (Except.error.inj h)
    | ok u =>
      rw [hloop] at h
      cases h
  obtain ⟨hash, hneed, hhash⟩ := forM_error hcheck
  split at hhash
  · rename_i hnot
    obtain rfl := Except.error.inj hhash
    refine ⟨⟨hash, rfl⟩, hash, hneed, hnot.1, fun hst => hnot.2 ?_⟩
    exact List.mem_filter.mpr ⟨hst, decide_eq_true ⟨hneed, hnot.1⟩⟩
  · cases hhash

theorem mem_needUpload {hash : String} : hash ∈ needUpload known v ↔
    hash ∈ v.listing.map PartInfo.hashOfAllFiles ∧ hash ∉ known.map Prod.fst :=
  mem_partsToUpload

/-- The check passes only when all is staged. -/
theorem Prepared.allStaged (h : Prepared known head staged v) {up : List String}
    (hup : uploadHashes (needUpload known v) staged (head.map Prod.fst) = .ok up) :
    v.AllStaged := by
  obtain ⟨rfl, hcover⟩ := uploadHashes_ok hup
  intro p hp hknown hfound
  have hneed := mem_needUpload.mpr ⟨List.mem_map_of_mem hp, fun hk => hknown (h.mem_known.mp hk)⟩
  rcases hcover _ hneed with hhead | hst
  · obtain ⟨x, hx, hxp⟩ := List.mem_map.mp hhead
    refine absurd (List.mem_map.mpr ⟨_, h.mem_found.mpr hx, ?_⟩) hfound
    rw [← hxp]
  · exact (h.mem_staged _).mpr (List.mem_filter.mp hst).1

/-- It fails only on a list that has not settled. -/
theorem Prepared.not_settled (h : Prepared known head staged v) {e : AnyError}
    (hup : uploadHashes (needUpload known v) staged (head.map Prod.fst) = .error e) :
    NotStaged e ∧ ¬ v.Settled := by
  obtain ⟨hnot, hash, hneed, hhead, hst⟩ := uploadHashes_error hup
  refine ⟨hnot, fun hsettled => ?_⟩
  obtain ⟨hlist, hknown⟩ := mem_needUpload.mp hneed
  obtain ⟨p, hp, rfl⟩ := List.mem_map.mp hlist
  rcases hsettled p hp with hin | hin | hin | hin
  · exact hst (h.covered _ hin hknown)
  · exact hknown (h.mem_known.mpr hin)
  · obtain ⟨x, hx, hkey⟩ := List.mem_map.mp hin
    rw [h.found, List.mem_reverse] at hx
    obtain ⟨y, hy, rfl⟩ := List.mem_map.mp hx
    exact hhead (List.mem_map.mpr ⟨y, hy, blobRemoteKey_inj hkey⟩)
  · exact hst ((h.mem_staged _).mp hin)

-- ---------------------------------------------------------------------------
-- One source for each size
-- ---------------------------------------------------------------------------

/-- Sizes of hashes, as the bucket counts them. -/
def asSizes (ns : List (String × Nat)) : List (String × UInt64) :=
  ns.map fun x => (x.1, UInt64.ofNat x.2)

theorem map_fst_asSizes (ns : List (String × Nat)) :
    (asSizes ns).map Prod.fst = ns.map Prod.fst := by
  simp [asSizes, Function.comp_def]

theorem mem_asSizes {ns : List (String × Nat)} {hash : String} {n : Nat} (h : (hash, n) ∈ ns) :
    (hash, UInt64.ofNat n) ∈ asSizes ns :=
  List.mem_map.mpr ⟨_, h, rfl⟩

theorem eq_of_nodup_fst {ns : List (String × Nat)} (hnodup : (ns.map Prod.fst).Nodup)
    {hash : String} {n m : Nat} (hn : (hash, n) ∈ ns) (hm : (hash, m) ∈ ns) : n = m :=
  (Prod.mk.inj (List.inj_on_of_nodup_map hnodup hn hm rfl)).2

/-- The uploads are of hashes that are still needed and not in the bucket. -/
structure Sizes (known : List (String × UInt64)) (head ns : List (String × Nat)) (v v' : Ledger) :
    Prop where
  nodup : (ns.map Prod.fst).Nodup
  needed : ∀ h ∈ ns.map Prod.fst, h ∉ known.map Prod.fst ∧ h ∉ head.map Prod.fst
  all : ∀ h ∈ needUpload known v, h ∈ head.map Prod.fst ∨ h ∈ ns.map Prod.fst
  mem_uploaded : ∀ h n, (blobRemoteKey h, n) ∈ v'.uploaded ↔ (h, n) ∈ ns
  latest : v'.latest = v.latest
  found : v'.found = v.found

variable {ns : List (String × Nat)} {v' : Ledger}

theorem Prepared.gives_known (h : Prepared known head staged v) (hs : Sizes known head ns v v')
    {hash : String} {size : UInt64} :
    v'.Gives hash size .latestManifest ↔ known.lookup hash = some size := by
  show v'.knownSize hash = some size ↔ _
  rw [Ledger.knownSize, hs.latest, ← h.latest]

theorem Prepared.gives_head (h : Prepared known head staged v) (hs : Sizes known head ns v v')
    {hash : String} {size : UInt64} :
    v'.Gives hash size .headCheck ↔ ∃ n, (hash, n) ∈ head ∧ size = UInt64.ofNat n := by
  show (∃ n, (blobRemoteKey hash, n) ∈ v'.found ∧ _) ↔ _
  rw [hs.found]
  exact exists_congr fun n => and_congr_left fun _ => h.mem_found

theorem Sizes.gives_upload (hs : Sizes known head ns v v') {hash : String} {size : UInt64} :
    v'.Gives hash size .upload ↔ ∃ n, (hash, n) ∈ ns ∧ size = UInt64.ofNat n :=
  exists_congr fun n => and_congr_left fun _ => hs.mem_uploaded hash n

/-- A hash is known, found or uploaded, and not two of them. -/
theorem Prepared.oneSource (h : Prepared known head staged v) (hs : Sizes known head ns v v')
    {xs : List (String × UInt64)} (hxs : xs.Perm (asSizes head ++ asSizes ns)) :
    ∃ sizes, Prog.foldl addSize known xs = .done sizes ∧
      ∀ p ∈ v.listing, ∃ size, sizes.lookup p.hashOfAllFiles = some size ∧
        v'.OneSource p.hashOfAllFiles size := by
  have hkeys : (xs.map Prod.fst).Perm (head.map Prod.fst ++ ns.map Prod.fst) := by
    have hperm := hxs.map Prod.fst
    rwa [List.map_append, map_fst_asSizes, map_fst_asSizes] at hperm
  have hnodup : (xs.map Prod.fst).Nodup := by
    rw [hkeys.nodup_iff, List.nodup_append]
    refine ⟨h.foundNodup, hs.nodup, ?_⟩
    rintro a ha b hb rfl
    exact (hs.needed a hb).2 ha
  have hunknown : ∀ hash ∈ xs.map Prod.fst, hash ∉ known.map Prod.fst := by
    intro hash hhash
    rcases List.mem_append.mp (hkeys.mem_iff.mp hhash) with hh | hh
    · exact h.unknown hash hh
    · exact (hs.needed hash hh).1
  have hknown : ∀ {hash : String} {size : UInt64}, known.lookup hash = some size →
      hash ∈ known.map Prod.fst := fun hl => List.mem_map_of_mem (mem_of_lookup hl)
  obtain ⟨sizes, hfold, hlook⟩ := foldl_addSize hnodup fun hash hhash =>
    lookup_eq_none.mpr (hunknown hash hhash)
  refine ⟨sizes, hfold, fun p hp => ?_⟩
  rw [hlook]
  by_cases hk : p.hashOfAllFiles ∈ known.map Prod.fst
  · -- known: it was neither looked for nor uploaded
    obtain ⟨size, hsize⟩ := Option.ne_none_iff_exists'.mp fun hl => lookup_eq_none.mp hl hk
    have hnone : xs.lookup p.hashOfAllFiles = none :=
      lookup_eq_none.mpr fun hin => hunknown _ hin hk
    rw [hnone, Option.none_or]
    refine ⟨size, hsize, .latestManifest, (h.gives_known hs).mpr hsize, fun source' size' hg => ?_⟩
    cases source' with
    | latestManifest =>
      rw [h.gives_known hs, hsize] at hg
      exact ⟨rfl, (Option.some.inj hg).symm⟩
    | headCheck =>
      obtain ⟨n, hn, -⟩ := (h.gives_head hs).mp hg
      exact absurd hk (h.unknown _ (List.mem_map_of_mem hn))
    | upload =>
      obtain ⟨n, hn, -⟩ := hs.gives_upload.mp hg
      exact absurd hk (hs.needed _ (List.mem_map_of_mem hn)).1
  · rcases hs.all _ (mem_needUpload.mpr ⟨List.mem_map_of_mem hp, hk⟩) with hh | hh
    · -- found: it was not uploaded
      obtain ⟨⟨hash, n⟩, hn, rfl⟩ := List.mem_map.mp hh
      have hin := hxs.mem_iff.mpr (List.mem_append_left _ (mem_asSizes hn))
      rw [(mem_iff_lookup hnodup).mp hin, Option.some_or]
      refine ⟨UInt64.ofNat n, rfl, .headCheck, (h.gives_head hs).mpr ⟨n, hn, rfl⟩,
        fun source' size' hg => ?_⟩
      cases source' with
      | latestManifest => exact absurd (hknown ((h.gives_known hs).mp hg)) hk
      | headCheck =>
        obtain ⟨m, hm, rfl⟩ := (h.gives_head hs).mp hg
        rw [eq_of_nodup_fst h.foundNodup hm hn]
        exact ⟨rfl, rfl⟩
      | upload =>
        obtain ⟨m, hm, -⟩ := hs.gives_upload.mp hg
        exact absurd hh (hs.needed _ (List.mem_map_of_mem hm)).2
    · -- uploaded: it was not found
      obtain ⟨⟨hash, n⟩, hn, rfl⟩ := List.mem_map.mp hh
      have hin := hxs.mem_iff.mpr (List.mem_append_right _ (mem_asSizes hn))
      rw [(mem_iff_lookup hnodup).mp hin, Option.some_or]
      refine ⟨UInt64.ofNat n, rfl, .upload, hs.gives_upload.mpr ⟨n, hn, rfl⟩,
        fun source' size' hg => ?_⟩
      cases source' with
      | latestManifest => exact absurd (hknown ((h.gives_known hs).mp hg)) hk
      | headCheck =>
        obtain ⟨m, hm, -⟩ := (h.gives_head hs).mp hg
        exact absurd (List.mem_map_of_mem hm) (hs.needed _ hh).2
      | upload =>
        obtain ⟨m, hm, rfl⟩ := hs.gives_upload.mp hg
        rw [eq_of_nodup_fst hs.nodup hm hn]
        exact ⟨rfl, rfl⟩

-- ---------------------------------------------------------------------------
-- The command
-- ---------------------------------------------------------------------------

/-- The ledger when the known hashes are read, and nothing else is done. -/
structure Begun (known : List (String × UInt64)) (v : Ledger) : Prop where
  latest : known = (v.latest.map fun p => (p.blobHash, p.blobSize)).reverse
  settled : v.settled = none
  found : v.found = []
  staged : v.staged = []
  uploaded : v.uploaded = []

theorem tells_prepareParts (h : Begun known v) :
    Tells json cfg (prepareParts json cfg (known.map Prod.fst) v.listing) v fun x v' =>
      Prepared known x.1 x.2.1 v' ∧ v'.listing = x.2.2.1 ∧ Documented x.2.2.1 x.2.2.2 := by
  unfold prepareParts
  refine Tells.bind (tells_localStep fun h => absurd h (by decide)) fun _ v₁ hv₁ => ?_
  obtain ⟨es₁, rfl⟩ := hv₁
  refine Tells.bind (tells_localStep fun h => absurd h (by decide)) fun _ v₂ hv₂ => ?_
  obtain ⟨es₂, rfl⟩ := hv₂
  refine Tells.bind (tells_localStep fun h => absurd h (by decide)) fun _ v₃ hv₃ => ?_
  obtain ⟨es₃, rfl⟩ := hv₃
  have hfst : ((partsToUpload v.listing (known.map Prod.fst)).map fun p =>
      (p.hashOfAllFiles, p.bytesOnDisk)).map Prod.fst = needUpload known v := by
    rw [List.map_map]
    rfl
  refine Tells.bind (tells_headCheckExisting (hfst ▸ nodup_partsToUpload _ _)) fun head v₄ hv₄ => ?_
  obtain ⟨rfl, hnodup, hmem⟩ := hv₄
  rw [hfst] at hmem
  have hstaged : ∀ hash, hash ∈ v.staged ↔ hash ∈ ([] : List String) := by
    intro hash
    rw [h.staged]
  refine Tells.bind (tells_stagePasses (v := Ledger.find { v with told := es₃ } head) hstaged
    List.nodup_nil (by decide)) fun x v₅ hv₅ => ?_
  obtain ⟨⟨st, es₅, rfl, hst⟩, hstNodup, hcover⟩ := hv₅
  refine Tells.bind (tells_metadataAttempts (v := { Ledger.find { v with told := es₃ } head with
    staged := st, listing := x.2, told := es₅ })) fun y v₆ hv₆ => ?_
  obtain ⟨⟨es₆, rfl⟩, hdoc⟩ := hv₆
  refine Follows.pure ⟨⟨h.latest, ?_, hnodup, ?_, hst, hstNodup, ?_, h.uploaded⟩, rfl, hdoc⟩
  · show _ ++ v.found = _
    rw [h.found, List.append_nil]
  · intro hash hhash
    exact (mem_needUpload.mp (hmem hash hhash)).2
  · intro hash hhash hknown
    -- the metadata was first read for the list the staging has ended with
    have hlist : hash ∈ ((v.settled.getD x.2)).map PartInfo.hashOfAllFiles := hhash
    rw [h.settled] at hlist
    obtain ⟨p, hp, rfl⟩ := List.mem_map.mp hlist
    exact hcover p hp hknown

theorem tells_uploadPhase {storage : Storage} (h : Prepared known head staged v) :
    Tells json cfg (uploadPhase storage cfg known head staged v.listing) v fun sizes v' =>
      v'.listing = v.listing ∧ ∀ p ∈ v.listing, ∃ size,
        sizes.lookup p.hashOfAllFiles = some size ∧ v'.OneSource p.hashOfAllFiles size := by
  unfold uploadPhase
  dsimp only
  refine Tells.bind (R := fun up v' => v' = v ∧
    uploadHashes (needUpload known v) staged (head.map Prod.fst) = .ok up)
    (Tells.liftP (fun up hup => ⟨rfl, hup⟩) fun e he => .inr (h.not_settled he)) fun up v₁ hv₁ => ?_
  obtain ⟨rfl, hup⟩ := hv₁
  refine Tells.bind (tells_localStep fun _ => h.allStaged hup) fun _ v₂ hv₂ => ?_
  obtain ⟨es₂, rfl⟩ := hv₂
  refine Tells.bind (tells_uploadPartArchives storage up) fun new v₃ hv₃ => ?_
  obtain ⟨ns, sent, es₃, rfl, hperm, rfl⟩ := hv₃
  refine Tells.bind (tells_localStep fun h => absurd h (by decide)) fun _ v₄ hv₄ => ?_
  obtain ⟨es₄, rfl⟩ := hv₄
  refine Tells.bind (R := fun _ v' => v' = _) (tells_askEnv trivial fun r => rfl) fun order v₅ hv₅ => ?_
  subst hv₅
  obtain ⟨rfl, hall⟩ := uploadHashes_ok hup
  have hs : Sizes known head ns v₁ { v₁ with
      sent := sent
      uploaded := (ns.map fun x => (blobRemoteKey x.1, x.2)).reverse ++ v₁.uploaded
      told := es₄ } := by
    refine ⟨?_, ?_, ?_, ?_, rfl, rfl⟩
    · rw [hperm.nodup_iff]
      exact h.stagedNodup.sublist List.filter_sublist
    · intro hash hhash
      have hmem := of_decide_eq_true (List.mem_filter.mp (hperm.mem_iff.mp hhash)).2
      exact ⟨(mem_needUpload.mp hmem.1).2, hmem.2⟩
    · intro hash hhash
      exact (hall hash hhash).imp_right hperm.mem_iff.mpr
    · intro hash n
      rw [h.fresh, List.append_nil, List.mem_reverse, List.mem_map]
      constructor
      · rintro ⟨x, hx, he⟩
        obtain ⟨hkey, rfl⟩ := Prod.mk.inj he
        rw [← blobRemoteKey_inj hkey]
        exact hx
      · intro hx
        exact ⟨_, hx, rfl⟩
  obtain ⟨sizes, hfold, hsizes⟩ := h.oneSource hs (reorder_perm order _)
  show Tells json cfg (Prog.foldl addSize known (reorder order (asSizes head ++ asSizes ns))) _ _
  rw [hfold]
  exact Follows.done ⟨rfl, hsizes⟩

theorem tells_writeManifest {m : Manifest} (h : Accurate v m) :
    Tells json cfg (writeManifest m) v fun _ _ => True := by
  refine Tells.bind (R := fun _ _ => True) (Tells.mapFail (E := fun _ _ => True)
    (follows_putObjectConditional h (fun _ _ => trivial) fun _ _ => trivial)
    ⟨_, by rw [String.toList_append]; rfl⟩ (by decide)) fun x v' _ => ?_
  dsimp only
  split
  · exact Follows.throw (honest_fine (not_checkError
      ⟨_, by rw [String.toList_append]; rfl⟩ (by decide)))
  · exact Follows.pure trivial

theorem initStorage_error {e : AnyError} (h : initStorage cfg = .error e) : ¬ CheckError e := by
  unfold initStorage at h
  dsimp only at h
  split at h
  · obtain rfl := Except.error.inj h
    exact not_checkError ⟨_, rfl⟩ (by decide)
  · split at h
    · obtain rfl := Except.error.inj h
      exact not_checkError ⟨_, rfl⟩ (by decide)
    · split at h
      · obtain rfl := Except.error.inj h
        exact not_checkError ⟨_, rfl⟩ (by decide)
      · split at h
        · obtain rfl := Except.error.inj h
          exact not_checkError ⟨_, rfl⟩ (by decide)
        · cases h

end

/-- A backup keeps to its ledger. -/
theorem follows_ledger (json : Json) (cfg : Config) (name : Option String) :
    Tells json cfg (createSnapshot json cfg name) {} fun _ _ => True := by
  refine Tells.bind (R := fun _ v' => v' = {}) (tells_askEnv trivial fun r => rfl)
    fun timestamp v₀ hv₀ => ?_
  subst hv₀
  refine Tells.bind (R := fun _ v' => v' = {}) (Tells.liftP (fun _ _ => rfl) fun e he =>
    honest_fine (initStorage_error he)) fun storage v₁ hv₁ => ?_
  subst hv₁
  refine Tells.bind tells_queryParts fun parts v₂ hv₂ => ?_
  obtain ⟨es₂, rfl⟩ := hv₂
  refine Tells.bind tells_resolveShardReplica fun ident v₃ hv₃ => ?_
  obtain ⟨es₃, rfl⟩ := hv₃
  refine Tells.bind (tells_nameOrAuto name ident.1 ident.2 timestamp) fun snapshotName v₄ hv₄ => ?_
  subst hv₄
  refine Tells.bind (tells_loadKnown ident.1 ident.2 rfl) fun known v₅ hv₅ => ?_
  obtain ⟨latest, rfl, hknown⟩ := hv₅
  refine Tells.bind (tells_prepareParts (v := { listing := parts, latest := latest, told := es₃ })
    ⟨hknown, rfl, rfl, rfl, rfl⟩) fun prep v₆ hv₆ => ?_
  obtain ⟨hprep, hlist, hdoc⟩ := hv₆
  have hphase : Tells json cfg (uploadPhase storage cfg known prep.1 prep.2.1 v₆.listing) v₆ _ :=
    tells_uploadPhase hprep
  rw [hlist] at hphase
  refine Tells.bind hphase fun sizes v₇ hv₇ => ?_
  obtain ⟨hlist', hsizes⟩ := hv₇
  obtain ⟨mps, hmps, hmap, hmem⟩ := mapM_manifestPart fun p hp =>
    (hsizes p hp).imp fun _ h => h.1
  refine Tells.bind (R := fun x v' => v' = v₇ ∧ x = mps) (Tells.liftP (fun x hx => ⟨rfl, ?_⟩)
    fun e he => ?_) fun x v₈ hv₈ => ?_
  · exact Except.ok.inj (hx.symm.trans hmps)
  · rw [hmps] at he
    cases he
  obtain ⟨rfl, rfl⟩ := hv₈
  refine Tells.bind (R := fun _ v' => v' = v₈) (tells_askEnv trivial fun r => rfl) fun host v₉ hv₉ => ?_
  subst hv₉
  refine Tells.bind (tells_writeManifest ⟨hlist'.symm ▸ hmap, fun mp hmp => ?_, hlist'.symm ▸ hdoc⟩)
    fun _ _ _ => Follows.pure trivial
  obtain ⟨hin, hlook⟩ := hmem mp hmp
  obtain ⟨p, hp, hpm⟩ := List.mem_map.mp hin
  obtain ⟨size, hsize, hone⟩ := hsizes p hp
  rw [hpm] at hsize hone
  obtain rfl := Option.some.inj (hsize.symm.trans hlook)
  exact hone

end

end Chbk
