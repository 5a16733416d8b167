import Chbk.Safety.Restore
import Chbk.Zip.RoundTrip
import Chbk.Zip.Shares

/-!
# What a restore leaves in the directories of the parts

The parts are extracted side by side, into an output directory that may have
something in it. Nothing is cleared away.

* `MetadataWritten` — what the metadata files have changed of the tree.
* `Restored` — what the extraction of one part has changed, however the others
  were interleaved with it.
* `restored_parts_exact_iff` — the directories hold their archives and nothing
  else exactly when nothing else was in them.
* `stale_file_stays` — a file from before is still there.
* `partsApart_of_names` — distinct names give directories that are apart.
-/

namespace Chbk

open Lib Prog

-- ---------------------------------------------------------------------------
-- The metadata files
-- ---------------------------------------------------------------------------

/-- How the calls before the parts are answered. Each may be refused. -/
def MetadataAnswers (cwd : AbsPath) : (op : Op) → Fs → Resp op → Fs → Prop
  | .env (.createDirAll path), fs, r, fs' =>
    (∃ e, r = .error e) ∨ (trail cwd path).foldlM Fs.mkdirStep fs = .ok fs'
  | .env (.writeFile path content), fs, r, fs' =>
    (∃ e, r = .error e) ∨ ∃ fs₁, fs.createFile (path.foldl stepTo cwd) = .ok fs₁ ∧
      fs' = fs₁.appendFile (path.foldl stepTo cwd) content
  | _, fs, _, fs' => fs' = fs

/-- The place of a metadata file. -/
def metadataPlace (cwd : AbsPath) (outputDir : String) (file : ManifestFile) : AbsPath :=
  join cwd (pathJoin outputDir file.path)

/-- The directories that are made for it. -/
def metadataDirs (cwd : AbsPath) (outputDir : String) (file : ManifestFile) : List AbsPath :=
  match parentComponents (components (pathJoin outputDir file.path)) with
  | some parent => trail cwd parent
  | none => []

/-- The tree has got the output directory and the metadata files. -/
structure MetadataWritten (cwd : AbsPath) (outputDir : String) (kept : List ManifestFile)
    (fs fs' : Fs) : Prop where
  files : ∀ q, (fs'.files q).isSome = true ↔
    (fs.files q).isSome = true ∨ ∃ f ∈ kept, metadataPlace cwd outputDir f = q
  dirs : ∀ q, fs'.dirs q = true ↔
    fs.dirs q = true ∨ q ∈ trail cwd (components outputDir) ∨
      ∃ f ∈ kept, q ∈ metadataDirs cwd outputDir f

section

variable {cwd : AbsPath} {outputDir : String}
  {decodeContent : ManifestFile → Except AnyError Bytes} {fs : Fs}

/-- The calls before the parts, whatever they are answered. -/
abbrev EnsuresMetadata {α : Type} (cwd : AbsPath) (p : P α) (fs : Fs) (Q : α → Fs → Prop) : Prop :=
  Ensures (MetadataAnswers cwd) (fun _ => True) p fs Q fun _ _ => True

theorem ensures_createDirAll (path : List Component) :
    EnsuresMetadata cwd (createDirAll path) fs fun _ fs' =>
      (trail cwd path).foldlM Fs.mkdirStep fs = .ok fs' := by
  refine ⟨trivial, ?_⟩
  intro r fs' h
  cases r with
  | error e => trivial
  | ok u =>
    rcases h with ⟨e, he⟩ | h
    · cases he
    · exact h

/-- A file that is written has its place, and the directories above it. -/
theorem ensures_restoreFile (file : ManifestFile) :
    EnsuresMetadata cwd (restoreFile decodeContent outputDir file) fs fun _ fs' =>
      (∀ q, (fs'.files q).isSome = true ↔
        (fs.files q).isSome = true ∨ metadataPlace cwd outputDir file = q) ∧
      ∀ q, fs'.dirs q = true ↔ fs.dirs q = true ∨ q ∈ metadataDirs cwd outputDir file := by
  unfold restoreFile
  cases decodeContent file with
  | error e => trivial
  | ok content =>
    rw [liftP_ok_bind]
    have hparents : EnsuresMetadata cwd
        (createParents (components (pathJoin outputDir file.path))) fs fun _ fs₁ =>
          fs₁.files = fs.files ∧
          ∀ q, fs₁.dirs q = true ↔ fs.dirs q = true ∨ q ∈ metadataDirs cwd outputDir file := by
      unfold createParents metadataDirs
      cases parentComponents (components (pathJoin outputDir file.path)) with
      | none => exact Ensures.pure ⟨rfl, by simp⟩
      | some parent =>
        refine (ensures_createDirAll parent).mono (fun _ h => h) (fun _ fs₁ h => ?_)
          fun _ _ h => h
        exact ⟨Fs.foldlM_mkdirStep_files h, fun q => Fs.foldlM_mkdirStep_dirs h⟩
    refine hparents.bind fun _ fs₁ ⟨hfiles, hdirs⟩ => ⟨trivial, ?_⟩
    intro r fs' h
    cases r with
    | error e => trivial
    | ok u =>
      rcases h with ⟨e, he⟩ | ⟨fs₂, h₂, rfl⟩
      · cases he
      obtain rfl := Fs.createFile_ok h₂
      show (∀ q, _) ∧ ∀ q, _
      have hplace : (components (pathJoin outputDir file.path)).foldl stepTo cwd =
          metadataPlace cwd outputDir file := rfl
      rw [hplace]
      refine ⟨fun q => ?_, fun q => ?_⟩
      · rw [← hfiles]
        simp only [Fs.appendFile, Fs.setFile, if_true]
        by_cases hq : q = metadataPlace cwd outputDir file
        · simp [hq]
        · simp [hq, Ne.symm hq]
      · rw [← hdirs]
        simp only [Fs.appendFile, Fs.setFile, if_true]

theorem ensures_restoreMetadata (items : FilteredRestoreItems) :
    EnsuresMetadata cwd (restoreMetadata decodeContent outputDir items) fs fun _ fs' =>
      MetadataWritten cwd outputDir items.files fs fs' := by
  unfold restoreMetadata
  have hprint : ∀ lines : List String,
      EnsuresMetadata cwd (printEach "Skipping existing table: " lines) fs
        fun _ fs' => fs' = fs := by
    intro lines
    refine Ensures.bind (ensures_collect (fun _ _ fs' => fs' = fs) ?_ rfl) fun _ _ h =>
      Ensures.pure h
    rintro pre cs b post fs₁ - rfl
    exact Ensures.ask trivial fun r fs' h => h
  refine (hprint _).bind fun _ fs₁ h₁ => ?_
  subst h₁
  refine Ensures.bind (Ensures.mapFail (ensures_createDirAll (components outputDir)))
    fun _ fs₁ h₁ => ?_
  -- the files already written, in the order of the list
  refine Ensures.bind (ensures_collect
    (fun pre _ fs' => MetadataWritten cwd outputDir pre _ fs') ?_ ?_) fun _ _ h => Ensures.pure h
  · intro pre cs f post fs₂ _ hpre
    refine (ensures_restoreFile f).mono (fun _ h => h) (fun _ fs₃ h => ?_) fun _ _ h => h
    refine ⟨fun q => ?_, fun q => ?_⟩
    · rw [h.1, hpre.files, or_assoc]
      simp only [List.mem_append, List.mem_singleton, or_and_right, exists_or, exists_eq_left]
    · rw [h.2, hpre.dirs, or_assoc, or_assoc]
      simp only [List.mem_append, List.mem_singleton, or_and_right, exists_or, exists_eq_left]
  · refine ⟨fun q => ?_, fun q => ?_⟩
    · rw [Fs.foldlM_mkdirStep_files h₁]
      simp
    · rw [Fs.foldlM_mkdirStep_dirs h₁]
      simp

end

/-- The command writes its metadata first, and restores the parts then. -/
theorem restoreItems_eq (decodeContent : ManifestFile → Except AnyError Bytes) (outputDir : String)
    (attach : Bool) (items : FilteredRestoreItems) :
    restoreItems decodeContent outputDir attach items =
      restoreMetadata decodeContent outputDir items >>= fun _ =>
        if items.parts = [] then pure () else restoreParts outputDir attach items.parts := by
  unfold restoreItems restoreMetadata
  rw [Prog.bind_bind]
  congr 1
  funext _
  rw [Prog.bind_bind]
  congr 1
  funext _
  rw [Prog.bind_bind]
  rfl

-- ---------------------------------------------------------------------------
-- One part
-- ---------------------------------------------------------------------------

/-- An archive as the writer makes it. -/
structure PartArchive where
  openFile : String → Except AnyError Reader
  files : List ZipFileEntry
  size : UInt64
  bytes : Bytes
  made : zipOutput openFile files = (.ok size, bytes)

/-- The entries of an archive. -/
def PartArchive.entries (a : PartArchive) : List ArchiveEntry :=
  archiveEntries a.openFile 0 a.files

/-- The tree has got the entries, and the directories they need. -/
structure Restored (dest : AbsPath) (es : List ArchiveEntry) (fs fs' : Fs) : Prop where
  files : ∀ q, fs'.files q = (lastData dest q es).or (fs.files q)
  dirs : ∀ q, fs'.dirs q = true ↔
    (fs.dirs q = true ∨ q <+: dest) ∨ ∃ e ∈ es, q <+: (join dest e.name).dropLast

section

variable {a : PartArchive} {dest : AbsPath} {fs fs' : Fs}

/-- An extraction that succeeds has restored the archive. Its reads may be cut in
any way, and those that were not made may fail. -/
theorem restored_of_extractZip {r : Reader} (hr : r.rest = a.bytes) {x : Unit × Reader}
    (h : (extractZipCalls dest r).alone TreeOp.perform fs = (.ok x, fs')) :
    Restored dest a.entries fs fs' := by
  rw [makes_extractZip.alone r fs] at h
  cases hrun : extractZip dest ⟨r, fs⟩ with
  | error e s =>
    rw [hrun] at h
    cases (Prod.mk.inj h).1
  | ok u s =>
    rw [hrun] at h
    obtain rfl : s.env = fs' := (Prod.mk.inj h).2
    have hheal := makes_extractZip.heals r fs u s.reader s.env hrun
    have hout : runExtract dest r.healed fs = (.ok (), s.env) := by
      rw [runExtract, hheal]
    obtain ⟨hes, hbytes⟩ := zipOutput_ok a.made
    have hserves : r.healed.Serves (archiveBytes a.files a.entries) :=
      hbytes ▸ hr ▸ r.serves_healed
    have hends : (∀ fs₁, restoreArchive dest a.entries fs = some fs₁ →
          runExtract dest r.healed fs = (.ok (), fs₁)) ∧
        (restoreArchive dest a.entries fs = none → EndsInError (runExtract dest r.healed fs)) :=
      runExtract_ends hes.sound hserves (endsEntries_directoryBytes _ _) fs
    cases harch : restoreArchive dest a.entries fs with
    | none =>
      obtain ⟨e, he⟩ := hends.2 harch
      rw [hout] at he
      cases he
    | some fs₁ =>
      have hfs : s.env = fs₁ := congrArg Prod.snd (hout.symm.trans (hends.1 fs₁ harch))
      rw [hfs]
      exact ⟨restoreArchive_files harch, restoreArchive_dirs harch⟩

theorem createDirAll_of_createDestCall {context : String} {r : Reader} {x : Unit × Reader}
    (h : (createDestCall context dest r).alone TreeOp.perform fs = (.ok x, fs')) :
    fs.createDirAll dest = .ok fs' := by
  rw [createDestCall, Prog.alone] at h
  cases hd : fs.createDirAll dest with
  | ok fs₁ =>
    simp only [TreeOp.perform, Fs.answer, hd] at h
    rw [(Prod.mk.inj h).2]
  | error e =>
    simp only [TreeOp.perform, Fs.answer, hd] at h
    cases (Prod.mk.inj h).1

variable {cwd : AbsPath} {outputDir : String} {attach : Bool} {part : ManifestPart}
  {download : Download}

/-- The place of a part. -/
def partPlace (cwd : AbsPath) (outputDir : String) (attach : Bool) (part : ManifestPart) :
    AbsPath := join cwd (partDir outputDir attach part)

/-- A part without a key panics before anything is made. -/
theorem restorePartCalls_cases :
    restorePartCalls cwd outputDir attach part download = .fail .panic ∨
    restorePartCalls cwd outputDir attach part download =
      ((createDestCall ("create " ++ partDir outputDir attach part)
          (partPlace cwd outputDir attach part) ⟨[], []⟩ >>= fun _ =>
        match download with
        | .error e => throw (.error (withContext ("get " ++ blobRemoteKey part.blobHash) e))
        | .ok reader => extractZipCalls (partPlace cwd outputDir attach part) reader >>= fun _ =>
          pure ()) : Prog TreeOp TreeResp Failure Unit) := by
  unfold restorePartCalls
  cases (blobShard part.blobHash).isNone with
  | true => exact .inl rfl
  | false => exact .inr rfl

theorem restored_of_restorePart (hintact : ∀ r, download = .ok r → r.rest = a.bytes) {u : Unit}
    (h : (restorePartCalls cwd outputDir attach part download).alone TreeOp.perform fs =
      (.ok u, fs')) :
    Restored (partPlace cwd outputDir attach part) a.entries fs fs' := by
  rcases restorePartCalls_cases with heq | heq
  · rw [heq] at h
    cases (Prod.mk.inj h).1
  rw [heq] at h
  obtain ⟨x, fs₁, hdest, h⟩ := alone_bind_eq_ok.mp h
  have hdir := createDirAll_of_createDestCall hdest
  cases download with
  | error e => cases (Prod.mk.inj h).1
  | ok r =>
    obtain ⟨y, fs₂, hzip, h⟩ := alone_bind_eq_ok.mp h
    obtain rfl : fs₂ = fs' := (Prod.mk.inj h).2
    have hrest := restored_of_extractZip (hintact r rfl) hzip
    refine ⟨fun q => ?_, fun q => ?_⟩
    · rw [hrest.files, Fs.createDirAll_files hdir]
    · rw [hrest.dirs, Fs.createDirAll_dirs hdir, or_assoc (a := fs.dirs q = true)]
      show (fs.dirs q = true ∨ q <+: partPlace cwd outputDir attach part ∨
        q <+: partPlace cwd outputDir attach part) ∨ _ ↔ _
      rw [or_self]

/-- A part keeps to its directory. -/
theorem only_restorePartCalls :
    Only (Inside (partPlace cwd outputDir attach part))
      (restorePartCalls cwd outputDir attach part download) := by
  have hdest : Inside (partPlace cwd outputDir attach part)
    (.createDest (partPlace cwd outputDir attach part)) := rfl
  rcases restorePartCalls_cases with heq | heq
  · rw [heq]
    trivial
  rw [heq]
  refine ((makes_createDestCall _ hdest).only _).bind fun _ => ?_
  cases download with
  | error e => trivial
  | ok r => exact (makes_extractZip.only r).bind fun _ => only_pure _

theorem strict_restorePartCalls :
    Strict Refused (restorePartCalls cwd outputDir attach part download) := by
  have hdest : Inside (partPlace cwd outputDir attach part)
    (.createDest (partPlace cwd outputDir attach part)) := rfl
  rcases restorePartCalls_cases with heq | heq
  · rw [heq]
    trivial
  rw [heq]
  refine ((makes_createDestCall _ hdest).strict _).bind fun _ => ?_
  cases download with
  | error e => trivial
  | ok r => exact (makes_extractZip.strict r).bind fun _ => trivial

end

-- ---------------------------------------------------------------------------
-- Runs
-- ---------------------------------------------------------------------------

/-- A restore of the manifest that returns `Ok`, from the tree `fs` to the tree
`fs'`: it keeps `items`, writes the metadata first, and restores the parts then,
in any interleaving and each with the answer to its download. -/
structure RestoreRun (cwd : AbsPath) (decodeContent : ManifestFile → Except AnyError Bytes)
    (snapshotName outputDir : String) (flags : RestoreFlags) (m : Manifest)
    (items : FilteredRestoreItems) (downloads : ManifestPart → Download) (fs fs' : Fs) : Prop where
  selected : selectItems snapshotName flags m = .ok items
  ran : ∃ tr p fs₁ ps,
    Proc.Trace (MetadataAnswers cwd) Eq ⟨restoreMetadata decodeContent outputDir items, []⟩ fs
      tr p fs₁ ∧ p.prog = .done () ∧
    Pool.Run TreeAnswers
      (fun i : Fin items.parts.length => restorePartCalls cwd outputDir flags.attach
        (items.parts.get i) (downloads (items.parts.get i)), fs₁) (ps, fs') ∧
    ∀ i, ps i = .done ()

/-- No part's directory is at or below another's. -/
def PartsApart (cwd : AbsPath) (outputDir : String) (attach : Bool) (parts : List ManifestPart) :
    Prop :=
  parts.Pairwise fun p q => Unrelated (partPlace cwd outputDir attach p)
    (partPlace cwd outputDir attach q)

section

variable {cwd : AbsPath} {decodeContent : ManifestFile → Except AnyError Bytes}
  {snapshotName outputDir : String} {attach : Bool} {flags : RestoreFlags} {m : Manifest}
  {items : FilteredRestoreItems} {downloads : ManifestPart → Download}
  {blobs : String → PartArchive} {fs fs' : Fs}

theorem PartsApart.get {parts : List ManifestPart} (h : PartsApart cwd outputDir attach parts)
    {i j : Fin parts.length} (hij : i ≠ j) :
    Unrelated (partPlace cwd outputDir attach (parts.get i))
      (partPlace cwd outputDir attach (parts.get j)) := by
  have hpair := List.pairwise_iff_get.mp h
  rcases lt_or_gt_of_ne hij with hlt | hgt
  · exact hpair i j hlt
  · exact (hpair j i hgt).symm

/-- **Each part is restored as if it were alone**, whatever the interleaving. -/
theorem RestoreRun.restored (h : RestoreRun cwd decodeContent snapshotName outputDir flags m items
      downloads fs fs') (hapart : PartsApart cwd outputDir flags.attach items.parts)
    (hintact : ∀ p ∈ items.parts, ∀ r, downloads p = .ok r → r.rest = (blobs p.blobHash).bytes) :
    ∃ fs₁, MetadataWritten cwd outputDir items.files fs fs₁ ∧ ∀ p ∈ items.parts,
      Restored (partPlace cwd outputDir flags.attach p) (blobs p.blobHash).entries
        (fs₁.below (partPlace cwd outputDir flags.attach p))
        (fs'.below (partPlace cwd outputDir flags.attach p)) := by
  obtain ⟨-, tr, p₁, fs₁, ps, hmeta, hdone, hrun, hps⟩ := h
  refine ⟨fs₁, hmeta.returns (ensures_restoreMetadata items) hdone, ?_⟩
  let S := treeShares (fun i => partPlace cwd outputDir flags.attach (items.parts.get i))
    fun i j hij => hapart.get hij
  let Q : Fin items.parts.length → Unit → Fs → Prop := fun i _ v =>
    Restored (partPlace cwd outputDir flags.attach (items.parts.get i))
      (blobs (items.parts.get i).blobHash).entries
      (fs₁.below (partPlace cwd outputDir flags.attach (items.parts.get i))) v
  have hkept : ∀ i, S.Kept i (restorePartCalls cwd outputDir flags.attach (items.parts.get i)
      (downloads (items.parts.get i))) fs₁ (Q i) := by
    intro i
    refine ⟨only_restorePartCalls, ?_⟩
    have hacts : ∀ op v r v', ShareActs op v r v' → Refused op r ∨ op.perform v = (r, v') :=
      fun op v r v' hr => hr
    refine (strict_restorePartCalls.ensures hacts).mono (fun _ h => h) (fun _ v' hv => ?_)
      fun _ _ h => h
    exact restored_of_restorePart (hintact _ (List.get_mem _ i)) hv
  intro p hp
  obtain ⟨i, rfl⟩ := List.get_of_mem hp
  exact Shares.returns hkept hrun (hps i)

-- ---------------------------------------------------------------------------
-- What the directories hold
-- ---------------------------------------------------------------------------

/-- The directory holds the files of the archive with their bytes, the
directories on the way to them, and nothing else. -/
structure ExactDir (dest : AbsPath) (es : List ArchiveEntry) (fs : Fs) : Prop where
  made : fs.dirs dest = true
  files : ∀ q, dest <+: q → fs.files q = lastData dest q es
  dirs : ∀ q, dest <+: q → q ≠ dest →
    (fs.dirs q = true ↔ ∃ e ∈ es, q <+: (join dest e.name).dropLast)

/-- Nothing else was there before, nor is it put there with the metadata. -/
structure CleanDir (cwd : AbsPath) (outputDir : String) (kept : List ManifestFile)
    (dest : AbsPath) (es : List ArchiveEntry) (fs : Fs) : Prop where
  files : ∀ q, dest <+: q →
    ((fs.files q).isSome = true ∨ ∃ f ∈ kept, metadataPlace cwd outputDir f = q) →
      ∃ e ∈ es, q = join dest e.name
  dirs : ∀ q, dest <+: q → q ≠ dest →
    (fs.dirs q = true ∨ q ∈ trail cwd (components outputDir) ∨
      ∃ f ∈ kept, q ∈ metadataDirs cwd outputDir f) →
      ∃ e ∈ es, q <+: (join dest e.name).dropLast

theorem lastData_isSome {dest q : AbsPath} : ∀ {es : List ArchiveEntry},
    (lastData dest q es).isSome = true ↔ ∃ e ∈ es, q = join dest e.name
  | [] => by simp [lastData]
  | e :: es => by
    rw [lastData, Option.isSome_or, Bool.or_eq_true, lastData_isSome, List.exists_mem_cons_iff]
    by_cases hq : q = join dest e.name
    · simp [hq]
    · simp [hq]

/-- A restored directory is exact when nothing else was put there before. -/
theorem exactDir_iff {fs₁ : Fs} {dest : AbsPath} {es : List ArchiveEntry}
    (hmeta : MetadataWritten cwd outputDir items.files fs fs₁)
    (h : Restored dest es (fs₁.below dest) (fs'.below dest)) :
    ExactDir dest es fs' ↔ CleanDir cwd outputDir items.files dest es fs := by
  have hfiles : ∀ q, dest <+: q → fs'.files q = (lastData dest q es).or (fs₁.files q) := by
    intro q hq
    rw [← Fs.below_files hq, h.files, Fs.below_files hq]
  have hdirs : ∀ q, dest <+: q → q ≠ dest → (fs'.dirs q = true ↔
      fs₁.dirs q = true ∨ ∃ e ∈ es, q <+: (join dest e.name).dropLast) := by
    intro q hq hne
    have hup : ¬ q <+: dest := fun hqd => hne (hqd.eq_of_length
      (le_antisymm hqd.length_le hq.length_le))
    rw [← Fs.below_dirs hq, h.dirs, Fs.below_dirs hq]
    simp [hup]
  have hmade : fs'.dirs dest = true := by
    rw [← Fs.below_dirs (List.prefix_refl dest), h.dirs]
    exact .inl (.inr (List.prefix_refl dest))
  constructor
  · intro hexact
    refine ⟨fun q hq hold => ?_, fun q hq hne hold => ?_⟩
    · have hsome : (fs'.files q).isSome = true := by
        rw [hfiles q hq, Option.isSome_or, Bool.or_eq_true]
        exact .inr ((hmeta.files q).mpr hold)
      rw [hexact.files q hq] at hsome
      exact lastData_isSome.mp hsome
    · exact (hexact.dirs q hq hne).mp ((hdirs q hq hne).mpr (.inl ((hmeta.dirs q).mpr hold)))
  · intro hclean
    refine ⟨hmade, fun q hq => ?_, fun q hq hne => ?_⟩
    · rw [hfiles q hq]
      cases hlast : lastData dest q es with
      | some bs => rfl
      | none =>
        -- what was there before is a place of the archive
        by_contra hold
        have hsome : (fs₁.files q).isSome = true := Option.isSome_iff_ne_none.mpr hold
        have hplace := lastData_isSome.mpr (hclean.files q hq ((hmeta.files q).mp hsome))
        rw [hlast] at hplace
        cases hplace
    · rw [hdirs q hq hne]
      refine ⟨fun hor => hor.elim (fun hold => ?_) id, .inr⟩
      exact hclean.dirs q hq hne ((hmeta.dirs q).mp hold)

/-- **Exactly when the directories of the parts hold their archives and nothing
else**: when nothing else was in them. -/
theorem restored_parts_exact_iff (blobs : String → PartArchive)
    (hrun : RestoreRun cwd decodeContent snapshotName outputDir flags m items downloads fs fs')
    (hapart : PartsApart cwd outputDir flags.attach items.parts)
    (hintact : ∀ p ∈ items.parts, ∀ r, downloads p = .ok r → r.rest = (blobs p.blobHash).bytes) :
    (∀ p ∈ items.parts, ExactDir (partPlace cwd outputDir flags.attach p)
        (blobs p.blobHash).entries fs') ↔
      ∀ p ∈ items.parts, CleanDir cwd outputDir items.files
        (partPlace cwd outputDir flags.attach p) (blobs p.blobHash).entries fs := by
  obtain ⟨fs₁, hmeta, hrestored⟩ := hrun.restored hapart hintact
  exact forall₂_congr fun p hp => exactDir_iff hmeta (hrestored p hp)

end

-- ---------------------------------------------------------------------------
-- Names that keep the parts apart
-- ---------------------------------------------------------------------------

theorem join_properName {s : String} (h : ProperName s) (d : AbsPath) : join d s = d ++ [s] := by
  have hname : ZipName [s] s := ⟨by simp, by simpa using h, rfl⟩
  exact hname.join_eq d

theorem partPlace_eq {cwd : AbsPath} {outputDir : String} {attach : Bool} {p : ManifestPart}
    (hdb : ProperName p.database) (htable : ProperName p.tableName)
    (hpart : ProperName p.partName) : partPlace cwd outputDir attach p = join cwd outputDir ++
      (if attach then ["data", p.database, p.tableName, "detached", p.partName]
      else ["data", p.database, p.tableName, p.partName]) := by
  have hdata : ProperName "data" := ⟨by decide, by decide, by decide, by decide⟩
  have hdetached : ProperName "detached" := ⟨by decide, by decide, by decide, by decide⟩
  unfold partPlace partDir
  cases attach with
  | true =>
    simp only [if_true, join_pathJoin, join_properName hdata, join_properName hdb,
      join_properName htable, join_properName hdetached, join_properName hpart, List.append_assoc,
      List.cons_append, List.nil_append]
  | false =>
    simp only [Bool.false_eq_true, if_false, join_pathJoin, join_properName hdata,
      join_properName hdb, join_properName htable, join_properName hpart, List.append_assoc,
      List.cons_append, List.nil_append]

/-- Parts with distinct proper names have directories that are apart. -/
theorem partsApart_of_names {cwd : AbsPath} {outputDir : String} {attach : Bool}
    {parts : List ManifestPart}
    (hnames : ∀ p ∈ parts, ProperName p.database ∧ ProperName p.tableName ∧ ProperName p.partName)
    (hdistinct : (parts.map fun p => (p.database, p.tableName, p.partName)).Nodup) :
    PartsApart cwd outputDir attach parts := by
  refine (List.pairwise_map.mp hdistinct).imp_of_mem fun {p q} hp hq hne => ?_
  obtain ⟨hdb, htable, hpart⟩ := hnames p hp
  obtain ⟨hdb', htable', hpart'⟩ := hnames q hq
  have hp : partPlace cwd outputDir attach p = _ := partPlace_eq hdb htable hpart
  have hq : partPlace cwd outputDir attach q = _ := partPlace_eq hdb' htable' hpart'
  -- the two places are as deep, so one is at or below the other when they are the same
  have hlen : (partPlace cwd outputDir attach p).length =
      (partPlace cwd outputDir attach q).length := by
    rw [hp, hq]
    cases attach <;> simp
  have hplaces : partPlace cwd outputDir attach p ≠ partPlace cwd outputDir attach q := by
    rw [hp, hq]
    intro heq
    have htail := List.append_cancel_left heq
    cases attach with
    | true =>
      simp only [if_true, List.cons.injEq, true_and, and_true] at htail
      exact hne (by rw [htail.1, htail.2.1, htail.2.2])
    | false =>
      simp only [Bool.false_eq_true, if_false, List.cons.injEq, true_and, and_true] at htail
      exact hne (by rw [htail.1, htail.2.1, htail.2.2])
  exact ⟨fun h => hplaces (h.eq_of_length hlen), fun h => hplaces (h.eq_of_length hlen.symm).symm⟩

-- ---------------------------------------------------------------------------
-- A file from before
-- ---------------------------------------------------------------------------

/-- The archive of two small files. -/
def twoFilesArchive : PartArchive := ⟨openTwoFiles, twoFiles, 228, twoFilesZip, twoFilesZip_ok⟩

def onePartManifest : Manifest :=
  ⟨"backup1", 0, "s1", "r1", "h1", [⟨"db", "t", "all_1_1_0", "ab", 228⟩], []⟩

def plainFlags : RestoreFlags := ⟨none, none, none, none, false⟩

/-- The output directory after a restore of another snapshot, whose part of the
same name had a file that this one has not. -/
def usedOutput : Fs where
  files q := if q = ["out", "data", "db", "t", "all_1_1_0", "old.bin"] then some [9] else none
  dirs q := q <+: ["out", "data", "db", "t", "all_1_1_0"]

/-- The extraction of the part into it. -/
def usedOutputRun : Except Failure Unit × Fs :=
  (restorePartCalls [] "out" false ⟨"db", "t", "all_1_1_0", "ab", 228⟩
    (.ok ⟨twoFilesZip, []⟩)).alone TreeOp.perform usedOutput

theorem usedOutputRun_ok : usedOutputRun = (.ok (), usedOutputRun.2) := by
  have hok : usedOutputRun.1 = .ok () := by decide +kernel
  rw [← hok]

/-- One part alone, behind its metadata. -/
theorem restoreRun_one {cwd : AbsPath} {decodeContent : ManifestFile → Except AnyError Bytes}
    {snapshotName outputDir : String} {flags : RestoreFlags} {m : Manifest} {part : ManifestPart}
    {files : List ManifestFile} {skipped : List (String × String)}
    {downloads : ManifestPart → Download} {fs fs₁ fs' : Fs} {tr : List (Event Op Resp Fs)}
    {p : Proc Op Resp AnyError Unit}
    (hsel : selectItems snapshotName flags m = .ok ⟨[part], files, skipped⟩)
    (hmeta : Proc.Trace (MetadataAnswers cwd) Eq
      ⟨restoreMetadata decodeContent outputDir ⟨[part], files, skipped⟩, []⟩ fs tr p fs₁)
    (hdone : p.prog = .done ())
    (hpart : (restorePartCalls cwd outputDir flags.attach part (downloads part)).alone
      TreeOp.perform fs₁ = (.ok (), fs')) :
    RestoreRun cwd decodeContent snapshotName outputDir flags m ⟨[part], files, skipped⟩ downloads
      fs fs' where
  selected := hsel
  ran := by
    let ps : Fin 1 → Prog TreeOp TreeResp Failure Unit := fun i =>
      restorePartCalls cwd outputDir flags.attach ([part].get i) (downloads ([part].get i))
    have hrun : Pool.Run TreeAnswers (ps, fs₁) (Function.update ps 0 (.done ()), fs') :=
      Pool.run_alone treeAnswers_perform rfl hpart
    refine ⟨tr, p, fs₁, _, hmeta, hdone, hrun, ?_⟩
    intro (i : Fin 1)
    obtain rfl := Subsingleton.elim i 0
    exact Function.update_self ..

theorem restoreRun_usedOutput :
    RestoreRun [] (fun f => .ok f.content) "backup1" "out" plainFlags onePartManifest
      ⟨onePartManifest.parts, [], []⟩ (fun _ => .ok ⟨twoFilesZip, []⟩) usedOutput
      usedOutputRun.2 := by
  have htrail : trail [] (components "out") = [[], ["out"]] := by decide +kernel
  have hdirs : (trail [] (components "out")).foldlM Fs.mkdirStep usedOutput = .ok usedOutput := by
    rw [htrail]
    rfl
  have hanswer : MetadataAnswers [] (.env (.createDirAll (components "out"))) usedOutput (.ok ())
      usedOutput := .inr hdirs
  -- the output directory is there, and there are no metadata files
  obtain ⟨k, hprog, hk⟩ : ∃ k, restoreMetadata (fun f => .ok f.content) "out"
      ⟨onePartManifest.parts, [], []⟩ = .call (.env (.createDirAll (components "out"))) k ∧
      k (.ok ()) = .done () := ⟨_, rfl, rfl⟩
  have hcall : Proc.Step (MetadataAnswers [])
      ⟨restoreMetadata (fun f => .ok f.content) "out" ⟨onePartManifest.parts, [], []⟩, []⟩
      usedOutput ⟨.done (), [⟨.env (.createDirAll (components "out")), .ok ()⟩]⟩ usedOutput := by
    rw [hprog, ← hk]
    exact .call hanswer
  exact restoreRun_one rfl (.call .start hcall rfl) rfl usedOutputRun_ok

/-- **The file of the other snapshot is still in the restored directory.** -/
theorem stale_file_stays : ¬ ∀ (cwd : AbsPath)
    (decodeContent : ManifestFile → Except AnyError Bytes) (snapshotName outputDir : String)
    (flags : RestoreFlags) (m : Manifest) (items : FilteredRestoreItems)
    (downloads : ManifestPart → Download) (blobs : String → PartArchive) (fs fs' : Fs),
    (∀ p ∈ m.parts, ProperName p.database ∧ ProperName p.tableName ∧ ProperName p.partName) →
    (m.parts.map fun p => (p.database, p.tableName, p.partName)).Nodup →
    RestoreRun cwd decodeContent snapshotName outputDir flags m items downloads fs fs' →
    (∀ p ∈ items.parts, ∀ r, downloads p = .ok r → r.rest = (blobs p.blobHash).bytes) →
    ∀ p ∈ items.parts, ExactDir (partPlace cwd outputDir flags.attach p)
      (blobs p.blobHash).entries fs' := by
  intro hall
  have hnames : ∀ p ∈ onePartManifest.parts,
      ProperName p.database ∧ ProperName p.tableName ∧ ProperName p.partName := by
    intro p hp
    obtain rfl := List.mem_singleton.mp hp
    refine ⟨?_, ?_, ?_⟩
    · exact ⟨by decide, by decide, by decide, by decide⟩
    · exact ⟨by decide, by decide, by decide, by decide⟩
    · exact ⟨by decide, by decide, by decide, by decide⟩
  have h := hall _ _ _ _ _ _ _ _ (fun _ => twoFilesArchive) _ _ hnames (List.nodup_singleton _)
    restoreRun_usedOutput (by rintro p hp r ⟨⟩; rfl) ⟨"db", "t", "all_1_1_0", "ab", 228⟩
    (List.mem_singleton_self _)
  have hold := h.files ["out", "data", "db", "t", "all_1_1_0", "old.bin"] (by decide +kernel)
  revert hold
  decide +kernel

theorem restored_parts_exact_iff_usedOutput :
    (∀ p ∈ onePartManifest.parts, ExactDir (partPlace [] "out" false p)
        twoFilesArchive.entries usedOutputRun.2) ↔
      ∀ p ∈ onePartManifest.parts, CleanDir [] "out" [] (partPlace [] "out" false p)
        twoFilesArchive.entries usedOutput :=
  restored_parts_exact_iff (fun _ => twoFilesArchive) restoreRun_usedOutput
    (List.pairwise_singleton ..) (by rintro p hp r ⟨⟩; rfl)

end Chbk
