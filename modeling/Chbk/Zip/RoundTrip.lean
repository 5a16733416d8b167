import Mathlib.Data.List.Infix
import Chbk.Zip.Truncation

/-!
# The ZIP round trip

Files whose paths keep apart come back from the archive as they went in, unless
the size of one of them is exactly `u32::MAX` where the writer still uses the
short layout: the reader then looks for a ZIP64 extra the writer did not write.

* `zip_roundtrip_iff` — exactly when the round trip works.
* `zip_roundtrip_fails` — a file of `u32::MAX` bytes does not come back.
-/

namespace Chbk

open Lib

/-- The whole content of a file. -/
def fullContent (openFile : String → Except AnyError Reader) (f : ZipFileEntry) : Bytes :=
  match openFile f.absPath with
  | .ok r => r.rest
  | .error _ => []

/-- Neither path is the other or leads through it; a leading dot does not
count. -/
def Apart (f g : ZipFileEntry) : Prop :=
  ¬ normals (components f.relPath) <+: normals (components g.relPath) ∧
    ¬ normals (components g.relPath) <+: normals (components f.relPath)

instance (f g : ZipFileEntry) : Decidable (Apart f g) := inferInstanceAs (Decidable (_ ∧ _))

/-- Nothing lies at or below the destination, and it can be made. -/
structure Fresh (dest : AbsPath) (fs : Fs) : Prop where
  noFiles : ∀ q, fs.files (dest ++ q) = none
  noDirs : ∀ q, q ≠ [] → fs.dirs (dest ++ q) = false
  reachable : ∀ p, p <+: dest → fs.files p = none

/-- The reader succeeded, and below the destination lie exactly the files of the
list with exactly their content. -/
def RoundTrip (openFile : String → Except AnyError Reader) (dest : AbsPath)
    (files : List ZipFileEntry) (out : Except Failure Unit × Fs) : Prop :=
  out.1 = .ok () ∧
    (∀ f ∈ files, out.2.files (join dest f.relPath) = some (fullContent openFile f)) ∧
    ∀ q, (∀ f ∈ files, dest ++ q ≠ join dest f.relPath) → out.2.files (dest ++ q) = none

/-- A file of exactly `u32::MAX` bytes whose entry starts at an offset of at most
`u32::MAX`. -/
def AmbiguousSize (files : List ZipFileEntry) : Prop :=
  ∃ pre f post, files = pre ++ f :: post ∧ f.size.toNat = U32_MAX ∧
    (pre.foldl nextOffset 0).toNat ≤ U32_MAX

/-! ## Ambiguous entries -/

theorem ambiguous_archiveEntry {openFile : String → Except AnyError Reader} {offset : UInt64}
    {f : ZipFileEntry} (h : (fileContent openFile f).length = f.size.toNat) :
    (archiveEntry openFile offset f).Ambiguous ↔
      f.size.toNat = U32_MAX ∧ offset.toNat ≤ U32_MAX := by
  simp only [ArchiveEntry.Ambiguous, archiveEntry, entryNeedsZip64, Bool.or_eq_false_iff,
    decide_eq_false_iff_not, h]
  omega

theorem exists_ambiguous_iff {openFile : String → Except AnyError Reader} :
    ∀ {files : List ZipFileEntry} {offset : UInt64},
      Written openFile offset files (archiveEntries openFile offset files) →
      ((∃ e ∈ archiveEntries openFile offset files, e.Ambiguous) ↔
        ∃ pre f post, files = pre ++ f :: post ∧ f.size.toNat = U32_MAX ∧
          (pre.foldl nextOffset offset).toNat ≤ U32_MAX)
  | [], _, _ => by simp [archiveEntries]
  | f :: fs, offset, h => by
    rw [archiveEntries, List.exists_mem_cons_iff, ambiguous_archiveEntry h.1.size,
      exists_ambiguous_iff h.2]
    constructor
    · rintro (⟨hsize, hoff⟩ | ⟨pre, g, post, rfl, hsize, hoff⟩)
      · exact ⟨[], f, fs, rfl, hsize, hoff⟩
      · exact ⟨f :: pre, g, post, rfl, hsize, hoff⟩
    · rintro ⟨pre, g, post, hsplit, hsize, hoff⟩
      cases pre with
      | nil =>
        obtain ⟨rfl, rfl⟩ := List.cons.inj hsplit
        exact Or.inl ⟨hsize, hoff⟩
      | cons f' pre =>
        obtain ⟨rfl, rfl⟩ := List.cons.inj hsplit
        exact Or.inr ⟨pre, g, post, rfl, hsize, hoff⟩

/-- One entry without an outcome leaves the restore without one. -/
theorem restoreEntries_ambiguous {dest : AbsPath} : ∀ {es : List ArchiveEntry} {e : ArchiveEntry},
    e ∈ es → e.Ambiguous → ∀ fs, restoreEntries dest es fs = none
  | e' :: es, e, he, ha, fs => by
    rw [restoreEntries]
    cases h : restoreEntry dest e' fs with
    | none => rfl
    | some fs₁ =>
      rcases List.mem_cons.mp he with rfl | he
      · rw [restoreEntry, if_pos ha] at h
        cases h
      · exact restoreEntries_ambiguous he ha fs₁

/-! ## Making directories -/

theorem Fs.foldlM_mkdirStep_ok : ∀ {ps : List AbsPath} {fs : Fs},
    (∀ q ∈ ps, fs.files q = none) →
    ∃ fs', ps.foldlM mkdirStep fs = .ok fs' ∧
      ∀ q, fs'.dirs q = true ↔ fs.dirs q = true ∨ q ∈ ps
  | [], fs, _ => ⟨fs, rfl, by simp⟩
  | p :: ps, fs, h => by
    obtain ⟨fs₁, h₁, hdirs₁⟩ : ∃ fs₁, fs.mkdirStep p = .ok fs₁ ∧
        ∀ q, fs₁.dirs q = true ↔ fs.dirs q = true ∨ q = p := by
      rw [mkdirStep]
      split_ifs with hd hf
      · refine ⟨fs, rfl, fun q => ⟨Or.inl, ?_⟩⟩
        rintro (hq | rfl)
        · exact hq
        · exact hd
      · rw [h p (List.mem_cons_self ..)] at hf
        cases hf
      · refine ⟨fs.setDir p, rfl, fun q => ?_⟩
        simp only [setDir, Bool.or_eq_true, decide_eq_true_eq]
        exact Or.comm
    have hfiles := mkdirStep_files h₁
    obtain ⟨fs', h', hdirs'⟩ := foldlM_mkdirStep_ok fun q hq => by
      rw [hfiles]
      exact h q (List.mem_cons_of_mem _ hq)
    refine ⟨fs', ?_, fun q => ?_⟩
    · rw [List.foldlM_cons, h₁]
      exact h'
    · rw [hdirs', hdirs₁, List.mem_cons, or_assoc]

/-- Where no file is in the way, the directories are made. -/
theorem Fs.createDirAll_ok {fs : Fs} {p : AbsPath} (h : ∀ q, q <+: p → fs.files q = none) :
    ∃ fs', fs.createDirAll p = .ok fs' ∧ ∀ q, fs'.dirs q = true ↔ fs.dirs q = true ∨ q <+: p := by
  obtain ⟨fs', h', hdirs⟩ := foldlM_mkdirStep_ok
    fun q hq => h q ((List.mem_inits q p).mp hq)
  exact ⟨fs', h', fun q => (hdirs q).trans (or_congr_right (List.mem_inits q p))⟩

/-! ## Entries that keep apart -/

/-- The tree below the destination after the entries with the names `done`: no
other files, and no directories but on the way to them. -/
structure TreeOf (dest : AbsPath) (done : List (List String)) (fs : Fs) : Prop where
  dest_dir : fs.dirs dest = true
  reachable : ∀ p, p <+: dest → fs.files p = none
  files : ∀ q, (fs.files (dest ++ q)).isSome → q ∈ done
  dirs : ∀ q, q ≠ [] → fs.dirs (dest ++ q) = true → ∃ ns ∈ done, q <+: ns ∧ q ≠ ns

theorem TreeOf.start {dest : AbsPath} {fs : Fs} (h : Fresh dest fs) :
    ∃ fs', fs.createDirAll dest = .ok fs' ∧ TreeOf dest [] fs' := by
  obtain ⟨fs', hfs', hdirs⟩ := Fs.createDirAll_ok h.reachable
  have hfiles := Fs.createDirAll_files hfs'
  refine ⟨fs', hfs', ⟨(hdirs dest).mpr (Or.inr (List.prefix_refl _)), ?_, ?_, ?_⟩⟩
  · intro p hp
    rw [hfiles]
    exact h.reachable p hp
  · intro q hq
    rw [hfiles, h.noFiles q] at hq
    cases hq
  · intro q hq hd
    rcases (hdirs _).mp hd with hd | hp
    · rw [h.noDirs q hq] at hd
      cases hd
    · have := hp.length_le
      rw [List.length_append] at this
      exact absurd (List.length_eq_zero_iff.mp (by omega)) hq

/-- A path that ends at or above `dest ++ q` ends above the destination or
within `q`. -/
theorem prefix_dest_cases {dest p q : AbsPath} (h : p <+: dest ++ q) :
    p <+: dest ∨ ∃ q', p = dest ++ q' ∧ q' <+: q := by
  rcases List.prefix_or_prefix_of_prefix h (List.prefix_append dest q) with hp | ⟨q', rfl⟩
  · exact Or.inl hp
  · exact Or.inr ⟨q', rfl, (List.prefix_append_right_inj dest).mp h⟩

/-- **An entry that keeps apart from those before it is restored.** -/
theorem TreeOf.step {dest : AbsPath} {done : List (List String)} {fs : Fs}
    (h : TreeOf dest done fs) {e : ArchiveEntry} {ns : List String} (hname : ZipName ns e.name)
    (ha : ¬ e.Ambiguous) (hapart : ∀ ms ∈ done, ¬ ms <+: ns ∧ ¬ ns <+: ms) :
    ∃ fs', restoreEntry dest e fs = some fs' ∧ TreeOf dest (ns :: done) fs' := by
  have hplace : join dest e.name = dest ++ ns := hname.join_eq dest
  have hparent : (dest ++ ns).dropLast = dest ++ ns.dropLast :=
    List.dropLast_append_of_ne_nil hname.ne_nil
  have hproper : ns.dropLast <+: ns := List.dropLast_prefix ns
  have hfree : ∀ q, q <+: dest ++ ns.dropLast → fs.files q = none := by
    intro q hq
    rcases prefix_dest_cases hq with hq | ⟨q', rfl, hq'⟩
    · exact h.reachable q hq
    · by_contra hfile
      have hmem := h.files q' (Option.isSome_iff_ne_none.mpr hfile)
      exact (hapart q' hmem).1 (hq'.trans hproper)
  obtain ⟨fs₁, h₁, hdirs₁⟩ := Fs.createDirAll_ok hfree
  have hfiles₁ := Fs.createDirAll_files h₁
  have hnodir : fs₁.dirs (dest ++ ns) = false := by
    rw [Bool.eq_false_iff]
    intro hd
    rcases (hdirs₁ _).mp hd with hd | hp
    · obtain ⟨ms, hms, hpre, -⟩ := h.dirs ns hname.ne_nil hd
      exact (hapart ms hms).2 hpre
    · have := hp.length_le
      have hpos := List.length_pos_iff.mpr hname.ne_nil
      rw [List.length_append, List.length_append, List.length_dropLast] at this
      omega
  have hparentDir : fs₁.dirs (dest ++ ns).dropLast = true := by
    rw [hparent]
    exact (hdirs₁ _).mpr (Or.inr (List.prefix_refl _))
  have hcreate : createOut fs₁ dest e.name = .ok (fs₁.setFile (dest ++ ns) []) := by
    rw [createOut, hname.endsInDot_eq, hplace]
    simp [Fs.createFile, hnodir, hparentDir]
  have hrestore : restoreEntry dest e fs =
      some ((fs₁.setFile (dest ++ ns) []).appendFile (dest ++ ns) e.data) := by
    rw [restoreEntry, if_neg ha, createParentFor, hplace, hparent, h₁]
    simp [Except.toOption, hcreate]
  have hfiles' := restoreEntry_files hrestore
  rw [hplace] at hfiles'
  have hdirs' : ((fs₁.setFile (dest ++ ns) []).appendFile (dest ++ ns) e.data).dirs = fs₁.dirs := by
    simp [Fs.appendFile, Fs.setFile]
  refine ⟨_, hrestore, ⟨?_, ?_, ?_, ?_⟩⟩
  · rw [hdirs']
    exact (hdirs₁ _).mpr (Or.inl h.dest_dir)
  · intro p hp
    have hne : p ≠ dest ++ ns := by
      rintro rfl
      have := hp.length_le
      have hpos := List.length_pos_iff.mpr hname.ne_nil
      rw [List.length_append] at this
      omega
    rw [hfiles', if_neg hne]
    exact h.reachable p hp
  · intro q hq
    rw [hfiles'] at hq
    by_cases hqns : q = ns
    · exact hqns ▸ List.mem_cons_self ..
    · rw [if_neg fun heq => hqns (List.append_cancel_left heq)] at hq
      exact List.mem_cons_of_mem _ (h.files q hq)
  · intro q hq hd
    rw [hdirs'] at hd
    rcases (hdirs₁ _).mp hd with hd | hp
    · obtain ⟨ms, hms, hpre, hne⟩ := h.dirs q hq hd
      exact ⟨ms, List.mem_cons_of_mem _ hms, hpre, hne⟩
    · have hqns : q <+: ns.dropLast := (List.prefix_append_right_inj dest).mp hp
      refine ⟨ns, List.mem_cons_self .., hqns.trans hproper, ?_⟩
      rintro rfl
      have := hqns.length_le
      have hpos := List.length_pos_iff.mpr hname.ne_nil
      rw [List.length_dropLast] at this
      omega

theorem TreeOf.run {openFile : String → Except AnyError Reader} {dest : AbsPath} :
    ∀ {files : List ZipFileEntry} {offset : UInt64} {done : List (List String)} {fs : Fs},
      Written openFile offset files (archiveEntries openFile offset files) →
      (∀ e ∈ archiveEntries openFile offset files, ¬ e.Ambiguous) → files.Pairwise Apart →
      (∀ ms ∈ done, ∀ f ∈ files, ¬ ms <+: normals (components f.relPath) ∧
        ¬ normals (components f.relPath) <+: ms) →
      TreeOf dest done fs →
      ∃ fs', restoreEntries dest (archiveEntries openFile offset files) fs = some fs'
  | [], _, _, fs, _, _, _, _, _ => ⟨fs, rfl⟩
  | f :: files, offset, done, fs, hw, ha, hpair, hdone, h => by
    obtain ⟨hf, hpair⟩ := List.pairwise_cons.mp hpair
    obtain ⟨fs₁, h₁, htree⟩ := h.step (pathToZipName_ok hw.1.name)
      (ha _ (List.mem_cons_self ..)) fun ms hms => hdone ms hms f (List.mem_cons_self ..)
    obtain ⟨fs', h'⟩ := TreeOf.run hw.2 (fun e he => ha e (List.mem_cons_of_mem _ he)) hpair
      (fun ms hms g hg => by
        rcases List.mem_cons.mp hms with rfl | hms
        · exact hf g hg
        · exact hdone ms hms g (List.mem_cons_of_mem _ hg)) htree
    refine ⟨fs', ?_⟩
    rw [archiveEntries, restoreEntries, h₁]
    exact h'

/-! ## The round trip -/

theorem fileContent_eq_full {openFile : String → Except AnyError Reader} {f : ZipFileEntry}
    (h : (fullContent openFile f).length = f.size.toNat) :
    fileContent openFile f = fullContent openFile f := by
  rw [fileContent, fullContent] at *
  cases ho : openFile f.absPath with
  | error e => rfl
  | ok r =>
    simp only [ho] at h
    exact List.take_of_length_le h.le

/-- Where no file of the list belongs, nothing does. -/
theorem contentAt_none {openFile : String → Except AnyError Reader} {dest p : AbsPath} :
    ∀ {files : List ZipFileEntry}, (∀ f ∈ files, p ≠ join dest f.relPath) →
      contentAt openFile dest p files = none
  | [], _ => rfl
  | f :: files, h => by
    rw [contentAt, contentAt_none fun g hg => h g (List.mem_cons_of_mem _ hg),
      if_neg (h f (List.mem_cons_self ..))]
    rfl

/-- With all paths apart a place belongs to one file only. -/
theorem contentAt_of_apart {openFile : String → Except AnyError Reader} {dest : AbsPath} :
    ∀ {files : List ZipFileEntry},
      (∀ f ∈ files, join dest f.relPath = dest ++ normals (components f.relPath)) →
      files.Pairwise Apart → ∀ f ∈ files,
      contentAt openFile dest (join dest f.relPath) files = some (fileContent openFile f)
  | g :: files, hjoin, hpair, f, hf => by
    obtain ⟨hg, hpair⟩ := List.pairwise_cons.mp hpair
    have hjoin' := fun f hf => hjoin f (List.mem_cons_of_mem _ hf)
    rw [contentAt]
    rcases List.mem_cons.mp hf with rfl | hf
    · have hnone : contentAt openFile dest (join dest f.relPath) files = none := by
        refine contentAt_none fun g hg' heq => ?_
        rw [hjoin f (List.mem_cons_self ..), hjoin' g hg'] at heq
        have hapart := hg g hg'
        rw [Apart, List.append_cancel_left heq] at hapart
        exact hapart.1 (List.prefix_refl _)
      rw [hnone, if_pos rfl]
      rfl
    · rw [contentAt_of_apart hjoin' hpair f hf]
      rfl

theorem Written.join_eq {openFile : String → Except AnyError Reader} (dest : AbsPath) :
    ∀ {files : List ZipFileEntry} {offset : UInt64} {es : List ArchiveEntry},
      Written openFile offset files es → ∀ f ∈ files,
        join dest f.relPath = dest ++ normals (components f.relPath)
  | g :: files, _, e :: es, h, f, hf => by
    rcases List.mem_cons.mp hf with rfl | hf
    · exact join_relPath h.1.name dest
    · exact h.2.join_eq dest f hf

theorem endsEntries_directoryBytes (files : List ZipFileEntry) (es : List ArchiveEntry) :
    EndsEntries (directoryBytes files es) := endsEntries_of_cut (List.prefix_refl _)

/-- An ambiguous size makes the reader fail. -/
theorem endsInError_of_ambiguousSize {openFile : String → Except AnyError Reader}
    {files : List ZipFileEntry} {n : UInt64} {bytes : Bytes}
    (hw : zipOutput openFile files = (.ok n, bytes)) (h : AmbiguousSize files) {r : Reader}
    (hr : r.Serves bytes) (dest : AbsPath) (fs : Fs) : EndsInError (runExtract dest r fs) := by
  obtain ⟨hes, rfl⟩ := zipOutput_ok hw
  obtain ⟨e, he, ha⟩ := (exists_ambiguous_iff hes).mpr h
  refine (runExtract_ends hes.sound hr (endsEntries_directoryBytes _ _) fs).2 ?_
  rw [restoreArchive]
  cases (fs.createDirAll dest).toOption with
  | none => rfl
  | some fs₁ => exact restoreEntries_ambiguous he ha fs₁

/-- **Exactly when the round trip works**: for files whose paths keep apart and
whose sizes are right, into a fresh destination, however the stream is cut into
reads. -/
theorem zip_roundtrip_iff {openFile : String → Except AnyError Reader}
    {files : List ZipFileEntry} {n : UInt64} {bytes : Bytes}
    (hw : zipOutput openFile files = (.ok n, bytes)) (hapart : files.Pairwise Apart)
    (hsize : ∀ f ∈ files, (fullContent openFile f).length = f.size.toNat) {r : Reader}
    (hr : r.Serves bytes) {dest : AbsPath} {fs : Fs} (hfresh : Fresh dest fs) :
    RoundTrip openFile dest files (runExtract dest r fs) ↔ ¬ AmbiguousSize files := by
  constructor
  · rintro ⟨hok, -, -⟩ h
    obtain ⟨e, he⟩ := endsInError_of_ambiguousSize hw h hr dest fs
    rw [he] at hok
    cases hok
  · intro hnone
    obtain ⟨hes, rfl⟩ := zipOutput_ok hw
    have hclear : ∀ e ∈ archiveEntries openFile 0 files, ¬ e.Ambiguous := fun e he ha =>
      hnone ((exists_ambiguous_iff hes).mp ⟨e, he, ha⟩)
    obtain ⟨fs₁, hdest, htree⟩ := TreeOf.start hfresh
    obtain ⟨fs', hrun⟩ := TreeOf.run hes hclear hapart (by simp) htree
    have hrestore : restoreArchive dest (archiveEntries openFile 0 files) fs = some fs' := by
      rw [restoreArchive, hdest]
      exact hrun
    rw [(runExtract_ends hes.sound hr (endsEntries_directoryBytes _ _) fs).1 fs' hrestore]
    have hjoin := hes.join_eq dest
    refine ⟨rfl, fun f hf => ?_, fun q hq => ?_⟩
    · rw [restoreArchive_files hrestore, lastData_archiveEntries _ hes,
        contentAt_of_apart hjoin hapart f hf, fileContent_eq_full (hsize f hf)]
      rfl
    · rw [restoreArchive_files hrestore, lastData_archiveEntries _ hes, contentAt_none hq,
        hfresh.noFiles]
      rfl

theorem fresh_empty (name : String) : Fresh [name] Fs.empty where
  noFiles _ := rfl
  noDirs _ _ := rfl
  reachable _ _ := rfl

theorem zip_roundtrip_iff_twoFiles :
    RoundTrip openTwoFiles ["dst"] twoFiles
        (runExtract ["dst"] ⟨twoFilesZip, [.short 3, .short 1]⟩ Fs.empty) ↔
      ¬ AmbiguousSize twoFiles :=
  zip_roundtrip_iff twoFilesZip_ok
    (by decide +kernel) (by decide +kernel)
    ⟨rfl, by simp⟩ (fresh_empty "dst")

/-- The archive of files that open, do not fail and have their bytes. -/
theorem zipOutput_written {openFile : String → Except AnyError Reader} {files : List ZipFileEntry}
    {es : List ArchiveEntry} (h : Written openFile 0 files es)
    (hhealthy : ∀ f ∈ files, ∀ r, openFile f.absPath = .ok r → Cut.fail ∉ r.cuts) :
    zipOutput openFile files = (.ok (archiveEnd files es), archiveBytes files es) := by
  have hzip := emits_writeZip h (emits_writeEntries h hhealthy)
  rw [zipOutput, hzip]
  rfl

/-! ## A file of `u32::MAX` bytes -/

/-- The path and the size of a file of `u32::MAX` bytes. -/
def hugeFile : ZipFileEntry := ⟨"/part/data.bin", "data.bin", 4294967295⟩

def hugeData : Bytes := List.replicate 4294967295 0

def openHuge (_ : String) : Except AnyError Reader := .ok ⟨hugeData, []⟩

theorem length_hugeData : hugeData.length = hugeFile.size.toNat := List.length_replicate ..

theorem written_hugeFile :
    WrittenEntry openHuge 0 hugeFile ⟨"data.bin", hugeData, false⟩ where
  name := by decide +kernel
  nameLen := by decide +kernel
  data := ⟨_, rfl, (List.take_of_length_le length_hugeData.le).symm⟩
  size := length_hugeData
  zip64 := by decide +kernel

theorem zipOutput_hugeFile : ∃ n bytes, zipOutput openHuge [hugeFile] = (.ok n, bytes) := by
  have hwritten : Written openHuge 0 [hugeFile] [⟨"data.bin", hugeData, false⟩] :=
    And.intro written_hugeFile rfl
  refine ⟨_, _, zipOutput_written hwritten ?_⟩
  intro f _ r hr
  cases hr
  exact List.not_mem_nil

/-- The archive of one file of `u32::MAX` bytes is not restored. -/
theorem zip_roundtrip_fails : ∃ n bytes, zipOutput openHuge [hugeFile] = (.ok n, bytes) ∧
    [hugeFile].Pairwise Apart ∧
    (∀ f ∈ [hugeFile], (fullContent openHuge f).length = f.size.toNat) ∧
    Fresh ["dst"] Fs.empty ∧
    ¬ RoundTrip openHuge ["dst"] [hugeFile] (runExtract ["dst"] ⟨bytes, []⟩ Fs.empty) := by
  obtain ⟨n, bytes, hw⟩ := zipOutput_hugeFile
  refine ⟨n, bytes, hw, List.pairwise_singleton .., ?_, fresh_empty "dst", ?_⟩
  · intro f hf
    obtain rfl := List.mem_singleton.mp hf
    exact length_hugeData
  · rintro ⟨hok, -⟩
    have hsize : AmbiguousSize [hugeFile] := ⟨[], hugeFile, [], rfl, rfl, Nat.zero_le _⟩
    obtain ⟨e, he⟩ := endsInError_of_ambiguousSize (r := ⟨bytes, []⟩) hw hsize ⟨rfl, by simp⟩
      ["dst"] Fs.empty
    rw [he] at hok
    cases hok

end Chbk
