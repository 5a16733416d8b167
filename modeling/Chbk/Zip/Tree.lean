import Mathlib.Data.List.Infix
import Chbk.Zip.Entries

/-!
# What an extraction leaves in the file tree

* `archiveEntries` — the entries of a list of files, as a function of the files.
* `runExtract_archive`, `runExtract_between`, `runExtract_within` — the outcome
  of the reader on a whole archive, on one cut at an entry's end (or up to three
  bytes later), and on one cut elsewhere.
* `restoreEntries_files` — the files of the tree after a restore: the last
  entry of a place wins, and no other place changes.
-/

namespace Chbk

open Lib

/-! ## The entries of the files -/

/-- The bytes the writer takes from a file. -/
def fileContent (openFile : String → Except AnyError Reader) (f : ZipFileEntry) : Bytes :=
  match openFile f.absPath with
  | .ok r => r.rest.take f.size.toNat
  | .error _ => []

/-- The entry of a file, when it starts at `offset`. -/
def archiveEntry (openFile : String → Except AnyError Reader) (offset : UInt64)
    (f : ZipFileEntry) : ArchiveEntry :=
  ⟨zipName f, fileContent openFile f, entryNeedsZip64 f.size offset⟩

def archiveEntries (openFile : String → Except AnyError Reader) :
    UInt64 → List ZipFileEntry → List ArchiveEntry
  | _, [] => []
  | offset, f :: fs =>
    archiveEntry openFile offset f :: archiveEntries openFile (nextOffset offset f) fs

theorem WrittenEntry.eq_archiveEntry {openFile : String → Except AnyError Reader} {offset : UInt64}
    {f : ZipFileEntry} {e : ArchiveEntry} (h : WrittenEntry openFile offset f e) :
    e = archiveEntry openFile offset f := by
  obtain ⟨r, hopen, hdata⟩ := h.data
  rw [archiveEntry, fileContent, hopen, zipName_of_ok h.name, ← h.zip64]
  exact ArchiveEntry.mk.injEq .. ▸ ⟨rfl, hdata, rfl⟩

theorem Written.eq_archiveEntries {openFile : String → Except AnyError Reader} :
    ∀ {files : List ZipFileEntry} {offset : UInt64} {es : List ArchiveEntry},
      Written openFile offset files es → es = archiveEntries openFile offset files
  | [], _, _, h => h
  | _ :: _, _, e :: es, h => by
    rw [archiveEntries, ← h.1.eq_archiveEntry, ← h.2.eq_archiveEntries]

/-- What the writer emits on the way to success, as a function of the files, and
where it says that it ends. -/
theorem zipOutput_ends {openFile : String → Except AnyError Reader} {files : List ZipFileEntry}
    {n : UInt64} {bytes : Bytes} (h : zipOutput openFile files = (.ok n, bytes)) :
    Written openFile 0 files (archiveEntries openFile 0 files) ∧
      bytes = archiveBytes files (archiveEntries openFile 0 files) ∧
      n = archiveEnd files (archiveEntries openFile 0 files) := by
  rw [zipOutput] at h
  cases hw : writeZip openFile files [] with
  | error e s => simp [hw] at h
  | ok m s =>
    obtain ⟨es, hes, rfl, rfl⟩ := writeZip_ok hw
    obtain rfl := hes.eq_archiveEntries
    simp only [hw, Prod.mk.injEq, List.nil_append, Except.ok.injEq] at h
    exact ⟨hes, h.2.symm, h.1.symm⟩

theorem zipOutput_ok {openFile : String → Except AnyError Reader} {files : List ZipFileEntry}
    {n : UInt64} {bytes : Bytes} (h : zipOutput openFile files = (.ok n, bytes)) :
    Written openFile 0 files (archiveEntries openFile 0 files) ∧
      bytes = archiveBytes files (archiveEntries openFile 0 files) :=
  ⟨(zipOutput_ends h).1, (zipOutput_ends h).2.1⟩

theorem length_archiveEntries (openFile : String → Except AnyError Reader) :
    ∀ (files : List ZipFileEntry) (offset : UInt64),
      (archiveEntries openFile offset files).length = files.length
  | [], _ => rfl
  | _ :: fs, _ => congrArg (· + 1) (length_archiveEntries openFile fs _)

/-! ## Runs of the reader -/

/-- Make the destination, then restore the entries. -/
def restoreArchive (dest : AbsPath) (es : List ArchiveEntry) (fs : Fs) : Option Fs :=
  (fs.createDirAll dest).toOption.bind (restoreEntries dest es)

/-- The outcome is an error value. -/
def EndsInError (out : Except Failure Unit × Fs) : Prop := ∃ e, out.1 = .error (.error e)

theorem endsInError_of_failsFair {dest : AbsPath} {r : Reader} {fs : Fs}
    (h : FailsFair IsError (extractZip dest) ⟨r, fs⟩) : EndsInError (runExtract dest r fs) := by
  obtain ⟨x, i', hrun, e, rfl⟩ := h
  exact ⟨e, by rw [runExtract, hrun]⟩

/-- Making the destination comes first. -/
theorem runExtract_noDest {dest : AbsPath} {fs : Fs} (h : (fs.createDirAll dest).toOption = none)
    (r : Reader) : EndsInError (runExtract dest r fs) := by
  cases hd : fs.createDirAll dest with
  | ok fs₁ => simp [hd, Except.toOption] at h
  | error e =>
    apply endsInError_of_failsFair
    rw [extractZip]
    refine FailsFair.bind ?_ _
    exact ⟨_, _, onFs_error (by rw [hd]) r, _, rfl⟩

theorem extractZip_eq {dest : AbsPath} {fs fs₁ : Fs} (h : fs.createDirAll dest = .ok fs₁)
    (r : Reader) :
    extractZip dest ⟨r, fs⟩ = extractLoop dest (r.rest.length + 1) ⟨r, fs₁⟩ := by
  rw [extractZip, bind_ok (onFs_ok (by rw [h]) r)]
  rfl

/-- Each entry takes bytes of the stream. -/
theorem length_le_flatMap_bytes (es : List ArchiveEntry) :
    es.length ≤ (es.flatMap ArchiveEntry.bytes).length := by
  induction es with
  | nil => exact Nat.zero_le _
  | cons e es ih =>
    simp only [List.flatMap_cons, List.length_cons, List.length_append, ArchiveEntry.bytes,
      length_leBytes]
    omega

/-- What the reader takes for the end of the entries: a directory signature, or
a stream with no more than three bytes. -/
def EndsEntries (tail : Bytes) : Prop :=
  tail.length < 4 ∨ ∃ sig rest, sig ∈ directorySigs ∧ tail = leBytes 4 sig ++ rest

theorem extractLoop_ends {dest : AbsPath} (fuel : Nat) {r : Reader} {tail : Bytes}
    (hr : r.Serves tail) (h : EndsEntries tail) (fs : Fs) :
    ∃ r', extractLoop dest (fuel + 1) ⟨r, fs⟩ = .ok () ⟨r', fs⟩ := by
  rcases h with hshort | ⟨sig, rest, hsig, rfl⟩
  · exact extractLoop_short dest fuel hr hshort fs
  · exact extractLoop_directory dest fuel hsig hr fs

/-- **A stream of entries that ends behind one of them is restored as if these
were all.** -/
theorem runExtract_ends {dest : AbsPath} {es : List ArchiveEntry} (hes : ∀ e ∈ es, SoundEntry e)
    {r : Reader} {tail : Bytes} (hr : r.Serves (es.flatMap ArchiveEntry.bytes ++ tail))
    (htail : EndsEntries tail) (fs : Fs) :
    (∀ fs', restoreArchive dest es fs = some fs' → runExtract dest r fs = (.ok (), fs')) ∧
    (restoreArchive dest es fs = none → EndsInError (runExtract dest r fs)) := by
  cases hd : fs.createDirAll dest with
  | error e =>
    have hnone : (fs.createDirAll dest).toOption = none := by rw [hd]; rfl
    exact ⟨fun fs' h => by simp [restoreArchive, hnone] at h, fun _ => runExtract_noDest hnone r⟩
  | ok fs₁ =>
    have hsome : restoreArchive dest es fs = restoreEntries dest es fs₁ := by
      rw [restoreArchive, hd]
      rfl
    have hlen : es.length ≤ r.rest.length := by
      rw [hr.rest, List.length_append]
      exact (length_le_flatMap_bytes es).trans (Nat.le_add_right _ _)
    obtain ⟨hok, hfail⟩ := extractLoop_restores hes
      (Nat.le_succ_of_le hlen) hr
    rw [hsome]
    refine ⟨fun fs' h => ?_, fun h => ?_⟩
    · obtain ⟨r₁, hloop, hr₁⟩ := hok fs' h
      obtain ⟨r₂, hend⟩ := extractLoop_ends (r.rest.length - es.length) hr₁ htail fs'
      have hfuel : r.rest.length + 1 - es.length = r.rest.length - es.length + 1 := by omega
      rw [runExtract, extractZip_eq hd, hloop, hfuel, hend]
    · apply endsInError_of_failsFair
      rw [FailsFair, extractZip_eq hd]
      exact hfail h

/-- **A stream that ends within an entry, past its signature, is refused.** -/
theorem runExtract_within {dest : AbsPath} {es : List ArchiveEntry} (hes : ∀ e ∈ es, SoundEntry e)
    {e : ArchiveEntry} (he : SoundEntry e) {r : Reader} {q : Bytes} (hq : q <+: e.bytes)
    (hne : q ≠ e.bytes) (hlen : 4 ≤ q.length)
    (hr : r.Serves (es.flatMap ArchiveEntry.bytes ++ q)) (fs : Fs) :
    EndsInError (runExtract dest r fs) := by
  cases hd : fs.createDirAll dest with
  | error e => exact runExtract_noDest (by rw [hd]; rfl) r
  | ok fs₁ =>
    have hes_len : es.length ≤ r.rest.length := by
      rw [hr.rest, List.length_append]
      exact (length_le_flatMap_bytes es).trans (Nat.le_add_right _ _)
    obtain ⟨hok, hfail⟩ := extractLoop_restores hes
      (Nat.le_succ_of_le hes_len) hr
    apply endsInError_of_failsFair
    rw [FailsFair, extractZip_eq hd]
    cases h : restoreEntries dest es fs₁ with
    | none => exact hfail h
    | some fs' =>
      obtain ⟨r₁, hloop, hr₁⟩ := hok fs' h
      have hfuel : r.rest.length + 1 - es.length = r.rest.length - es.length + 1 := by omega
      rw [hloop, hfuel]
      exact extractLoop_cut _ he hq hne hlen hr₁ fs'

/-! ## Files of the tree -/

theorem Fs.mkdirStep_files {fs fs' : Fs} {p : AbsPath} (h : fs.mkdirStep p = .ok fs') :
    fs'.files = fs.files := by
  rw [mkdirStep] at h
  split_ifs at h
  · obtain rfl := Except.ok.inj h
    rfl
  · obtain rfl := Except.ok.inj h
    rfl

theorem Fs.foldlM_mkdirStep_files : ∀ {ps : List AbsPath} {fs fs' : Fs},
    ps.foldlM mkdirStep fs = .ok fs' → fs'.files = fs.files
  | [], fs, fs', h => by
    obtain rfl := Except.ok.inj h
    rfl
  | p :: ps, fs, fs', h => by
    rw [List.foldlM_cons] at h
    cases hp : fs.mkdirStep p with
    | error e => simp [hp, bind, Except.bind] at h
    | ok fs₁ =>
      simp only [hp, bind, Except.bind] at h
      rw [foldlM_mkdirStep_files h, mkdirStep_files hp]

/-- Making directories changes no file. -/
theorem Fs.createDirAll_files {fs fs' : Fs} {p : AbsPath} (h : fs.createDirAll p = .ok fs') :
    fs'.files = fs.files := foldlM_mkdirStep_files h

theorem Fs.createFile_ok {fs fs' : Fs} {p : AbsPath} (h : fs.createFile p = .ok fs') :
    fs' = fs.setFile p [] := by
  rw [createFile] at h
  split_ifs at h
  exact (Except.ok.inj h).symm

theorem createOut_ok {fs fs' : Fs} {dest : AbsPath} {rel : String}
    (h : createOut fs dest rel = .ok fs') : fs' = fs.setFile (join dest rel) [] := by
  rw [createOut] at h
  split_ifs at h
  cases hc : fs.createFile (join dest rel) with
  | error e => simp [hc] at h
  | ok fs₁ =>
    simp only [hc, Except.ok.injEq] at h
    rw [← h, Fs.createFile_ok hc]

theorem ok_of_toOption {α : Type} {x : Except AnyError α} {a : α} (h : x.toOption = some a) :
    x = .ok a := by
  cases x with
  | ok b => exact congrArg Except.ok (Option.some.inj h)
  | error e => cases h

/-- A restored entry sets the file at its place and changes no other. -/
theorem restoreEntry_files {dest : AbsPath} {e : ArchiveEntry} {fs fs' : Fs}
    (h : restoreEntry dest e fs = some fs') (p : AbsPath) :
    fs'.files p = if p = join dest e.name then some e.data else fs.files p := by
  rw [restoreEntry] at h
  split_ifs at h
  obtain ⟨fs₁, h₁, h⟩ := Option.bind_eq_some_iff.mp h
  obtain ⟨fs₂, h₂, h⟩ := Option.bind_eq_some_iff.mp h
  obtain rfl := Option.some.inj h
  obtain rfl := createOut_ok (ok_of_toOption h₂)
  have hfiles : fs₁.files = fs.files := Fs.createDirAll_files (ok_of_toOption h₁)
  by_cases hpe : p = join dest e.name
  · simp [Fs.appendFile, Fs.setFile, hpe]
  · simp [Fs.appendFile, Fs.setFile, hpe, hfiles]

/-- The data of the last entry at a place. -/
def lastData (dest : AbsPath) (p : AbsPath) : List ArchiveEntry → Option Bytes
  | [] => none
  | e :: es => (lastData dest p es).or (if p = join dest e.name then some e.data else none)

/-- **After a restore each place holds the data of its last entry; the other
places are as before.** -/
theorem restoreEntries_files {dest : AbsPath} : ∀ {es : List ArchiveEntry} {fs fs' : Fs},
    restoreEntries dest es fs = some fs' → ∀ p,
      fs'.files p = (lastData dest p es).or (fs.files p)
  | [], fs, fs', h, p => by
    obtain rfl := Option.some.inj h
    rfl
  | e :: es, fs, fs', h, p => by
    obtain ⟨fs₁, h₁, h₂⟩ := Option.bind_eq_some_iff.mp h
    rw [restoreEntries_files h₂ p, restoreEntry_files h₁ p, lastData, Option.or_assoc]
    congr 1
    split_ifs <;> rfl

theorem restoreArchive_files {dest : AbsPath} {es : List ArchiveEntry} {fs fs' : Fs}
    (h : restoreArchive dest es fs = some fs') (p : AbsPath) :
    fs'.files p = (lastData dest p es).or (fs.files p) := by
  obtain ⟨fs₁, h₁, h₂⟩ := Option.bind_eq_some_iff.mp h
  rw [restoreEntries_files h₂ p, Fs.createDirAll_files (ok_of_toOption h₁)]

-- ---------------------------------------------------------------------------
-- Directories of the tree
-- ---------------------------------------------------------------------------

theorem Fs.mkdirStep_dirs {fs fs' : Fs} {p : AbsPath} (h : fs.mkdirStep p = .ok fs')
    (q : AbsPath) : fs'.dirs q = true ↔ fs.dirs q = true ∨ q = p := by
  rw [mkdirStep] at h
  split_ifs at h with hd hf
  · obtain rfl := Except.ok.inj h
    refine ⟨Or.inl, ?_⟩
    rintro (hq | rfl)
    · exact hq
    · exact hd
  · obtain rfl := Except.ok.inj h
    show (decide (q = p) || fs.dirs q) = true ↔ _
    rw [Bool.or_eq_true, decide_eq_true_eq]
    exact or_comm

theorem Fs.foldlM_mkdirStep_dirs {q : AbsPath} : ∀ {ps : List AbsPath} {fs fs' : Fs},
    ps.foldlM mkdirStep fs = .ok fs' → (fs'.dirs q = true ↔ fs.dirs q = true ∨ q ∈ ps)
  | [], fs, fs', h => by
    obtain rfl := Except.ok.inj h
    simp
  | p :: ps, fs, fs', h => by
    rw [List.foldlM_cons] at h
    obtain ⟨fs₁, h₁, h₂⟩ := except_bind_eq_ok h
    rw [foldlM_mkdirStep_dirs h₂, mkdirStep_dirs h₁, List.mem_cons, or_assoc]

/-- Making directories makes the ones on the way. -/
theorem Fs.createDirAll_dirs {fs fs' : Fs} {p : AbsPath} (h : fs.createDirAll p = .ok fs')
    (q : AbsPath) : fs'.dirs q = true ↔ fs.dirs q = true ∨ q <+: p :=
  (foldlM_mkdirStep_dirs h).trans (or_congr_right (List.mem_inits q p))

/-- A restored entry makes the directories above its place. -/
theorem restoreEntry_dirs {dest : AbsPath} {e : ArchiveEntry} {fs fs' : Fs}
    (h : restoreEntry dest e fs = some fs') (p : AbsPath) :
    fs'.dirs p = true ↔ fs.dirs p = true ∨ p <+: (join dest e.name).dropLast := by
  rw [restoreEntry] at h
  split_ifs at h
  obtain ⟨fs₁, h₁, h⟩ := Option.bind_eq_some_iff.mp h
  obtain ⟨fs₂, h₂, h⟩ := Option.bind_eq_some_iff.mp h
  obtain rfl := Option.some.inj h
  have happend : ∀ bs, (fs₂.appendFile (join dest e.name) bs).dirs = fs₂.dirs := by
    intro bs
    unfold Fs.appendFile
    split <;> rfl
  rw [happend, createOut_ok (ok_of_toOption h₂)]
  exact Fs.createDirAll_dirs (ok_of_toOption h₁) p

theorem restoreEntries_dirs {dest p : AbsPath} : ∀ {es : List ArchiveEntry} {fs fs' : Fs},
    restoreEntries dest es fs = some fs' →
      (fs'.dirs p = true ↔ fs.dirs p = true ∨ ∃ e ∈ es, p <+: (join dest e.name).dropLast)
  | [], fs, fs', h => by
    obtain rfl := Option.some.inj h
    simp
  | e :: es, fs, fs', h => by
    obtain ⟨fs₁, h₁, h₂⟩ := Option.bind_eq_some_iff.mp h
    rw [restoreEntries_dirs h₂, restoreEntry_dirs h₁, List.exists_mem_cons_iff, or_assoc]

/-- **After a restore the directories are the ones before it, the destination
with what is above it, and what leads to an entry.** -/
theorem restoreArchive_dirs {dest : AbsPath} {es : List ArchiveEntry} {fs fs' : Fs}
    (h : restoreArchive dest es fs = some fs') (p : AbsPath) :
    fs'.dirs p = true ↔ (fs.dirs p = true ∨ p <+: dest) ∨
      ∃ e ∈ es, p <+: (join dest e.name).dropLast := by
  obtain ⟨fs₁, h₁, h₂⟩ := Option.bind_eq_some_iff.mp h
  rw [restoreEntries_dirs h₂, Fs.createDirAll_dirs (ok_of_toOption h₁)]

end Chbk
