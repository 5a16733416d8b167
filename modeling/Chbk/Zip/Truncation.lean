import Chbk.Zip.Tree

/-!
# Truncated archives

The reader checks no entry count and takes an end of the stream within a
signature for the end of the archive. So a stream cut at the end of an entry, or
up to three bytes later, is restored as if the entries so far were all; a stream
cut anywhere else within an entry is refused.

* `restore_truncated_iff` — exactly which cuts are handled: an archive cut at
  `k` is restored in full or refused, unless the cut lies behind the first
  entries and these restore to a tree that lacks a file's content.
* `restore_truncated_fails` — the empty stream is restored as an archive of one
  file.
-/

namespace Chbk

open Lib

/-- The content that belongs at a place: that of the last file of the list with
this place. -/
def contentAt (openFile : String → Except AnyError Reader) (dest : AbsPath) (p : AbsPath) :
    List ZipFileEntry → Option Bytes
  | [] => none
  | f :: fs => (contentAt openFile dest p fs).or
      (if p = join dest f.relPath then some (fileContent openFile f) else none)

/-- Every file of the list is in the tree, with its full content. -/
def AllRestored (openFile : String → Except AnyError Reader) (dest : AbsPath)
    (files : List ZipFileEntry) (fs : Fs) : Prop :=
  ∀ f ∈ files, fs.files (join dest f.relPath) =
    contentAt openFile dest (join dest f.relPath) files

/-- The reader succeeded with every file in place, or it reported an error. -/
def CompleteOrRefused (openFile : String → Except AnyError Reader) (dest : AbsPath)
    (files : List ZipFileEntry) (out : Except Failure Unit × Fs) : Prop :=
  (out.1 = .ok () → AllRestored openFile dest files out.2) ∧
    (out.1 ≠ .ok () → ∃ e, out.1 = .error (.error e))

theorem EndsInError.completeOrRefused {openFile : String → Except AnyError Reader} {dest : AbsPath}
    {files : List ZipFileEntry} {out : Except Failure Unit × Fs} (h : EndsInError out) :
    CompleteOrRefused openFile dest files out := by
  refine ⟨fun hok => ?_, fun _ => h⟩
  obtain ⟨e, he⟩ := h
  rw [he] at hok
  cases hok

/-! ## Contents of files and of entries -/

theorem lastData_archiveEntries {openFile : String → Except AnyError Reader} {dest : AbsPath}
    (p : AbsPath) : ∀ {files : List ZipFileEntry} {offset : UInt64},
      Written openFile offset files (archiveEntries openFile offset files) →
      lastData dest p (archiveEntries openFile offset files) = contentAt openFile dest p files
  | [], _, _ => rfl
  | f :: fs, offset, h => by
    have hplace : join dest (archiveEntry openFile offset f).name = join dest f.relPath :=
      join_entry h.1.name dest
    rw [archiveEntries, lastData, contentAt, lastData_archiveEntries p h.2, hplace]
    rfl

theorem contentAt_isSome {openFile : String → Except AnyError Reader} {dest : AbsPath} :
    ∀ {files : List ZipFileEntry} {f : ZipFileEntry}, f ∈ files →
      (contentAt openFile dest (join dest f.relPath) files).isSome
  | g :: fs, f, hf => by
    rw [contentAt, Option.isSome_or, Bool.or_eq_true]
    rcases List.mem_cons.mp hf with rfl | hf
    · exact Or.inr (by simp)
    · exact Or.inl (contentAt_isSome hf)

/-- The restore of all entries leaves every file in place. -/
theorem allRestored_of_restoreArchive {openFile : String → Except AnyError Reader} {dest : AbsPath}
    {files : List ZipFileEntry}
    (h : Written openFile 0 files (archiveEntries openFile 0 files)) {fs fs' : Fs}
    (hrun : restoreArchive dest (archiveEntries openFile 0 files) fs = some fs') :
    AllRestored openFile dest files fs' := by
  intro f hf
  rw [restoreArchive_files hrun, lastData_archiveEntries _ h]
  exact Option.or_of_isSome (contentAt_isSome hf)

/-! ## Where a cut falls -/

/-- Where the entry behind the first `i` ones starts. -/
def entryStart (es : List ArchiveEntry) (i : Nat) : Nat :=
  ((es.take i).flatMap ArchiveEntry.bytes).length

/-- A prefix of the entries with what follows them ends behind all of them, or
within one. -/
theorem prefix_entries_cases {tail : Bytes} : ∀ {es : List ArchiveEntry} {p : Bytes},
    p <+: es.flatMap ArchiveEntry.bytes ++ tail →
    (∃ q, p = es.flatMap ArchiveEntry.bytes ++ q ∧ q <+: tail) ∨
    ∃ pre e post q, es = pre ++ e :: post ∧ p = pre.flatMap ArchiveEntry.bytes ++ q ∧
      q <+: e.bytes ∧ q ≠ e.bytes
  | [], p, hp => Or.inl ⟨p, rfl, hp⟩
  | e :: es, p, hp => by
    rw [List.flatMap_cons, List.append_assoc] at hp
    rcases List.prefix_or_prefix_of_prefix hp (List.prefix_append e.bytes _) with hin | ⟨q, rfl⟩
    · by_cases hpe : p = e.bytes
      · subst hpe
        rcases @prefix_entries_cases tail es [] List.nil_prefix with
          ⟨q, hq, hqt⟩ | ⟨pre, e', post, q, rfl, hq, hqe, hqne⟩
        · exact Or.inl ⟨q, by rw [List.flatMap_cons, List.append_assoc, ← hq, List.append_nil], hqt⟩
        · exact Or.inr ⟨e :: pre, e', post, q, rfl,
            by rw [List.flatMap_cons, List.append_assoc, ← hq, List.append_nil], hqe, hqne⟩
      · exact Or.inr ⟨[], e, es, p, rfl, rfl, hin, hpe⟩
    · rcases prefix_entries_cases ((List.prefix_append_right_inj _).mp hp) with
        ⟨q', rfl, hqt⟩ | ⟨pre, e', post, q', rfl, rfl, hqe, hqne⟩
      · exact Or.inl ⟨q', by rw [List.flatMap_cons, List.append_assoc], hqt⟩
      · exact Or.inr ⟨e :: pre, e', post, q', rfl,
          by rw [List.flatMap_cons, List.append_assoc], hqe, hqne⟩

/-- A prefix of what follows the entries is taken for their end. -/
theorem endsEntries_of_cut {files : List ZipFileEntry} {es : List ArchiveEntry} {q : Bytes}
    (h : q <+: directoryBytes files es) : EndsEntries q := by
  obtain ⟨sig, rest, hsig, hdir⟩ := directoryBytes_sig files es
  rw [hdir] at h
  by_cases hlen : q.length < 4
  · exact Or.inl hlen
  · obtain ⟨q', rfl⟩ : leBytes 4 sig <+: q :=
      List.prefix_of_prefix_length_le (List.prefix_append ..) h
        (by rw [length_leBytes]; omega)
    exact Or.inr ⟨sig, q', hsig, rfl⟩

/-- The cut `k` falls behind the first `i` entries or up to three bytes later,
and these restore to a tree without some file's content. -/
def CutLosesFiles (openFile : String → Except AnyError Reader) (dest : AbsPath)
    (files : List ZipFileEntry) (fs : Fs) (k : Nat) : Prop :=
  let es := archiveEntries openFile 0 files
  ∃ i < files.length, entryStart es i ≤ k ∧ k < entryStart es i + 4 ∧
    ∃ fs', restoreArchive dest (es.take i) fs = some fs' ∧ ¬ AllRestored openFile dest files fs'

/-- **Exactly when a truncated archive is restored in full or refused.** -/
theorem restore_truncated_iff {openFile : String → Except AnyError Reader}
    {files : List ZipFileEntry} {n : UInt64} {bytes : Bytes}
    (hw : zipOutput openFile files = (.ok n, bytes)) {k : Nat} (hk : k < bytes.length)
    {r : Reader} (hr : r.Serves (bytes.take k)) (dest : AbsPath) (fs : Fs) :
    CompleteOrRefused openFile dest files (runExtract dest r fs) ↔
      ¬ CutLosesFiles openFile dest files fs k := by
  obtain ⟨hes, rfl⟩ := zipOutput_ok hw
  have hsound := hes.sound
  constructor
  · -- a cut that loses files is restored with the files before it only
    rintro ⟨hok, -⟩ ⟨i, hi, hstart, hend, fs', hrestore, hlost⟩
    have hsplit : archiveEntries openFile 0 files =
        (archiveEntries openFile 0 files).take i ++ (archiveEntries openFile 0 files).drop i :=
      (List.take_append_drop ..).symm
    have hcut : (archiveBytes files (archiveEntries openFile 0 files)).take k =
        ((archiveEntries openFile 0 files).take i).flatMap ArchiveEntry.bytes ++
          (((archiveEntries openFile 0 files).drop i).flatMap ArchiveEntry.bytes ++
            directoryBytes files (archiveEntries openFile 0 files)).take
              (k - entryStart (archiveEntries openFile 0 files) i) := by
      rw [archiveBytes]
      conv_lhs => rw [hsplit]
      rw [List.flatMap_append, List.append_assoc, List.take_append, List.take_of_length_le hstart]
      rw [List.take_append_drop]
      rfl
    have htail : ((((archiveEntries openFile 0 files).drop i).flatMap ArchiveEntry.bytes ++
        directoryBytes files (archiveEntries openFile 0 files)).take
          (k - entryStart (archiveEntries openFile 0 files) i)).length < 4 := by
      rw [List.length_take]
      omega
    rw [hcut] at hr
    have hrun := (runExtract_ends (fun e he => hsound e (List.mem_of_mem_take he)) hr
      (Or.inl htail) fs).1 fs' hrestore
    rw [hrun] at hok
    exact hlost (hok rfl)
  · intro hcut
    have hp : (archiveBytes files (archiveEntries openFile 0 files)).take k <+:
        (archiveEntries openFile 0 files).flatMap ArchiveEntry.bytes ++
          directoryBytes files (archiveEntries openFile 0 files) := List.take_prefix ..
    rcases prefix_entries_cases hp with ⟨q, hq, hqt⟩ | ⟨pre, e, post, q, hsplit, hq, hqe, hqne⟩
    · -- all entries are there
      rw [hq] at hr
      obtain ⟨hok, hfail⟩ := runExtract_ends hsound hr (endsEntries_of_cut hqt) fs
      cases hrestore : restoreArchive dest (archiveEntries openFile 0 files) fs with
      | none => exact (hfail hrestore).completeOrRefused
      | some fs' =>
        rw [hok fs' hrestore]
        exact ⟨fun _ => allRestored_of_restoreArchive hes hrestore, fun h => absurd rfl h⟩
    · have hpre : ∀ e ∈ pre, SoundEntry e := fun e' he' =>
        hsound e' (by rw [hsplit]; exact List.mem_append_left _ he')
      have he : SoundEntry e := hsound e (by simp [hsplit])
      rw [hq] at hr
      by_cases hlen : q.length < 4
      · obtain ⟨hok, hfail⟩ := runExtract_ends hpre hr (Or.inl hlen) fs
        cases hrestore : restoreArchive dest pre fs with
        | none => exact (hfail hrestore).completeOrRefused
        | some fs' =>
          rw [hok fs' hrestore]
          refine ⟨fun _ => by_contra fun hlost => hcut ⟨pre.length, ?_, ?_, ?_, fs', ?_, hlost⟩,
            fun h => absurd rfl h⟩
          · rw [← length_archiveEntries openFile files 0, hsplit]
            simp
          all_goals
            have htake : (archiveEntries openFile 0 files).take pre.length = pre := by
              rw [hsplit, List.take_left]
            have hklen : k = (pre.flatMap ArchiveEntry.bytes).length + q.length := by
              rw [← List.length_append, ← hq, List.length_take, min_eq_left hk.le]
          · rw [entryStart, htake]
            omega
          · rw [entryStart, htake]
            omega
          · rw [htake]
            exact hrestore
      · exact (runExtract_within hpre he hqe hqne (by omega) hr fs).completeOrRefused

/-! ## A cut that loses a file -/

/-- Two files of one byte each. -/
def twoFiles : List ZipFileEntry := [⟨"/part/a.bin", "a.bin", 1⟩, ⟨"/part/b.bin", "b.bin", 1⟩]

def openTwoFiles (path : String) : Except AnyError Reader :=
  if path = "/part/a.bin" then .ok ⟨[1], []⟩
  else if path = "/part/b.bin" then .ok ⟨[2], []⟩
  else .error ["No such file or directory"]

/-- The archive of the two files. -/
def twoFilesZip : Bytes := (zipOutput openTwoFiles twoFiles).2

theorem twoFilesZip_ok : zipOutput openTwoFiles twoFiles = (.ok 228, twoFilesZip) :=
  Prod.ext (by decide +kernel) rfl

/-- The second entry starts at 52; a stream that ends two bytes into its
signature restores the first file and reports success. -/
theorem restore_truncated_fails :
    zipOutput openTwoFiles twoFiles = (.ok 228, twoFilesZip) ∧ 54 < twoFilesZip.length ∧
      ¬ CompleteOrRefused openTwoFiles ["dst"] twoFiles
        (runExtract ["dst"] ⟨twoFilesZip.take 54, []⟩ Fs.empty) := by
  refine ⟨twoFilesZip_ok, by decide +kernel, fun h => ?_⟩
  have hall := h.1 (by decide +kernel) ⟨"/part/b.bin", "b.bin", 1⟩ (by simp [twoFiles])
  revert hall
  decide +kernel

theorem restore_truncated_iff_twoFiles :
    CompleteOrRefused openTwoFiles ["dst"] twoFiles
        (runExtract ["dst"] ⟨twoFilesZip.take 60, [.short 1]⟩ Fs.empty) ↔
      ¬ CutLosesFiles openTwoFiles ["dst"] twoFiles Fs.empty 60 :=
  restore_truncated_iff twoFilesZip_ok (by decide +kernel) ⟨rfl, by simp⟩ ["dst"] Fs.empty

end Chbk
