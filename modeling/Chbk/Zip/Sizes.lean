import Chbk.Zip.Central

/-!
# The size of an archive

Two computations of it are compared with the stream: what `write_zip` counts
while it writes, and what `estimate_zip_size` expects beforehand. The estimate
knows the sizes of the files but not where their entries start, so it takes
every small entry for a plain one.

* `length_layout` — the lengths of all entries and records, by the estimate.
* `archiveEnd_toNat` — the writer counts what it emits, in 64 bits.
* `zip_size_accounted` — both, for a writer that ends well.
* `zip_size_wraps` — two files of 8 EiB.
-/

namespace Chbk

open Lib

-- ---------------------------------------------------------------------------
-- The estimate and the layout
-- ---------------------------------------------------------------------------

/-- A small entry behind the first 4 GiB. -/
def late (size pos : Nat) : Bool := size ≤ U32_MAX && U32_MAX < pos

theorem estimateEntrySize_eq (f : ZipFileEntry) :
    estimateEntrySize f = 76 + 2 * (utf8 (zipName f)).length + f.size.toNat +
      if f.size.toNat > U32_MAX then 72 else 16 := by
  unfold estimateEntrySize zipName
  cases pathToZipName f.relPath with
  | ok s =>
    dsimp only
    split_ifs
    · omega
    · omega
  | error e =>
    have hempty : (utf8 "").length = 0 := by decide +kernel
    dsimp only
    split_ifs
    · omega
    · omega

/-- An entry and its central record take what is expected of them, and 56 bytes
more where the ZIP64 layout comes from the place alone. -/
theorem localLength_add_centralLength (pos : Nat) (f : ZipFileEntry) :
    localLength pos f + centralLength pos f =
      estimateEntrySize f + if late f.size.toNat pos then 56 else 0 := by
  rw [estimateEntrySize_eq]
  unfold localLength centralLength layoutZip64 late
  by_cases hsize : f.size.toNat > U32_MAX
  · have hlarge : ¬ f.size.toNat ≤ U32_MAX := by omega
    simp only [hsize, hlarge, decide_true, decide_false, Bool.true_or, Bool.false_and,
      Bool.false_eq_true, if_true, if_false]
    omega
  · have hsmall : f.size.toNat ≤ U32_MAX := by omega
    simp only [hsize, hsmall, decide_true, decide_false, Bool.false_or, Bool.true_and, if_false,
      gt_iff_lt]
    split_ifs
    · omega
    · omega

/-- The lengths of all entries and all central records. -/
theorem length_layout : ∀ (pos : Nat) (files : List ZipFileEntry),
    layoutEnd pos files + ((localLayout pos files).map fun x => centralLength x.1 x.2).sum =
      pos + (files.map estimateEntrySize).sum +
        56 * (localLayout pos files).countP fun x => late x.2.size.toNat x.1
  | _, [] => rfl
  | pos, f :: fs => by
    have hentry := localLength_add_centralLength pos f
    have hrest := length_layout (pos + localLength pos f) fs
    rw [layoutEnd, localLayout, List.map_cons, List.map_cons, List.sum_cons, List.sum_cons,
      List.countP_cons]
    dsimp only
    split_ifs at hentry ⊢
    · omega
    · omega

-- ---------------------------------------------------------------------------
-- What the writer counts
-- ---------------------------------------------------------------------------

/-- The offset behind the entries, in 64 bits. -/
theorem Written.foldl_nextOffset {openFile : String → Except AnyError Reader} :
    ∀ {files : List ZipFileEntry} {offset : UInt64} {es : List ArchiveEntry},
      Written openFile offset files es →
      (files.foldl nextOffset offset).toNat =
        (offset.toNat + (es.flatMap ArchiveEntry.bytes).length) % 2 ^ 64
  | [], offset, es, h => by
    obtain rfl : es = [] := h
    exact (Nat.mod_eq_of_lt offset.toNat_lt).symm
  | f :: fs, offset, e :: es, h => by
    rw [List.foldl_cons, h.2.foldl_nextOffset, nextOffset_toNat, List.flatMap_cons,
      List.length_append, h.1.length_bytes]
    omega

/-- The offset behind the central directory, in 64 bits. -/
theorem centralEnd_toNat_mod : ∀ (cs : List CentralEntry) (offset : UInt64),
    (centralEnd offset cs).toNat = (offset.toNat + (centralDirectoryBytes cs).length) % 2 ^ 64
  | [], offset => (Nat.mod_eq_of_lt offset.toNat_lt).symm
  | c :: cs, offset => by
    have h46 : (46 : UInt64).toNat = 46 := rfl
    rw [centralEnd, List.foldl_cons, ← centralEnd, centralEnd_toNat_mod cs,
      length_centralDirectoryBytes, length_centralDirectoryBytes, List.map_cons, List.sum_cons]
    simp only [UInt64.toNat_add, UInt64.toNat_ofNat', h46]
    omega

/-- **The writer counts what it emits, in 64 bits.** -/
theorem archiveEnd_toNat {openFile : String → Except AnyError Reader} {files : List ZipFileEntry}
    {es : List ArchiveEntry} (h : Written openFile 0 files es) :
    (archiveEnd files es).toNat = (archiveBytes files es).length % 2 ^ 64 := by
  have hentries := h.foldl_nextOffset
  have hcentral := centralEnd_toNat_mod (centralsOf 0 files es) (files.foldl nextOffset 0)
  have h0 : (0 : UInt64).toNat = 0 := rfl
  have h20 : (20 : UInt64).toNat = 20 := rfl
  have h22 : (22 : UInt64).toNat = 22 := rfl
  have h56 : (56 : UInt64).toNat = 56 := rfl
  rw [archiveBytes, directoryBytes, List.length_append, List.length_append, length_endRecordsBytes]
  unfold archiveEnd
  dsimp only
  split_ifs
  · rw [UInt64.toNat_add, UInt64.toNat_add, UInt64.toNat_add]
    omega
  · rw [UInt64.toNat_add]
    omega

-- ---------------------------------------------------------------------------
-- The accounts of an archive
-- ---------------------------------------------------------------------------

/-- The small entries behind the first 4 GiB, as they stand in the stream. -/
def lateEntries (es : List ArchiveEntry) : List DirEntry :=
  (trueEntries 0 es).filter fun d => late d.uncompressedSize d.localHeaderOffset

/-- The parts of an archive: the entries, the central directory, a ZIP64 end
record with its locator if there is one, and the end record. -/
def archiveParts (files : List ZipFileEntry) (es : List ArchiveEntry) (zip64 : Bool)
    (offset size : UInt64) : Bytes :=
  es.flatMap ArchiveEntry.bytes ++ (centralDirectoryBytes (centralsOf 0 files es) ++
    ((if zip64 then
        leBytes 4 ZIP64_END_OF_CENTRAL_DIR_SIG ++ zip64EndBytes files.length offset size
      else []) ++
      (leBytes 4 ZIP_END_OF_CENTRAL_DIR_SIG ++ endBytes zip64 files.length offset size)))

/-- What the estimate leaves out: 56 bytes for every late entry, and 76 for a
ZIP64 end record where the files are few. -/
structure SizeAccount (files : List ZipFileEntry) (es : List ArchiveEntry) (zip64 : Bool)
    (bytes : Bytes) : Prop where
  sum : bytes.length = (estimateZipSize files).toNat + 56 * (lateEntries es).length +
    76 * if zip64 && files.length ≤ U16_MAX then 1 else 0
  le : (estimateZipSize files).toNat ≤ bytes.length
  exact : (es.flatMap ArchiveEntry.bytes).length +
      (centralDirectoryBytes (centralsOf 0 files es)).length < 2 ^ 32 →
    (estimateZipSize files).toNat = bytes.length

/-- The late entries of the stream are those of the layout. -/
theorem Placed.length_lateEntries {files : List ZipFileEntry} {es : List ArchiveEntry}
    (h : Placed 0 0 files es) : (lateEntries es).length =
      (localLayout 0 files).countP fun x => late x.2.size.toNat x.1 := by
  have hplaces := congrArg (List.countP fun y : Nat × UInt64 × Bytes => late y.2.1.toNat y.1) h.places
  rw [List.countP_map, List.countP_map] at hplaces
  rw [lateEntries, h.entries, ← List.countP_eq_length_filter, List.countP_map]
  exact hplaces

/-- An archive is its parts. -/
theorem Written.archiveBytes_eq {openFile : String → Except AnyError Reader}
    {files : List ZipFileEntry} {es : List ArchiveEntry} (h : Written openFile 0 files es) :
    ∃ zip64 offset size, archiveBytes files es = archiveParts files es zip64 offset size ∧
      zip64 = needsZip64Eocd files.length offset size ∧
      offset = files.foldl nextOffset 0 ∧
      size = centralEnd offset (centralsOf 0 files es) - offset := by
  obtain ⟨hcentrals, hfiles⟩ := length_centralsOf h
  refine ⟨_, _, _, ?_, rfl, rfl, rfl⟩
  unfold archiveBytes directoryBytes archiveParts endRecordsBytes
  dsimp only
  rw [hcentrals, ← hfiles]
  split_ifs with hz
  · rw [hz]
  · rw [Bool.eq_false_iff.mpr hz]
    rfl

/-- Every entry starts before the last one ends. -/
theorem le_layoutEnd_of_mem : ∀ {pos : Nat} {files : List ZipFileEntry} {x : Nat × ZipFileEntry},
    x ∈ localLayout pos files → x.1 ≤ layoutEnd pos files
  | _, [], _, hx => by simp [localLayout] at hx
  | pos, f :: fs, x, hx => by
    rcases List.mem_cons.mp hx with rfl | hx
    · exact le_layoutEnd pos (f :: fs)
    · exact @le_layoutEnd_of_mem (pos + localLength pos f) fs x hx

/-- The end of an archive takes 76 bytes more than the estimate allows for
exactly if it has a ZIP64 record that the count does not ask for. -/
theorem endSize_eq (fileCount : Nat) (offset size : UInt64) :
    (if needsZip64Eocd fileCount offset size then 76 else 0) =
      (if fileCount > U16_MAX then 76 else 0) +
        76 * if needsZip64Eocd fileCount offset size && fileCount ≤ U16_MAX then 1 else 0 := by
  by_cases hmany : fileCount > U16_MAX
  · have hfew : ¬ fileCount ≤ U16_MAX := by omega
    have hz : needsZip64Eocd fileCount offset size = true := by
      simp [needsZip64Eocd, hmany]
    simp [hz, hmany, hfew]
  · have hfew : fileCount ≤ U16_MAX := by omega
    simp only [hmany, hfew, if_false, decide_true, Bool.and_true]
    split_ifs <;> rfl

/-- An archive below `2 ^ 64` bytes is accounted for. -/
theorem Written.sizeAccount {openFile : String → Except AnyError Reader}
    {files : List ZipFileEntry} {es : List ArchiveEntry} (hw : Written openFile 0 files es)
    (hfits : (archiveBytes files es).length < 2 ^ 64) :
    ∃ zip64 offset size, archiveBytes files es = archiveParts files es zip64 offset size ∧
      SizeAccount files es zip64 (archiveBytes files es) := by
  obtain ⟨zip64, offset, size, hparts, hzip64, hoffset, hsize⟩ := hw.archiveBytes_eq
  have h0 : (0 : UInt64).toNat = 0 := rfl
  -- the three parts of the length
  have hlength : (archiveBytes files es).length = (es.flatMap ArchiveEntry.bytes).length +
      ((centralDirectoryBytes (centralsOf 0 files es)).length +
        ((if zip64 then 76 else 0) + 22)) := by
    obtain ⟨hcentrals, hfiles⟩ := length_centralsOf hw
    rw [archiveBytes, directoryBytes, List.length_append, List.length_append,
      length_endRecordsBytes, hcentrals, ← hfiles, ← hoffset, ← hsize, ← hzip64]
  have hp : Placed 0 0 files es := hw.placed (Or.inl (by rw [h0]; omega))
  have hentries : (es.flatMap ArchiveEntry.bytes).length = layoutEnd 0 files := by
    have := hp.length
    omega
  have hcentral := hp.length_directory hw
  have hlayout := length_layout 0 files
  rw [← directorySize, ← hp.length_lateEntries, ← hentries, ← hcentral] at hlayout
  have hend := endSize_eq files.length offset size
  rw [← hzip64] at hend
  -- the estimate does not wrap, as it is not above the length
  have hestimate : (estimateZipSize files).toNat = (files.map estimateEntrySize).sum + 22 +
      if files.length > U16_MAX then 76 else 0 := by
    change (UInt64.ofNat ((files.map estimateEntrySize).sum + 22 +
      if files.length > U16_MAX then 76 else 0)).toNat = _
    rw [UInt64.toNat_ofNat', Nat.mod_eq_of_lt]
    omega
  have hsum : (archiveBytes files es).length = (estimateZipSize files).toNat +
      56 * (lateEntries es).length + 76 * if zip64 && files.length ≤ U16_MAX then 1 else 0 := by
    omega
  refine ⟨zip64, offset, size, hparts, hsum, by omega, ?_⟩
  intro hsmall
  have hlate : (lateEntries es).length = 0 := by
    rw [hp.length_lateEntries, List.countP_eq_zero]
    intro x hx
    have hle := le_layoutEnd_of_mem hx
    have hearly : ¬ U32_MAX < x.1 := by
      unfold U32_MAX
      omega
    simp [late, hearly]
  have hoffsetNat : offset.toNat = (es.flatMap ArchiveEntry.bytes).length := by
    rw [hoffset, hp.ends, hentries]
  have hsizeNat : size.toNat = (centralDirectoryBytes (centralsOf 0 files es)).length := by
    have hends := centralEnd_toNat (centralsOf 0 files es) offset (by omega)
    rw [hsize, UInt64.toNat_sub_of_le _ _ (UInt64.le_iff_toNat_le.mpr (by omega))]
    omega
  have hfew : (zip64 && decide (files.length ≤ U16_MAX)) = false := by
    have hplain : ¬ offset.toNat > U32_MAX ∧ ¬ size.toNat > U32_MAX := by
      unfold U32_MAX
      omega
    by_cases hcount : files.length > U16_MAX
    · simp [not_le.mpr hcount]
    · simp [hzip64, needsZip64Eocd, hcount, hplain]
  rw [hfew, hlate] at hsum
  simpa using hsum.symm

/-- **The size that `write_zip` returns is the number of bytes it emitted, modulo
`2 ^ 64`; below that, it is the estimate with 56 bytes for every late entry and
76 for a ZIP64 end record where the files are few.** -/
theorem zip_size_accounted {openFile : String → Except AnyError Reader} {files : List ZipFileEntry}
    {n : UInt64} {bytes : Bytes} (h : zipOutput openFile files = (.ok n, bytes)) :
    n.toNat = bytes.length % 2 ^ 64 ∧
      (bytes.length < 2 ^ 64 → n.toNat = bytes.length ∧
        ∃ es zip64 offset size, Written openFile 0 files es ∧
          bytes = archiveParts files es zip64 offset size ∧ SizeAccount files es zip64 bytes) := by
  obtain ⟨hw, rfl, rfl⟩ := zipOutput_ends h
  have hreturned := archiveEnd_toNat hw
  refine ⟨hreturned, fun hfits => ⟨?_, ?_⟩⟩
  · rw [hreturned, Nat.mod_eq_of_lt hfits]
  · obtain ⟨zip64, offset, size, hparts, haccount⟩ := hw.sizeAccount hfits
    exact ⟨_, zip64, offset, size, hw, hparts, haccount⟩

theorem zip_size_accounted_twoFiles :
    (UInt64.ofNat twoFilesZip.length).toNat = twoFilesZip.length % 2 ^ 64 ∧
      (twoFilesZip.length < 2 ^ 64 →
        (UInt64.ofNat twoFilesZip.length).toNat = twoFilesZip.length ∧
        ∃ es zip64 offset size, Written openTwoFiles 0 twoFiles es ∧
          twoFilesZip = archiveParts twoFiles es zip64 offset size ∧
          SizeAccount twoFiles es zip64 twoFilesZip) :=
  zip_size_accounted (by decide +kernel)

/-- Two files of `2 ^ 63 - 1` bytes, the most a file can have. -/
def wideFiles : List ZipFileEntry :=
  [⟨"/part/a.bin", "a.bin", 9223372036854775807⟩, ⟨"/part/b.bin", "b.bin", 9223372036854775807⟩]

def wideData : Bytes := List.replicate 9223372036854775807 0

def openWide (_ : String) : Except AnyError Reader := .ok ⟨wideData, []⟩

def wideEntries : List ArchiveEntry := [⟨"a.bin", wideData, true⟩, ⟨"b.bin", wideData, true⟩]

theorem length_wideData : wideData.length = 9223372036854775807 := List.length_replicate ..

theorem written_wideFiles : Written openWide 0 wideFiles wideEntries := by
  have hdata : wideData = wideData.take 9223372036854775807 :=
    (List.take_of_length_le length_wideData.le).symm
  refine ⟨⟨by decide +kernel, by decide +kernel, ⟨_, rfl, hdata⟩, length_wideData, ?_⟩,
    ⟨by decide +kernel, by decide +kernel, ⟨_, rfl, hdata⟩, length_wideData, ?_⟩, rfl⟩
  · decide +kernel
  · decide +kernel

/-- The size of an archive of `2 ^ 64` bytes or more is not what is returned. -/
theorem zip_size_wraps : ∃ n bytes, zipOutput openWide wideFiles = (.ok n, bytes) ∧
    n.toNat ≠ bytes.length := by
  have hzip := zipOutput_written written_wideFiles fun f _ r hr => by
    cases hr
    exact List.not_mem_nil
  refine ⟨_, _, hzip, ?_⟩
  have hlong : 2 ^ 64 ≤ (archiveBytes wideFiles wideEntries).length := by
    obtain ⟨ha, hb, -⟩ := written_wideFiles
    have hlocal : ∀ pos, ∀ f ∈ wideFiles, 30 + 9223372036854775807 ≤ localLength pos f := by
      intro pos f hf
      have hsize : f.size.toNat = 9223372036854775807 := by
        rcases List.mem_pair.mp hf with rfl | rfl <;> rfl
      rw [localLength, hsize]
      omega
    have hla : 30 + 9223372036854775807 ≤
        (ArchiveEntry.bytes ⟨"a.bin", wideData, true⟩).length := by
      rw [ha.length_bytes]
      exact hlocal _ _ (List.mem_cons_self ..)
    have hlb : 30 + 9223372036854775807 ≤
        (ArchiveEntry.bytes ⟨"b.bin", wideData, true⟩).length := by
      rw [hb.length_bytes]
      exact hlocal _ _ (List.mem_cons_of_mem _ (List.mem_cons_self ..))
    rw [archiveBytes, wideEntries, List.flatMap_cons, List.flatMap_cons, List.length_append,
      List.length_append, List.length_append]
    omega
  have hlt := (archiveEnd wideFiles wideEntries).toNat_lt
  omega

end Chbk
