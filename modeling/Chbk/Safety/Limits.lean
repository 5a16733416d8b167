import Mathlib.Algebra.Order.Floor.Div
import Chbk.Safety.Multipart
import Chbk.Zip.RoundTrip

/-!
# The plan of a multipart upload and S3's limits

A part may be 5 MiB to 5 GiB long, and an upload may have 10,000 parts. The
chunk size is clamped to the first limit, but nothing looks at the second.

* `length_readChunks` — a stream is cut into as many chunks as it takes.
* `only_partsWithin` — an upload keeps to a number of parts exactly if its
  stream does.
* `plan_iff` — when the plan of an archive keeps to both limits.
-/

namespace Chbk

open Lib Prog

-- ---------------------------------------------------------------------------
-- Chunks of a stream
-- ---------------------------------------------------------------------------

/-- A buffer is filled from a stream that does not fail. -/
theorem fillBuffer_serves : ∀ {fuel k : Nat} {r : Reader} {bs : Bytes}, r.Serves bs → k ≤ fuel →
    ∃ r', fillBuffer fuel k r = (.ok (bs.take k), r') ∧ r'.Serves (bs.drop k)
  | 0, k, r, bs, h, hk => by
    obtain rfl : k = 0 := by omega
    exact ⟨r, by simp [fillBuffer], by simpa using h⟩
  | fuel + 1, k, r, bs, h, hk => by
    unfold fillBuffer
    by_cases hk0 : k = 0
    · rw [if_pos hk0, hk0]
      exact ⟨r, by simp, by simpa using h⟩
    · rw [if_neg hk0]
      obtain ⟨n, r₁, hread, hr₁, hpos, hn⟩ := Reader.read_serves h (Nat.pos_of_ne_zero hk0)
      rw [hread]
      -- the first `n` bytes come with this read
      cases htake : bs.take n with
      | nil =>
        have hnil : bs = [] := (List.take_eq_nil_iff.mp htake).resolve_left (by omega)
        exact ⟨r₁, by simp [hnil], by simpa [hnil] using hr₁⟩
      | cons b piece =>
        have hlen : piece.length + 1 ≤ n := by
          have := List.length_take_le n bs
          rw [htake, List.length_cons] at this
          exact this
        have hcut : bs.take (piece.length + 1) = b :: piece ∧
            bs.drop n = bs.drop (piece.length + 1) := by
          have htot := congrArg List.length htake
          rw [List.length_take, List.length_cons] at htot
          rcases Nat.le_total n bs.length with hle | hle
          · have hnlen : n = piece.length + 1 := by omega
            exact ⟨hnlen ▸ htake, by rw [hnlen]⟩
          · have hblen : bs.length = piece.length + 1 := by omega
            constructor
            · rw [← htake, List.take_of_length_le hle, List.take_of_length_le hblen.le]
            · rw [List.drop_of_length_le hle, List.drop_of_length_le hblen.le]
        have hfuel : k - (piece.length + 1) ≤ fuel := by omega
        obtain ⟨r₂, hrest, hr₂⟩ := fillBuffer_serves (hcut.2 ▸ hr₁) hfuel
        have hsplit : (piece.length + 1) + (k - (piece.length + 1)) = k := by omega
        refine ⟨r₂, ?_, ?_⟩
        · dsimp only
          rw [hrest]
          dsimp only
          rw [← hcut.1, ← List.take_add, hsplit]
        · rw [List.drop_drop, hsplit] at hr₂
          exact hr₂

/-- The reader task cuts a stream that does not fail into full chunks and a
rest. -/
theorem length_readChunks {chunkSize : Nat} (hc : 0 < chunkSize) :
    ∀ {fuel : Nat} {r : Reader} {bs : Bytes}, r.Serves bs → bs.length < fuel →
      ∃ chunks, readChunks chunkSize fuel r = (chunks, .ok ()) ∧
        chunks.length = bs.length ⌈/⌉ chunkSize
  | 0, r, bs, _, hf => absurd hf (Nat.not_lt_zero _)
  | fuel + 1, r, bs, h, hf => by
    obtain ⟨r', hfill, hr'⟩ := fillBuffer_serves h (le_refl chunkSize)
    unfold readChunks
    rw [hfill]
    dsimp only
    rcases Nat.eq_zero_or_pos bs.length with hnil | hpos
    · have hbs := List.length_eq_zero_iff.mp hnil
      refine ⟨[], ?_, ?_⟩
      · simp [hbs]
      · rw [hnil, List.length_nil]
        exact (zero_ceilDiv chunkSize).symm
    have hne : (bs.take chunkSize).isEmpty = false := by
      rw [List.isEmpty_eq_false_iff, ne_eq, List.take_eq_nil_iff]
      intro h
      rcases h with h | h
      · omega
      · rw [h] at hpos
        exact absurd hpos (Nat.lt_irrefl 0)
    rw [hne, if_neg (by decide), List.length_take]
    rw [Nat.ceilDiv_eq_add_pred_div]
    by_cases hshort : bs.length < chunkSize
    · rw [if_pos (by omega)]
      refine ⟨_, rfl, ?_⟩
      rw [List.length_singleton]
      exact (Nat.div_eq_of_lt_le (by omega) (by omega)).symm
    · rw [if_neg (by omega)]
      have hless : (bs.drop chunkSize).length < fuel := by
        rw [List.length_drop]
        omega
      obtain ⟨chunks, hchunks, hlen⟩ := length_readChunks hc hr' hless
      rw [hchunks]
      refine ⟨_, rfl, ?_⟩
      rw [List.length_cons, hlen, List.length_drop, Nat.ceilDiv_eq_add_pred_div,
        show bs.length + chunkSize - 1 = (bs.length - chunkSize + chunkSize - 1) + chunkSize by omega,
        Nat.add_div_right _ hc]

-- ---------------------------------------------------------------------------
-- Parts of an upload
-- ---------------------------------------------------------------------------

/-- No part has a number above `n`. -/
def PartsWithin (n : Nat) : Op → Prop
  | .s3 (.uploadPart _ _ partNumber _) => partNumber ≤ n
  | .s3 (.completeMultipartUpload _ _ parts) => ∀ partNumber ∈ parts, partNumber ≤ n
  | _ => True

theorem only_s3Retry {S : Op → Prop} {o : S3Op} (h : S (.s3 o)) : Only S (s3Retry o) := by
  refine Only.bind (only_withRetryFrom (fun _ => ?_) _ _) fun r => only_liftP r
  exact Only.bind (only_ask h) fun _ => only_pure _

/-- The first attempt of a request with retries is that request. -/
theorem s3Retry_only {S : Op → Prop} {o : S3Op} (h : Only S (s3Retry o)) : S (.s3 o) := by
  have hattempts := (only_bind_iff.mp h).1
  unfold withRetry withRetryFrom at hattempts
  exact (only_bind_iff.mp (only_bind_iff.mp hattempts).1).1.1

theorem mem_numberChunks {cs : List Bytes} {k n : Nat} {data : Bytes}
    (h : (n, data) ∈ numberChunks k cs) : n < k + cs.length := by
  have hmem : n ∈ (numberChunks k cs).map Prod.fst := List.mem_map.mpr ⟨_, h, rfl⟩
  rw [map_fst_numberChunks, List.mem_range'_1] at hmem
  exact hmem.2

variable {storage : Storage} {key : String} {reader : Reader} {expectedSize n : Nat}

/-- What the part uploads return carries the numbers of their parts. -/
theorem map_fst_of_collect {id : UploadId} :
    ∀ {parts : List (Nat × Bytes)} {results : List (Nat × Nat)},
      CanReturn (collect (uploadOnePart key id) parts) results →
      results.map Prod.fst = parts.map Prod.fst
  | [], results, h => by
    obtain rfl := canReturn_pure.mp h
    rfl
  | part :: parts, results, h => by
    obtain ⟨c, hc, h⟩ := canReturn_bind.mp h
    obtain ⟨cs, hcs, h⟩ := canReturn_bind.mp h
    obtain rfl := canReturn_pure.mp h
    obtain ⟨_, _, hc⟩ := canReturn_bind.mp hc
    obtain rfl := canReturn_pure.mp hc
    rw [List.map_cons, List.map_cons, map_fst_of_collect hcs]

/-- An upload keeps to `n` parts, whatever is answered, exactly if the stream is
cut into no more. -/
theorem only_partsWithin {bs : Bytes} (hserves : reader.Serves bs)
    (hc : 0 < computeChunkSize (max expectedSize 1) storage.minChunkSize storage.maxChunkSize
      storage.targetParts) :
    Only (PartsWithin n) (putObjectMultipartReader storage key reader expectedSize) ↔
      bs.length ≤ computeChunkSize (max expectedSize 1) storage.minChunkSize storage.maxChunkSize
        storage.targetParts * n := by
  obtain ⟨chunks, hread, hlen⟩ := length_readChunks hc hserves
    (show bs.length < reader.rest.length + 1 by rw [hserves.rest]; omega)
  rw [← ceilDiv_le_iff_le_mul hc, ← hlen]
  constructor
  · intro h
    unfold putObjectMultipartReader at h
    have hinner := (only_bind_iff.mp ((only_bind_iff.mp h).2 0
      (canReturn_s3Retry (o := .createMultipartUpload key) 0).mapFail)).1
    rw [only_attempt_iff] at hinner
    simp only [putObjectMultipartReaderInner, hread] at hinner
    have hparts := (only_bind_iff.mp ((only_bind_iff.mp hinner).2 [] (canReturn_ask _))).1
    -- the last chunk is uploaded, once those before it are
    by_contra hmore
    have hlast : chunks.length ∈ (numberChunks 1 chunks).map Prod.fst := by
      rw [map_fst_numberChunks, List.mem_range'_1]
      omega
    obtain ⟨part, hpart, hnumber⟩ := List.mem_map.mp hlast
    have hmem : part ∈ reorder [] (numberChunks 1 chunks) := mem_reorder.mpr hpart
    obtain ⟨pre, post, hsplit⟩ := List.append_of_mem hmem
    have hupload := only_collect_iff.mp hparts pre part post hsplit
      fun x _ => ⟨_, canReturn_uploadOnePart key 0 x⟩
    have hle := s3Retry_only (only_bind_iff.mp hupload).1
    exact hmore (hnumber ▸ hle)
  · intro h
    unfold putObjectMultipartReader
    refine Only.bind (only_s3Retry trivial).mapFail fun id => ?_
    refine Only.bind (Only.attempt ?_) fun x => ?_
    · simp only [putObjectMultipartReaderInner, hread]
      refine only_bind_iff.mpr ⟨only_ask trivial, fun order _ => ?_⟩
      refine only_bind_iff.mpr ⟨only_collect fun part hpart => ?_, fun results hresults => ?_⟩
      · have hlt := mem_numberChunks (mem_reorder.mp hpart)
        refine Only.bind (only_s3Retry (show part.1 ≤ n by omega)) fun _ => only_pure _
      · refine Only.bind (only_liftP _) fun _ => ?_
        refine Only.bind (only_s3Retry ?_).mapFail fun _ => only_pure _
        intro number hnumber
        rw [(List.perm_insertionSort _ _).mem_iff, map_fst_of_collect hresults] at hnumber
        obtain ⟨part, hpart, rfl⟩ := List.mem_map.mp hnumber
        have hlt := mem_numberChunks (mem_reorder.mp hpart)
        omega
    · cases x with
      | ok total => exact only_pure _
      | error e => exact Only.bind (only_ask trivial) fun _ => only_throw _

-- ---------------------------------------------------------------------------
-- The plan of an archive
-- ---------------------------------------------------------------------------

/-- The chunk size of an upload. -/
def Storage.chunkSize (storage : Storage) (expectedSize : Nat) : Nat :=
  computeChunkSize (max expectedSize 1) storage.minChunkSize storage.maxChunkSize
    storage.targetParts

/-- An upload of a stream keeps to S3's limits: parts of 5 MiB to 5 GiB, and no
part above the ten thousandth. -/
structure WithinLimits (storage : Storage) (key : String) (reader : Reader) (expectedSize : Nat) :
    Prop where
  chunk_ge : 5 * 2 ^ 20 ≤ storage.chunkSize expectedSize
  chunk_le : storage.chunkSize expectedSize ≤ 5 * 2 ^ 30
  parts : Only (PartsWithin 10000) (putObjectMultipartReader storage key reader expectedSize)

/-- The chunk size is within its limits whatever the settings are. -/
theorem chunkSize_bounds (minSize maxSize target concurrency expectedSize : Nat) :
    5 * 2 ^ 20 ≤ (Storage.new minSize maxSize target concurrency).chunkSize expectedSize ∧
      (Storage.new minSize maxSize target concurrency).chunkSize expectedSize ≤ 5 * 2 ^ 30 := by
  simp only [Storage.chunkSize, computeChunkSize, Storage.new, MULTIPART_MIN_CHUNK,
    MULTIPART_MAX_CHUNK]
  omega

/-- How large a stream the plan of an upload has the parts for. -/
theorem withinLimits_iff {minSize maxSize target concurrency : Nat} {bs : Bytes}
    (hserves : reader.Serves bs) (hsize : bs.length ≤ 5 * 2 ^ 40) :
    WithinLimits (Storage.new minSize maxSize target concurrency) key reader expectedSize ↔
      bs.length ≤ max minSize (5 * 2 ^ 20) * 10000 ∨
        bs.length ≤ maxSize * 10000 ∧ bs.length ≤ expectedSize / max target 1 * 10000 := by
  obtain ⟨hge, hle⟩ := chunkSize_bounds minSize maxSize target concurrency expectedSize
  have hparts : Only (PartsWithin 10000)
      (putObjectMultipartReader (Storage.new minSize maxSize target concurrency) key reader
        expectedSize) ↔
      bs.length ≤ (Storage.new minSize maxSize target concurrency).chunkSize expectedSize * 10000 :=
    only_partsWithin hserves (by
      show 0 < (Storage.new minSize maxSize target concurrency).chunkSize expectedSize
      omega)
  -- an estimate of nothing is taken for one byte
  have hquot : max expectedSize 1 / max target 1 = expectedSize / max target 1 ∨
      max expectedSize 1 / max target 1 ≤ 1 ∧ expectedSize = 0 := by
    rcases Nat.eq_zero_or_pos expectedSize with h0 | hpos
    · right
      rw [h0]
      exact ⟨Nat.div_le_self .., rfl⟩
    · left
      rw [Nat.max_eq_left hpos]
  have hchunk : bs.length ≤ (Storage.new minSize maxSize target concurrency).chunkSize expectedSize
        * 10000 ↔
      bs.length ≤ max minSize (5 * 2 ^ 20) * 10000 ∨
        bs.length ≤ maxSize * 10000 ∧ bs.length ≤ expectedSize / max target 1 * 10000 := by
    simp only [Storage.chunkSize, computeChunkSize, Storage.new, MULTIPART_MIN_CHUNK,
      MULTIPART_MAX_CHUNK, Nat.max_assoc, Nat.max_self]
    rcases hquot with hquot | ⟨hquot, h0⟩
    · rw [hquot]
      omega
    · rw [h0, Nat.zero_div]
      rw [h0] at hquot
      omega
  rw [← hchunk, ← hparts]
  exact ⟨fun h => h.parts, fun h => ⟨hge, hle, h⟩⟩

/-- The plan of an archive of up to 5 TiB keeps to S3's limits exactly if the
least chunks are large enough, or both the largest chunks and the chunks for the
estimated size are. -/
theorem plan_iff {minSize maxSize target concurrency : Nat} {key : String}
    {files : List ZipFileEntry} {openFile : String → Except AnyError Reader} {cuts : List Nat}
    (hsize : (zipOutput openFile files).2.length ≤ 5 * 2 ^ 40) :
    WithinLimits (Storage.new minSize maxSize target concurrency) key
        ⟨(zipOutput openFile files).2, cuts.map Cut.short⟩ (estimateZipSize files).toNat ↔
      (zipOutput openFile files).2.length ≤ max minSize (5 * 2 ^ 20) * 10000 ∨
        (zipOutput openFile files).2.length ≤ maxSize * 10000 ∧
        (zipOutput openFile files).2.length ≤
          (estimateZipSize files).toNat / max target 1 * 10000 :=
  withinLimits_iff ⟨rfl, by simp⟩ hsize

/-- A file of 5,400,000,000,000 bytes. -/
def terabytes : ZipFileEntry := ⟨"/part/data.bin", "data.bin", 5400000000000⟩

def terabytesData : Bytes := List.replicate 5400000000000 0

def openTerabytes (_ : String) : Except AnyError Reader := .ok ⟨terabytesData, []⟩

theorem length_terabytesData : terabytesData.length = terabytes.size.toNat :=
  List.length_replicate ..

theorem written_terabytes :
    WrittenEntry openTerabytes 0 terabytes ⟨"data.bin", terabytesData, true⟩ where
  name := by decide +kernel
  nameLen := by decide +kernel
  data := ⟨_, rfl, (List.take_of_length_le length_terabytesData.le).symm⟩
  size := length_terabytesData
  zip64 := by decide +kernel

theorem length_endRecordsBytes_le (fileCount : Nat) (centralDirOffset centralDirSize : UInt64) :
    (endRecordsBytes fileCount centralDirOffset centralDirSize).length ≤ 98 := by
  rw [length_endRecordsBytes]
  split_ifs <;> omega

/-- The archive of a large file is little longer than the file. -/
theorem length_archiveBytes_terabytes :
    5400000000000 ≤ (archiveBytes [terabytes] [⟨"data.bin", terabytesData, true⟩]).length ∧
      (archiveBytes [terabytes] [⟨"data.bin", terabytesData, true⟩]).length ≤ 5400000001000 := by
  have hname : (utf8 "data.bin").length = 8 := by decide +kernel
  have hdata : terabytesData.length = 5400000000000 := List.length_replicate ..
  have hentry : (ArchiveEntry.bytes ⟨"data.bin", terabytesData, true⟩).length =
      5400000000000 + 82 := by
    simp [ArchiveEntry.bytes, ArchiveEntry.body, localHeaderBytes, headerSizes, localExtra,
      descriptorBytes, buildZip64ExtraLocal, hname, hdata]
  have hdir : (centralDirectoryBytes
      (centralsOf 0 [terabytes] [⟨"data.bin", terabytesData, true⟩])).length = 82 := by
    simp [centralDirectoryBytes, centralsOf, centralOf, centralHeaderBytes, headerSizes,
      centralOffset, centralExtra, buildZip64ExtraCentral, hname]
  have hend := length_endRecordsBytes_le 1 (nextOffset 0 terabytes)
    (centralEnd (nextOffset 0 terabytes)
      (centralsOf 0 [terabytes] [⟨"data.bin", terabytesData, true⟩]) - nextOffset 0 terabytes)
  have hlen : (archiveBytes [terabytes] [⟨"data.bin", terabytesData, true⟩]).length =
      (ArchiveEntry.bytes ⟨"data.bin", terabytesData, true⟩).length +
        ((centralDirectoryBytes
          (centralsOf 0 [terabytes] [⟨"data.bin", terabytesData, true⟩])).length +
        (endRecordsBytes 1 (nextOffset 0 terabytes) (centralEnd (nextOffset 0 terabytes)
          (centralsOf 0 [terabytes] [⟨"data.bin", terabytesData, true⟩]) -
            nextOffset 0 terabytes)).length) := by
    rw [archiveBytes, directoryBytes, List.length_append, List.length_append]
    simp [centralsOf]
  omega

theorem zipOutput_terabytes : ∃ n, zipOutput openTerabytes [terabytes] =
    (.ok n, archiveBytes [terabytes] [⟨"data.bin", terabytesData, true⟩]) := by
  have hwritten : Written openTerabytes 0 [terabytes] [⟨"data.bin", terabytesData, true⟩] :=
    And.intro written_terabytes rfl
  refine ⟨_, zipOutput_written hwritten fun f _ r hr => ?_⟩
  cases hr
  exact List.not_mem_nil

/-- Its archive, in 9,000 chunks by the estimate, of 1 GiB at most. -/
theorem plan_iff_terabytes :
    WithinLimits (Storage.new (16 * 2 ^ 20) (1024 * 2 ^ 20) 9000 4) "k"
      ⟨(zipOutput openTerabytes [terabytes]).2, [].map Cut.short⟩
      (estimateZipSize [terabytes]).toNat := by
  obtain ⟨n, hzip⟩ := zipOutput_terabytes
  obtain ⟨hge, hle⟩ := length_archiveBytes_terabytes
  have hlength : (zipOutput openTerabytes [terabytes]).2.length ≤ 5400000001000 := by
    rw [hzip]
    exact hle
  have hestimate : 5400000000000 ≤ (estimateZipSize [terabytes]).toNat := by decide +kernel
  have hchunks : 600000000 ≤ (estimateZipSize [terabytes]).toNat / max 9000 1 :=
    (Nat.le_div_iff_mul_le (by decide)).mpr hestimate
  refine (plan_iff ?_).mpr (.inr ⟨?_, ?_⟩)
  · omega
  · omega
  · calc (zipOutput openTerabytes [terabytes]).2.length
      _ ≤ 600000000 * 10000 := by omega
      _ ≤ _ := Nat.mul_le_mul_right 10000 hchunks

/-- With the default settings, an archive below 5 TiB takes more than ten
thousand parts. -/
theorem plan_exceeds : ∃ n bytes, zipOutput openTerabytes [terabytes] = (.ok n, bytes) ∧
    bytes.length ≤ 5 * 2 ^ 40 ∧
    ¬ WithinLimits (Storage.new (16 * 2 ^ 20) (512 * 2 ^ 20) 128 4) "k" ⟨bytes, []⟩
      (estimateZipSize [terabytes]).toNat := by
  obtain ⟨n, hzip⟩ := zipOutput_terabytes
  obtain ⟨hge, hle⟩ := length_archiveBytes_terabytes
  have hsize : (archiveBytes [terabytes] [⟨"data.bin", terabytesData, true⟩]).length ≤
      5 * 2 ^ 40 := by omega
  have hserves : Reader.Serves ⟨archiveBytes [terabytes] [⟨"data.bin", terabytesData, true⟩], []⟩
      (archiveBytes [terabytes] [⟨"data.bin", terabytesData, true⟩]) := ⟨rfl, by simp⟩
  refine ⟨_, _, hzip, hsize, ?_⟩
  rw [withinLimits_iff hserves hsize]
  omega

end Chbk
