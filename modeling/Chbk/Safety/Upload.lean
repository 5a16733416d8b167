import Chbk.Safety.Backup

/-!
# The upload of one stream

The chunks of a stream are the stream (`readChunks_flatten`), the parts are
numbered from 1 on and each number is used once, so a completed upload holds the
whole of what its stream held.

* `backs_putObjectMultipartReader` — an upload that returns has put the ZIP
  stream it was given under its key.
-/

namespace Chbk

open Lib Prog

/-! ## Chunks -/

theorem fillBuffer_ok : ∀ {fuel k : Nat} {r r' : Reader} {buf : Bytes},
    fillBuffer fuel k r = (.ok buf, r') → k ≤ fuel →
      r.rest = buf ++ r'.rest ∧ (buf.length < k → r'.rest = [])
  | 0, k, r, r', buf, h, hk => by
    obtain ⟨hb, rfl⟩ := Prod.mk.inj h
    obtain rfl := Except.ok.inj hb
    exact ⟨rfl, fun hlt => absurd hlt (by simp; omega)⟩
  | fuel + 1, k, r, r', buf, h, hk => by
    unfold fillBuffer at h
    split at h
    · rename_i hk0
      obtain ⟨hb, rfl⟩ := Prod.mk.inj h
      obtain rfl := Except.ok.inj hb
      exact ⟨rfl, fun hlt => absurd hlt (by simp [hk0])⟩
    · rename_i hk0
      split at h
      · cases (Prod.mk.inj h).1
      · rename_i r₁ hr
        obtain ⟨hb, rfl⟩ := Prod.mk.inj h
        obtain rfl := Except.ok.inj hb
        have hread := Reader.read_ok hr
        refine ⟨by simpa using hread.2, fun _ => ?_⟩
        have := Reader.read_nil (by omega) hr
        simpa [this] using hread.2
      · rename_i b bs r₁ hr
        have hread := Reader.read_ok hr
        split at h
        · rename_i rest r₂ hrest
          obtain ⟨hb, rfl⟩ := Prod.mk.inj h
          obtain rfl := Except.ok.inj hb
          have hlen : bs.length + 1 ≤ k := by simpa using hread.1
          obtain ⟨hr₁, hend⟩ := fillBuffer_ok hrest (by omega)
          refine ⟨by rw [hread.2, hr₁]; simp, fun hlt => hend ?_⟩
          simp only [List.cons_append, List.length_cons, List.length_append] at hlt
          omega
        · cases (Prod.mk.inj h).1

/-- A reader task that ends well has handed over the whole stream. -/
theorem readChunks_flatten {chunkSize : Nat} (hc : 0 < chunkSize) :
    ∀ {fuel : Nat} {r : Reader} {chunks : List Bytes},
      readChunks chunkSize fuel r = (chunks, .ok ()) → r.rest.length < fuel →
        chunks.flatten = r.rest
  | 0, r, chunks, _, hf => absurd hf (by omega)
  | fuel + 1, r, chunks, h, hf => by
    unfold readChunks at h
    split at h
    · cases (Prod.mk.inj h).2
    · rename_i buf r' hbuf
      obtain ⟨hrest, hend⟩ := fillBuffer_ok hbuf le_rfl
      split at h
      · rename_i hemp
        obtain ⟨rfl, -⟩ := Prod.mk.inj h
        obtain rfl := List.isEmpty_iff.mp hemp
        rw [hrest, hend (by simpa using hc)]
        rfl
      · rename_i hne
        split at h
        · rename_i hshort
          obtain ⟨rfl, -⟩ := Prod.mk.inj h
          rw [hrest, hend hshort]
          simp
        · obtain ⟨rfl, hres⟩ := Prod.mk.inj h
          have hpos : 0 < buf.length := by
            rcases buf with _ | ⟨b, bs⟩
            · simp at hne
            · simp
          have hlen : r.rest.length = buf.length + r'.rest.length := by simp [hrest]
          have ih := readChunks_flatten hc (r := r') (Prod.ext rfl hres) (by omega)
          simp [ih, hrest]

theorem map_fst_numberChunks : ∀ (n : Nat) (cs : List Bytes),
    (numberChunks n cs).map Prod.fst = List.range' n cs.length
  | _, [] => rfl
  | n, c :: cs => by
    simp [numberChunks, map_fst_numberChunks (n + 1) cs, List.range'_succ]

theorem map_snd_numberChunks : ∀ (n : Nat) (cs : List Bytes),
    (numberChunks n cs).map Prod.snd = cs
  | _, [] => rfl
  | n, c :: cs => by simp [numberChunks, map_snd_numberChunks (n + 1) cs]

/-- In any order, the numbers of the parts sort to those of the chunks. -/
theorem insertionSort_of_perm {parts : List (Nat × Bytes)} {cs : List Bytes}
    (h : parts.Perm (numberChunks 1 cs)) :
    (parts.map Prod.fst).insertionSort (· ≤ ·) = (numberChunks 1 cs).map Prod.fst := by
  have hperm := (List.perm_insertionSort (· ≤ ·) (parts.map Prod.fst)).trans (h.map Prod.fst)
  refine hperm.eq_of_pairwise' (List.pairwise_insertionSort _ _) ?_
  rw [map_fst_numberChunks]
  exact List.pairwise_le_range'

/-- Sorted again, the numbers of the parts are those of the chunks in order. -/
theorem insertionSort_numbers (order : List Nat) (cs : List Bytes) :
    ((reorder order (numberChunks 1 cs)).map Prod.fst).insertionSort (· ≤ ·) =
      (numberChunks 1 cs).map Prod.fst :=
  insertionSort_of_perm (reorder_perm ..)

/-! ## The upload -/

/-- What the upload has sent so far: the parts in `pre`, and no others. -/
structure Sent (id : UploadId) (pre : List (Nat × Bytes)) (v : BackupView) : Prop where
  mem : ∀ x ∈ pre, (id, x.1, x.2) ∈ v.sent
  of_mem : ∀ pn data, (id, pn, data) ∈ v.sent → (pn, data) ∈ pre

theorem backs_uploadOnePart {hash : String} {id : UploadId} {part : Nat × Bytes}
    {pre : List (Nat × Bytes)} {v : BackupView} (hs : Sent id pre v)
    (hpn : part.1 ∉ pre.map Prod.fst) :
    Backs (uploadOnePart (blobRemoteKey hash) id part) v
      fun x v' => x.1 = part.1 ∧ Sent id (pre ++ [part]) v' := by
  refine Backs.bind (R := fun _ v' => Sent id (pre ++ [part]) v')
    (Follows.mono (follows_s3Retry (I := fun v' => v' = v)
      (Q := fun _ v' => v' = { v with sent := (id, part.1, part.2) :: v.sent }) ?_
      (fun _ _ hv => hv) (fun _ _ hv => hv ▸ rfl) rfl) ?_ fun _ _ hv => hv ▸ .refl v)
    fun _ v' _ hv' => Backs.pure ⟨rfl, hv'⟩
  · rintro v' rfl
    refine ⟨⟨hash, rfl⟩, fun data hd => hpn ?_⟩
    exact List.mem_map.mpr ⟨_, hs.of_mem _ _ hd, rfl⟩
  · rintro _ v' rfl
    refine ⟨⟨fun _ h => h, fun _ h => h, fun _ h => h, rfl, fun _ h => h, fun _ h => h⟩, ?_, ?_⟩
    · intro x hx
      rcases List.mem_append.mp hx with hx | hx
      · exact List.mem_cons_of_mem _ (hs.mem x hx)
      · rw [List.mem_singleton.mp hx]
        exact List.mem_cons_self ..
    · intro pn data hd
      rcases List.mem_cons.mp hd with hd | hd
      · obtain ⟨-, hd⟩ := Prod.mk.inj hd
        exact List.mem_append_right _ (List.mem_singleton.mpr hd)
      · exact List.mem_append_left _ (hs.of_mem _ _ hd)

section

variable {storage : Storage} {hash : String} {reader : Reader} {files : List ZipFileEntry}
  {openFile : String → Except AnyError Reader} {expectedSize : Nat}

theorem backs_complete {id : UploadId} {chunks : List Bytes} {v : BackupView}
    {pre : List (Nat × Bytes)} (hs : Sent id pre v) (hpre : pre.Perm (numberChunks 1 chunks))
    (hflat : chunks.flatten = (zipOutput openFile files).2)
    (hfiles : (hash, files) ∈ v.files) (hopen : (hash, openFile) ∈ v.opened) :
    Backs (s3Retry (.completeMultipartUpload (blobRemoteKey hash) id
      ((numberChunks 1 chunks).map Prod.fst))) v
      fun _ v' => blobRemoteKey hash ∈ v'.uploaded := by
  refine Follows.mono (follows_s3Retry (I := fun v' => v' = v)
      (Q := fun _ v' => v' = { v with uploaded := blobRemoteKey hash :: v.uploaded }) ?_
      (fun _ _ hv => hv) (fun _ _ hv => hv ▸ rfl) rfl) ?_ fun _ _ hv => hv ▸ .refl v
  · rintro v' rfl
    refine ⟨hash, files, openFile, rfl, hfiles, hopen, (numberChunks 1 chunks).map Prod.snd, ?_, ?_⟩
    · rw [List.forall₂_map_left_iff, List.forall₂_map_right_iff]
      exact List.forall₂_same.mpr fun x hx => hs.mem x (hpre.mem_iff.mpr hx)
    · rw [map_snd_numberChunks, hflat]
  · rintro _ v' rfl
    exact ⟨⟨fun _ h => h, fun _ h => h, fun _ h => List.mem_cons_of_mem _ h, rfl, fun _ h => h,
      fun _ h => h⟩, List.mem_cons_self ..⟩

theorem backs_putObjectMultipartReaderInner {id : UploadId} {v : BackupView}
    (hchunk : 0 < computeChunkSize (max expectedSize 1) storage.minChunkSize storage.maxChunkSize
      storage.targetParts)
    (hrest : reader.rest = (zipOutput openFile files).2) (hs : Sent id [] v)
    (hfiles : (hash, files) ∈ v.files) (hopen : (hash, openFile) ∈ v.opened) :
    Backs (putObjectMultipartReaderInner storage (blobRemoteKey hash) id reader expectedSize) v
      fun _ v' => blobRemoteKey hash ∈ v'.uploaded := by
  rcases hread : readChunks (computeChunkSize (max expectedSize 1) storage.minChunkSize
    storage.maxChunkSize storage.targetParts) (reader.rest.length + 1) reader
    with ⟨chunks, readerResult⟩
  simp only [putObjectMultipartReaderInner, hread]
  refine Backs.bind (Backs.ask .order trivial v) fun order v₁ _ hv₁ => ?_
  subst hv₁
  refine Backs.bind (Backs.collect (fun pre bs v' => bs.map Prod.fst = pre.map Prod.fst ∧
    Sent id pre v') ?_ ⟨rfl, hs⟩) fun done v₂ hle hdone => ?_
  · intro pre bs part post v' _ hl hI
    have hnodup : ((reorder order (numberChunks 1 chunks)).map Prod.fst).Nodup := by
      rw [((reorder_perm _ _).map _).nodup_iff, map_fst_numberChunks]
      exact List.nodup_range'
    rw [hl, List.map_append, List.map_cons, List.nodup_append] at hnodup
    have hpn : part.1 ∉ pre.map Prod.fst := fun hmem =>
      hnodup.2.2 _ hmem _ (List.mem_cons_self ..) rfl
    exact (backs_uploadOnePart hI.2 hpn).mono fun x v'' _ hx => ⟨by simp [hI.1, hx.1], hx.2⟩
  · refine Backs.bind (Backs.liftP (Q := fun _ v' => v' = v₂ ∧ readerResult = .ok ())
      fun u hu => ⟨rfl, ?_⟩) fun _ v₃ _ hv₃ => ?_
    · cases readerResult with
      | ok u => rfl
      | error e => cases hu
    · obtain ⟨rfl, rfl⟩ := hv₃
      have hflat := readChunks_flatten hchunk hread (Nat.lt_succ_self _)
      rw [hdone.1, insertionSort_numbers]
      refine Backs.bind (Backs.mapFail (backs_complete hdone.2 (reorder_perm ..)
        (hflat.trans hrest) (hle.files _ hfiles) (hle.opened _ hopen))) fun _ v' _ hv' => ?_
      exact Backs.pure hv'

/-- An upload that returns has put the stream it was given. -/
theorem backs_putObjectMultipartReader {v : BackupView}
    (hchunk : 0 < computeChunkSize (max expectedSize 1) storage.minChunkSize storage.maxChunkSize
      storage.targetParts)
    (hrest : reader.rest = (zipOutput openFile files).2)
    (hfiles : (hash, files) ∈ v.files) (hopen : (hash, openFile) ∈ v.opened) :
    Backs (putObjectMultipartReader storage (blobRemoteKey hash) reader expectedSize) v
      fun _ v' => blobRemoteKey hash ∈ v'.uploaded := by
  unfold putObjectMultipartReader
  refine Backs.bind (R := fun id v' => Sent id [] v') (Backs.mapFail ?_) fun id v₁ hle hs => ?_
  · refine Follows.mono (follows_s3Retry (I := fun v' => v' = v)
      (Q := fun id v' => v' = { v with sent := v.sent.filter fun x => x.1 ≠ id })
      (fun _ _ => ⟨hash, rfl⟩) (fun _ _ hv => hv) (fun _ _ hv => hv ▸ rfl) rfl) ?_
      fun _ _ hv => hv ▸ .refl v
    rintro id v' rfl
    exact ⟨⟨fun _ h => h, fun _ h => h, fun _ h => h, rfl, fun _ h => h, fun _ h => h⟩,
      by simp, by simp⟩
  · refine Backs.bind (backs_putObjectMultipartReaderInner hchunk hrest hs (hle.files _ hfiles)
      (hle.opened _ hopen)).attempt fun x v₂ _ hx => ?_
    cases x with
    | ok total => exact Backs.pure (hx _ rfl)
    | error e =>
      exact Backs.bind (Backs.send (.abortMultipartUpload _ _) trivial v₂) fun _ _ _ _ => Backs.throw

end

end Chbk
