import Chbk.Zip.Directory
import Chbk.Zip.RoundTrip

/-!
# The central directory agrees with the entries

What a reader finds that comes in from the end of an archive, against what stands
in it.

* `trueDirectory` — what stands in it, by the lengths of its parts.
* `FieldsClear` — no field of the directory is all ones by chance, and offsets
  are `u64`; by the sizes of the files and the lengths of their names.
* `readDirectory_iff` — under this the two agree, and only then.
* `readDirectory_fails` — a file whose size is all ones.
-/

namespace Chbk

open Lib

-- ---------------------------------------------------------------------------
-- The layout of an archive
-- ---------------------------------------------------------------------------

/-- The ZIP64 layout of an entry of so many bytes that starts at `pos`. -/
def layoutZip64 (size pos : Nat) : Bool := size > U32_MAX || pos > U32_MAX

/-- The length of the entry of `f` at `pos`. -/
def localLength (pos : Nat) (f : ZipFileEntry) : Nat :=
  30 + (utf8 (zipName f)).length + (if layoutZip64 f.size.toNat pos then 20 else 0) + f.size.toNat
    + if layoutZip64 f.size.toNat pos then 24 else 16

/-- The length of its central record. -/
def centralLength (pos : Nat) (f : ZipFileEntry) : Nat :=
  46 + (utf8 (zipName f)).length + if layoutZip64 f.size.toNat pos then 28 else 0

/-- The files with the places of their entries, the first one at `pos`. -/
def localLayout : Nat → List ZipFileEntry → List (Nat × ZipFileEntry)
  | _, [] => []
  | pos, f :: fs => (pos, f) :: localLayout (pos + localLength pos f) fs

/-- Where the entries end. -/
def layoutEnd : Nat → List ZipFileEntry → Nat
  | pos, [] => pos
  | pos, f :: fs => layoutEnd (pos + localLength pos f) fs

/-- The length of the central directory. -/
def directorySize (files : List ZipFileEntry) : Nat :=
  ((localLayout 0 files).map fun x => centralLength x.1 x.2).sum

/-- No field of the directory is all ones without the ZIP64 layout: no size and
no offset of an entry that has both below `2 ^ 32`, and neither the count nor the
place of a directory that is small. -/
structure FieldsClear (files : List ZipFileEntry) : Prop where
  entries : ∀ x ∈ localLayout 0 files, x.1 ≤ U32_MAX → x.2.size.toNat ≤ U32_MAX →
    x.1 ≠ U32_MAX ∧ x.2.size.toNat ≠ U32_MAX
  ending : files.length ≤ U16_MAX → layoutEnd 0 files ≤ U32_MAX → directorySize files ≤ U32_MAX →
    files.length ≠ U16_MAX ∧ layoutEnd 0 files ≠ U32_MAX ∧ directorySize files ≠ U32_MAX
  fits : layoutEnd 0 files + directorySize files < 2 ^ 64

/-- The entries as they stand in the stream, the first one at `pos`. -/
def trueEntries : Nat → List ArchiveEntry → List DirEntry
  | _, [] => []
  | pos, e :: es =>
    ⟨utf8 e.name, (crc32 e.data).toNat, e.data.length, e.data.length, pos⟩
      :: trueEntries (pos + e.bytes.length) es

/-- The directory of the archive of `files`, where it stands. -/
def trueDirectory (files : List ZipFileEntry) (es : List ArchiveEntry) : Directory :=
  ⟨(es.flatMap ArchiveEntry.bytes).length, (centralDirectoryBytes (centralsOf 0 files es)).length,
    es.length, trueEntries 0 es⟩

-- ---------------------------------------------------------------------------
-- The writer's offsets
-- ---------------------------------------------------------------------------

theorem length_headerSizes (zip64 : Bool) (size : Nat) : (headerSizes zip64 size).length = 8 := by
  cases zip64 <;> simp [headerSizes]

theorem layoutZip64_eq (size offset : UInt64) :
    layoutZip64 size.toNat offset.toNat = entryNeedsZip64 size offset := rfl

theorem WrittenEntry.length_bytes {openFile : String → Except AnyError Reader} {offset : UInt64}
    {f : ZipFileEntry} {e : ArchiveEntry} (h : WrittenEntry openFile offset f e) :
    e.bytes.length = localLength offset.toNat f := by
  have hname := zipName_of_ok h.name
  unfold localLength
  rw [layoutZip64_eq, ← h.zip64, hname, ← h.size]
  cases hz : e.zip64 with
  | true =>
    simp [ArchiveEntry.bytes, ArchiveEntry.body, localHeaderBytes, descriptorBytes, hz,
      length_headerSizes, length_localExtra]
    omega
  | false =>
    simp [ArchiveEntry.bytes, ArchiveEntry.body, localHeaderBytes, descriptorBytes, hz,
      length_headerSizes, length_localExtra]
    omega

theorem nextOffset_toNat (offset : UInt64) (f : ZipFileEntry) :
    (nextOffset offset f).toNat = (offset.toNat + localLength offset.toNat f) % 2 ^ 64 := by
  unfold nextOffset entryLength localLength
  rw [layoutZip64_eq, length_localExtra]
  cases entryNeedsZip64 f.size offset with
  | true =>
    simp only [UInt64.toNat_add, UInt64.toNat_ofNat', if_true]
    have h20 : (20 : UInt64).toNat = 20 := rfl
    have h24 : (24 : UInt64).toNat = 24 := rfl
    have h30 : (30 : UInt64).toNat = 30 := rfl
    omega
  | false =>
    simp only [UInt64.toNat_add, UInt64.toNat_ofNat', Bool.false_eq_true, if_false]
    have h16 : (16 : UInt64).toNat = 16 := rfl
    have h30 : (30 : UInt64).toNat = 30 := rfl
    omega

/-- What a reader is to learn from a central record. -/
def dirEntryOf (c : CentralEntry) : DirEntry :=
  ⟨c.name, c.crc32.toNat, c.size.toNat, c.size.toNat, c.localHeaderOffset.toNat⟩

/-- What the writer computes, as long as it does not wrap: offsets are the
places in the stream, and in the layout of the files. -/
structure Placed (pos : Nat) (offset : UInt64) (files : List ZipFileEntry)
    (es : List ArchiveEntry) : Prop where
  length : pos + (es.flatMap ArchiveEntry.bytes).length = layoutEnd pos files
  ends : (files.foldl nextOffset offset).toNat = layoutEnd pos files
  entries : trueEntries pos es = (centralsOf offset files es).map dirEntryOf
  places : (centralsOf offset files es).map (fun c => (c.localHeaderOffset.toNat, c.size, c.name)) =
    (localLayout pos files).map fun x => (x.1, x.2.size, utf8 (zipName x.2))

theorem le_layoutEnd : ∀ (pos : Nat) (files : List ZipFileEntry), pos ≤ layoutEnd pos files
  | _, [] => le_rfl
  | pos, _ :: fs => (Nat.le_add_right pos _).trans (le_layoutEnd _ fs)

theorem Written.placed {openFile : String → Except AnyError Reader} :
    ∀ {files : List ZipFileEntry} {offset : UInt64} {es : List ArchiveEntry},
      Written openFile offset files es →
      (offset.toNat + (es.flatMap ArchiveEntry.bytes).length < 2 ^ 64 ∨
        layoutEnd offset.toNat files < 2 ^ 64) →
      Placed offset.toNat offset files es
  | [], offset, es, h, _ => by
    obtain rfl : es = [] := h
    exact ⟨rfl, rfl, rfl, rfl⟩
  | f :: fs, offset, [], h, _ => h.elim
  | f :: fs, offset, e :: es, h, hfits => by
    have hlen := h.1.length_bytes
    have hend := le_layoutEnd (offset.toNat + localLength offset.toNat f) fs
    have hhead : offset.toNat + localLength offset.toNat f < 2 ^ 64 := by
      rcases hfits with hfits | hfits
      · rw [List.flatMap_cons, List.length_append, hlen] at hfits
        omega
      · exact hend.trans_lt hfits
    have hnext : (nextOffset offset f).toNat = offset.toNat + localLength offset.toNat f := by
      rw [nextOffset_toNat, Nat.mod_eq_of_lt hhead]
    have ih : Placed (nextOffset offset f).toNat (nextOffset offset f) fs es := by
      refine h.2.placed ?_
      rw [hnext]
      rcases hfits with hfits | hfits
      · rw [List.flatMap_cons, List.length_append, hlen] at hfits
        exact Or.inl (by omega)
      · exact Or.inr hfits
    rw [hnext] at ih
    constructor
    case length =>
      rw [List.flatMap_cons, List.length_append, hlen, ← Nat.add_assoc]
      exact ih.length
    case ends => exact ih.ends
    case entries =>
      rw [trueEntries, centralsOf, List.map_cons, hlen, ih.entries]
      simp only [dirEntryOf, centralOf, h.1.size]
    case places =>
      rw [localLayout, centralsOf, List.map_cons, List.map_cons, ih.places]
      simp only [centralOf, zipName_of_ok h.1.name]

-- ---------------------------------------------------------------------------
-- Central records
-- ---------------------------------------------------------------------------

/-- A central record as the writer keeps it. -/
structure SoundCentral (c : CentralEntry) : Prop where
  zip64 : c.needsZip64 = entryNeedsZip64 c.size c.localHeaderOffset
  nameLen : c.name.length ≤ U16_MAX

theorem Written.sound_centrals {openFile : String → Except AnyError Reader} :
    ∀ {files : List ZipFileEntry} {offset : UInt64} {es : List ArchiveEntry},
      Written openFile offset files es → ∀ c ∈ centralsOf offset files es, SoundCentral c
  | [], _, [], _, c, hc => by simp [centralsOf] at hc
  | f :: fs, offset, e :: es, h, c, hc => by
    rcases List.mem_cons.mp hc with rfl | hc
    · exact ⟨h.1.zip64, h.1.nameLen⟩
    · exact h.2.sound_centrals c hc

/-- A field of the record is all ones though it is not in the ZIP64 layout. -/
def CentralEntry.Unclear (c : CentralEntry) : Prop :=
  c.size.toNat ≤ U32_MAX ∧ c.localHeaderOffset.toNat ≤ U32_MAX ∧
    (c.size.toNat = U32_MAX ∨ c.localHeaderOffset.toNat = U32_MAX)

/-- The layout of the record. -/
def CentralEntry.zip64 (c : CentralEntry) : Bool :=
  c.needsZip64 || c.localHeaderOffset.toNat > U32_MAX

theorem SoundCentral.zip64_eq {c : CentralEntry} (h : SoundCentral c) :
    c.zip64 = layoutZip64 c.size.toNat c.localHeaderOffset.toNat := by
  unfold CentralEntry.zip64
  rw [h.zip64, entryNeedsZip64, layoutZip64]
  by_cases hbig : c.localHeaderOffset.toNat > U32_MAX
  · simp [hbig]
  · simp [hbig]

/-- The fixed fields of a central record, with its signature. -/
def centralFields (c : CentralEntry) : List (Nat × Nat) :=
  [(4, ZIP_CENTRAL_DIRECTORY_FILE_HEADER_SIG), (2, ZIP_VERSION_ZIP64), (2, ZIP_VERSION_ZIP64),
    (2, ZIP_FLAG_DATA_DESCRIPTOR), (2, ZIP_METHOD_STORED), (2, 0), (2, 0), (4, c.crc32.toNat),
    (4, if c.zip64 then U32_MAX else c.size.toNat), (4, if c.zip64 then U32_MAX else c.size.toNat),
    (2, c.name.length), (2, (centralExtra c).length), (2, 0), (2, 0), (2, 0), (4, 0),
    (4, if c.zip64 then U32_MAX else c.localHeaderOffset.toNat)]

theorem central_eq (c : CentralEntry) :
    leBytes 4 ZIP_CENTRAL_DIRECTORY_FILE_HEADER_SIG ++ centralHeaderBytes c =
      encodeFields (centralFields c) ++ (c.name ++ centralExtra c) := by
  unfold centralHeaderBytes centralFields
  rw [show (c.needsZip64 || decide (c.localHeaderOffset.toNat > U32_MAX)) = c.zip64 from rfl]
  cases c.zip64 with
  | true => simp [encodeFields, headerSizes, centralOffset, U32_MAX]
  | false => simp [encodeFields, headerSizes, centralOffset]

theorem length_central (c : CentralEntry) :
    (leBytes 4 ZIP_CENTRAL_DIRECTORY_FILE_HEADER_SIG ++ centralHeaderBytes c).length =
      46 + c.name.length + (centralExtra c).length := by
  have hfields : (encodeFields (centralFields c)).length = 46 := by
    rw [length_encodeFields, centralFields]
    simp only [List.map_cons, List.map_nil, List.sum_cons, List.sum_nil, Nat.reduceAdd]
  rw [central_eq, List.length_append, hfields, List.length_append, Nat.add_assoc]

theorem length_centralExtra_eq (c : CentralEntry) :
    (centralExtra c).length = if c.zip64 then 28 else 0 := by
  unfold centralExtra
  rw [show (c.needsZip64 || decide (c.localHeaderOffset.toNat > U32_MAX)) = c.zip64 from rfl]
  cases c.zip64 <;> simp [buildZip64ExtraCentral]

theorem decodeFields_cons {w v : Nat} (hv : v < 256 ^ w) (rest : Bytes) :
    decodeFields [w] (leBytes w v ++ rest) = some ([v], rest) := by
  have h := @decodeFields_encodeFields [(w, v)] rest (by simpa using hv)
  simpa [encodeFields] using h

/-- A record in the ZIP64 layout: everything is in its extra field. -/
theorem resolveFields_zip64 {size offset : Nat} (hsize : size < 2 ^ 64) (hoffset : offset < 2 ^ 64) :
    resolveFields U32_MAX U32_MAX U32_MAX (buildZip64ExtraCentral size size offset) =
      some (size, size, offset) := by
  have hlen : (buildZip64ExtraCentral size size offset).length = 28 := by
    simp [buildZip64ExtraCentral]
  have hpayload : (leBytes 8 size ++ (leBytes 8 size ++ leBytes 8 offset)).length = 24 := by simp
  have hfind : findZip64 28 (buildZip64ExtraCentral size size offset) =
      some (leBytes 8 size ++ (leBytes 8 size ++ leBytes 8 offset)) := by
    have hdec := @decodeFields_encodeFields [(2, ZIP64_EXTRA_ID), (2, 24)]
      (leBytes 8 size ++ (leBytes 8 size ++ leBytes 8 offset)) (by decide)
    have heq : buildZip64ExtraCentral size size offset =
        encodeFields [(2, ZIP64_EXTRA_ID), (2, 24)] ++
          (leBytes 8 size ++ (leBytes 8 size ++ leBytes 8 offset)) := by
      simp [buildZip64ExtraCentral, encodeFields]
    unfold findZip64
    rw [heq]
    simp only [List.map_cons, List.map_nil] at hdec
    rw [hdec]
    dsimp only
    rw [if_neg (by rw [hpayload]; decide), if_pos rfl, ← hpayload, List.take_length]
  have h₁ := decodeFields_cons (w := 8) (v := size) (by simpa using hsize)
    (leBytes 8 size ++ leBytes 8 offset)
  have h₂ := decodeFields_cons (w := 8) (v := size) (by simpa using hsize) (leBytes 8 offset)
  have h₃ := decodeFields_cons (w := 8) (v := offset) (by simpa using hoffset) []
  rw [List.append_nil] at h₃
  simp [resolveFields, hlen, hfind, resolveField, h₁, h₂, h₃]

/-- A record in the plain layout is read as it is, unless a field is all ones. -/
theorem resolveFields_plain (size offset : Nat) :
    resolveFields size size offset [] =
      if size = U32_MAX ∨ offset = U32_MAX then none else some (size, size, offset) := by
  by_cases hsize : size = U32_MAX
  · simp [resolveFields, findZip64, resolveField, hsize]
  · by_cases hoffset : offset = U32_MAX
    · simp [resolveFields, findZip64, resolveField, hsize, hoffset]
    · simp [resolveFields, findZip64, resolveField, hsize, hoffset]

theorem SoundCentral.resolve {c : CentralEntry} (h : SoundCentral c) [Decidable c.Unclear] :
    resolveFields (if c.zip64 then U32_MAX else c.size.toNat)
        (if c.zip64 then U32_MAX else c.size.toNat)
        (if c.zip64 then U32_MAX else c.localHeaderOffset.toNat) (centralExtra c) =
      if c.Unclear then none
      else some (c.size.toNat, c.size.toNat, c.localHeaderOffset.toNat) := by
  have hz := h.zip64_eq
  have hextra : centralExtra c = if c.zip64 then
      buildZip64ExtraCentral c.size.toNat c.size.toNat c.localHeaderOffset.toNat else [] := rfl
  rw [hextra]
  cases hzip : c.zip64 with
  | true =>
    rw [hzip] at hz
    have hclear : ¬ c.Unclear := by
      rintro ⟨hsize, hoffset, -⟩
      unfold layoutZip64 at hz
      simp [not_lt.mpr hsize, not_lt.mpr hoffset] at hz
    rw [if_neg hclear]
    simp only [if_true]
    exact resolveFields_zip64 c.size.toNat_lt c.localHeaderOffset.toNat_lt
  | false =>
    rw [hzip] at hz
    have hsmall : c.size.toNat ≤ U32_MAX ∧ c.localHeaderOffset.toNat ≤ U32_MAX := by
      unfold layoutZip64 at hz
      simpa using hz.symm
    have hiff : c.Unclear ↔ c.size.toNat = U32_MAX ∨ c.localHeaderOffset.toNat = U32_MAX :=
      ⟨fun hu => hu.2.2, fun hu => ⟨hsmall.1, hsmall.2, hu⟩⟩
    simp only [Bool.false_eq_true, if_false, hiff]
    exact resolveFields_plain _ _

theorem centralFields_fit {c : CentralEntry} (h : SoundCentral c) :
    ∀ f ∈ centralFields c, f.2 < 256 ^ f.1 := by
  have hz := h.zip64_eq
  have hname := h.nameLen
  have hextra := length_centralExtra c
  have hcrc := c.crc32.toNat_lt
  have hsmall : c.zip64 = false → c.size.toNat ≤ U32_MAX ∧ c.localHeaderOffset.toNat ≤ U32_MAX := by
    intro hf
    rw [hf] at hz
    unfold layoutZip64 at hz
    simpa using hz.symm
  have hsize : (if c.zip64 then U32_MAX else c.size.toNat) < 256 ^ 4 := by
    unfold U32_MAX at hsmall ⊢
    split_ifs with hzip
    · decide
    · have := (hsmall (by simpa using hzip)).1
      omega
  have hoffset : (if c.zip64 then U32_MAX else c.localHeaderOffset.toNat) < 256 ^ 4 := by
    unfold U32_MAX at hsmall ⊢
    split_ifs with hzip
    · decide
    · have := (hsmall (by simpa using hzip)).2
      omega
  have hlen : c.name.length < 256 ^ 2 := by
    unfold U16_MAX at hname
    omega
  have hextraLen : (centralExtra c).length < 256 ^ 2 := by omega
  simp only [centralFields, List.forall_mem_cons]
  exact ⟨by decide, by decide, by decide, by decide, by decide, by decide, by decide, hcrc, hsize,
    hsize, hlen, hextraLen, by decide, by decide, by decide, by decide, hoffset, by simp⟩

/-- One central record is read back, or found unclear. -/
theorem readCentralEntry_eq {c : CentralEntry} (h : SoundCentral c) [Decidable c.Unclear]
    (rest : Bytes) :
    readCentralEntry (leBytes 4 ZIP_CENTRAL_DIRECTORY_FILE_HEADER_SIG ++ centralHeaderBytes c
        ++ rest) =
      if c.Unclear then none else some (dirEntryOf c, rest) := by
  have hdec := decodeFields_encodeFields (c.name ++ centralExtra c ++ rest) (centralFields_fit h)
  have hextra : ((c.name ++ centralExtra c ++ rest).drop c.name.length).take
      (centralExtra c).length = centralExtra c := by
    rw [List.append_assoc, List.drop_left, List.take_left]
  have hname : (c.name ++ centralExtra c ++ rest).take c.name.length = c.name := by
    rw [List.append_assoc, List.take_left]
  have hrest : (c.name ++ centralExtra c ++ rest).drop (c.name.length + (centralExtra c).length + 0)
      = rest := by
    rw [Nat.add_zero, ← List.length_append, List.drop_left]
  have hlong : c.name.length + (centralExtra c).length + 0 ≤
      (c.name ++ centralExtra c ++ rest).length := by
    simp only [List.length_append]
    omega
  rw [central_eq, List.append_assoc]
  unfold readCentralEntry
  rw [show [4, 2, 2, 2, 2, 2, 2, 4, 4, 4, 2, 2, 2, 2, 2, 4, 4] =
    (centralFields c).map Prod.fst from rfl, hdec]
  simp only [centralFields, List.map_cons, List.map_nil]
  rw [if_pos ⟨trivial, hlong⟩, hextra, hname, hrest, h.resolve]
  split_ifs
  · rfl
  · rfl

/-- The central directory is read back, unless a record is unclear. -/
theorem readCentral_eq : ∀ {cs : List CentralEntry}, (∀ c ∈ cs, SoundCentral c) →
    ∀ es, readCentral cs.length (centralDirectoryBytes cs) = some es ↔
      (∀ c ∈ cs, ¬ c.Unclear) ∧ es = cs.map dirEntryOf
  | [], _, es => by
    simp [readCentral, centralDirectoryBytes, eq_comm]
  | c :: cs, h, es => by
    classical
    have ih := @readCentral_eq cs fun c hc => h c (List.mem_cons_of_mem _ hc)
    have hc := readCentralEntry_eq (h c (List.mem_cons_self ..)) (centralDirectoryBytes cs)
    rw [List.length_cons, readCentral, centralDirectoryBytes, List.flatMap_cons]
    rw [← centralDirectoryBytes, hc]
    by_cases hunclear : c.Unclear
    · rw [if_pos hunclear]
      constructor
      · intro hnone
        cases hnone
      · intro hall
        exact absurd hunclear (hall.1 c (List.mem_cons_self ..))
    · rw [if_neg hunclear, List.forall_mem_cons, List.map_cons]
      dsimp only
      rw [Option.map_eq_some_iff]
      constructor
      · rintro ⟨es', hes', rfl⟩
        obtain ⟨hall, rfl⟩ := (ih es').mp hes'
        exact ⟨⟨hunclear, hall⟩, rfl⟩
      · rintro ⟨⟨-, hall⟩, rfl⟩
        exact ⟨_, (ih _).mpr ⟨hall, rfl⟩, rfl⟩

-- ---------------------------------------------------------------------------
-- The end records
-- ---------------------------------------------------------------------------

/-- The fields of the end record. -/
def endFields (zip64 : Bool) (count size offset : Nat) : List (Nat × Nat) :=
  [(4, ZIP_END_OF_CENTRAL_DIR_SIG), (2, 0), (2, 0), (2, if zip64 then U16_MAX else count),
    (2, if zip64 then U16_MAX else count), (4, if zip64 then U32_MAX else size),
    (4, if zip64 then U32_MAX else offset), (2, 0)]

/-- The fields of the ZIP64 end record. -/
def zip64EndFields (count size offset : Nat) : List (Nat × Nat) :=
  [(4, ZIP64_END_OF_CENTRAL_DIR_SIG), (8, 44), (2, ZIP_VERSION_ZIP64), (2, ZIP_VERSION_ZIP64),
    (4, 0), (4, 0), (8, count), (8, count), (8, size), (8, offset)]

/-- The fields of its locator. -/
def locatorFields (pos : Nat) : List (Nat × Nat) :=
  [(4, ZIP64_END_OF_CENTRAL_DIR_LOCATOR_SIG), (4, 0), (8, pos), (4, 1)]

theorem length_endFields (zip64 : Bool) (count size offset : Nat) :
    (encodeFields (endFields zip64 count size offset)).length = 22 := by
  rw [length_encodeFields, endFields]
  simp only [List.map_cons, List.map_nil, List.sum_cons, List.sum_nil, Nat.reduceAdd]

theorem length_zip64EndFields (count size offset : Nat) :
    (encodeFields (zip64EndFields count size offset)).length = 56 := by
  rw [length_encodeFields, zip64EndFields]
  simp only [List.map_cons, List.map_nil, List.sum_cons, List.sum_nil, Nat.reduceAdd]

theorem length_locatorFields (pos : Nat) : (encodeFields (locatorFields pos)).length = 20 := by
  rw [length_encodeFields, locatorFields]
  simp only [List.map_cons, List.map_nil, List.sum_cons, List.sum_nil, Nat.reduceAdd]

theorem endRecordsBytes_zip64 {count : Nat} {offset size : UInt64}
    (hz : needsZip64Eocd count offset size = true) : endRecordsBytes count offset size =
      encodeFields (zip64EndFields count size.toNat offset.toNat) ++
        (encodeFields (locatorFields (offset + size).toNat) ++
          encodeFields (endFields true count size.toNat offset.toNat)) := by
  rw [endRecordsBytes, if_pos hz]
  simp [zip64EndBytes, endBytes, endCounts, encodeFields, zip64EndFields, locatorFields, endFields,
    U16_MAX, U32_MAX]

theorem endRecordsBytes_plain {count : Nat} {offset size : UInt64}
    (hz : needsZip64Eocd count offset size = false) : endRecordsBytes count offset size =
      encodeFields (endFields false count size.toNat offset.toNat) := by
  rw [endRecordsBytes, hz]
  simp [endBytes, endCounts, encodeFields, endFields]

theorem readEndRecord_eq {zip64 : Bool} {count size offset : Nat}
    (h : zip64 = false → count ≤ U16_MAX ∧ size ≤ U32_MAX ∧ offset ≤ U32_MAX) :
    readEndRecord (encodeFields (endFields zip64 count size offset)) =
      some ⟨if zip64 then U16_MAX else count, if zip64 then U16_MAX else count,
        if zip64 then U32_MAX else size, if zip64 then U32_MAX else offset⟩ := by
  have hfit : ∀ f ∈ endFields zip64 count size offset, f.2 < 256 ^ f.1 := by
    unfold U16_MAX U32_MAX at h
    cases zip64 with
    | true => simp [endFields, U16_MAX, U32_MAX, ZIP_END_OF_CENTRAL_DIR_SIG]
    | false =>
      obtain ⟨hcount, hsize, hoffset⟩ := h rfl
      simp only [endFields, List.forall_mem_cons, Bool.false_eq_true, if_false]
      exact ⟨by decide, by decide, by decide, by omega, by omega, by omega, by omega, by decide,
        by simp⟩
  have hdec := decodeFields_encodeFields [] hfit
  rw [List.append_nil] at hdec
  unfold readEndRecord
  rw [show [4, 2, 2, 2, 2, 4, 4, 2] = (endFields zip64 count size offset).map Prod.fst from rfl,
    hdec]
  simp [endFields]

theorem readLocator_eq {pos : Nat} (hpos : pos < 2 ^ 64) (rest : Bytes) :
    readLocator (encodeFields (locatorFields pos) ++ rest) = some pos := by
  have hfit : ∀ f ∈ locatorFields pos, f.2 < 256 ^ f.1 := by
    simp only [locatorFields, List.forall_mem_cons]
    exact ⟨by decide, by decide, by omega, by decide, by simp⟩
  have hdec := decodeFields_encodeFields rest hfit
  unfold readLocator
  rw [show [4, 4, 8, 4] = (locatorFields pos).map Prod.fst from rfl, hdec]
  simp [locatorFields]

theorem readZip64EndRecord_eq {count size offset : Nat} (hcount : count < 2 ^ 64)
    (hsize : size < 2 ^ 64) (hoffset : offset < 2 ^ 64) (rest : Bytes) :
    readZip64EndRecord (encodeFields (zip64EndFields count size offset) ++ rest) =
      some ⟨count, count, size, offset⟩ := by
  have hfit : ∀ f ∈ zip64EndFields count size offset, f.2 < 256 ^ f.1 := by
    simp only [zip64EndFields, List.forall_mem_cons]
    exact ⟨by decide, by decide, by decide, by decide, by decide, by decide, by omega, by omega,
      by omega, by omega, by simp⟩
  have hdec := decodeFields_encodeFields rest hfit
  unfold readZip64EndRecord
  rw [show [4, 8, 2, 2, 4, 4, 8, 8, 8, 8] = (zip64EndFields count size offset).map Prod.fst from
    rfl, hdec]
  simp [zip64EndFields]

/-- Where the plain end record stands there is no ZIP64 record. -/
theorem readZip64EndRecord_plain (count size offset : Nat) :
    readZip64EndRecord (encodeFields (endFields false count size offset)) = none := by
  have hshort : decodeFields [4, 8, 2, 2, 4, 4, 8, 8, 8, 8]
      (encodeFields (endFields false count size offset)) = none := by
    refine decodeFields_short ?_
    rw [length_endFields]
    decide
  unfold readZip64EndRecord
  rw [hshort]

section

variable {front : Bytes} {count : Nat} {offset size : UInt64}

theorem readEnd_zip64 (hz : needsZip64Eocd count offset size = true) (hcount : count < 2 ^ 64)
    (hfits : offset.toNat + size.toNat < 2 ^ 64) (hfront : front.length = offset.toNat + size.toNat) :
    readEnd (front ++ endRecordsBytes count offset size) =
      some (⟨count, count, size.toNat, offset.toNat⟩, front.length) := by
  have hpos : (offset + size).toNat = front.length := by
    rw [UInt64.toNat_add, Nat.mod_eq_of_lt hfits, hfront]
  rw [endRecordsBytes_zip64 hz, hpos]
  set record := encodeFields (zip64EndFields count size.toNat offset.toNat) with hrecord
  set locator := encodeFields (locatorFields front.length) with hlocator
  set last := encodeFields (endFields true count size.toNat offset.toNat) with hlast
  have hrecordLen : record.length = 56 := length_zip64EndFields _ _ _
  have hlocatorLen : locator.length = 20 := length_locatorFields _
  have hlastLen : last.length = 22 := length_endFields _ _ _ _
  have hlen : (front ++ (record ++ (locator ++ last))).length = front.length + 98 := by
    simp only [List.length_append, hrecordLen, hlocatorLen, hlastLen]
  -- the three places that are looked at
  have hdropEnd : (front ++ (record ++ (locator ++ last))).drop (front.length + 98 - 22) = last := by
    rw [← List.append_assoc, ← List.append_assoc]
    refine List.drop_left' ?_
    simp only [List.length_append, hrecordLen, hlocatorLen]
    omega
  have hdropLocator : (front ++ (record ++ (locator ++ last))).drop (front.length + 98 - 42) =
      locator ++ last := by
    rw [← List.append_assoc]
    refine List.drop_left' ?_
    simp only [List.length_append, hrecordLen]
    omega
  have hlastRead : readEndRecord last = some ⟨U16_MAX, U16_MAX, U32_MAX, U32_MAX⟩ :=
    @readEndRecord_eq true _ _ _ (by simp)
  unfold readEnd
  rw [hlen, if_neg (by omega), hdropEnd, hlastRead]
  dsimp only
  rw [if_pos (by decide), if_neg (by omega), hdropLocator, hlocator, readLocator_eq (by omega)]
  dsimp only
  rw [List.drop_left, hrecord, readZip64EndRecord_eq hcount size.toNat_lt offset.toNat_lt]
  rfl

/-- What the plain layout promises. -/
theorem needsZip64Eocd_eq_false (hz : needsZip64Eocd count offset size = false) :
    count ≤ U16_MAX ∧ offset.toNat ≤ U32_MAX ∧ size.toNat ≤ U32_MAX := by
  unfold needsZip64Eocd at hz
  simpa [and_assoc] using hz

theorem readEndRecord_plain (hz : needsZip64Eocd count offset size = false) :
    readEndRecord ((front ++ endRecordsBytes count offset size).drop
        ((front ++ endRecordsBytes count offset size).length - 22)) =
      some ⟨count, count, size.toNat, offset.toNat⟩ := by
  obtain ⟨hcount, hoffset, hsize⟩ := needsZip64Eocd_eq_false hz
  have hlen : (front ++ endRecordsBytes count offset size).length = front.length + 22 := by
    rw [List.length_append, endRecordsBytes_plain hz, length_endFields]
  rw [hlen, Nat.add_sub_cancel, List.drop_left, endRecordsBytes_plain hz]
  exact @readEndRecord_eq false _ _ _ fun _ => ⟨hcount, hsize, hoffset⟩

/-- A plain end record without an all-ones field is read as it is. -/
theorem readEnd_plain (hz : needsZip64Eocd count offset size = false)
    (hclear : count ≠ U16_MAX ∧ offset.toNat ≠ U32_MAX ∧ size.toNat ≠ U32_MAX) :
    readEnd (front ++ endRecordsBytes count offset size) =
      some (⟨count, count, size.toNat, offset.toNat⟩, front.length) := by
  have hlen : (front ++ endRecordsBytes count offset size).length = front.length + 22 := by
    rw [List.length_append, endRecordsBytes_plain hz, length_endFields]
  have hneeds : (EndRecord.mk count count size.toNat offset.toNat).needsZip64 = false := by
    simp [EndRecord.needsZip64, hclear]
  unfold readEnd
  rw [readEndRecord_plain hz]
  dsimp only
  rw [hneeds, if_neg (by omega), hlen, Nat.add_sub_cancel]
  rfl

/-- With an all-ones field the true place of the directory is not found: a ZIP64
record would have to stand where the end record does. -/
theorem readEnd_unclear (hz : needsZip64Eocd count offset size = false)
    (hunclear : count = U16_MAX ∨ offset.toNat = U32_MAX ∨ size.toNat = U32_MAX) (r : EndRecord) :
    readEnd (front ++ endRecordsBytes count offset size) ≠ some (r, front.length) := by
  intro hread
  have hlen : (front ++ endRecordsBytes count offset size).length = front.length + 22 := by
    rw [List.length_append, endRecordsBytes_plain hz, length_endFields]
  have hneeds : (EndRecord.mk count count size.toNat offset.toNat).needsZip64 = true := by
    rcases hunclear with h | h | h <;> simp [EndRecord.needsZip64, h]
  unfold readEnd at hread
  rw [readEndRecord_plain hz] at hread
  dsimp only at hread
  rw [hneeds, if_neg (by omega), if_pos rfl] at hread
  split_ifs at hread
  split at hread
  · cases hread
  · rename_i pos hpos
    obtain ⟨r64, hr64, hmerge⟩ := Option.map_eq_some_iff.mp hread
    obtain rfl : pos = front.length := (Prod.mk.inj hmerge).2
    rw [List.drop_left, endRecordsBytes_plain hz, readZip64EndRecord_plain] at hr64
    cases hr64

end

theorem readEndRecord_lt {bs : Bytes} {r : EndRecord} (h : readEndRecord bs = some r) :
    r.size < 2 ^ 32 ∧ r.offset < 2 ^ 32 := by
  unfold readEndRecord at h
  split at h
  · rename_i hdec
    have hlt := decodeFields_lt hdec
    simp only [List.forall₂_cons] at hlt
    split_ifs at h
    obtain rfl := Option.some.inj h
    exact ⟨hlt.2.2.2.2.2.1, hlt.2.2.2.2.2.2.1⟩
  · cases h

theorem readLocator_lt {bs : Bytes} {pos : Nat} (h : readLocator bs = some pos) :
    pos < 2 ^ 64 := by
  unfold readLocator at h
  split at h
  · rename_i hdec
    have hlt := decodeFields_lt hdec
    simp only [List.forall₂_cons] at hlt
    split_ifs at h
    obtain rfl := Option.some.inj h
    exact hlt.2.2.1
  · cases h

/-- Whatever the bytes: a directory that ends where the end records begin ends
within a `u64`. -/
theorem readEnd_lt {bs : Bytes} {r : EndRecord} {pos : Nat} (h : readEnd bs = some (r, pos))
    (hpos : r.offset + r.size = pos) : pos < 2 ^ 64 := by
  unfold readEnd at h
  by_cases hshort : bs.length < 22
  · rw [if_pos hshort] at h
    cases h
  rw [if_neg hshort] at h
  split at h
  · cases h
  · rename_i r' hr'
    by_cases hneeds : r'.needsZip64 = true
    · rw [if_pos hneeds] at h
      by_cases hshort' : bs.length < 42
      · rw [if_pos hshort'] at h
        cases h
      rw [if_neg hshort'] at h
      split at h
      · cases h
      · rename_i pos' hlocator
        obtain ⟨r64, -, hmerge⟩ := Option.map_eq_some_iff.mp h
        obtain rfl : pos' = pos := (Prod.mk.inj hmerge).2
        exact readLocator_lt hlocator
    · rw [if_neg hneeds] at h
      obtain ⟨rfl, -⟩ := Prod.mk.inj (Option.some.inj h)
      obtain ⟨hsize, hoffset⟩ := readEndRecord_lt hr'
      omega

theorem readDirectory_eq_some {bs : Bytes} {d : Directory} (h : readDirectory bs = some d) :
    readEnd bs = some (⟨d.count, d.count, d.size, d.offset⟩, d.offset + d.size) ∧
      readCentral d.count ((bs.drop d.offset).take d.size) = some d.entries := by
  unfold readDirectory at h
  split at h
  · cases h
  · rename_i r pos hend
    split_ifs at h with hguard
    obtain ⟨es, hes, rfl⟩ := Option.map_eq_some_iff.mp h
    obtain ⟨onDisk, count, size, offset⟩ := r
    obtain ⟨hcount, hpos⟩ := hguard
    dsimp only at hcount hpos hes
    subst hcount
    subst hpos
    exact ⟨hend, hes⟩

-- ---------------------------------------------------------------------------
-- The directory that is found
-- ---------------------------------------------------------------------------

theorem length_centralDirectoryBytes (cs : List CentralEntry) :
    (centralDirectoryBytes cs).length =
      (cs.map fun c => 46 + c.name.length + (centralExtra c).length).sum := by
  induction cs with
  | nil => rfl
  | cons c cs ih =>
    rw [centralDirectoryBytes, List.flatMap_cons, List.length_append, length_central,
      ← centralDirectoryBytes, ih, List.map_cons, List.sum_cons]

theorem centralEnd_toNat : ∀ (cs : List CentralEntry) (offset : UInt64),
    offset.toNat + (centralDirectoryBytes cs).length < 2 ^ 64 →
    (centralEnd offset cs).toNat = offset.toNat + (centralDirectoryBytes cs).length
  | [], _, _ => rfl
  | c :: cs, offset, h => by
    rw [length_centralDirectoryBytes, List.map_cons, List.sum_cons,
      ← length_centralDirectoryBytes] at h ⊢
    have hextra := length_centralExtra c
    have hstep : (offset + (46 + UInt64.ofNat c.name.length +
        UInt64.ofNat (centralExtra c).length)).toNat =
        offset.toNat + (46 + c.name.length + (centralExtra c).length) := by
      have h46 : (46 : UInt64).toNat = 46 := rfl
      simp only [UInt64.toNat_add, UInt64.toNat_ofNat', h46]
      omega
    have ih := centralEnd_toNat cs (offset + (46 + UInt64.ofNat c.name.length +
      UInt64.ofNat (centralExtra c).length)) (by rw [hstep]; omega)
    rw [centralEnd, List.foldl_cons, ← centralEnd, ih, hstep]
    omega

/-- What holds of the entries of the layout holds of the central records. -/
theorem Placed.forall_iff {files : List ZipFileEntry} {es : List ArchiveEntry}
    (h : Placed 0 0 files es) (P : Nat → UInt64 → Prop) :
    (∀ c ∈ centralsOf 0 files es, P c.localHeaderOffset.toNat c.size) ↔
      ∀ x ∈ localLayout 0 files, P x.1 x.2.size := by
  have hmap : (∀ y ∈ (centralsOf 0 files es).map fun c => (c.localHeaderOffset.toNat, c.size, c.name),
      P y.1 y.2.1) ↔ ∀ y ∈ (localLayout 0 files).map fun x => (x.1, x.2.size, utf8 (zipName x.2)),
      P y.1 y.2.1 := by
    rw [h.places]
  simpa only [List.forall_mem_map] using hmap

theorem Placed.unclear_iff {files : List ZipFileEntry} {es : List ArchiveEntry}
    (h : Placed 0 0 files es) :
    (∀ c ∈ centralsOf 0 files es, ¬ c.Unclear) ↔
      ∀ x ∈ localLayout 0 files, x.1 ≤ U32_MAX → x.2.size.toNat ≤ U32_MAX →
        x.1 ≠ U32_MAX ∧ x.2.size.toNat ≠ U32_MAX := by
  rw [← h.forall_iff fun pos size =>
    pos ≤ U32_MAX → size.toNat ≤ U32_MAX → pos ≠ U32_MAX ∧ size.toNat ≠ U32_MAX]
  refine forall₂_congr fun c _ => ?_
  unfold CentralEntry.Unclear
  tauto

theorem Placed.length_directory {openFile : String → Except AnyError Reader}
    {files : List ZipFileEntry} {es : List ArchiveEntry} (hw : Written openFile 0 files es)
    (h : Placed 0 0 files es) :
    (centralDirectoryBytes (centralsOf 0 files es)).length = directorySize files := by
  have hcentral : ∀ c ∈ centralsOf 0 files es, 46 + c.name.length + (centralExtra c).length =
      46 + c.name.length + if layoutZip64 c.size.toNat c.localHeaderOffset.toNat then 28 else 0 := by
    intro c hc
    rw [length_centralExtra_eq, (hw.sound_centrals c hc).zip64_eq]
  have hmap := congrArg (List.map fun y : Nat × UInt64 × Bytes =>
    46 + y.2.2.length + if layoutZip64 y.2.1.toNat y.1 then 28 else 0) h.places
  simp only [List.map_map, Function.comp_def] at hmap
  rw [length_centralDirectoryBytes, List.map_congr_left hcentral, hmap]
  rfl

theorem length_centralsOf {openFile : String → Except AnyError Reader} :
    ∀ {files : List ZipFileEntry} {offset : UInt64} {es : List ArchiveEntry},
      Written openFile offset files es →
      (centralsOf offset files es).length = es.length ∧ files.length = es.length
  | [], _, [], _ => ⟨rfl, rfl⟩
  | f :: fs, offset, e :: es, h => by
    obtain ⟨hcentrals, hfiles⟩ := length_centralsOf h.2
    rw [centralsOf, List.length_cons, List.length_cons, List.length_cons, hcentrals, hfiles]
    exact ⟨rfl, rfl⟩

/-- The end records of the archive are found in the true place. -/
theorem readEnd_true_iff {front : Bytes} {count : Nat} {offset size : UInt64} (hcount : count < 2 ^ 64)
    (hfits : offset.toNat + size.toNat < 2 ^ 64) (hfront : front.length = offset.toNat + size.toNat) :
    readEnd (front ++ endRecordsBytes count offset size) =
        some (⟨count, count, size.toNat, offset.toNat⟩, front.length) ↔
      (count ≤ U16_MAX → offset.toNat ≤ U32_MAX → size.toNat ≤ U32_MAX →
        count ≠ U16_MAX ∧ offset.toNat ≠ U32_MAX ∧ size.toNat ≠ U32_MAX) := by
  cases hz : needsZip64Eocd count offset size with
  | true =>
    refine ⟨?_, fun _ => readEnd_zip64 hz hcount hfits hfront⟩
    intro _ hsmall hoffset hsize
    unfold needsZip64Eocd at hz
    simp [not_lt.mpr hsmall, not_lt.mpr hoffset, not_lt.mpr hsize] at hz
  | false =>
    obtain ⟨hsmall, hoffset, hsize⟩ := needsZip64Eocd_eq_false hz
    constructor
    · intro hread _ _ _
      by_contra hunclear
      refine readEnd_unclear hz ?_ _ hread
      tauto
    · intro hclear
      exact readEnd_plain hz (hclear hsmall hoffset hsize)

theorem length_le_centralDirectoryBytes (cs : List CentralEntry) :
    cs.length ≤ (centralDirectoryBytes cs).length := by
  rw [length_centralDirectoryBytes]
  induction cs with
  | nil => exact le_rfl
  | cons c cs ih =>
    rw [List.map_cons, List.sum_cons, List.length_cons]
    omega

/-- What is found where nothing wraps, by the parts of the archive. -/
theorem readDirectory_parts {entries : Bytes} {cs : List CentralEntry}
    (hsound : ∀ c ∈ cs, SoundCentral c) {offset size : UInt64}
    (hoffset : offset.toNat = entries.length)
    (hsize : size.toNat = (centralDirectoryBytes cs).length)
    (hfits : entries.length + (centralDirectoryBytes cs).length < 2 ^ 64) :
    readDirectory (entries ++ (centralDirectoryBytes cs ++ endRecordsBytes cs.length offset size)) =
        some ⟨entries.length, (centralDirectoryBytes cs).length, cs.length, cs.map dirEntryOf⟩ ↔
      (∀ c ∈ cs, ¬ c.Unclear) ∧
        (cs.length ≤ U16_MAX → entries.length ≤ U32_MAX →
          (centralDirectoryBytes cs).length ≤ U32_MAX → cs.length ≠ U16_MAX ∧
            entries.length ≠ U32_MAX ∧ (centralDirectoryBytes cs).length ≠ U32_MAX) := by
  have hcount := length_le_centralDirectoryBytes cs
  have hfront : (entries ++ centralDirectoryBytes cs).length = offset.toNat + size.toNat := by
    rw [List.length_append, hoffset, hsize]
  have hend := @readEnd_true_iff (entries ++ centralDirectoryBytes cs) cs.length offset size (by omega) (by omega) hfront
  have hread := readCentral_eq hsound (cs.map dirEntryOf)
  have hslice : ((entries ++ (centralDirectoryBytes cs ++ endRecordsBytes cs.length offset size)).drop
      entries.length).take (centralDirectoryBytes cs).length = centralDirectoryBytes cs := by
    rw [List.drop_left, List.take_left]
  rw [hfront, hoffset, hsize, List.append_assoc] at hend
  constructor
  · intro hd
    obtain ⟨hdEnd, hdRead⟩ := readDirectory_eq_some hd
    dsimp only at hdEnd hdRead
    rw [hslice] at hdRead
    exact ⟨(hread.mp hdRead).1, hend.mp hdEnd⟩
  · rintro ⟨hclear, hending⟩
    unfold readDirectory
    rw [hend.mpr hending]
    dsimp only
    rw [if_pos ⟨rfl, rfl⟩, hslice, hread.mpr ⟨hclear, rfl⟩]
    rfl

/-- The same, by the layout of the files. -/
theorem Placed.readDirectory_layout {openFile : String → Except AnyError Reader}
    {files : List ZipFileEntry} {es : List ArchiveEntry} (hw : Written openFile 0 files es)
    (hp : Placed 0 0 files es) (hfits : layoutEnd 0 files + directorySize files < 2 ^ 64) :
    readDirectory (archiveBytes files es) = some (trueDirectory files es) ↔ FieldsClear files := by
  obtain ⟨hcentrals, hfiles⟩ := length_centralsOf hw
  have hlen : (es.flatMap ArchiveEntry.bytes).length = layoutEnd 0 files := by
    have := hp.length
    omega
  have hdir := hp.length_directory hw
  have hoffset : (files.foldl nextOffset 0).toNat = (es.flatMap ArchiveEntry.bytes).length := by
    rw [hp.ends, hlen]
  have hsize : (centralEnd (files.foldl nextOffset 0) (centralsOf 0 files es) -
      files.foldl nextOffset 0).toNat = (centralDirectoryBytes (centralsOf 0 files es)).length := by
    have hend := centralEnd_toNat (centralsOf 0 files es) (files.foldl nextOffset 0) (by omega)
    have hle : files.foldl nextOffset 0 ≤
        centralEnd (files.foldl nextOffset 0) (centralsOf 0 files es) := by
      rw [UInt64.le_iff_toNat_le]
      omega
    rw [UInt64.toNat_sub_of_le _ _ hle]
    omega
  have hparts := readDirectory_parts hw.sound_centrals hoffset hsize (by omega)
  rw [← hp.entries, hcentrals, hp.unclear_iff, hlen, hdir] at hparts
  unfold trueDirectory archiveBytes directoryBytes
  dsimp only
  rw [hlen, hdir, hcentrals]
  refine hparts.trans ?_
  rw [← hfiles]
  exact ⟨fun hclear => ⟨hclear.1, hclear.2, hfits⟩, fun hclear => ⟨hclear.entries, hclear.ending⟩⟩

theorem Written.readDirectory_layout {openFile : String → Except AnyError Reader}
    {files : List ZipFileEntry} {es : List ArchiveEntry} (hw : Written openFile 0 files es) :
    readDirectory (archiveBytes files es) = some (trueDirectory files es) ↔ FieldsClear files := by
  -- what is common to both directions: nothing wraps
  have hplaced : (es.flatMap ArchiveEntry.bytes).length +
      (centralDirectoryBytes (centralsOf 0 files es)).length < 2 ^ 64 ∨
      layoutEnd 0 files + directorySize files < 2 ^ 64 → Placed 0 0 files es := by
    intro hfits
    refine hw.placed ?_
    have h0 : (0 : UInt64).toNat = 0 := rfl
    rw [h0]
    rcases hfits with hfits | hfits
    · exact Or.inl (by omega)
    · exact Or.inr (by omega)
  constructor
  · intro hd
    obtain ⟨hend, -⟩ := readDirectory_eq_some hd
    have hlt : (es.flatMap ArchiveEntry.bytes).length +
        (centralDirectoryBytes (centralsOf 0 files es)).length < 2 ^ 64 := readEnd_lt hend rfl
    have hp := hplaced (Or.inl hlt)
    refine (hp.readDirectory_layout hw ?_).mp hd
    have hlen := hp.length
    have hdir := hp.length_directory hw
    omega
  · intro hclear
    exact ((hplaced (Or.inr hclear.fits)).readDirectory_layout hw hclear.fits).mpr hclear

/-- **The archive is read right from its end exactly when no field of its
directory is all ones by chance, and its offsets are `u64`.** -/
theorem readDirectory_iff {openFile : String → Except AnyError Reader} {files : List ZipFileEntry}
    {n : UInt64} {bytes : Bytes} (h : zipOutput openFile files = (.ok n, bytes)) :
    ∃ es, Written openFile 0 files es ∧
      bytes = es.flatMap ArchiveEntry.bytes ++ directoryBytes files es ∧
      (readDirectory bytes = some (trueDirectory files es) ↔ FieldsClear files) := by
  obtain ⟨hw, rfl⟩ := zipOutput_ok h
  exact ⟨_, hw, rfl, hw.readDirectory_layout⟩

theorem readDirectory_iff_twoFiles : ∃ es, Written openTwoFiles 0 twoFiles es ∧
    twoFilesZip = es.flatMap ArchiveEntry.bytes ++ directoryBytes twoFiles es ∧
    (readDirectory twoFilesZip = some (trueDirectory twoFiles es) ↔ FieldsClear twoFiles) :=
  readDirectory_iff twoFilesZip_ok

-- what is found of the two files
example : (readDirectory twoFilesZip).map (fun d => (d.offset, d.size, d.count,
    d.entries.map DirEntry.localHeaderOffset)) = some (104, 102, 2, [0, 52]) := by decide +kernel

/-- The size of a file of `u32::MAX` bytes is all ones in its central record, and
there is no extra field to look it up in. -/
theorem readDirectory_fails : ∃ n bytes, zipOutput openHuge [hugeFile] = (.ok n, bytes) ∧
    ∃ es, Written openHuge 0 [hugeFile] es ∧
      bytes = es.flatMap ArchiveEntry.bytes ++ directoryBytes [hugeFile] es ∧
      readDirectory bytes ≠ some (trueDirectory [hugeFile] es) := by
  obtain ⟨n, bytes, hzip⟩ := zipOutput_hugeFile
  obtain ⟨hw, rfl⟩ := zipOutput_ok hzip
  refine ⟨n, _, hzip, _, hw, rfl, ?_⟩
  intro hread
  have hclear := hw.readDirectory_layout.mp hread
  exact (hclear.entries (0, hugeFile) (List.mem_singleton_self _) (by decide) (by decide)).2 rfl

end Chbk
