import Chbk.Lib.Codec
import Chbk.Model.PartZip

/-!
# What the ZIP writer emits

An archive is the bytes of its entries one after the other, then the central
directory and the end records. `Written` ties the files given to the writer to
the entries that stand in the stream.

* `writeEntry_ok`, `writeEntries_ok` — a writer that ends well has emitted
  these entries.
* `writeZip_ok` — and behind them comes a directory signature.
* `entryNeedsZip64`, `localOffset` decide the layout of an entry from the sizes
  alone (`Written.zip64`).
-/

namespace Chbk

open Lib

/-! ## Entries as bytes -/

/-- What the writer takes from one file: the name it gives the entry, the data
it copied, and whether the entry is in the ZIP64 layout. -/
structure ArchiveEntry where
  name : String
  data : Bytes
  zip64 : Bool
  deriving DecidableEq, Repr

def headerSizes (zip64 : Bool) (size : Nat) : Bytes :=
  if zip64 then leBytes 4 0xFFFFFFFF ++ leBytes 4 0xFFFFFFFF else leBytes 4 size ++ leBytes 4 size

def localExtra (zip64 : Bool) (size : Nat) : Bytes :=
  if zip64 then buildZip64ExtraLocal size size else []

/-- The local header behind its signature, with the name and the extra field. -/
def localHeaderBytes (name : Bytes) (size : Nat) (zip64 : Bool) : Bytes :=
  leBytes 2 ZIP_VERSION_ZIP64 ++ (leBytes 2 ZIP_FLAG_DATA_DESCRIPTOR ++
    (leBytes 2 ZIP_METHOD_STORED ++ (leBytes 2 0 ++ (leBytes 2 0 ++ (leBytes 4 0 ++
    (headerSizes zip64 size ++ (leBytes 2 name.length ++
    (leBytes 2 (localExtra zip64 size).length ++ (name ++ localExtra zip64 size)))))))))

/-- The data descriptor. -/
def descriptorBytes (crc : UInt32) (size : Nat) (zip64 : Bool) : Bytes :=
  leBytes 4 ZIP_DATA_DESCRIPTOR_SIG ++ (leBytes 4 crc.toNat ++
    if zip64 then leBytes 8 size ++ leBytes 8 size else leBytes 4 size ++ leBytes 4 size)

namespace ArchiveEntry

/-- An entry behind its signature. -/
def body (e : ArchiveEntry) : Bytes :=
  localHeaderBytes (utf8 e.name) e.data.length e.zip64 ++
    (e.data ++ descriptorBytes (crc32 e.data) e.data.length e.zip64)

/-- An entry in the stream. -/
def bytes (e : ArchiveEntry) : Bytes := leBytes 4 ZIP_LOCAL_FILE_HEADER_SIG ++ e.body

end ArchiveEntry

/-! ## The layout of the files -/

/-- Bytes the writer counts for the entry of a file whose name takes `nameLen`
bytes. -/
def entryLength (nameLen : Nat) (size : UInt64) (zip64 : Bool) : UInt64 :=
  30 + UInt64.ofNat nameLen + UInt64.ofNat (localExtra zip64 size.toNat).length + size
    + (if zip64 then 24 else 16)

/-- The name the writer gives the entry of a file; empty where there is none. -/
def zipName (f : ZipFileEntry) : String :=
  match pathToZipName f.relPath with
  | .ok s => s
  | .error _ => ""

/-- Where the entry behind `f` starts, when that of `f` starts at `offset`. -/
def nextOffset (offset : UInt64) (f : ZipFileEntry) : UInt64 :=
  offset + entryLength (utf8 (zipName f)).length f.size (entryNeedsZip64 f.size offset)

/-- `e` is the entry of `f` written at `offset`: it has the name of its path and
the first `size` bytes the opened file hands out. -/
structure WrittenEntry (openFile : String → Except AnyError Reader) (offset : UInt64)
    (f : ZipFileEntry) (e : ArchiveEntry) : Prop where
  name : pathToZipName f.relPath = .ok e.name
  nameLen : (utf8 e.name).length ≤ U16_MAX
  data : ∃ r, openFile f.absPath = .ok r ∧ e.data = r.rest.take f.size.toNat
  size : e.data.length = f.size.toNat
  zip64 : e.zip64 = entryNeedsZip64 f.size offset

/-- The entries of `files`, the first one at `offset`. -/
def Written (openFile : String → Except AnyError Reader) :
    UInt64 → List ZipFileEntry → List ArchiveEntry → Prop
  | _, [], es => es = []
  | _, _ :: _, [] => False
  | offset, f :: fs, e :: es =>
    WrittenEntry openFile offset f e ∧ Written openFile (nextOffset offset f) fs es

/-! ## The writer's steps -/

theorem emits_writeAll (bs : Bytes) : Emits (writeAll bs) bs () := fun _ => rfl

theorem emits_writeU16 (v : Nat) : Emits (writeU16 v) (leBytes 2 v) () := emits_writeAll _
theorem emits_writeU32 (v : Nat) : Emits (writeU32 v) (leBytes 4 v) () := emits_writeAll _
theorem emits_writeU64 (v : Nat) : Emits (writeU64 v) (leBytes 8 v) () := emits_writeAll _

theorem emits_tryIntoU16 {n : Nat} (h : n ≤ U16_MAX) (msg : String) :
    Emits (tryIntoU16 msg n) [] n := by
  rw [tryIntoU16, if_pos h]
  exact Emits.pure n

theorem emits_writeHeaderSizes (zip64 : Bool) (size : UInt64) :
    Emits (writeHeaderSizes zip64 size) (headerSizes zip64 size.toNat) () := by
  cases zip64 with
  | true => exact (emits_writeU32 _).bind (emits_writeU32 _)
  | false => exact (emits_writeU32 _).bind (emits_writeU32 _)

theorem length_localExtra (zip64 : Bool) (size : Nat) :
    (localExtra zip64 size).length = if zip64 then 20 else 0 := by
  cases zip64 <;> simp [localExtra, buildZip64ExtraLocal]

theorem emits_writeLocalHeader {name : Bytes} (hname : name.length ≤ U16_MAX) (size : UInt64)
    (zip64 : Bool) :
    Emits (writeLocalHeader name size zip64)
      (leBytes 4 ZIP_LOCAL_FILE_HEADER_SIG ++ localHeaderBytes name size.toNat zip64)
      (30 + UInt64.ofNat name.length + UInt64.ofNat (localExtra zip64 size.toNat).length) := by
  have hextra : (localExtra zip64 size.toNat).length ≤ U16_MAX := by
    rw [length_localExtra]
    cases zip64 <;> decide
  exact (emits_writeU32 _).bind <| (emits_writeU16 _).bind <| (emits_writeU16 _).bind <|
    (emits_writeU16 _).bind <| (emits_writeU16 _).bind <| (emits_writeU16 _).bind <|
    (emits_writeU32 _).bind <| (emits_writeHeaderSizes zip64 size).bind <|
    (emits_tryIntoU16 hname _).bind <| (emits_writeU16 _).bind <|
    (emits_tryIntoU16 hextra _).bind <| (emits_writeU16 _).bind <| (emits_writeAll _).bind <|
    (emits_writeAll _).andReturn _

/-- The name length is checked on the way. -/
theorem writeLocalHeader_name {name : Bytes} {size : UInt64} {zip64 : Bool} {s s' : Bytes}
    {n : UInt64} (h : writeLocalHeader name size zip64 s = .ok n s') : name.length ≤ U16_MAX := by
  by_contra hlong
  have hthrow : tryIntoU16 "ZIP filename too long" name.length =
      throw ["ZIP filename too long", "out of range integral type conversion attempted"] := by
    rw [tryIntoU16, if_neg hlong]
  simp only [writeLocalHeader, hthrow] at h
  -- eight writes come before the check
  iterate 8 obtain ⟨_, _, -, h⟩ := bind_eq_ok.mp h
  obtain ⟨_, _, h, -⟩ := bind_eq_ok.mp h
  exact throw_ne_ok h

theorem emits_writeDataDescriptor (crc : UInt32) (size : UInt64) (zip64 : Bool) :
    Emits (writeDataDescriptor crc size zip64) (descriptorBytes crc size.toNat zip64)
      (if zip64 then 24 else 16) := by
  refine (emits_writeU32 _).bind ((emits_writeU32 _).bind ?_)
  cases zip64 with
  | true =>
    exact (emits_writeU64 _).bind ((emits_writeU64 _).andReturn _)
  | false =>
    exact (emits_writeU32 _).bind ((emits_writeU32 _).andReturn _)

/-! ## The copy loop -/

/-- Counting a piece and then the rest is counting all of it. -/
theorem offset_advance (offset : UInt64) {k n : Nat} (h : k ≤ n) :
    offset + UInt64.ofNat k + UInt64.ofNat (n - k) = offset + UInt64.ofNat n := by
  rw [UInt64.add_assoc, ← UInt64.ofNat_add, Nat.add_sub_cancel' h]

/-- A copy that ends well has emitted the next `remaining` bytes of the file. -/
theorem copyFileData_ok {absPath : String} : ∀ {fuel remaining : Nat} {r : Reader}
    {crc crc' : UInt32} {offset offset' : UInt64} {s s' : Bytes}, remaining ≤ fuel →
    copyFileData absPath fuel remaining r crc offset s = .ok (crc', offset') s' →
    (r.rest.take remaining).length = remaining ∧ s' = s ++ r.rest.take remaining ∧
      crc' = crcUpdate crc (r.rest.take remaining) ∧ offset' = offset + UInt64.ofNat remaining := by
  intro fuel
  induction fuel with
  | zero =>
    intro remaining r crc crc' offset offset' s s' hle h
    obtain rfl : remaining = 0 := by omega
    obtain ⟨hres, rfl⟩ := pure_eq_ok.mp h
    cases hres
    simp [crcUpdate]
  | succ fuel ih =>
    intro remaining r crc crc' offset offset' s s' hle h
    rw [copyFileData] at h
    split_ifs at h with hzero
    · subst hzero
      obtain ⟨hres, rfl⟩ := pure_eq_ok.mp h
      cases hres
      simp [crcUpdate]
    · rcases hread : r.read (min WRITE_BUF_LEN remaining) with ⟨_ | _ | ⟨b, bs⟩, r'⟩
      · simp only [hread] at h
        exact absurd h throw_ne_ok
      · simp only [hread] at h
        exact absurd h throw_ne_ok
      · simp only [hread] at h
        obtain ⟨hlen, hrest⟩ := Reader.read_ok hread
        have hk : (b :: bs).length ≤ remaining := hlen.trans (min_le_right ..)
        simp only [List.length_cons] at hk
        rw [bind_ok (emits_writeAll _ s)] at h
        obtain ⟨htake, rfl, rfl, rfl⟩ := ih (by omega) h
        have hpiece : r.rest.take remaining = b :: bs ++ r'.rest.take (remaining - (bs.length + 1)) := by
          rw [hrest, List.take_append, List.take_of_length_le (by simpa using hk)]
          simp
        rw [hpiece]
        refine ⟨?_, by simp, by rw [crcUpdate_append], offset_advance offset hk⟩
        rw [List.length_append, htake]
        simp only [List.length_cons]
        omega

/-- A file that has the bytes asked for is copied in full, however it is cut
into reads. -/
theorem emits_copyFileData {absPath : String} : ∀ {fuel : Nat} {data more : Bytes} {r : Reader}
    (crc : UInt32) (offset : UInt64), data.length ≤ fuel → r.Serves (data ++ more) →
    Emits (copyFileData absPath fuel data.length r crc offset) data
      (crcUpdate crc data, offset + UInt64.ofNat data.length) := by
  intro fuel
  induction fuel with
  | zero =>
    intro data more r crc offset hle _
    obtain rfl := List.length_eq_zero_iff.mp (Nat.le_zero.mp hle)
    simpa [copyFileData, crcUpdate] using Emits.pure (crc, offset)
  | succ fuel ih =>
    intro data more r crc offset hle hr
    rw [copyFileData]
    split_ifs with hzero
    · obtain rfl := List.length_eq_zero_iff.mp hzero
      simpa [crcUpdate] using Emits.pure (crc, offset)
    · have hpos : 0 < min WRITE_BUF_LEN data.length :=
        lt_min (by decide) (Nat.pos_of_ne_zero hzero)
      obtain ⟨n, r', hread, hr', hn, hnk⟩ := Reader.read_serves hr hpos
      have hnlen : n ≤ data.length := hnk.trans (min_le_right ..)
      have htake : (data ++ more).take n = data.take n := List.take_append_of_le_length hnlen
      have hdrop : (data ++ more).drop n = data.drop n ++ more :=
        List.drop_append_of_le_length hnlen
      obtain ⟨b, bs, hpiece⟩ : ∃ b bs, data.take n = b :: bs :=
        List.exists_cons_of_length_pos (by rw [List.length_take]; omega)
      have hbs : bs.length + 1 = n := by
        have := congrArg List.length hpiece
        simp only [List.length_take, List.length_cons] at this
        omega
      have hdata : data = b :: bs ++ data.drop n := by rw [← hpiece, List.take_append_drop]
      rw [hread, htake, hpiece]
      have hrest := ih (crcUpdate crc (b :: bs)) (offset + UInt64.ofNat (bs.length + 1))
        (by simp only [List.length_drop]; omega)
        (hdrop ▸ hr')
      rw [List.length_drop, ← hbs] at hrest
      refine cast ?_ ((emits_writeAll (b :: bs)).andThen hrest)
      congr 1
      · exact hbs ▸ hdata.symm
      · rw [← crcUpdate_append, offset_advance offset (hbs ▸ hnlen)]
        exact congrArg (crcUpdate crc · , _) (hbs ▸ hdata.symm)

/-! ## One entry -/

/-- The central record the writer keeps for an entry at `offset`. -/
def centralOf (offset : UInt64) (size : UInt64) (e : ArchiveEntry) : CentralEntry :=
  ⟨utf8 e.name, crc32 e.data, size, offset, e.zip64⟩

theorem zipName_of_ok {f : ZipFileEntry} {name : String} (h : pathToZipName f.relPath = .ok name) :
    zipName f = name := by
  rw [zipName, h]

theorem WrittenEntry.nextOffset_eq {openFile : String → Except AnyError Reader} {offset : UInt64}
    {f : ZipFileEntry} {e : ArchiveEntry} (h : WrittenEntry openFile offset f e) :
    offset + (30 + UInt64.ofNat (utf8 e.name).length
        + UInt64.ofNat (localExtra e.zip64 f.size.toNat).length)
      + f.size + (if e.zip64 then 24 else 16) = nextOffset offset f := by
  simp only [nextOffset, entryLength, zipName_of_ok h.name, ← h.zip64, UInt64.add_assoc]

/-- **A round of the writer's loop that ends well has emitted the entry of the
file.** -/
theorem writeEntry_ok {openFile : String → Except AnyError Reader} {offset offset' : UInt64}
    {f : ZipFileEntry} {c : CentralEntry} {s s' : Bytes}
    (h : writeEntry openFile offset f s = .ok (c, offset') s') :
    ∃ e, WrittenEntry openFile offset f e ∧ s' = s ++ e.bytes ∧ c = centralOf offset f.size e ∧
      offset' = nextOffset offset f := by
  rw [writeEntry] at h
  cases hname : pathToZipName f.relPath with
  | error err =>
    simp only [hname] at h
    obtain ⟨_, _, h, -⟩ := bind_eq_ok.mp h
    exact absurd h throw_ne_ok
  | ok name =>
    simp only [hname, pure_bind] at h
    obtain ⟨n, s₁, hheader, h⟩ := bind_eq_ok.mp h
    have hnameLen := writeLocalHeader_name hheader
    obtain ⟨rfl, rfl⟩ := (emits_writeLocalHeader hnameLen _ _).eq_of_ok hheader
    cases hopen : openFile f.absPath with
    | error err =>
      simp only [hopen] at h
      obtain ⟨_, _, h, -⟩ := bind_eq_ok.mp h
      exact absurd h throw_ne_ok
    | ok r =>
      simp only [hopen] at h
      obtain ⟨⟨crc, off⟩, s₂, hcopy, h⟩ := bind_eq_ok.mp h
      obtain ⟨hlen, rfl, rfl, rfl⟩ := copyFileData_ok le_rfl hcopy
      rw [bind_ok (emits_writeDataDescriptor _ _ _ _)] at h
      obtain ⟨hres, rfl⟩ := pure_eq_ok.mp h
      obtain ⟨rfl, rfl⟩ := Prod.mk.inj hres
      have he : WrittenEntry openFile offset f
          ⟨name, r.rest.take f.size.toNat, entryNeedsZip64 f.size offset⟩ :=
        ⟨hname, hnameLen, ⟨r, hopen, rfl⟩, hlen, rfl⟩
      refine ⟨_, he, ?_, rfl, ?_⟩
      · simp [ArchiveEntry.bytes, ArchiveEntry.body, hlen, crc32]
      · rw [← he.nextOffset_eq, UInt64.ofNat_toNat]

/-- A file that opens and has its bytes is written. -/
theorem emits_writeEntry {openFile : String → Except AnyError Reader} {offset : UInt64}
    {f : ZipFileEntry} {e : ArchiveEntry} {r : Reader} {more : Bytes}
    (h : WrittenEntry openFile offset f e) (hopen : openFile f.absPath = .ok r)
    (hr : r.Serves (e.data ++ more)) :
    Emits (writeEntry openFile offset f) e.bytes
      (centralOf offset f.size e, nextOffset offset f) := by
  have hcopy := @emits_copyFileData f.absPath _ _ _ _ crcInit
    (offset + (30 + UInt64.ofNat (utf8 e.name).length
      + UInt64.ofNat (localExtra e.zip64 f.size.toNat).length)) h.size.le hr
  rw [h.size, UInt64.ofNat_toNat] at hcopy
  have hheader := emits_writeLocalHeader h.nameLen f.size e.zip64
  have hdesc := emits_writeDataDescriptor (crc32 e.data) f.size e.zip64
  have hbytes : e.bytes = (leBytes 4 ZIP_LOCAL_FILE_HEADER_SIG
      ++ localHeaderBytes (utf8 e.name) f.size.toNat e.zip64)
      ++ (e.data ++ (descriptorBytes (crc32 e.data) f.size.toNat e.zip64)) := by
    simp [ArchiveEntry.bytes, ArchiveEntry.body, h.size]
  intro s
  rw [writeEntry]
  simp only [h.name, ← h.zip64, hopen, pure_bind]
  rw [bind_ok (hheader s), bind_ok (hcopy _)]
  change (writeDataDescriptor (crc32 e.data) f.size e.zip64 >>= _) _ = _
  rw [bind_ok (hdesc _), hbytes, ← h.nextOffset_eq]
  simp only [List.append_assoc]
  rfl

/-! ## All entries -/

/-- The central records the writer keeps. -/
def centralsOf : UInt64 → List ZipFileEntry → List ArchiveEntry → List CentralEntry
  | offset, f :: fs, e :: es =>
    centralOf offset f.size e :: centralsOf (nextOffset offset f) fs es
  | _, _, _ => []

/-- **The loop over the files: a writer that ends well has emitted their
entries.** -/
theorem writeEntries_ok {openFile : String → Except AnyError Reader} :
    ∀ {files : List ZipFileEntry} {offset offset' : UInt64} {cs : List CentralEntry} {s s' : Bytes},
      writeEntries openFile offset files s = .ok (cs, offset') s' →
      ∃ es, Written openFile offset files es ∧ s' = s ++ es.flatMap ArchiveEntry.bytes ∧
        cs = centralsOf offset files es ∧ offset' = files.foldl nextOffset offset := by
  intro files
  induction files with
  | nil =>
    intro offset offset' cs s s' h
    obtain ⟨hres, rfl⟩ := pure_eq_ok.mp h
    obtain ⟨rfl, rfl⟩ := Prod.mk.inj hres
    exact ⟨[], rfl, by simp, rfl, rfl⟩
  | cons f fs ih =>
    intro offset offset' cs s s' h
    rw [writeEntries] at h
    obtain ⟨⟨c, off⟩, s₁, hentry, h⟩ := bind_eq_ok.mp h
    obtain ⟨e, he, rfl, rfl, rfl⟩ := writeEntry_ok hentry
    obtain ⟨⟨cs', off'⟩, s₂, hrest, h⟩ := bind_eq_ok.mp h
    obtain ⟨es, hes, rfl, rfl, rfl⟩ := ih hrest
    obtain ⟨hres, rfl⟩ := pure_eq_ok.mp h
    obtain ⟨rfl, rfl⟩ := Prod.mk.inj hres
    exact ⟨e :: es, ⟨he, hes⟩, by simp, rfl, rfl⟩

/-- Files that open, do not fail and have their bytes are written. -/
theorem emits_writeEntries {openFile : String → Except AnyError Reader} :
    ∀ {files : List ZipFileEntry} {offset : UInt64} {es : List ArchiveEntry},
      Written openFile offset files es →
      (∀ f ∈ files, ∀ r, openFile f.absPath = .ok r → Cut.fail ∉ r.cuts) →
      Emits (writeEntries openFile offset files) (es.flatMap ArchiveEntry.bytes)
        (centralsOf offset files es, files.foldl nextOffset offset)
  | [], offset, es, h, _ => by
    obtain rfl : es = [] := h
    exact Emits.pure _
  | f :: fs, offset, e :: es, h, hhealthy => by
    obtain ⟨r, hopen, hdata⟩ := h.1.data
    have hserves : r.Serves (e.data ++ r.rest.drop f.size.toNat) := by
      rw [hdata, List.take_append_drop]
      exact ⟨rfl, hhealthy f (List.mem_cons_self ..) r hopen⟩
    have hentry := emits_writeEntry h.1 hopen hserves
    have hrest := emits_writeEntries h.2 fun f' hf' => hhealthy f' (List.mem_cons_of_mem _ hf')
    intro s
    rw [writeEntries, bind_ok (hentry s)]
    dsimp only
    rw [bind_ok (hrest _), List.flatMap_cons, ← List.append_assoc]
    rfl

/-! ## The central directory and the end records -/

def centralExtra (c : CentralEntry) : Bytes :=
  if c.needsZip64 || c.localHeaderOffset.toNat > U32_MAX then
    buildZip64ExtraCentral c.size.toNat c.size.toNat c.localHeaderOffset.toNat
  else []

/-- The offset field of a central record. -/
def centralOffset (zip64 : Bool) (offset : UInt64) : Bytes :=
  if zip64 then leBytes 4 0xFFFFFFFF else leBytes 4 offset.toNat

/-- A central record behind its signature. -/
def centralHeaderBytes (c : CentralEntry) : Bytes :=
  let zip64 := c.needsZip64 || c.localHeaderOffset.toNat > U32_MAX
  leBytes 2 ZIP_VERSION_ZIP64 ++ (leBytes 2 ZIP_VERSION_ZIP64 ++
    (leBytes 2 ZIP_FLAG_DATA_DESCRIPTOR ++ (leBytes 2 ZIP_METHOD_STORED ++ (leBytes 2 0 ++
    (leBytes 2 0 ++ (leBytes 4 c.crc32.toNat ++ (headerSizes zip64 c.size.toNat ++
    (leBytes 2 c.name.length ++ (leBytes 2 (centralExtra c).length ++ (leBytes 2 0 ++
    (leBytes 2 0 ++ (leBytes 2 0 ++ (leBytes 4 0 ++ (centralOffset zip64 c.localHeaderOffset ++
    (c.name ++ centralExtra c)))))))))))))))

theorem length_centralExtra (c : CentralEntry) : (centralExtra c).length ≤ 28 := by
  rw [centralExtra]
  split_ifs <;> simp [buildZip64ExtraCentral]

theorem emits_writeCentralOffset (zip64 : Bool) (offset : UInt64) :
    Emits (writeCentralOffset zip64 offset) (centralOffset zip64 offset) () := by
  cases zip64 with
  | true => exact emits_writeU32 _
  | false => exact emits_writeU32 _

theorem emits_writeCentralHeader {c : CentralEntry} (hname : c.name.length ≤ U16_MAX) :
    Emits (writeCentralHeader c)
      (leBytes 4 ZIP_CENTRAL_DIRECTORY_FILE_HEADER_SIG ++ centralHeaderBytes c)
      (46 + UInt64.ofNat c.name.length + UInt64.ofNat (centralExtra c).length) := by
  have hextra : (centralExtra c).length ≤ U16_MAX := (length_centralExtra c).trans (by decide)
  exact (emits_writeU32 _).bind <| (emits_writeU16 _).bind <| (emits_writeU16 _).bind <|
    (emits_writeU16 _).bind <| (emits_writeU16 _).bind <| (emits_writeU16 _).bind <|
    (emits_writeU16 _).bind <| (emits_writeU32 _).bind <| (emits_writeHeaderSizes _ c.size).bind <|
    (emits_tryIntoU16 hname _).bind <| (emits_writeU16 _).bind <|
    (emits_tryIntoU16 hextra _).bind <| (emits_writeU16 _).bind <| (emits_writeU16 _).bind <|
    (emits_writeU16 _).bind <| (emits_writeU16 _).bind <| (emits_writeU32 _).bind <|
    (emits_writeCentralOffset _ _).bind <| (emits_writeAll _).bind <|
    (emits_writeAll _).andReturn _

/-- The central directory. -/
def centralDirectoryBytes (cs : List CentralEntry) : Bytes :=
  cs.flatMap fun c => leBytes 4 ZIP_CENTRAL_DIRECTORY_FILE_HEADER_SIG ++ centralHeaderBytes c

/-- Where the central directory ends, when it starts at `offset`. -/
def centralEnd (offset : UInt64) (cs : List CentralEntry) : UInt64 :=
  cs.foldl (fun o c =>
    o + (46 + UInt64.ofNat c.name.length + UInt64.ofNat (centralExtra c).length)) offset

theorem emits_writeCentralDirectory : ∀ {cs : List CentralEntry} (offset : UInt64),
    (∀ c ∈ cs, c.name.length ≤ U16_MAX) →
    Emits (writeCentralDirectory offset cs) (centralDirectoryBytes cs) (centralEnd offset cs)
  | [], _, _ => Emits.pure _
  | c :: _, _, h =>
    (emits_writeCentralHeader (h c (List.mem_cons_self ..))).bind
      (emits_writeCentralDirectory _ fun c' hc' => h c' (List.mem_cons_of_mem _ hc'))

/-- Whether the end of the archive is in the ZIP64 layout. -/
def needsZip64Eocd (fileCount : Nat) (centralDirOffset centralDirSize : UInt64) : Bool :=
  fileCount > U16_MAX || centralDirOffset.toNat > U32_MAX || centralDirSize.toNat > U32_MAX

/-- The ZIP64 end record behind its signature, and the locator. -/
def zip64EndBytes (fileCount : Nat) (centralDirOffset centralDirSize : UInt64) : Bytes :=
  leBytes 8 44 ++ (leBytes 2 ZIP_VERSION_ZIP64 ++ (leBytes 2 ZIP_VERSION_ZIP64 ++
    (leBytes 4 0 ++ (leBytes 4 0 ++ (leBytes 8 fileCount ++ (leBytes 8 fileCount ++
    (leBytes 8 centralDirSize.toNat ++ (leBytes 8 centralDirOffset.toNat ++
    (leBytes 4 ZIP64_END_OF_CENTRAL_DIR_LOCATOR_SIG ++ (leBytes 4 0 ++
    (leBytes 8 (centralDirOffset + centralDirSize).toNat ++ leBytes 4 1)))))))))))

def endCounts (zip64 : Bool) (fileCount : Nat) (centralDirOffset centralDirSize : UInt64) :
    Bytes :=
  if zip64 then
    leBytes 2 0xFFFF ++ (leBytes 2 0xFFFF ++ (leBytes 4 0xFFFFFFFF ++ leBytes 4 0xFFFFFFFF))
  else
    leBytes 2 fileCount ++ (leBytes 2 fileCount ++
      (leBytes 4 centralDirSize.toNat ++ leBytes 4 centralDirOffset.toNat))

/-- The end record behind its signature. -/
def endBytes (zip64 : Bool) (fileCount : Nat) (centralDirOffset centralDirSize : UInt64) : Bytes :=
  leBytes 2 0 ++ (leBytes 2 0 ++
    (endCounts zip64 fileCount centralDirOffset centralDirSize ++ leBytes 2 0))

/-- Everything behind the central directory. -/
def endRecordsBytes (fileCount : Nat) (centralDirOffset centralDirSize : UInt64) : Bytes :=
  if needsZip64Eocd fileCount centralDirOffset centralDirSize then
    (leBytes 4 ZIP64_END_OF_CENTRAL_DIR_SIG ++
      zip64EndBytes fileCount centralDirOffset centralDirSize) ++
    (leBytes 4 ZIP_END_OF_CENTRAL_DIR_SIG ++
      endBytes true fileCount centralDirOffset centralDirSize)
  else
    leBytes 4 ZIP_END_OF_CENTRAL_DIR_SIG ++
      endBytes false fileCount centralDirOffset centralDirSize

theorem length_endRecordsBytes (fileCount : Nat) (centralDirOffset centralDirSize : UInt64) :
    (endRecordsBytes fileCount centralDirOffset centralDirSize).length =
      (if needsZip64Eocd fileCount centralDirOffset centralDirSize then 76 else 0) + 22 := by
  unfold endRecordsBytes
  split_ifs
  · simp [zip64EndBytes, endBytes, endCounts]
  · simp [endBytes, endCounts]

theorem emits_writeEndRecord (zip64 : Bool) (fileCount : Nat)
    (centralDirOffset centralDirSize : UInt64) :
    Emits (writeEndRecord zip64 fileCount centralDirOffset centralDirSize)
      (leBytes 4 ZIP_END_OF_CENTRAL_DIR_SIG ++
        endBytes zip64 fileCount centralDirOffset centralDirSize) () := by
  have hcounts : Emits (writeEndCounts zip64 fileCount centralDirOffset centralDirSize)
      (endCounts zip64 fileCount centralDirOffset centralDirSize) () := by
    cases zip64 with
    | true =>
      exact (emits_writeU16 _).bind <| (emits_writeU16 _).bind <| (emits_writeU32 _).bind <|
        emits_writeU32 _
    | false =>
      exact (emits_writeU16 _).bind <| (emits_writeU16 _).bind <| (emits_writeU32 _).bind <|
        emits_writeU32 _
  exact (emits_writeU32 _).bind <| (emits_writeU16 _).bind <| (emits_writeU16 _).bind <|
    hcounts.bind <| emits_writeU16 _

theorem emits_writeEndRecords (fileCount : Nat) (centralDirOffset centralDirSize offset : UInt64) :
    Emits (writeEndRecords fileCount centralDirOffset centralDirSize offset)
      (endRecordsBytes fileCount centralDirOffset centralDirSize)
      (if needsZip64Eocd fileCount centralDirOffset centralDirSize then offset + 56 + 20 + 22
        else offset + 22) := by
  rw [writeEndRecords, endRecordsBytes, ← needsZip64Eocd]
  split_ifs
  · have hzip64 : Emits (writeZip64EndRecords fileCount centralDirOffset centralDirSize)
        (leBytes 4 ZIP64_END_OF_CENTRAL_DIR_SIG ++
          zip64EndBytes fileCount centralDirOffset centralDirSize) () :=
      (emits_writeU32 _).bind <| (emits_writeU64 _).bind <| (emits_writeU16 _).bind <|
      (emits_writeU16 _).bind <| (emits_writeU32 _).bind <| (emits_writeU32 _).bind <|
      (emits_writeU64 _).bind <| (emits_writeU64 _).bind <| (emits_writeU64 _).bind <|
      (emits_writeU64 _).bind <| (emits_writeU32 _).bind <| (emits_writeU32 _).bind <|
      (emits_writeU64 _).bind <| emits_writeU32 _
    exact hzip64.bind ((emits_writeEndRecord _ _ _ _).andReturn _)
  · exact (emits_writeEndRecord _ _ _ _).andReturn _

/-! ## The archive -/

/-- Everything behind the entries of `files`. -/
def directoryBytes (files : List ZipFileEntry) (es : List ArchiveEntry) : Bytes :=
  let cs := centralsOf 0 files es
  let centralDirOffset := files.foldl nextOffset 0
  centralDirectoryBytes cs ++ endRecordsBytes cs.length centralDirOffset
    (centralEnd centralDirOffset cs - centralDirOffset)

/-- An archive: its entries, then its directory. -/
def archiveBytes (files : List ZipFileEntry) (es : List ArchiveEntry) : Bytes :=
  es.flatMap ArchiveEntry.bytes ++ directoryBytes files es

theorem Written.centralsOf_nameLen {openFile : String → Except AnyError Reader} :
    ∀ {files : List ZipFileEntry} {offset : UInt64} {es : List ArchiveEntry},
      Written openFile offset files es →
      ∀ c ∈ centralsOf offset files es, c.name.length ≤ U16_MAX
  | [], _, [], _, c, hc => by simp [centralsOf] at hc
  | f :: fs, offset, e :: es, h, c, hc => by
    rcases List.mem_cons.mp hc with rfl | hc
    · exact h.1.nameLen
    · exact h.2.centralsOf_nameLen c hc

/-- Where the archive ends, by the writer's own counting. -/
def archiveEnd (files : List ZipFileEntry) (es : List ArchiveEntry) : UInt64 :=
  let cs := centralsOf 0 files es
  let centralDirOffset := files.foldl nextOffset 0
  let offset := centralEnd centralDirOffset cs
  if needsZip64Eocd cs.length centralDirOffset (offset - centralDirOffset) then
    offset + 56 + 20 + 22
  else offset + 22

/-- The writer behind its loop over the files. -/
theorem Written.emits_directory {openFile : String → Except AnyError Reader}
    {files : List ZipFileEntry} {es : List ArchiveEntry} (h : Written openFile 0 files es) :
    Emits (writeCentralDirectory (files.foldl nextOffset 0) (centralsOf 0 files es) >>= fun offset =>
        writeEndRecords (centralsOf 0 files es).length (files.foldl nextOffset 0)
          (offset - files.foldl nextOffset 0) offset)
      (directoryBytes files es) (archiveEnd files es) :=
  (emits_writeCentralDirectory _ h.centralsOf_nameLen).bind (emits_writeEndRecords _ _ _ _)

/-- A writer whose loop over the files ends well ends well. -/
theorem emits_writeZip {openFile : String → Except AnyError Reader} {files : List ZipFileEntry}
    {es : List ArchiveEntry} (hes : Written openFile 0 files es)
    (h : Emits (writeEntries openFile 0 files) (es.flatMap ArchiveEntry.bytes)
      (centralsOf 0 files es, files.foldl nextOffset 0)) :
    Emits (writeZip openFile files) (archiveBytes files es) (archiveEnd files es) :=
  h.bind hes.emits_directory

/-- **A writer that ends well has emitted the archive of its files.** -/
theorem writeZip_ok {openFile : String → Except AnyError Reader} {files : List ZipFileEntry}
    {n : UInt64} {s s' : Bytes} (h : writeZip openFile files s = .ok n s') :
    ∃ es, Written openFile 0 files es ∧ s' = s ++ archiveBytes files es ∧
      n = archiveEnd files es := by
  rw [writeZip] at h
  obtain ⟨⟨cs, off⟩, s₁, hentries, h⟩ := bind_eq_ok.mp h
  obtain ⟨es, hes, rfl, rfl, rfl⟩ := writeEntries_ok hentries
  obtain ⟨rfl, rfl⟩ := hes.emits_directory.eq_of_ok h
  exact ⟨es, hes, by rw [archiveBytes, List.append_assoc], rfl⟩

/-- The signatures at which the reader stops. -/
def directorySigs : List Nat :=
  [ZIP_CENTRAL_DIRECTORY_FILE_HEADER_SIG, ZIP_END_OF_CENTRAL_DIR_SIG,
    ZIP64_END_OF_CENTRAL_DIR_SIG, ZIP64_END_OF_CENTRAL_DIR_LOCATOR_SIG]

/-- Behind the entries stands a signature at which the reader stops. -/
theorem directoryBytes_sig (files : List ZipFileEntry) (es : List ArchiveEntry) :
    ∃ sig rest, sig ∈ directorySigs ∧ directoryBytes files es = leBytes 4 sig ++ rest := by
  rw [directoryBytes]
  cases centralsOf 0 files es with
  | nil =>
    simp only [centralDirectoryBytes, List.flatMap_nil, List.nil_append, endRecordsBytes]
    split_ifs
    · exact ⟨ZIP64_END_OF_CENTRAL_DIR_SIG, _, by decide, List.append_assoc ..⟩
    · exact ⟨ZIP_END_OF_CENTRAL_DIR_SIG, _, by decide, rfl⟩
  | cons c cs =>
    simp only [centralDirectoryBytes, List.flatMap_cons, List.append_assoc]
    exact ⟨ZIP_CENTRAL_DIRECTORY_FILE_HEADER_SIG, _, by decide, rfl⟩

end Chbk
