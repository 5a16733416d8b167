import Chbk.Zip.Layout
import Chbk.Zip.Names

/-!
# The reader on the writer's entries

`restoreEntry` says what reading one entry does to the file tree, without a
stream: make the parents, create the file, put the data in it. An entry whose
size field is all ones in the short layout (`Ambiguous`) has no outcome: the
reader looks for a ZIP64 extra that is not there.

* `consumes_extractEntry` — the reader takes exactly the bytes of an entry and
  does `restoreEntry`; on an entry cut short it fails.
* `extractLoop_restores`, `extractLoop_stops` — the same for a list of entries.
-/

namespace Chbk

open Lib

/-! ## What an entry does to the tree -/

/-- The writer left out the ZIP64 layout, and the reader expects it. -/
def ArchiveEntry.Ambiguous (e : ArchiveEntry) : Prop := e.zip64 = false ∧ e.data.length = U32_MAX

instance (e : ArchiveEntry) : Decidable e.Ambiguous := inferInstanceAs (Decidable (_ ∧ _))

def restoreEntry (dest : AbsPath) (e : ArchiveEntry) (fs : Fs) : Option Fs :=
  if e.Ambiguous then none
  else
    (createParentFor fs dest e.name).toOption.bind fun fs =>
      (createOut fs dest e.name).toOption.bind fun fs =>
        some (fs.appendFile (join dest e.name) e.data)

/-- The entries one after the other. -/
def restoreEntries (dest : AbsPath) : List ArchiveEntry → Fs → Option Fs
  | [], fs => some fs
  | e :: es, fs => (restoreEntry dest e fs).bind (restoreEntries dest es)

/-- What the writer guarantees of an entry. -/
structure SoundEntry (e : ArchiveEntry) : Prop where
  name : ∃ ns, ZipName ns e.name
  nameLen : (utf8 e.name).length ≤ U16_MAX
  size : e.data.length < 2 ^ 64
  short : e.zip64 = false → e.data.length ≤ U32_MAX

theorem WrittenEntry.sound {openFile : String → Except AnyError Reader} {offset : UInt64}
    {f : ZipFileEntry} {e : ArchiveEntry} (h : WrittenEntry openFile offset f e) :
    SoundEntry e where
  name := ⟨_, pathToZipName_ok h.name⟩
  nameLen := h.nameLen
  size := h.size ▸ f.size.toNat_lt
  short := by
    intro hz
    rw [h.zip64, entryNeedsZip64, Bool.or_eq_false_iff, decide_eq_false_iff_not] at hz
    rw [h.size]
    omega

theorem Written.sound {openFile : String → Except AnyError Reader} :
    ∀ {files : List ZipFileEntry} {offset : UInt64} {es : List ArchiveEntry},
      Written openFile offset files es → ∀ e ∈ es, SoundEntry e
  | [], _, es, h, e, he => by
    rw [Written] at h
    simp [h] at he
  | f :: fs, _, e' :: es, h, e, he => by
    rcases List.mem_cons.mp he with rfl | he
    · exact h.1.sound
    · exact h.2.sound e he

/-! ## Fields -/

/-- The reader may fail with an error value only. -/
def IsError (x : Failure) : Prop := ∃ e, x = .error e

theorem failsFair_bail {α : Type} (e : AnyError) (i : Input Fs) :
    FailsFair IsError (bail e : ZipReader α) i := ⟨_, i, rfl, e, rfl⟩

theorem consumes_readExactRaw {as : Bytes} {n : Nat} (hn : as.length = n) {r : Reader} {bs : Bytes}
    (hr : r.Serves (as ++ bs)) (fs : Fs) :
    ∃ r', readExactRaw n ⟨r, fs⟩ = .ok (.ok as) ⟨r', fs⟩ ∧ r'.Serves bs := by
  obtain ⟨r', hread, hr'⟩ := Reader.readExact_serves hr hn
  exact ⟨r', by rw [readExactRaw, hread], hr'⟩

theorem readExactRaw_short {p : Bytes} {n : Nat} (hn : p.length < n) {r : Reader} (hr : r.Serves p)
    (fs : Fs) :
    ∃ r', readExactRaw n ⟨r, fs⟩ = .ok (.error .unexpectedEof) ⟨r', fs⟩ ∧ r'.Serves [] := by
  obtain ⟨r', hread, hr'⟩ := Reader.readExact_short hr hn
  exact ⟨r', by rw [readExactRaw, hread], hr'⟩

theorem length_lt_of_prefix_ne {α : Type} {p l : List α} (hp : p <+: l) (hne : p ≠ l) :
    p.length < l.length :=
  lt_of_le_of_ne hp.length_le fun h => hne (hp.eq_of_length h)

theorem consumes_readExact (context : String) {as : Bytes} {n : Nat} (hn : as.length = n) :
    Consumes IsError (readExact context n) as some as where
  full := by
    rintro r bs fs _ hr ⟨⟩
    obtain ⟨r', hread, hr'⟩ := consumes_readExactRaw hn hr fs
    exact ⟨r', by rw [readExact, bind_ok hread]; rfl, hr'⟩
  stops := by rintro _ _ _ _ ⟨⟩
  cut := by
    intro r p fs hp hne hr
    obtain ⟨r', hread, -⟩ := readExactRaw_short (hn ▸ length_lt_of_prefix_ne hp hne) hr fs
    exact .of_ok hread (failsFair_bail _ _)

/-- A number read back from its bytes. -/
theorem consumes_number {w v : Nat} (hv : v < 256 ^ w) (context : String) :
    Consumes IsError (do return leNat (← readExact context w)) (leBytes w v) some v := by
  have h : Consumes IsError (readExact context w >>= fun bs => pure (leNat bs))
      (leBytes w v ++ []) _ (leNat (leBytes w v)) :=
    (consumes_readExact context (length_leBytes w v)).bind (Consumes.pure _)
  rw [leNat_leBytes hv] at h
  exact h.congr (List.append_nil _) fun _ => rfl

theorem consumes_readU16 {v : Nat} (hv : v < 65536) :
    Consumes IsError readU16 (leBytes 2 v) some v := consumes_number hv _

theorem consumes_readU32 {v : Nat} (hv : v < 4294967296) :
    Consumes IsError readU32 (leBytes 4 v) some v := consumes_number hv _

theorem consumes_readU64 {v : Nat} (hv : v < 18446744073709551616) :
    Consumes IsError readU64 (leBytes 8 v) some v := consumes_number hv _

/-- A size field holds `u32::MAX` in the ZIP64 layout, else the size. -/
def sizeField (e : ArchiveEntry) : Nat := if e.zip64 then U32_MAX else e.data.length

theorem sizeField_lt {e : ArchiveEntry} (he : SoundEntry e) : sizeField e < 4294967296 := by
  rw [sizeField]
  split_ifs with hz
  · decide
  · exact Nat.lt_of_le_of_lt (he.short (by simpa using hz)) (by decide)

theorem headerSizes_eq (e : ArchiveEntry) :
    headerSizes e.zip64 e.data.length = leBytes 4 (sizeField e) ++ leBytes 4 (sizeField e) := by
  rw [headerSizes, sizeField]
  split_ifs <;> rfl

/-- The header the reader finds in front of an entry. -/
def headerOf (e : ArchiveEntry) : LocalHeader :=
  ⟨ZIP_FLAG_DATA_DESCRIPTOR, ZIP_METHOD_STORED, 0, sizeField e, sizeField e, (utf8 e.name).length,
    (localExtra e.zip64 e.data.length).length⟩

/-- The reader goes by the size field, and agrees with the writer but on
ambiguous entries. -/
theorem headerZip64_headerOf {e : ArchiveEntry} (he : ¬ e.Ambiguous) :
    headerZip64 (headerOf e) = e.zip64 := by
  rw [ArchiveEntry.Ambiguous, not_and] at he
  cases hz : e.zip64 with
  | true => simp [headerZip64, headerOf, sizeField, hz, U32_MAX]
  | false =>
    have hlen : e.data.length ≠ 4294967295 := he hz
    simp [headerZip64, headerOf, sizeField, hz, hlen]

theorem headerZip64_of_ambiguous {e : ArchiveEntry} (he : e.Ambiguous) :
    headerZip64 (headerOf e) = true := by
  simp [headerZip64, headerOf, sizeField, he.1, he.2, U32_MAX]

/-- The fixed fields of a local header behind its signature. -/
def localFieldBytes (e : ArchiveEntry) : Bytes :=
  leBytes 2 ZIP_VERSION_ZIP64 ++ (leBytes 2 ZIP_FLAG_DATA_DESCRIPTOR ++
    (leBytes 2 ZIP_METHOD_STORED ++ (leBytes 2 0 ++ (leBytes 2 0 ++ (leBytes 4 0 ++
    (leBytes 4 (sizeField e) ++ (leBytes 4 (sizeField e) ++ (leBytes 2 (utf8 e.name).length ++
    leBytes 2 (localExtra e.zip64 e.data.length).length))))))))

theorem consumes_readLocalHeader {e : ArchiveEntry} (he : SoundEntry e) :
    Consumes IsError readLocalHeader (localFieldBytes e) some (headerOf e) := by
  have hname : (utf8 e.name).length < 65536 := Nat.lt_of_le_of_lt he.nameLen (by decide)
  have hextra : (localExtra e.zip64 e.data.length).length < 65536 := by
    rw [length_localExtra]
    split_ifs <;> decide
  have hsize := sizeField_lt he
  refine Consumes.congr ((consumes_readU16 (v := ZIP_VERSION_ZIP64) (by decide)).bind <|
    (consumes_readU16 (v := ZIP_FLAG_DATA_DESCRIPTOR) (by decide)).bind <|
    (consumes_readU16 (v := ZIP_METHOD_STORED) (by decide)).bind <|
    (consumes_readU16 (v := 0) (by decide)).bind <|
    (consumes_readU16 (v := 0) (by decide)).bind <|
    (consumes_readU32 (v := 0) (by decide)).bind <|
    (consumes_readU32 hsize).bind <| (consumes_readU32 hsize).bind <|
    (consumes_readU16 hname).bind <| (consumes_readU16 hextra).bind <|
    Consumes.pure (headerOf e)) ?_ fun fs => rfl
  simp [localFieldBytes]

/-! ## The ZIP64 extra -/

theorem slice_ok {bs : Bytes} {i j : Nat} (hij : i ≤ j) (hj : j ≤ bs.length) :
    slice bs i j = .ok ((bs.drop i).take (j - i)) := if_pos ⟨hij, hj⟩

theorem slice_eq {bs a b c : Bytes} {i j : Nat} (h : bs = a ++ (b ++ c)) (hi : i = a.length)
    (hj : j = a.length + b.length) : slice bs i j = .ok b := by
  subst h hi hj
  simp [slice]

/-- The reader finds the writer's sizes. -/
theorem parseZip64_local {n : Nat} (hn : n < 2 ^ 64) :
    parseZip64SizesFromExtra (buildZip64ExtraLocal n n) = .ok (n, n) := by
  have hlen : (buildZip64ExtraLocal n n).length = 20 := by simp [buildZip64ExtraLocal]
  have hid : slice (buildZip64ExtraLocal n n) 0 2 = .ok (leBytes 2 ZIP64_EXTRA_ID) :=
    slice_eq (a := []) (by simp only [buildZip64ExtraLocal, List.append_assoc]; rfl) rfl rfl
  have hsize : slice (buildZip64ExtraLocal n n) 2 4 = .ok (leBytes 2 16) :=
    slice_eq (a := leBytes 2 ZIP64_EXTRA_ID)
      (by simp only [buildZip64ExtraLocal, List.append_assoc]; rfl) rfl rfl
  have huncompressed : slice (buildZip64ExtraLocal n n) 4 12 = .ok (leBytes 8 n) :=
    slice_eq (a := leBytes 2 ZIP64_EXTRA_ID ++ leBytes 2 16)
      (by simp only [buildZip64ExtraLocal, List.append_assoc]; rfl) rfl (by simp)
  have hcompressed : slice (buildZip64ExtraLocal n n) 12 20 = .ok (leBytes 8 n) :=
    slice_eq (a := leBytes 2 ZIP64_EXTRA_ID ++ leBytes 2 16 ++ leBytes 8 n) (c := [])
      (by simp only [buildZip64ExtraLocal, List.append_nil]) (by simp) (by simp)
  have h16 : leNat (leBytes 2 16) = 16 := leNat_leBytes (by decide)
  have h1 : leNat (leBytes 2 ZIP64_EXTRA_ID) = ZIP64_EXTRA_ID := leNat_leBytes (by decide)
  have hn' : leNat (leBytes 8 n) = n := leNat_leBytes (Nat.lt_of_lt_of_le hn (by decide))
  rw [parseZip64SizesFromExtra, hlen, parseZip64Loop]
  simp [hlen, hid, hsize, huncompressed, hcompressed, h16, h1, hn', bind, Except.bind, pure,
    Except.pure]

/-- Without an extra field there is nothing to find. -/
theorem parseZip64_nil :
    parseZip64SizesFromExtra [] = .error (.error ["ZIP64 sizes missing from extra"]) := rfl

theorem consumes_entrySizes {e : ArchiveEntry} (he : SoundEntry e) :
    Consumes IsError (entrySizes (headerOf e) (localExtra e.zip64 e.data.length)) []
      (fun fs => if e.Ambiguous then none else some fs) (e.data.length, e.data.length) := by
  by_cases ha : e.Ambiguous
  · have hfail : entrySizes (headerOf e) (localExtra e.zip64 e.data.length) =
        throw (.error ["ZIP64 sizes missing from extra"]) := by
      simp only [entrySizes, headerZip64_of_ambiguous ha, if_true, localExtra, ha.1,
        Bool.false_eq_true, if_false, parseZip64_nil]
    rw [hfail]
    exact (Consumes.ofFail _ fun i => ⟨_, i, rfl, _, rfl⟩).congr rfl fun fs => (if_pos ha).symm
  · have hok : entrySizes (headerOf e) (localExtra e.zip64 e.data.length) =
        pure (e.data.length, e.data.length) := by
      rw [entrySizes, headerZip64_headerOf ha]
      cases hz : e.zip64 with
      | true => simp only [if_true, localExtra, parseZip64_local he.size]
      | false => simp [headerOf, sizeField, hz]
    rw [hok]
    exact (Consumes.pure _).congr rfl fun fs => (if_neg ha).symm

/-! ## The data -/

theorem Fs.appendFile_nil (fs : Fs) (p : AbsPath) : fs.appendFile p [] = fs := by
  rw [appendFile]
  cases h : fs.files p with
  | none => rfl
  | some old =>
    have hfiles : (fun q => if q = p then some (old ++ []) else fs.files q) = fs.files := by
      funext q
      split_ifs with hq
      · rw [hq, h, List.append_nil]
      · rfl
    simp only [setFile, hfiles]

theorem Fs.appendFile_append (fs : Fs) (p : AbsPath) (as bs : Bytes) :
    (fs.appendFile p as).appendFile p bs = fs.appendFile p (as ++ bs) := by
  cases h : fs.files p with
  | none => simp only [appendFile, h]
  | some old =>
    simp only [appendFile, h, setFile, if_true, List.append_assoc, Fs.mk.injEq, and_true]
    funext q
    split_ifs <;> rfl

/-- A `read` of no more than the data buffer hands out what it has read. -/
theorem readSome_ok {k : Nat} (hk : k ≤ READ_BUF_LEN) {r r' : Reader} {bs : Bytes}
    (h : r.read k = (.ok bs, r')) (fs : Fs) : readSome k ⟨r, fs⟩ = .ok bs ⟨r', fs⟩ := by
  have hlen : bs.length ≤ READ_BUF_LEN := (Reader.read_ok h).1.trans hk
  simp [readSome, bufSlice, hk, hlen, h, bind, EStateM.bind, get, getThe, MonadStateOf.get,
    EStateM.get, set, EStateM.set, pure, EStateM.pure]

theorem readSome_error {k : Nat} (hk : k ≤ READ_BUF_LEN) {r r' : Reader} {e : IoError}
    (h : r.read k = (.error e, r')) (fs : Fs) : readSome k ⟨r, fs⟩ =
      .error (.error ["Failed to read ZIP data", ioErrorText e]) ⟨r', fs⟩ := by
  simp [readSome, bufSlice, hk, h, bind, EStateM.bind, get, getThe, MonadStateOf.get,
    EStateM.get, set, EStateM.set, pure, EStateM.pure, bail, throw, throwThe,
    MonadExceptOf.throw, EStateM.throw]

/-- A round of the data loop takes a piece of what is there. -/
theorem readFileData_step (name : String) (out : AbsPath) (fuel : Nat) {remaining : Nat}
    (hrem : remaining ≠ 0) (crc : UInt32) {r : Reader} {q : Bytes} (hr : r.Serves q) (hq : q ≠ [])
    (fs : Fs) :
    ∃ k r', 0 < k ∧ k ≤ remaining ∧ k ≤ q.length ∧
      readFileData name out (fuel + 1) remaining crc ⟨r, fs⟩ =
        readFileData name out fuel (remaining - k) (crcUpdate crc (q.take k))
          ⟨r', fs.appendFile out (q.take k)⟩ ∧ r'.Serves (q.drop k) := by
  have hpos : 0 < min READ_BUF_LEN remaining := lt_min (by decide) (Nat.pos_of_ne_zero hrem)
  obtain ⟨n, r', hread, hr', hn, hnk⟩ := Reader.read_serves hr hpos
  have hqpos : 0 < q.length := List.length_pos_iff.mpr hq
  have htake : q.take n = q.take (min n q.length) := by
    rw [List.take_eq_take_iff]
    omega
  have hdrop : q.drop n = q.drop (min n q.length) := by
    rcases le_total n q.length with h | h
    · rw [min_eq_left h]
    · rw [min_eq_right h, List.drop_of_length_le h, List.drop_length]
  have hlen : (q.take (min n q.length)).length = min n q.length := by
    rw [List.length_take, min_eq_left (min_le_right ..)]
  have hne : (q.take (min n q.length)).isEmpty = false := by
    rw [List.isEmpty_eq_false_iff, ← List.length_pos_iff, hlen]
    omega
  have hsome : readSome (min READ_BUF_LEN remaining) ⟨r, fs⟩ =
      .ok (q.take (min n q.length)) ⟨r', fs⟩ := by
    rw [← htake]
    exact readSome_ok (min_le_left ..) hread fs
  refine ⟨min n q.length, r', by omega, ?_, min_le_right .., ?_, hdrop ▸ hr'⟩
  · exact (min_le_left ..).trans (hnk.trans (min_le_right ..))
  · rw [readFileData, if_neg hrem, bind_ok hsome, hne, hlen]
    rfl

theorem consumes_readFileData (name : String) (out : AbsPath) : ∀ {fuel : Nat} {data : Bytes}
    (crc : UInt32), data.length ≤ fuel →
    Consumes IsError (readFileData name out fuel data.length crc) data
      (fun fs => some (fs.appendFile out data)) (crcUpdate crc data) := by
  intro fuel
  induction fuel with
  | zero =>
    intro data crc hle
    obtain rfl := List.length_eq_zero_iff.mp (Nat.le_zero.mp hle)
    exact (Consumes.pure crc).congr rfl fun fs => by rw [fs.appendFile_nil]
  | succ fuel ih =>
    intro data crc hle
    by_cases hnil : data = []
    · subst hnil
      exact (Consumes.pure crc).congr rfl fun fs => by rw [fs.appendFile_nil]
    · have hrem : data.length ≠ 0 := by simpa using hnil
      constructor
      case full =>
        rintro r bs fs _ hr ⟨⟩
        obtain ⟨k, r', hk, hkd, -, hstep, hr'⟩ := readFileData_step name out fuel hrem crc hr
          (by simp [hnil]) fs
        rw [List.take_append_of_le_length hkd] at hstep
        rw [List.drop_append_of_le_length hkd] at hr'
        have hlen : data.length - k = (data.drop k).length := (List.length_drop).symm
        obtain ⟨r'', hrest, hr''⟩ := (ih (crcUpdate crc (data.take k))
          (by rw [List.length_drop]; omega)).full (e := fs.appendFile out (data.take k)) hr' rfl
        refine ⟨r'', ?_, hr''⟩
        rw [hstep, hlen, hrest, Fs.appendFile_append, ← crcUpdate_append, List.take_append_drop]
      case stops => rintro _ _ _ _ ⟨⟩
      case cut =>
        intro r p fs hp hne hr
        by_cases hpnil : p = []
        · subst hpnil
          have hpos : 0 < min READ_BUF_LEN data.length :=
            lt_min (by decide) (Nat.pos_of_ne_zero hrem)
          obtain ⟨n, r', hread, -, -, -⟩ := Reader.read_serves hr hpos
          have hsome : readSome (min READ_BUF_LEN data.length) ⟨r, fs⟩ = .ok [] ⟨r', fs⟩ :=
            readSome_ok (min_le_left ..) (by rw [hread, List.take_nil]) fs
          rw [FailsFair, readFileData, if_neg hrem, bind_ok hsome]
          exact ⟨_, _, rfl, _, rfl⟩
        · obtain ⟨k, r', hk, hkd, hkp, hstep, hr'⟩ :=
            readFileData_step name out fuel hrem crc hr hpnil fs
          obtain ⟨q, rfl⟩ := hp
          have hlen : (p ++ q).length - k = (p.drop k ++ q).length := by
            rw [List.length_append, List.length_append, List.length_drop]
            omega
          have hq : q ≠ [] := by
            rintro rfl
            exact hne (List.append_nil p).symm
          rw [FailsFair, hstep, hlen]
          refine (ih _ ?_).cut (List.prefix_append ..) ?_ hr'
          · rw [List.length_append, List.length_drop]
            rw [List.length_append] at hle
            omega
          · intro h
            exact hq (List.self_eq_append_right.mp h)

/-! ## The descriptor and the checks -/

/-- A reader of two numbers that returns them with a third. -/
theorem consumes_sizes {m : ZipReader Nat} {bs : Bytes} {n : Nat} (crc : Nat)
    (h : Consumes IsError m bs some n) :
    Consumes IsError (m >>= fun csize => m >>= fun usize => pure (crc, csize, usize))
      (bs ++ bs) some (crc, n, n) :=
  (h.bind (h.bind (Consumes.pure (crc, n, n)))).congr (by simp) fun _ => rfl

theorem consumes_readDataDescriptor (crc : UInt32) {size : Nat} {zip64 : Bool}
    (hsize : size < 2 ^ 64) (hshort : zip64 = false → size ≤ U32_MAX) :
    Consumes IsError (readDataDescriptor zip64) (descriptorBytes crc size zip64) some
      (crc.toNat, size, size) := by
  have hcrc : Consumes IsError (readU32 >>= fun first =>
        if first = ZIP_DATA_DESCRIPTOR_SIG then readU32 else pure first)
      (leBytes 4 ZIP_DATA_DESCRIPTOR_SIG ++ leBytes 4 crc.toNat) some crc.toNat :=
    ((consumes_readU32 (v := ZIP_DATA_DESCRIPTOR_SIG) (by decide)).bind
      (consumes_readU32 crc.toNat_lt)).congr rfl fun _ => rfl
  have hsplit : readDataDescriptor zip64 = (readU32 >>= fun first =>
        if first = ZIP_DATA_DESCRIPTOR_SIG then readU32 else pure first) >>= fun crc32 =>
      if zip64 then readU64 >>= fun csize => readU64 >>= fun usize => pure (crc32, csize, usize)
      else readU32 >>= fun csize => readU32 >>= fun usize => pure (crc32, csize, usize) := by
    rw [readDataDescriptor, bind_assoc]
    congr 1
    funext first
    split_ifs <;> rfl
  rw [hsplit]
  cases zip64 with
  | true =>
    exact (hcrc.bind (consumes_sizes _ (consumes_readU64 hsize))).congr
      (by simp [descriptorBytes]) fun _ => rfl
  | false =>
    have hlt : size < 4294967296 := Nat.lt_of_le_of_lt (hshort rfl) (by decide)
    exact (hcrc.bind (consumes_sizes _ (consumes_readU32 hlt))).congr
      (by simp [descriptorBytes]) fun _ => rfl

theorem consumes_entryCheck {e : ArchiveEntry} (he : SoundEntry e) (ha : ¬ e.Ambiguous) :
    Consumes IsError (entryCheck (headerOf e) e.data.length e.data.length)
      (descriptorBytes (crc32 e.data) e.data.length e.zip64) some
      ((crc32 e.data).toNat, e.data.length, e.data.length) := by
  have hflag : (headerOf e).flags &&& ZIP_FLAG_DATA_DESCRIPTOR ≠ 0 := by
    simp [headerOf, ZIP_FLAG_DATA_DESCRIPTOR]
  rw [entryCheck, if_pos hflag, headerZip64_headerOf ha]
  exact consumes_readDataDescriptor _ he.size he.short

theorem onFs_ok {f : Fs → Except AnyError Fs} {fs fs' : Fs} (h : f fs = .ok fs') (r : Reader) :
    onFs f ⟨r, fs⟩ = .ok () ⟨r, fs'⟩ := by
  simp [onFs, h, bind, EStateM.bind, get, getThe, MonadStateOf.get, EStateM.get, set, EStateM.set]

theorem onFs_error {f : Fs → Except AnyError Fs} {fs : Fs} {e : AnyError} (h : f fs = .error e)
    (r : Reader) : onFs f ⟨r, fs⟩ = .error (.error e) ⟨r, fs⟩ := by
  simp [onFs, h, bind, EStateM.bind, get, getThe, MonadStateOf.get, EStateM.get, bail, throw,
    throwThe, MonadExceptOf.throw, EStateM.throw]

theorem consumes_onFs (f : Fs → Except AnyError Fs) :
    Consumes IsError (onFs f) [] (fun fs => (f fs).toOption) () := by
  refine Consumes.ofStep ?_ ?_
  · intro r fs fs' h
    cases hf : f fs with
    | error e => simp [hf, Except.toOption] at h
    | ok fs₁ =>
      obtain rfl : fs₁ = fs' := by simpa [hf, Except.toOption] using h
      exact onFs_ok hf r
  · intro r fs h
    cases hf : f fs with
    | ok fs₁ => simp [hf, Except.toOption] at h
    | error e => exact ⟨_, _, onFs_error hf r, e, rfl⟩

theorem liftResult_ok : liftResult (.ok () : Except AnyError Unit) = pure () := rfl

/-! ## One entry -/

/-- The data and the descriptor of an entry, with what they do to the tree. -/
theorem consumes_extractFile {dest : AbsPath} {e : ArchiveEntry} (he : SoundEntry e)
    (ha : ¬ e.Ambiguous) :
    Consumes IsError (extractFile dest e.name (headerOf e) e.data.length e.data.length)
      (e.data ++ descriptorBytes (crc32 e.data) e.data.length e.zip64)
      (restoreEntry dest e) () := by
  obtain ⟨ns, hname⟩ := he.name
  have hcrc : checkCrc e.name (crc32 e.data).toNat
      (crcFinalize (crcUpdate crcInit e.data)).toNat = pure () := by
    rw [checkCrc, crc32, if_neg (not_not.mpr rfl)]
  have hsizes : checkSizes e.name e.data.length e.data.length e.data.length e.data.length =
      pure () := by
    rw [checkSizes, if_neg (by simp)]
  rw [extractFile, hname.validateRelPath_eq, liftResult_ok, pure_bind]
  refine Consumes.congr (Consumes.bind (consumes_onFs _) <| Consumes.bind (consumes_onFs _) <|
    Consumes.bind (consumes_readFileData e.name _ crcInit le_rfl) <|
    Consumes.congr (Consumes.bind (consumes_entryCheck he ha) (?_ : Consumes IsError _ [] some ()))
      (List.append_nil _) fun _ => rfl) rfl ?_
  · simp only [hcrc, hsizes, pure_bind]
    exact Consumes.pure ()
  · intro fs
    simp only [restoreEntry, if_neg ha, Option.bind_some]

/-- **The reader takes exactly the bytes of an entry and restores it.** -/
theorem consumes_extractEntry {dest : AbsPath} {e : ArchiveEntry} (he : SoundEntry e) :
    Consumes IsError (extractEntry dest) e.body (restoreEntry dest e) () := by
  obtain ⟨ns, hname⟩ := he.name
  have hbody : e.body = localFieldBytes e ++ (utf8 e.name ++ (localExtra e.zip64 e.data.length ++
      (e.data ++ descriptorBytes (crc32 e.data) e.data.length e.zip64))) := by
    simp only [ArchiveEntry.body, localHeaderBytes, localFieldBytes, headerSizes_eq,
      List.append_assoc]
  have hdecode : decodeName (utf8 e.name) = pure e.name := by
    rw [decodeName, fromUtf8_utf8]
  have hmethod : checkMethod (headerOf e).method = pure () := rfl
  have htail : Consumes IsError
      (entrySizes (headerOf e) (localExtra e.zip64 e.data.length) >>= fun sizes =>
        if e.name.toList.getLast? = some '/' then extractDir dest e.name
        else extractFile dest e.name (headerOf e) sizes.1 sizes.2)
      (e.data ++ descriptorBytes (crc32 e.data) e.data.length e.zip64)
      (restoreEntry dest e) () := by
    by_cases ha : e.Ambiguous
    · -- the reader stops at the missing extra, whatever comes behind
      have hstop : Consumes IsError (entrySizes (headerOf e) (localExtra e.zip64 e.data.length)) []
          (fun _ => none) (e.data.length, e.data.length) :=
        (consumes_entrySizes he).congr rfl fun fs => if_pos ha
      have hnone : ∀ fs, restoreEntry dest e fs = none := fun fs => if_pos ha
      constructor
      case full =>
        intro r bs fs fs' _ hstep
        rw [hnone fs] at hstep
        exact absurd hstep (by simp)
      case stops =>
        intro r bs fs hr _
        exact (hstop.stops (by simpa using hr) rfl).bind _
      case cut =>
        intro r p fs _ _ hr
        exact (hstop.stops (by simpa using hr) rfl).bind _
    · have hsizes : Consumes IsError
          (entrySizes (headerOf e) (localExtra e.zip64 e.data.length)) [] some
          (e.data.length, e.data.length) :=
        (consumes_entrySizes he).congr rfl fun fs => if_neg ha
      refine Consumes.congr (Consumes.bind hsizes ?_) (List.nil_append _) fun _ => rfl
      rw [if_neg hname.getLast?_ne_slash]
      exact consumes_extractFile he ha
  rw [hbody]
  refine Consumes.congr (Consumes.bind (consumes_readLocalHeader he) <|
    Consumes.bind (consumes_readExact _ rfl) ?_) rfl fun _ => rfl
  rw [hdecode, pure_bind]
  refine Consumes.congr (Consumes.bind (consumes_readExact _ rfl) ?_) rfl fun _ => rfl
  rw [hmethod, pure_bind]
  exact htail

/-! ## The loop over the entries -/

theorem readU32Opt_serves {v : Nat} (hv : v < 4294967296) {r : Reader} {bs : Bytes}
    (hr : r.Serves (leBytes 4 v ++ bs)) (fs : Fs) :
    ∃ r', readU32Opt ⟨r, fs⟩ = .ok (some v) ⟨r', fs⟩ ∧ r'.Serves bs := by
  obtain ⟨r', hread, hr'⟩ := consumes_readExactRaw (length_leBytes 4 v) hr fs
  refine ⟨r', ?_, hr'⟩
  rw [readU32Opt, bind_ok hread]
  simp only [leNat_leBytes (w := 4) hv]
  rfl

/-- At most three bytes are left: the reader takes this for the end. -/
theorem extractLoop_short (dest : AbsPath) (fuel : Nat) {r : Reader} {p : Bytes}
    (hr : r.Serves p) (hp : p.length < 4) (fs : Fs) :
    ∃ r', extractLoop dest (fuel + 1) ⟨r, fs⟩ = .ok () ⟨r', fs⟩ := by
  obtain ⟨r', hread, -⟩ := readExactRaw_short hp hr fs
  have hopt : readU32Opt ⟨r, fs⟩ = .ok none ⟨r', fs⟩ := by
    rw [readU32Opt, bind_ok hread]
    rfl
  exact ⟨r', by rw [extractLoop, bind_ok hopt]; rfl⟩

/-- The reader stops at the directory. -/
theorem extractLoop_directory (dest : AbsPath) (fuel : Nat) {sig : Nat} (hsig : sig ∈ directorySigs)
    {r : Reader} {bs : Bytes} (hr : r.Serves (leBytes 4 sig ++ bs)) (fs : Fs) :
    ∃ r', extractLoop dest (fuel + 1) ⟨r, fs⟩ = .ok () ⟨r', fs⟩ := by
  have hv : sig < 4294967296 :=
    (by decide : ∀ sig ∈ directorySigs, sig < 4294967296) sig hsig
  have hne : sig ≠ ZIP_LOCAL_FILE_HEADER_SIG := by
    rintro rfl
    exact absurd hsig (by decide)
  obtain ⟨r', hopt, -⟩ := readU32Opt_serves hv hr fs
  refine ⟨r', ?_⟩
  rw [extractLoop, bind_ok hopt]
  simp only [if_neg hne]
  rw [if_pos (by simpa [directorySigs] using hsig)]
  rfl

theorem extractLoop_local (dest : AbsPath) (fuel : Nat) {r : Reader} {bs : Bytes}
    (hr : r.Serves (leBytes 4 ZIP_LOCAL_FILE_HEADER_SIG ++ bs)) (fs : Fs) :
    ∃ r', extractLoop dest (fuel + 1) ⟨r, fs⟩ =
      (extractEntry dest >>= fun _ => extractLoop dest fuel) ⟨r', fs⟩ ∧ r'.Serves bs := by
  obtain ⟨r', hopt, hr'⟩ := readU32Opt_serves (by decide) hr fs
  exact ⟨r', by rw [extractLoop, bind_ok hopt]; rfl, hr'⟩

/-- A stream that ends within an entry, past its signature. -/
theorem extractLoop_cut {dest : AbsPath} (fuel : Nat) {e : ArchiveEntry} (he : SoundEntry e)
    {r : Reader} {p : Bytes} (hp : p <+: e.bytes) (hne : p ≠ e.bytes) (hlen : 4 ≤ p.length)
    (hr : r.Serves p) (fs : Fs) : FailsFair IsError (extractLoop dest (fuel + 1)) ⟨r, fs⟩ := by
  rcases prefix_append_cases hp hne with ⟨hsig, hsigne⟩ | ⟨q, rfl, hq, hqne⟩
  · have hlt := length_lt_of_prefix_ne hsig hsigne
    rw [length_leBytes] at hlt
    omega
  · obtain ⟨r', hloop, hr'⟩ := extractLoop_local dest fuel hr fs
    rw [FailsFair, hloop]
    exact ((consumes_extractEntry he).cut hq hqne hr').bind _

/-- **The loop on a list of entries restores them and goes on behind them; it
fails when one of them has no outcome.** -/
theorem extractLoop_restores {dest : AbsPath} : ∀ {es : List ArchiveEntry} {fuel : Nat}
    {r : Reader} {tail : Bytes} {fs : Fs}, (∀ e ∈ es, SoundEntry e) → es.length ≤ fuel →
    r.Serves (es.flatMap ArchiveEntry.bytes ++ tail) →
    (∀ fs', restoreEntries dest es fs = some fs' →
      ∃ r', extractLoop dest fuel ⟨r, fs⟩ = extractLoop dest (fuel - es.length) ⟨r', fs'⟩ ∧
        r'.Serves tail) ∧
    (restoreEntries dest es fs = none → FailsFair IsError (extractLoop dest fuel) ⟨r, fs⟩) := by
  intro es
  induction es with
  | nil =>
    intro fuel r tail fs _ _ hr
    refine ⟨?_, fun h => absurd h (by simp [restoreEntries])⟩
    rintro fs' ⟨⟩
    exact ⟨r, rfl, hr⟩
  | cons e es ih =>
    intro fuel r tail fs hsound hfuel hr
    obtain ⟨fuel, rfl⟩ : ∃ n, fuel = n + 1 := ⟨fuel - 1, by simp at hfuel; omega⟩
    have he := hsound e (List.mem_cons_self ..)
    rw [List.flatMap_cons, ArchiveEntry.bytes, List.append_assoc, List.append_assoc] at hr
    obtain ⟨r₁, hloop, hr₁⟩ := extractLoop_local dest fuel hr fs
    have hentry : Consumes IsError (extractEntry dest) e.body (restoreEntry dest e) () :=
      consumes_extractEntry he
    cases h₁ : restoreEntry dest e fs with
    | none =>
      refine ⟨fun fs' h => absurd h (by simp [restoreEntries, h₁]), fun _ => ?_⟩
      rw [FailsFair, hloop]
      exact (hentry.stops hr₁ h₁).bind _
    | some fs₁ =>
      obtain ⟨r₂, hrun, hr₂⟩ := hentry.full hr₁ h₁
      have hstep : extractLoop dest (fuel + 1) ⟨r, fs⟩ = extractLoop dest fuel ⟨r₂, fs₁⟩ := by
        rw [hloop, bind_ok hrun]
      obtain ⟨hok, hfail⟩ := ih (fun e' he' => hsound e' (List.mem_cons_of_mem _ he'))
        (Nat.le_of_succ_le_succ hfuel) hr₂
      refine ⟨fun fs' h => ?_, fun h => ?_⟩
      · obtain ⟨r₃, hrest, hr₃⟩ := hok fs' (by simpa [restoreEntries, h₁] using h)
        refine ⟨r₃, ?_, hr₃⟩
        rw [hstep, hrest, List.length_cons, Nat.add_sub_add_right]
      · rw [FailsFair, hstep]
        exact hfail (by simpa [restoreEntries, h₁] using h)

end Chbk
