import Chbk.Zip.Directory
import Chbk.Zip.Truncation

/-!
# What an accepted archive declares

The local entries of a stream, read without the reader of the program, and what
the reader has checked of them when it succeeds.

* `declaredEntries` — the entries in front of a stream: sizes from the header or
  the ZIP64 extra, the CRC from the data descriptor or the header.
* `extractLoop_ok` — a reader that succeeds has taken these entries, and no
  others; each file has the compressed size and the CRC that its entry declares.
* `accepted_consistent_iff` — the uncompressed size is compared with that of the
  descriptor only, if there is one, and never with the data.
* `accepted_inconsistent` — an entry of one byte that declares two.
-/

namespace Chbk

open Lib

-- ---------------------------------------------------------------------------
-- The entries of a stream
-- ---------------------------------------------------------------------------

/-- What a local entry declares of its file, and the bytes behind its header. -/
structure LocalEntry where
  name : String
  compressedSize : Nat
  uncompressedSize : Nat
  crc32 : Nat
  data : Bytes

/-- The compressed and the uncompressed size of an entry, by the two fields of
its header and its ZIP64 extra. -/
def declaredSizes (csize usize : Nat) (extra : Bytes) : Option (Nat × Nat) :=
  if csize = U32_MAX ∨ usize = U32_MAX then
    match (findZip64 extra.length extra).bind (decodeFields [8, 8]) with
    | some ([uncompressed, compressed], _) => some (compressed, uncompressed)
    | _ => none
  else some (csize, usize)

/-- The CRC of a data descriptor, whose sizes take `w` bytes each. -/
def descriptorCrc (w : Nat) (bs : Bytes) : Option (Nat × Bytes) :=
  match decodeFields [4] bs with
  | some ([first], rest) =>
    if first = ZIP_DATA_DESCRIPTOR_SIG then
      match decodeFields [4, w, w] rest with
      | some ([crc32, _, _], rest) => some (crc32, rest)
      | _ => none
    else (decodeFields [w, w] rest).map fun x => (first, x.2)
  | _ => none

/-- The CRC of an entry: that of its data descriptor, or of its header when the
descriptor flag is clear. -/
def declaredCrc (flags crc32 w : Nat) (bs : Bytes) : Option (Nat × Bytes) :=
  if flags &&& ZIP_FLAG_DATA_DESCRIPTOR ≠ 0 then descriptorCrc w bs else some (crc32, bs)

/-- A name that ends in `/` is that of a directory. Its entry has no data. -/
def isDirName (name : String) : Bool := name.toList.getLast? = some '/'

/-- One entry behind its signature, and what is behind it. -/
def readLocalEntry (bs : Bytes) : Option (LocalEntry × Bytes) :=
  match decodeFields [2, 2, 2, 2, 2, 4, 4, 4, 2, 2] bs with
  | some ([_, flags, _, _, _, crc32, csize, usize, nameLen, extraLen], rest) =>
    let behind := rest.drop (nameLen + extraLen)
    match fromUtf8 (rest.take nameLen),
        declaredSizes csize usize ((rest.drop nameLen).take extraLen) with
    | some name, some (c, u) =>
      if isDirName name then some (⟨name, c, u, crc32, []⟩, behind)
      else
        (declaredCrc flags crc32 (if csize = U32_MAX ∨ usize = U32_MAX then 8 else 4)
          (behind.drop c)).map fun x => (⟨name, c, u, x.1, behind.take c⟩, x.2)
    | _, _ => none
  | _ => none

/-- The entries in front of a stream. -/
def localEntries : Nat → Bytes → List LocalEntry
  | 0, _ => []
  | fuel + 1, bs =>
    match decodeFields [4] bs with
    | some ([sig], rest) =>
      if sig = ZIP_LOCAL_FILE_HEADER_SIG then
        match readLocalEntry rest with
        | some (e, rest) => e :: localEntries fuel rest
        | none => []
      else []
    | _ => []

/-- Each entry takes bytes of the stream, so there are not more entries than
bytes. -/
def declaredEntries (bs : Bytes) : List LocalEntry := localEntries (bs.length + 1) bs

/-- The last file entry with a place. -/
def lastFile (dest p : AbsPath) : List LocalEntry → Option LocalEntry
  | [] => none
  | e :: es => (lastFile dest p es).or
      (if !isDirName e.name && p = join dest e.name then some e else none)

/-- The data of an entry is as declared, but for the uncompressed size. -/
structure LocalEntry.Stored (e : LocalEntry) : Prop where
  size : e.data.length = e.compressedSize
  crc : (Lib.crc32 e.data).toNat = e.crc32

-- ---------------------------------------------------------------------------
-- Steps that succeed
-- ---------------------------------------------------------------------------

theorem readExact_ok {context : String} {n : Nat} {i i' : Input Fs} {bs : Bytes}
    (h : readExact context n i = .ok bs i') :
    i'.env = i.env ∧ bs.length = n ∧ i.reader.rest = bs ++ i'.reader.rest := by
  obtain ⟨x, i₁, hraw, h⟩ := bind_eq_ok.mp h
  have hi₁ : i₁ = ⟨(i.reader.readExact n).2, i.env⟩ := by
    cases hraw
    rfl
  have hx : (i.reader.readExact n).1 = x := by
    cases hraw
    rfl
  cases x with
  | error e => exact absurd h throw_ne_ok
  | ok bs₁ =>
    obtain ⟨rfl, rfl⟩ := pure_eq_ok.mp h
    rw [hi₁]
    exact ⟨rfl, Reader.readExact_ok (Prod.ext hx rfl)⟩

/-- A number that is read is the first field of what was left. -/
theorem number_ok {context : String} {w v : Nat} {i i' : Input Fs}
    (h : (do return leNat (← readExact context w) : ZipReader Nat) i = .ok v i') :
    i'.env = i.env ∧ ∀ ws, decodeFields (w :: ws) i.reader.rest =
      (decodeFields ws i'.reader.rest).map fun x => (v :: x.1, x.2) := by
  obtain ⟨bs, i₁, hread, h⟩ := bind_eq_ok.mp h
  obtain ⟨rfl, rfl⟩ := pure_eq_ok.mp h
  obtain ⟨henv, hlen, hrest⟩ := readExact_ok hread
  exact ⟨henv, fun ws => by rw [hrest, decodeFields_append hlen]⟩

theorem readLocalHeader_ok {i i' : Input Fs} {h : LocalHeader}
    (hok : readLocalHeader i = .ok h i') : i'.env = i.env ∧
      ∃ version time date, decodeFields [2, 2, 2, 2, 2, 4, 4, 4, 2, 2] i.reader.rest =
        some ([version, h.flags, h.method, time, date, h.crc32, h.compressedSize,
          h.uncompressedSize, h.nameLen, h.extraLen], i'.reader.rest) := by
  unfold readLocalHeader at hok
  obtain ⟨version, i₁, h₁, hok⟩ := bind_eq_ok.mp hok
  obtain ⟨flags, i₂, h₂, hok⟩ := bind_eq_ok.mp hok
  obtain ⟨method, i₃, h₃, hok⟩ := bind_eq_ok.mp hok
  obtain ⟨time, i₄, h₄, hok⟩ := bind_eq_ok.mp hok
  obtain ⟨date, i₅, h₅, hok⟩ := bind_eq_ok.mp hok
  obtain ⟨crc32, i₆, h₆, hok⟩ := bind_eq_ok.mp hok
  obtain ⟨csize, i₇, h₇, hok⟩ := bind_eq_ok.mp hok
  obtain ⟨usize, i₈, h₈, hok⟩ := bind_eq_ok.mp hok
  obtain ⟨nameLen, i₉, h₉, hok⟩ := bind_eq_ok.mp hok
  obtain ⟨extraLen, i₁₀, h₁₀, hok⟩ := bind_eq_ok.mp hok
  obtain ⟨rfl, rfl⟩ := pure_eq_ok.mp hok
  obtain ⟨e₁, h₁⟩ := number_ok h₁
  obtain ⟨e₂, h₂⟩ := number_ok h₂
  obtain ⟨e₃, h₃⟩ := number_ok h₃
  obtain ⟨e₄, h₄⟩ := number_ok h₄
  obtain ⟨e₅, h₅⟩ := number_ok h₅
  obtain ⟨e₆, h₆⟩ := number_ok h₆
  obtain ⟨e₇, h₇⟩ := number_ok h₇
  obtain ⟨e₈, h₈⟩ := number_ok h₈
  obtain ⟨e₉, h₉⟩ := number_ok h₉
  obtain ⟨e₁₀, h₁₀⟩ := number_ok h₁₀
  refine ⟨by rw [e₁₀, e₉, e₈, e₇, e₆, e₅, e₄, e₃, e₂, e₁], version, time, date, ?_⟩
  rw [h₁, h₂, h₃, h₄, h₅, h₆, h₇, h₈, h₉, h₁₀]
  rfl

theorem readU32Opt_eq_ok {i i' : Input Fs} {x : Option Nat} (hok : readU32Opt i = .ok x i') :
    i'.env = i.env ∧ decodeFields [4] i.reader.rest = x.map fun sig => ([sig], i'.reader.rest) := by
  obtain ⟨y, i₁, hraw, hrest⟩ := bind_eq_ok.mp hok
  have hi₁ : i₁ = ⟨(i.reader.readExact 4).2, i.env⟩ := by
    cases hraw
    rfl
  have hread : i.reader.readExact 4 = (y, i₁.reader) := by
    cases hraw
    rfl
  cases y with
  | ok bs =>
    obtain ⟨rfl, rfl⟩ := pure_eq_ok.mp hrest
    obtain ⟨hlen, hsplit⟩ := Reader.readExact_ok hread
    rw [hsplit, decodeFields_append hlen, hi₁]
    exact ⟨rfl, rfl⟩
  | error e =>
    cases e with
    | unexpectedEof =>
      obtain ⟨rfl, rfl⟩ := pure_eq_ok.mp hrest
      have hshort := Reader.readExact_eof hread
      rw [decodeFields, if_pos hshort, hi₁]
      exact ⟨rfl, rfl⟩
    | other => exact absurd hrest throw_ne_ok

theorem onFs_eq_ok {f : Fs → Except AnyError Fs} {i i' : Input Fs} {u : Unit}
    (hok : onFs f i = .ok u i') : ∃ fs', f i.env = .ok fs' ∧ i' = ⟨i.reader, fs'⟩ := by
  obtain ⟨r, fs⟩ := i
  cases hf : f fs with
  | ok fs' =>
    rw [onFs_ok hf] at hok
    cases hok
    exact ⟨fs', rfl, rfl⟩
  | error e =>
    rw [onFs_error hf] at hok
    cases hok

theorem liftResult_eq_ok {α : Type} {y : Except AnyError α} {a : α} {i i' : Input Fs}
    (hok : liftResult y i = .ok a i') : i = i' := by
  cases y with
  | ok b => exact (pure_eq_ok.mp hok).2
  | error e => exact absurd hok throw_ne_ok

theorem decodeName_ok {bs : Bytes} {i i' : Input Fs} {name : String}
    (hok : decodeName bs i = .ok name i') : i = i' ∧ fromUtf8 bs = some name := by
  unfold decodeName at hok
  cases hs : fromUtf8 bs with
  | some s =>
    rw [hs] at hok
    obtain ⟨rfl, rfl⟩ := pure_eq_ok.mp hok
    exact ⟨rfl, rfl⟩
  | none =>
    rw [hs] at hok
    exact absurd hok throw_ne_ok

theorem checkMethod_ok {method : Nat} {i i' : Input Fs} {x : Unit}
    (hok : checkMethod method i = .ok x i') : i = i' := by
  unfold checkMethod at hok
  by_cases hne : method ≠ ZIP_METHOD_STORED
  · rw [if_pos hne] at hok
    exact absurd hok throw_ne_ok
  · rw [if_neg hne] at hok
    exact (pure_eq_ok.mp hok).2

theorem checkCrc_ok {name : String} {crc32 computed : Nat} {i i' : Input Fs} {x : Unit}
    (hok : checkCrc name crc32 computed i = .ok x i') : i = i' ∧ crc32 = computed := by
  unfold checkCrc at hok
  by_cases hne : crc32 ≠ computed
  · rw [if_pos hne] at hok
    exact absurd hok throw_ne_ok
  · rw [if_neg hne] at hok
    exact ⟨(pure_eq_ok.mp hok).2, not_not.mp hne⟩

theorem checkSizes_ok {name : String} {c u c' u' : Nat} {i i' : Input Fs} {x : Unit}
    (hok : checkSizes name c u c' u' i = .ok x i') : i = i' := by
  unfold checkSizes at hok
  by_cases hne : c' ≠ c ∨ u' ≠ u
  · rw [if_pos hne] at hok
    exact absurd hok throw_ne_ok
  · rw [if_neg hne] at hok
    exact (pure_eq_ok.mp hok).2

-- ---------------------------------------------------------------------------
-- Sizes and descriptors
-- ---------------------------------------------------------------------------

/-- The loop over the extra field finds the sizes of its first ZIP64 block. -/
theorem parseZip64Loop_ok {extra : Bytes} {c u : Nat} : ∀ {fuel fuel' i : Nat},
    extra.length ≤ fuel' + i → parseZip64Loop extra fuel i = .ok (c, u) →
    ∃ rest, (findZip64 fuel' (extra.drop i)).bind (decodeFields [8, 8]) = some ([u, c], rest)
  | 0, _, _, _, h => by cases h
  | fuel + 1, fuel', i, hfuel, h => by
    unfold parseZip64Loop at h
    by_cases hguard : i + 4 ≤ extra.length
    · obtain ⟨fuel', rfl⟩ : ∃ n, fuel' = n + 1 := ⟨fuel' - 1, by omega⟩
      have hhead := @decodeFields_two extra i 2 (by omega)
      have hid : i + 2 - i = 2 := by omega
      have hsize : i + 4 - (i + 2) = 2 := by omega
      rw [if_pos hguard, slice_ok (by omega) (by omega), slice_ok (by omega) (by omega), hid,
        hsize] at h
      simp only [bind, Except.bind] at h
      unfold findZip64
      rw [hhead]
      generalize leNat ((extra.drop i).take 2) = id at h ⊢
      generalize leNat ((extra.drop (i + 2)).take 2) = len at h ⊢
      have hrest : (extra.drop (i + 2 + 2)).length = extra.length - (i + 4) := List.length_drop
      dsimp only
      by_cases hlong : i + 4 + len > extra.length
      · rw [if_pos hlong] at h
        cases h
      rw [if_neg hlong] at h
      rw [if_neg (by omega)]
      by_cases hzip : id = ZIP64_EXTRA_ID
      · rw [if_pos hzip] at h ⊢
        by_cases hshort : len < 16
        · rw [if_pos hshort] at h
          cases h
        rw [if_neg hshort, slice_ok (by omega) (by omega), slice_ok (by omega) (by omega)] at h
        obtain ⟨rfl, rfl⟩ := Prod.mk.inj (Except.ok.inj h)
        have hpayload : 0 + 2 * 8 ≤ ((extra.drop (i + 4)).take len).length := by
          rw [List.length_take, List.length_drop]
          omega
        have hsizes := decodeFields_two hpayload
        have hfirst : min 8 len = 8 := by omega
        have hsecond : min 8 (len - 8) = 8 := by omega
        rw [List.drop_zero, List.take_take, hfirst, List.drop_take, List.take_take, Nat.zero_add,
          hsecond, List.drop_drop] at hsizes
        have h8 : i + 4 + 8 - (i + 4) = 8 := by omega
        have h16 : i + 4 + 16 - (i + 4 + 8) = 8 := by omega
        rw [h8, h16]
        exact ⟨_, hsizes⟩
      · rw [if_neg hzip] at h ⊢
        have hnext := @parseZip64Loop_ok extra c u fuel fuel' (i + 4 + len) (by omega) h
        rw [List.drop_drop]
        exact hnext
    · rw [if_neg hguard] at h
      cases h

theorem entrySizes_ok {h : LocalHeader} {extra : Bytes} {i i' : Input Fs} {sizes : Nat × Nat}
    (hok : entrySizes h extra i = .ok sizes i') :
    i' = i ∧ declaredSizes h.compressedSize h.uncompressedSize extra = some sizes := by
  unfold entrySizes headerZip64 at hok
  unfold declaredSizes U32_MAX
  by_cases hz : h.compressedSize = 4294967295 ∨ h.uncompressedSize = 4294967295
  · rw [if_pos hz]
    rw [if_pos (by simpa using hz)] at hok
    cases hparse : parseZip64SizesFromExtra extra with
    | error e =>
      rw [hparse] at hok
      exact absurd hok throw_ne_ok
    | ok s =>
      rw [hparse] at hok
      obtain ⟨rfl, rfl⟩ := pure_eq_ok.mp hok
      obtain ⟨rest, hfound⟩ := @parseZip64Loop_ok extra s.1 s.2 _ extra.length 0 (by omega) hparse
      rw [List.drop_zero] at hfound
      rw [hfound]
      exact ⟨rfl, rfl⟩
  · rw [if_neg hz]
    rw [if_neg (by simpa using hz)] at hok
    obtain ⟨rfl, rfl⟩ := pure_eq_ok.mp hok
    exact ⟨rfl, rfl⟩

/-- Two numbers of `w` bytes that are returned with a third. -/
theorem twoNumbers_ok {m : ZipReader Nat} {context : String} {w crc32 : Nat}
    (hm : m = do return leNat (← readExact context w)) {i i' : Input Fs} {x : Nat × Nat × Nat}
    (hok : (m >>= fun csize => m >>= fun usize => pure (crc32, csize, usize)) i = .ok x i') :
    i'.env = i.env ∧ x.1 = crc32 ∧
      decodeFields [w, w] i.reader.rest = some ([x.2.1, x.2.2], i'.reader.rest) := by
  subst hm
  obtain ⟨csize, i₁, h₁, hok⟩ := bind_eq_ok.mp hok
  obtain ⟨usize, i₂, h₂, hok⟩ := bind_eq_ok.mp hok
  obtain ⟨rfl, rfl⟩ := pure_eq_ok.mp hok
  obtain ⟨henv₁, h₁⟩ := number_ok h₁
  obtain ⟨henv₂, h₂⟩ := number_ok h₂
  refine ⟨henv₂.trans henv₁, rfl, ?_⟩
  rw [h₁, h₂]
  rfl

theorem readDataDescriptor_ok {zip64 : Bool} {i i' : Input Fs} {x : Nat × Nat × Nat}
    (hok : readDataDescriptor zip64 i = .ok x i') : i'.env = i.env ∧
      descriptorCrc (if zip64 then 8 else 4) i.reader.rest = some (x.1, i'.reader.rest) := by
  unfold readDataDescriptor at hok
  obtain ⟨first, i₁, hfirst, hok⟩ := bind_eq_ok.mp hok
  obtain ⟨henv₁, hfirst⟩ := number_ok hfirst
  -- the two sizes behind the CRC, of four or of eight bytes
  have hsizes : ∀ {crc32 : Nat} {j : Input Fs}, (if zip64 then
        readU64 >>= fun csize => readU64 >>= fun usize => pure (crc32, csize, usize)
      else readU32 >>= fun csize => readU32 >>= fun usize => pure (crc32, csize, usize)) j =
        .ok x i' →
      i'.env = j.env ∧ x.1 = crc32 ∧ decodeFields [if zip64 then 8 else 4, if zip64 then 8 else 4]
        j.reader.rest = some ([x.2.1, x.2.2], i'.reader.rest) := by
    intro crc32 j hj
    cases zip64 with
    | true => exact twoNumbers_ok rfl hj
    | false => exact twoNumbers_ok rfl hj
  unfold descriptorCrc
  have hnil : decodeFields [] i₁.reader.rest = some ([], i₁.reader.rest) := rfl
  rw [hfirst [], hnil]
  dsimp only [Option.map_some]
  by_cases hsig : first = ZIP_DATA_DESCRIPTOR_SIG
  · rw [if_pos hsig] at hok ⊢
    obtain ⟨crc32, i₂, hcrc, hok⟩ := bind_eq_ok.mp hok
    obtain ⟨henv₂, hcrc⟩ := number_ok hcrc
    obtain ⟨henv, hx, hrest⟩ := hsizes hok
    refine ⟨by rw [henv, henv₂, henv₁], ?_⟩
    have hall := hcrc [if zip64 then 8 else 4, if zip64 then 8 else 4]
    rw [hrest] at hall
    rw [hall, hx]
    rfl
  · rw [if_neg hsig] at hok ⊢
    obtain ⟨henv, hx, hrest⟩ := hsizes hok
    refine ⟨by rw [henv, henv₁], ?_⟩
    rw [hrest, hx]
    rfl

theorem entryCheck_ok {h : LocalHeader} {c u : Nat} {i i' : Input Fs} {x : Nat × Nat × Nat}
    (hok : entryCheck h c u i = .ok x i') : i'.env = i.env ∧
      declaredCrc h.flags h.crc32 (if h.compressedSize = U32_MAX ∨ h.uncompressedSize = U32_MAX
        then 8 else 4) i.reader.rest = some (x.1, i'.reader.rest) := by
  have hwidth : (if headerZip64 h then 8 else 4) =
      if h.compressedSize = U32_MAX ∨ h.uncompressedSize = U32_MAX then 8 else 4 := by
    unfold headerZip64 U32_MAX
    by_cases hz : h.compressedSize = 4294967295 ∨ h.uncompressedSize = 4294967295
    · rw [if_pos hz, if_pos (by simpa using hz)]
    · rw [if_neg hz, if_neg (by simpa using hz)]
  unfold entryCheck at hok
  unfold declaredCrc
  by_cases hflag : h.flags &&& ZIP_FLAG_DATA_DESCRIPTOR ≠ 0
  · rw [if_pos hflag] at hok ⊢
    rw [← hwidth]
    exact readDataDescriptor_ok hok
  · rw [if_neg hflag] at hok ⊢
    obtain ⟨rfl, rfl⟩ := pure_eq_ok.mp hok
    exact ⟨rfl, rfl⟩

-- ---------------------------------------------------------------------------
-- Entries
-- ---------------------------------------------------------------------------

theorem readSome_eq_ok {k : Nat} {i i' : Input Fs} {bs : Bytes} (hok : readSome k i = .ok bs i') :
    bs.length ≤ k ∧ i.reader.rest = bs ++ i'.reader.rest ∧ i'.env = i.env := by
  obtain ⟨r, fs⟩ := i
  by_cases hk : k ≤ READ_BUF_LEN
  · cases hread : r.read k with
    | mk x r' =>
      cases x with
      | error e =>
        rw [readSome_error hk hread fs] at hok
        cases hok
      | ok bs₁ =>
        rw [readSome_ok hk hread fs] at hok
        cases hok
        obtain ⟨hlen, hrest⟩ := Reader.read_ok hread
        exact ⟨hlen, hrest, rfl⟩
  · have hslice : bufSlice k = throw .panic := if_neg hk
    rw [readSome, hslice] at hok
    cases hok

/-- The data loop takes what it is to take, and puts it in the file. -/
theorem readFileData_ok {name : String} {out : AbsPath} : ∀ {fuel remaining : Nat}
    {crc crc' : UInt32} {i i' : Input Fs}, readFileData name out fuel remaining crc i = .ok crc' i' →
      ∃ data, data.length = remaining ∧ i.reader.rest = data ++ i'.reader.rest ∧
        i'.env = i.env.appendFile out data ∧ crc' = crcUpdate crc data := by
  intro fuel
  induction fuel with
  | zero =>
    intro remaining crc crc' i i' hok
    cases remaining with
    | zero =>
      obtain ⟨rfl, rfl⟩ := pure_eq_ok.mp hok
      exact ⟨[], rfl, rfl, (Fs.appendFile_nil ..).symm, rfl⟩
    | succ n => exact absurd hok throw_ne_ok
  | succ fuel ih =>
    intro remaining crc crc' i i' hok
    unfold readFileData at hok
    by_cases hzero : remaining = 0
    · rw [if_pos hzero] at hok
      obtain ⟨rfl, rfl⟩ := pure_eq_ok.mp hok
      exact ⟨[], hzero.symm, rfl, (Fs.appendFile_nil ..).symm, rfl⟩
    · rw [if_neg hzero] at hok
      obtain ⟨bs, i₁, hread, hok⟩ := bind_eq_ok.mp hok
      obtain ⟨hlen, hrest, henv⟩ := readSome_eq_ok hread
      dsimp only at hok
      by_cases hempty : bs.isEmpty = true
      · rw [if_pos hempty] at hok
        obtain ⟨_, _, hok, -⟩ := bind_eq_ok.mp hok
        exact absurd hok throw_ne_ok
      · rw [if_neg hempty] at hok
        obtain ⟨_, i₂, hwrite, hok⟩ := bind_eq_ok.mp hok
        obtain ⟨fs', hfs', rfl⟩ := onFs_eq_ok hwrite
        obtain rfl := Except.ok.inj hfs'
        obtain ⟨data, hdata, hrest', henv', rfl⟩ := ih hok
        dsimp only at hrest' henv'
        have hle := hlen.trans (min_le_right ..)
        refine ⟨bs ++ data, ?_, ?_, ?_, ?_⟩
        · rw [List.length_append]
          omega
        · rw [hrest, hrest', List.append_assoc]
        · rw [henv', henv, Fs.appendFile_append]
        · rw [crcUpdate_append]

/-- A file that is restored is stored as declared, but for the uncompressed
size. -/
theorem extractFile_ok {dest : AbsPath} {name : String} {h : LocalHeader} {c u : Nat}
    {i i' : Input Fs} {x : Unit} (hok : extractFile dest name h c u i = .ok x i') :
    ∃ data rest, i.reader.rest = data ++ rest ∧ data.length = c ∧
      declaredCrc h.flags h.crc32 (if h.compressedSize = U32_MAX ∨ h.uncompressedSize = U32_MAX
        then 8 else 4) rest = some ((crc32 data).toNat, i'.reader.rest) ∧
      ∀ p, i'.env.files p = if p = join dest name then some data else i.env.files p := by
  unfold extractFile at hok
  obtain ⟨_, i₁, hvalid, hok⟩ := bind_eq_ok.mp hok
  obtain ⟨_, i₂, hparent, hok⟩ := bind_eq_ok.mp hok
  obtain ⟨_, i₃, hcreate, hok⟩ := bind_eq_ok.mp hok
  obtain ⟨crc, i₄, hdata, hok⟩ := bind_eq_ok.mp hok
  obtain ⟨check, i₅, hcheck, hok⟩ := bind_eq_ok.mp hok
  obtain ⟨_, i₆, hcheckCrc, hsizes⟩ := bind_eq_ok.mp hok
  obtain rfl := liftResult_eq_ok hvalid
  obtain ⟨fs₁, hfs₁, rfl⟩ := onFs_eq_ok hparent
  obtain ⟨fs₂, hfs₂, rfl⟩ := onFs_eq_ok hcreate
  obtain ⟨data, hlen, hrest, henv, rfl⟩ := readFileData_ok hdata
  obtain ⟨henv', hdeclared⟩ := entryCheck_ok hcheck
  obtain ⟨rfl, hcrc⟩ := checkCrc_ok hcheckCrc
  obtain rfl := checkSizes_ok hsizes
  rw [hcrc] at hdeclared
  refine ⟨data, _, hrest, hlen, hdeclared, fun p => ?_⟩
  have hparents : fs₁.files = i.env.files := Fs.createDirAll_files hfs₁
  rw [henv', henv, createOut_ok hfs₂]
  by_cases hp : p = join dest name
  · simp [Fs.appendFile, Fs.setFile, hp]
  · simp [Fs.appendFile, Fs.setFile, hp, hparents]

theorem createDirFor_ok {dest : AbsPath} {rel : String} {i i' : Input Fs} {x : Unit}
    (hok : createDirFor dest rel i = .ok x i') :
    i'.reader = i.reader ∧ i'.env.files = i.env.files := by
  obtain ⟨j, i₁, hget, hmkdir⟩ := bind_eq_ok.mp hok
  have hi₁ : i₁ = i := by
    cases hget
    rfl
  subst hi₁
  by_cases hdot : (endsInDot rel && !j.env.dirs (join dest rel)) = true
  · rw [if_pos hdot] at hmkdir
    obtain ⟨_, _, _, hbail⟩ := bind_eq_ok.mp hmkdir
    exact absurd hbail throw_ne_ok
  · rw [if_neg hdot] at hmkdir
    obtain ⟨fs', hfs', rfl⟩ := onFs_eq_ok hmkdir
    exact ⟨rfl, Fs.createDirAll_files hfs'⟩

/-- **An entry that is accepted is the next of the stream; its data is what it
declares, and goes to its place.** -/
theorem extractEntry_ok {dest : AbsPath} {i i' : Input Fs} {x : Unit}
    (hok : extractEntry dest i = .ok x i') :
    ∃ e, readLocalEntry i.reader.rest = some (e, i'.reader.rest) ∧
      (isDirName e.name = false → e.Stored) ∧
      ∀ p, i'.env.files p = if !isDirName e.name && p = join dest e.name then some e.data
        else i.env.files p := by
  unfold extractEntry at hok
  obtain ⟨h, i₁, hheader, hok⟩ := bind_eq_ok.mp hok
  obtain ⟨nameBytes, i₂, hnameBytes, hok⟩ := bind_eq_ok.mp hok
  obtain ⟨name, i₃, hdecode, hok⟩ := bind_eq_ok.mp hok
  obtain ⟨extra, i₄, hextra, hok⟩ := bind_eq_ok.mp hok
  obtain ⟨_, i₅, hmethod, hok⟩ := bind_eq_ok.mp hok
  obtain ⟨sizes, i₆, hentrySizes, hrest⟩ := bind_eq_ok.mp hok
  obtain ⟨henv₁, version, time, date, hfields⟩ := readLocalHeader_ok hheader
  obtain ⟨henv₂, hnameLen, hrest₂⟩ := readExact_ok hnameBytes
  obtain ⟨rfl, hname⟩ := decodeName_ok hdecode
  obtain ⟨henv₄, hextraLen, hrest₄⟩ := readExact_ok hextra
  obtain rfl := checkMethod_ok hmethod
  obtain ⟨rfl, hsizes⟩ := entrySizes_ok hentrySizes
  -- the name, the extra field and what is behind them
  have htake : i₁.reader.rest.take h.nameLen = nameBytes := by
    rw [hrest₂, List.take_left' hnameLen]
  have hdrop : i₁.reader.rest.drop h.nameLen = extra ++ i₆.reader.rest := by
    rw [hrest₂, List.drop_left' hnameLen, hrest₄]
  have hextraTake : (i₁.reader.rest.drop h.nameLen).take h.extraLen = extra := by
    rw [hdrop, List.take_left' hextraLen]
  have hbehind : i₁.reader.rest.drop (h.nameLen + h.extraLen) = i₆.reader.rest := by
    rw [← List.drop_drop, hdrop, List.drop_left' hextraLen]
  have hfiles : i₆.env.files = i.env.files := by
    rw [henv₄, henv₂, henv₁]
  unfold readLocalEntry
  rw [hfields]
  dsimp only
  rw [htake, hextraTake, hname, hsizes, hbehind]
  dsimp only
  by_cases hdir : isDirName name = true
  · rw [if_pos (by simpa [isDirName] using hdir)] at hrest
    obtain ⟨_, i₇, hvalid, hmkdir⟩ := bind_eq_ok.mp hrest
    obtain rfl := liftResult_eq_ok hvalid
    obtain ⟨hreader, hsame⟩ := createDirFor_ok hmkdir
    refine ⟨_, by rw [if_pos hdir, hreader], ?_, fun p => ?_⟩
    · intro hfile
      rw [hdir] at hfile
      cases hfile
    · rw [hsame, hfiles]
      simp [hdir]
  · rw [if_neg (by simpa [isDirName] using hdir)] at hrest
    obtain ⟨data, rest, hsplit, hlen, hcrc, hset⟩ := extractFile_ok hrest
    have hdata : i₆.reader.rest.take sizes.1 = data := by
      rw [hsplit, List.take_left' hlen]
    have htail : i₆.reader.rest.drop sizes.1 = rest := by
      rw [hsplit, List.drop_left' hlen]
    refine ⟨_, by rw [if_neg hdir, htail, hcrc]; rfl, ?_, fun p => ?_⟩
    · intro _
      exact ⟨by rw [hdata, hlen], by rw [hdata]⟩
    · rw [hset p, hfiles, hdata]
      simp [hdir]

/-- **The loop accepts the entries in front of the stream, and no others.** -/
theorem extractLoop_ok {dest : AbsPath} : ∀ {fuel : Nat} {i i' : Input Fs} {x : Unit},
    extractLoop dest fuel i = .ok x i' →
    (∀ e ∈ localEntries fuel i.reader.rest, isDirName e.name = false → e.Stored) ∧
      ∀ p, i'.env.files p =
        ((lastFile dest p (localEntries fuel i.reader.rest)).map LocalEntry.data).or
          (i.env.files p) := by
  intro fuel
  induction fuel with
  | zero =>
    intro i i' x hok
    exact absurd hok throw_ne_ok
  | succ fuel ih =>
    intro i i' x hok
    unfold extractLoop at hok
    obtain ⟨sig, i₁, hsig, hrest⟩ := bind_eq_ok.mp hok
    obtain ⟨henv, hfield⟩ := readU32Opt_eq_ok hsig
    unfold localEntries
    rw [hfield]
    have hend : i₁ = i' → (∀ e ∈ ([] : List LocalEntry), isDirName e.name = false → e.Stored) ∧
        ∀ p, i'.env.files p = ((lastFile dest p []).map LocalEntry.data).or (i.env.files p) := by
      rintro rfl
      refine ⟨fun e he => absurd he List.not_mem_nil, fun p => ?_⟩
      rw [henv]
      rfl
    cases sig with
    | none => exact hend (pure_eq_ok.mp hrest).2
    | some sig =>
      dsimp only [Option.map_some] at hrest ⊢
      by_cases hlocal : sig = ZIP_LOCAL_FILE_HEADER_SIG
      · rw [if_pos hlocal] at hrest ⊢
        obtain ⟨_, i₂, hentry, hloop⟩ := bind_eq_ok.mp hrest
        obtain ⟨e, hread, hstored, hset⟩ := extractEntry_ok hentry
        obtain ⟨hall, hfiles⟩ := ih hloop
        rw [hread]
        dsimp only
        refine ⟨?_, fun p => ?_⟩
        · intro e' he'
          rcases List.mem_cons.mp he' with rfl | he'
          · exact hstored
          · exact hall e' he'
        · rw [hfiles p, hset p, henv, lastFile]
          cases lastFile dest p (localEntries fuel i₂.reader.rest) with
          | some e' => rfl
          | none =>
            dsimp only [Option.none_or, Option.map_none]
            split_ifs <;> rfl
      · rw [if_neg hlocal] at hrest ⊢
        split_ifs at hrest
        · exact hend (pure_eq_ok.mp hrest).2
        · exact absurd hrest throw_ne_ok

theorem mem_of_lastFile {dest p : AbsPath} : ∀ {es : List LocalEntry} {e : LocalEntry},
    lastFile dest p es = some e → e ∈ es ∧ isDirName e.name = false
  | [], _, h => by cases h
  | e' :: es, e, h => by
    unfold lastFile at h
    rcases Option.or_eq_some_iff.mp h with h | ⟨-, h⟩
    · obtain ⟨hmem, hfile⟩ := mem_of_lastFile h
      exact ⟨List.mem_cons_of_mem _ hmem, hfile⟩
    · split_ifs at h with hplace
      obtain rfl := Option.some.inj h
      refine ⟨List.mem_cons_self .., ?_⟩
      simpa using (Bool.and_eq_true_iff.mp hplace).1

-- ---------------------------------------------------------------------------
-- The law
-- ---------------------------------------------------------------------------

/-- Every file that was written has the length of both sizes and the CRC that the
last entry of its place declares. -/
def Consistent (dest : AbsPath) (bs : Bytes) (fs : Fs) : Prop :=
  ∀ p e, lastFile dest p (declaredEntries bs) = some e → ∃ data, fs.files p = some data ∧
    data.length = e.compressedSize ∧ data.length = e.uncompressedSize ∧
    (crc32 data).toNat = e.crc32

/-- The last entry of each place declares one size. -/
def SizesAgree (dest : AbsPath) (bs : Bytes) : Prop :=
  ∀ p e, lastFile dest p (declaredEntries bs) = some e → e.compressedSize = e.uncompressedSize

/-- **An accepted archive is consistent exactly if its entries declare one size
each, compressed and uncompressed. Files without an entry are as before.** -/
theorem accepted_consistent_iff {dest : AbsPath} {r : Reader} {fs fs' : Fs}
    (h : runExtract dest r fs = (.ok (), fs')) :
    (∀ p, lastFile dest p (declaredEntries r.rest) = none → fs'.files p = fs.files p) ∧
      (Consistent dest r.rest fs' ↔ SizesAgree dest r.rest) := by
  cases hd : fs.createDirAll dest with
  | error e =>
    obtain ⟨e', he'⟩ := runExtract_noDest (by rw [hd]; rfl) r
    rw [h] at he'
    cases he'
  | ok fs₁ =>
    unfold runExtract at h
    rw [extractZip_eq hd] at h
    cases hloop : extractLoop dest (r.rest.length + 1) ⟨r, fs₁⟩ with
    | error e i =>
      rw [hloop] at h
      cases (Prod.mk.inj h).1
    | ok u i =>
      rw [hloop] at h
      obtain rfl : i.env = fs' := (Prod.mk.inj h).2
      obtain ⟨hstored, hfiles⟩ := extractLoop_ok hloop
      dsimp only at hstored hfiles
      rw [← declaredEntries] at hstored
      constructor
      · intro p hp
        rw [hfiles p, ← declaredEntries, hp, Fs.createDirAll_files hd]
        rfl
      -- what is in the file of a last entry, whatever it declares
      have hdata : ∀ p e, lastFile dest p (declaredEntries r.rest) = some e →
          i.env.files p = some e.data ∧ e.Stored := by
        intro p e he
        obtain ⟨hmem, hfile⟩ := mem_of_lastFile he
        refine ⟨?_, hstored e hmem hfile⟩
        rw [hfiles p, ← declaredEntries, he]
        rfl
      constructor
      · intro hconsistent p e he
        obtain ⟨data, -, hcompressed, huncompressed, -⟩ := hconsistent p e he
        rw [← hcompressed, huncompressed]
      · intro hagree p e he
        obtain ⟨hfile, hsize, hcrc⟩ := hdata p e he
        exact ⟨e.data, hfile, hsize, by rw [hsize, hagree p e he], hcrc⟩

theorem runExtract_eq_of_ok {dest : AbsPath} {r : Reader} {fs : Fs}
    (h : (runExtract dest r fs).1 = .ok ()) :
    runExtract dest r fs = (.ok (), (runExtract dest r fs).2) := Prod.ext h rfl

theorem accepted_consistent_iff_twoFiles :
    (∀ p, lastFile ["dst"] p (declaredEntries twoFilesZip) = none →
      (runExtract ["dst"] ⟨twoFilesZip, []⟩ Fs.empty).2.files p = Fs.empty.files p) ∧
      (Consistent ["dst"] twoFilesZip (runExtract ["dst"] ⟨twoFilesZip, []⟩ Fs.empty).2 ↔
        SizesAgree ["dst"] twoFilesZip) := by
  have hok : (runExtract ["dst"] ⟨twoFilesZip, []⟩ Fs.empty).1 = .ok () := by decide +kernel
  have h := accepted_consistent_iff (runExtract_eq_of_ok hok)
  exact h

/-- One byte under the name `a`, said to be two bytes uncompressed, and no data
descriptor. -/
def twoSizesZip : Bytes :=
  leBytes 4 ZIP_LOCAL_FILE_HEADER_SIG ++ encodeFields [(2, 20), (2, 0), (2, ZIP_METHOD_STORED),
    (2, 0), (2, 0), (4, 2768625435), (4, 1), (4, 2), (2, 1), (2, 0)] ++ [97, 1]

/-- The archive is accepted, and its file has one byte of the two. -/
theorem accepted_inconsistent :
    (runExtract ["dst"] ⟨twoSizesZip, []⟩ Fs.empty).1 = .ok () ∧
      ¬ Consistent ["dst"] twoSizesZip (runExtract ["dst"] ⟨twoSizesZip, []⟩ Fs.empty).2 := by
  have hok : (runExtract ["dst"] ⟨twoSizesZip, []⟩ Fs.empty).1 = .ok () := by decide +kernel
  refine ⟨hok, ?_⟩
  intro hconsistent
  have hlast : (lastFile ["dst"] ["dst", "a"] (declaredEntries twoSizesZip)).map
      (fun e => (e.compressedSize, e.uncompressedSize)) = some (1, 2) := by decide +kernel
  obtain ⟨e, he, hsizes⟩ := Option.map_eq_some_iff.mp hlast
  obtain ⟨data, -, hcompressed, huncompressed, -⟩ := hconsistent _ e he
  have hone := (Prod.mk.inj hsizes).1
  have htwo := (Prod.mk.inj hsizes).2
  omega

end Chbk
