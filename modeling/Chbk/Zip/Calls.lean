import Chbk.Lib.Pool
import Chbk.Model.Extraction
import Chbk.Zip.Entries

/-!
# The reader as a program of calls

`extractZipCalls` makes its calls on the tree one by one; run alone it is
`extractZip`.

* `Blind` — a step of the reader that neither looks at the tree nor changes it.
* `Makes` — a program of calls that stands for a step of the reader.
* `makes_extractZipCalls` — the program of `extract_zip` stands for it, and makes
  no call outside its destination.
-/

namespace Chbk

open Lib
open Prog (Only Strict alone_bind_ok alone_bind_error)

variable {α β : Type}

-- ---------------------------------------------------------------------------
-- Steps on the stream alone
-- ---------------------------------------------------------------------------

/-- An outcome with the state it leaves. -/
def outcome (x : Except Failure α) (i : Input Fs) : EStateM.Result Failure (Input Fs) α :=
  match x with
  | .ok a => .ok a i
  | .error e => .error e i

/-- The stream alone decides the outcome, and the tree stays. Without the failing
reads of the stream a success is the same. -/
def Blind (m : ZipReader α) : Prop := ∀ r, ∃ x r', (∀ fs, m ⟨r, fs⟩ = outcome x ⟨r', fs⟩) ∧
  ∀ a, x = .ok a → ∀ fs, m ⟨r.healed, fs⟩ = .ok a ⟨r'.healed, fs⟩

theorem Blind.bind {m : ZipReader α} {f : α → ZipReader β} (hm : Blind m)
    (hf : ∀ a, Blind (f a)) : Blind (m >>= f) := by
  intro r
  obtain ⟨x, r', hx, hheal⟩ := hm r
  cases x with
  | error e =>
    refine ⟨.error e, r', fun fs => bind_error (hx fs), ?_⟩
    intro a ha
    cases ha
  | ok a =>
    obtain ⟨y, r'', hy, hheal'⟩ := hf a r'
    refine ⟨y, r'', fun fs => ?_, fun b hb fs => ?_⟩
    · rw [bind_ok (hx fs), hy fs]
    · rw [bind_ok (hheal a rfl fs), hheal' b hb fs]

theorem blind_pure (a : α) : Blind (pure a : ZipReader α) := by
  intro r
  refine ⟨.ok a, r, fun _ => rfl, ?_⟩
  rintro b ⟨⟩ fs
  rfl

theorem blind_throw (e : Failure) : Blind (throw e : ZipReader α) := by
  intro r
  refine ⟨.error e, r, fun _ => rfl, ?_⟩
  intro a ha
  cases ha

theorem blind_bail (e : AnyError) : Blind (bail e : ZipReader α) := blind_throw _

/-- A `read_exact` whose failing reads are told on is a step on the stream. -/
theorem blind_afterRead {n : Nat} {f : Except IoError Bytes → ZipReader β}
    (hf : ∀ x, Blind (f x)) (hother : ∃ e, f (.error .other) = bail e) :
    Blind (readExactRaw n >>= f) := by
  intro r
  cases hread : r.readExact n with
  | mk x r' =>
    have hraw : ∀ fs, readExactRaw n ⟨r, fs⟩ = .ok x ⟨r', fs⟩ := fun fs => by
      rw [readExactRaw, hread]
    obtain ⟨y, r'', hy, hheal⟩ := hf x r'
    refine ⟨y, r'', fun fs => by rw [bind_ok (hraw fs), hy fs], fun b hb fs => ?_⟩
    have hx : x ≠ .error .other := by
      rintro rfl
      obtain ⟨e, he⟩ := hother
      have hfail := hy fs
      rw [he, hb] at hfail
      cases hfail
    have hraw' : readExactRaw n ⟨r.healed, fs⟩ = .ok x ⟨r'.healed, fs⟩ := by
      rw [readExactRaw, Reader.readExact_healed hread hx]
    rw [bind_ok hraw', hheal b hb fs]

theorem blind_readExact (context : String) (n : Nat) : Blind (readExact context n) := by
  refine blind_afterRead (fun x => ?_) ⟨_, rfl⟩
  cases x with
  | ok bs => exact blind_pure bs
  | error e => exact blind_bail _

theorem blind_number (context : String) (n : Nat) :
    Blind (do return leNat (← readExact context n)) :=
  (blind_readExact context n).bind fun _ => blind_pure _

theorem blind_readU16 : Blind readU16 := blind_number _ 2

theorem blind_readU32 : Blind readU32 := blind_number _ 4

theorem blind_readU64 : Blind readU64 := blind_number _ 8

theorem blind_readU32Opt : Blind readU32Opt := by
  refine blind_afterRead (fun x => ?_) ⟨_, rfl⟩
  rcases x with (_ | _) | bs
  · exact blind_pure none
  · exact blind_bail _
  · exact blind_pure _

theorem blind_readLocalHeader : Blind readLocalHeader :=
  blind_readU16.bind fun _ => blind_readU16.bind fun _ => blind_readU16.bind fun _ =>
  blind_readU16.bind fun _ => blind_readU16.bind fun _ => blind_readU32.bind fun _ =>
  blind_readU32.bind fun _ => blind_readU32.bind fun _ => blind_readU16.bind fun _ =>
  blind_readU16.bind fun _ => blind_pure _

theorem blind_readDataDescriptor (zip64 : Bool) : Blind (readDataDescriptor zip64) := by
  refine blind_readU32.bind fun first => ?_
  have hrest : ∀ crc32 : Nat, Blind (if zip64 then
      readU64 >>= fun csize => readU64 >>= fun usize => pure (crc32, csize, usize)
      else readU32 >>= fun csize => readU32 >>= fun usize => pure (crc32, csize, usize)) := by
    intro crc32
    cases zip64 with
    | true => exact blind_readU64.bind fun _ => blind_readU64.bind fun _ => blind_pure _
    | false => exact blind_readU32.bind fun _ => blind_readU32.bind fun _ => blind_pure _
  by_cases hsig : first = ZIP_DATA_DESCRIPTOR_SIG
  · simp only [if_pos hsig]
    exact blind_readU32.bind hrest
  · simp only [if_neg hsig]
    exact (blind_pure first).bind hrest

theorem blind_readSome (k : Nat) : Blind (readSome k) := by
  intro r
  by_cases hk : k ≤ READ_BUF_LEN
  · cases hread : r.read k with
    | mk x r' =>
      cases x with
      | error e =>
        refine ⟨.error (.error ["Failed to read ZIP data", ioErrorText e]), r', fun fs => ?_, ?_⟩
        · exact readSome_error hk hread fs
        · intro a ha
          cases ha
      | ok bs =>
        refine ⟨.ok bs, r', fun fs => readSome_ok hk hread fs, ?_⟩
        rintro a ⟨⟩ fs
        exact readSome_ok hk (Reader.read_healed hread) fs
  · have hslice : bufSlice k = throw .panic := if_neg hk
    refine ⟨.error .panic, r, fun fs => ?_, ?_⟩
    · rw [readSome, hslice]
      rfl
    · intro a ha
      cases ha

theorem blind_decodeName (nameBytes : Bytes) : Blind (decodeName nameBytes) := by
  unfold decodeName
  split
  · exact blind_pure _
  · exact blind_bail _

theorem blind_checkMethod (method : Nat) : Blind (checkMethod method) := by
  unfold checkMethod
  split
  · exact blind_bail _
  · exact blind_pure _

theorem blind_entrySizes (h : LocalHeader) (extra : Bytes) : Blind (entrySizes h extra) := by
  unfold entrySizes
  split
  · split
    · exact blind_pure _
    · exact blind_throw _
  · exact blind_pure _

theorem blind_checkEntry (name : String) (h : LocalHeader) (compressedSize uncompressedSize : Nat)
    (crc : UInt32) : Blind (checkEntry name h compressedSize uncompressedSize crc) := by
  have hcheck : Blind (entryCheck h compressedSize uncompressedSize) := by
    unfold entryCheck
    split
    · exact blind_readDataDescriptor _
    · exact blind_pure _
  have hcrc : ∀ crc32 computed, Blind (checkCrc name crc32 computed) := by
    intro crc32 computed
    unfold checkCrc
    split
    · exact blind_bail _
    · exact blind_pure _
  have hsizes : ∀ c u, Blind (checkSizes name compressedSize uncompressedSize c u) := by
    intro c u
    unfold checkSizes
    split
    · exact blind_bail _
    · exact blind_pure _
  exact hcheck.bind fun _ => (hcrc _ _).bind fun _ => hsizes _ _

-- ---------------------------------------------------------------------------
-- Programs that stand for a step
-- ---------------------------------------------------------------------------

/-- An error is an answer to give up on. -/
def Refused (op : TreeOp) (r : TreeResp op) : Prop := ∃ e, r = .error e

theorem not_refused_ok {op : TreeOp} {u : Unit} : ¬ Refused op (.ok u) := by
  rintro ⟨e, he⟩
  cases he

/-- The outcome of the reader, as that of a program. -/
def ended : EStateM.Result Failure (Input Fs) α → Except Failure (α × Reader) × Fs
  | .ok a s => (.ok (a, s.reader), s.env)
  | .error e s => (.error e, s.env)

/-- The program makes calls of one kind, gives up on the first error, and run
alone it is the step of the reader, which succeeds without the failing reads of
the stream where it does with them. -/
structure Makes (S : TreeOp → Prop) (c : Extraction α) (m : ZipReader α) : Prop where
  only : ∀ r, Only S (c r)
  strict : ∀ r, Strict Refused (c r)
  alone : ∀ r fs, (c r).alone TreeOp.perform fs = ended (m ⟨r, fs⟩)
  heals : ∀ r fs a r' fs', m ⟨r, fs⟩ = .ok a ⟨r', fs'⟩ →
    m ⟨r.healed, fs⟩ = .ok a ⟨r'.healed, fs'⟩

section

variable {S : TreeOp → Prop}

theorem Makes.bind {c : Extraction α} {m : ZipReader α} {f : α → Extraction β}
    {g : α → ZipReader β} (h : Makes S c m) (hf : ∀ a, Makes S (f a) (g a)) :
    Makes S (c >>= f) (m >>= g) where
  only r := (h.only r).bind fun x => (hf x.1).only x.2
  strict r := (h.strict r).bind fun x => (hf x.1).strict x.2
  alone r fs := by
    have hc := h.alone r fs
    show (c r >>= fun x => f x.1 x.2).alone TreeOp.perform fs = _
    cases hm : m ⟨r, fs⟩ with
    | ok a s =>
      rw [hm] at hc
      rw [alone_bind_ok hc, bind_ok hm, (hf a).alone]
    | error e s =>
      rw [hm] at hc
      rw [alone_bind_error hc, bind_error hm]
      rfl
  heals r fs b r'' fs'' h' := by
    obtain ⟨a, ⟨r', fs'⟩, hm, hg⟩ := bind_eq_ok.mp h'
    rw [bind_ok (h.heals r fs a r' fs' hm)]
    exact (hf a).heals r' fs' b r'' fs'' hg

theorem makes_pure (a : α) : Makes S (pure a : Extraction α) (pure a) where
  only _ := trivial
  strict _ := trivial
  alone _ _ := rfl
  heals r fs b r' fs' h := by
    cases h
    rfl

theorem makes_reading {m : ZipReader α} (h : Blind m) : Makes S (reading m) m where
  only r := by
    unfold reading
    split <;> trivial
  strict r := by
    unfold reading
    split <;> trivial
  alone r fs := by
    obtain ⟨x, r', hx, -⟩ := h r
    rw [reading, hx Fs.empty, hx fs]
    cases x with
    | ok a => rfl
    | error e => rfl
  heals r fs a r' fs' hok := by
    obtain ⟨x, r'', hx, hheal⟩ := h r
    rw [hx fs] at hok
    cases x with
    | error e => cases hok
    | ok b =>
      cases hok
      exact hheal a rfl fs

/-- A call stands for a step on the tree that does the same. -/
theorem makes_treeCall {op : TreeOp} {m : ZipReader Unit} (hS : S op)
    (hm : ∀ r fs, m ⟨r, fs⟩ = match op.perform fs with
      | (.ok (), fs') => .ok () ⟨r, fs'⟩
      | (.error e, fs') => .error (.error e) ⟨r, fs'⟩) : Makes S (treeCall op) m where
  only r := by
    refine ⟨hS, fun x => ?_⟩
    rcases x with e | u <;> trivial
  strict r := by
    intro x
    rcases x with e | u
    · exact ⟨fun _ => ⟨_, rfl⟩, trivial⟩
    · exact ⟨fun h => absurd h not_refused_ok, trivial⟩
  alone r fs := by
    rw [hm r fs, treeCall, Prog.alone]
    rcases op.perform fs with ⟨e | u, fs'⟩ <;> rfl
  heals r fs a r' fs' h := by
    rw [hm] at h ⊢
    rcases hop : op.perform fs with ⟨e | u, fs''⟩
    · rw [hop] at h
      cases h
    · rw [hop] at h
      cases h
      rfl

/-- Making the destination, under a context. -/
theorem makes_createDestCall {dest : AbsPath} (context : String) (hS : S (.createDest dest)) :
    Makes S (createDestCall context dest) (onFs fun fs => match fs.createDirAll dest with
      | .ok fs => .ok fs
      | .error e => .error (withContext context e)) where
  only r := by
    refine ⟨hS, fun x => ?_⟩
    rcases x with e | u <;> trivial
  strict r := by
    intro x
    rcases x with e | u
    · exact ⟨fun _ => ⟨_, rfl⟩, trivial⟩
    · exact ⟨fun h => absurd h not_refused_ok, trivial⟩
  alone r fs := by
    rw [createDestCall, Prog.alone]
    cases hd : fs.createDirAll dest with
    | ok fs' =>
      rw [onFs_ok (by rw [hd]) r]
      simp only [TreeOp.perform, Fs.answer, hd]
      rfl
    | error e =>
      rw [onFs_error (by rw [hd]) r]
      simp only [TreeOp.perform, Fs.answer, hd]
      rfl
  heals r fs a r' fs' h := by
    cases hd : fs.createDirAll dest with
    | ok fs₁ =>
      rw [onFs_ok (by rw [hd])] at h ⊢
      cases h
      rfl
    | error e =>
      rw [onFs_error (by rw [hd])] at h
      cases h

/-- A step that fails without a trace on the tree. -/
theorem makes_onFs {op : TreeOp} {f : Fs → Except AnyError Fs} (hS : S op)
    (hf : ∀ fs, op.perform fs = fs.answer (f fs)) : Makes S (treeCall op) (onFs f) := by
  refine makes_treeCall hS fun r fs => ?_
  rw [hf]
  cases hfs : f fs with
  | ok fs' => exact onFs_ok hfs r
  | error e => exact onFs_error hfs r

theorem makes_createDir {dest : AbsPath} {rel : String} (hS : S (.createDir dest rel)) :
    Makes S (treeCall (.createDir dest rel)) (createDirFor dest rel) := by
  refine makes_treeCall hS fun r fs => ?_
  have hget : createDirFor dest rel ⟨r, fs⟩ =
      (if endsInDot rel && !fs.dirs (join dest rel) then do
        onFs fun fs => fs.createDirAll (join dest rel).dropLast
        bail ["No such file or directory"]
      else onFs fun fs => fs.createDirAll (join dest rel) : ZipReader Unit) ⟨r, fs⟩ := rfl
  rw [hget, TreeOp.perform]
  by_cases hdot : (endsInDot rel && !fs.dirs (join dest rel)) = true
  · rw [if_pos hdot, if_pos hdot]
    cases hd : fs.createDirAll (join dest rel).dropLast with
    | ok fs' =>
      rw [bind_ok (onFs_ok hd r)]
      rfl
    | error e => rw [bind_error (onFs_error hd r)]
  · rw [if_neg hdot, if_neg hdot]
    cases hd : fs.createDirAll (join dest rel) with
    | ok fs' => exact onFs_ok hd r
    | error e => exact onFs_error hd r

end

-- ---------------------------------------------------------------------------
-- The extraction
-- ---------------------------------------------------------------------------

/-- A call that reaches no further than the destination and the way to it. -/
def Inside (dest : AbsPath) : TreeOp → Prop
  | .createDest dest' => dest' = dest
  | .createDir dest' rel | .createParent dest' rel | .createFile dest' rel =>
    dest <+: join dest' rel
  | .writeAll out _ => dest <+: out

theorem prefix_join_checked {rel : String} (h : validateRelPath rel = .ok ()) (dest : AbsPath) :
    dest <+: join dest rel := by
  rw [join, foldl_stepTo dest (validateRelPath_ok h)]
  exact List.prefix_append ..

/-- What comes behind the check of a path may use that it passed. -/
theorem makes_checked {S : TreeOp → Prop} {rel : String} {c : Extraction β} {m : ZipReader β}
    (h : validateRelPath rel = .ok () → Makes S c m) :
    Makes S (reading (liftResult (validateRelPath rel)) >>= fun _ => c)
      (liftResult (validateRelPath rel) >>= fun _ => m) := by
  cases hv : validateRelPath rel with
  | ok u =>
    have hpass : (reading (liftResult (.ok u : Except AnyError Unit)) >>= fun _ => c) = c := rfl
    have hpass' : ((liftResult (.ok u : Except AnyError Unit)) >>= fun _ => m) = m := rfl
    rw [hpass, hpass']
    exact h hv
  | error e =>
    have hfail : (reading (liftResult (.error e : Except AnyError Unit)) >>= fun _ => c) =
        reading (bail e : ZipReader β) := rfl
    have hfail' : ((liftResult (.error e : Except AnyError Unit)) >>= fun _ => m) = bail e := rfl
    rw [hfail, hfail']
    exact makes_reading (blind_bail e)

variable {dest : AbsPath}

theorem makes_readFileData (name : String) {out : AbsPath} (hout : dest <+: out) :
    ∀ (fuel remaining : Nat) (crc : UInt32),
      Makes (Inside dest) (readFileDataCalls name out fuel remaining crc)
        (readFileData name out fuel remaining crc)
  | 0, 0, crc => makes_pure crc
  | 0, _ + 1, _ => makes_reading (blind_throw _)
  | fuel + 1, remaining, crc => by
    unfold readFileDataCalls readFileData
    by_cases hrem : remaining = 0
    · rw [if_pos hrem, if_pos hrem]
      exact makes_pure crc
    · rw [if_neg hrem, if_neg hrem]
      refine (makes_reading (blind_readSome _)).bind fun bs => ?_
      have hrest : Makes (Inside dest)
          (treeCall (.writeAll out bs) >>= fun _ =>
            readFileDataCalls name out fuel (remaining - bs.length) (crcUpdate crc bs))
          ((onFs fun fs => .ok (fs.appendFile out bs)) >>= fun _ =>
            readFileData name out fuel (remaining - bs.length) (crcUpdate crc bs)) :=
        (makes_onFs hout fun _ => rfl).bind fun _ => makes_readFileData name hout fuel _ _
      by_cases hempty : bs.isEmpty = true
      · rw [if_pos hempty, if_pos hempty]
        exact (makes_reading (blind_bail _)).bind fun _ => hrest
      · rw [if_neg hempty, if_neg hempty]
        exact hrest

theorem makes_extractEntry : Makes (Inside dest) (extractEntryCalls dest) (extractEntry dest) := by
  refine (makes_reading blind_readLocalHeader).bind fun h => ?_
  refine (makes_reading (blind_readExact _ _)).bind fun nameBytes => ?_
  refine (makes_reading (blind_decodeName _)).bind fun name => ?_
  refine (makes_reading (blind_readExact _ _)).bind fun extra => ?_
  refine (makes_reading (blind_checkMethod _)).bind fun _ => ?_
  refine (makes_reading (blind_entrySizes _ _)).bind fun sizes => ?_
  by_cases hslash : name.toList.getLast? = some '/'
  · rw [if_pos hslash, if_pos hslash]
    refine makes_checked fun hv => ?_
    exact makes_createDir (prefix_join_checked hv dest)
  · rw [if_neg hslash, if_neg hslash]
    refine makes_checked fun hv => ?_
    have hin := prefix_join_checked hv dest
    refine (makes_onFs hin fun _ => rfl).bind fun _ => ?_
    refine (makes_onFs hin fun _ => rfl).bind fun _ => ?_
    refine (makes_readFileData name hin _ _ _).bind fun crc => ?_
    exact makes_reading (blind_checkEntry name h _ _ crc)

theorem makes_extractLoop : ∀ fuel : Nat,
    Makes (Inside dest) (extractLoopCalls dest fuel) (extractLoop dest fuel)
  | 0 => makes_reading (blind_throw _)
  | fuel + 1 => by
    refine (makes_reading blind_readU32Opt).bind fun sig => ?_
    cases sig with
    | none => exact makes_pure ()
    | some sig =>
      show Makes (Inside dest) (if sig = ZIP_LOCAL_FILE_HEADER_SIG then _ else _)
        (if sig = ZIP_LOCAL_FILE_HEADER_SIG then _ else _)
      by_cases hlocal : sig = ZIP_LOCAL_FILE_HEADER_SIG
      · rw [if_pos hlocal, if_pos hlocal]
        exact makes_extractEntry.bind fun _ => makes_extractLoop fuel
      · rw [if_neg hlocal, if_neg hlocal]
        split
        · exact makes_pure ()
        · exact makes_reading (blind_bail _)

/-- **The program of `extract_zip` stands for it**, and makes no call outside its
destination. -/
theorem makes_extractZip : Makes (Inside dest) (extractZipCalls dest) (extractZip dest) := by
  have hdest : Inside dest (.createDest dest) := rfl
  refine (makes_createDestCall _ hdest).bind fun _ => ?_
  constructor
  · intro r
    exact (makes_extractLoop _).only r
  · intro r
    exact (makes_extractLoop _).strict r
  · intro r fs
    exact (makes_extractLoop _).alone r fs
  · intro r fs a r' fs' h
    exact (makes_extractLoop _).heals r fs a r' fs' h

end Chbk
