import Mathlib.Data.List.Infix
import Chbk.Lib.Outcome
import Chbk.Zip.Tree

/-!
# Reading a hostile stream

`extract_zip` on bytes nobody wrote for it.

* `Contained` — what a run may change of a file tree.
* `Safe` — this, and a stream that does not grow.
* `extractZip_safe` — any stream, cut in any way: the reader ends, with an error
  at worst, no slice is out of bounds, and what it makes lies below `dest`.
* `extractZip_makes_parent` — it makes the parents of `dest` too.
-/

namespace Chbk

open Lib

-- ---------------------------------------------------------------------------
-- What may change
-- ---------------------------------------------------------------------------

/-- A place that proper names lead to from `dest`. -/
def Below (dest p : AbsPath) : Prop := ∃ ns, ns ≠ [] ∧ (∀ n ∈ ns, ProperName n) ∧ p = dest ++ ns

/-- Files change below `dest` only, and directories there and on the way to
`dest`. -/
structure Contained (dest : AbsPath) (fs fs' : Fs) : Prop where
  files : ∀ p, fs'.files p ≠ fs.files p → Below dest p
  dirs : ∀ p, fs'.dirs p ≠ fs.dirs p → p <+: dest ∨ Below dest p

theorem Contained.refl (dest : AbsPath) (fs : Fs) : Contained dest fs fs :=
  ⟨fun _ h => absurd rfl h, fun _ h => absurd rfl h⟩

theorem Contained.trans {dest : AbsPath} {fs fs₁ fs₂ : Fs} (h : Contained dest fs fs₁)
    (h' : Contained dest fs₁ fs₂) : Contained dest fs fs₂ where
  files := by
    intro p hp
    by_cases h₁ : fs₁.files p = fs.files p
    · exact h'.files p (h₁ ▸ hp)
    · exact h.files p h₁
  dirs := by
    intro p hp
    by_cases h₁ : fs₁.dirs p = fs.dirs p
    · exact h'.dirs p (h₁ ▸ hp)
    · exact h.dirs p h₁

/-- A part of a run: its changes are contained, and it gives nothing back to the
stream. -/
structure Safe (dest : AbsPath) (i i' : Input Fs) : Prop where
  tree : Contained dest i.env i'.env
  shorter : i'.reader.rest.length ≤ i.reader.rest.length

instance (dest : AbsPath) : Std.Refl (Safe dest) where
  refl i := ⟨.refl dest i.env, le_rfl⟩

instance (dest : AbsPath) : IsTrans (Input Fs) (Safe dest) where
  trans _ _ _ h h' := ⟨h.tree.trans h'.tree, h'.shorter.trans h.shorter⟩

-- ---------------------------------------------------------------------------
-- The tree
-- ---------------------------------------------------------------------------

/-- On the way to a place below `dest`, one is on the way to `dest` or below it. -/
theorem prefix_below {dest p q : AbsPath} (h : Below dest p ∨ p <+: dest) (hq : q <+: p) :
    q <+: dest ∨ Below dest q := by
  rcases h with ⟨ns, -, hns, rfl⟩ | hp
  · rcases List.prefix_or_prefix_of_prefix hq (List.prefix_append dest ns) with hin | ⟨ms, rfl⟩
    · exact Or.inl hin
    · by_cases hnil : ms = []
      · exact Or.inl (by simp [hnil])
      · have hms : ms <+: ns := (List.prefix_append_right_inj dest).mp hq
        exact Or.inr ⟨ms, hnil, fun n hn => hns n (hms.subset hn), rfl⟩
  · exact Or.inl (hq.trans hp)

theorem contained_mkdirStep {dest : AbsPath} {fs fs' : Fs} {p : AbsPath}
    (hp : p <+: dest ∨ Below dest p) (h : fs.mkdirStep p = .ok fs') : Contained dest fs fs' := by
  unfold Fs.mkdirStep at h
  split_ifs at h
  · obtain rfl := Except.ok.inj h
    exact .refl dest fs
  · obtain rfl := Except.ok.inj h
    refine ⟨fun q hq => absurd rfl hq, ?_⟩
    intro q hq
    by_cases hqp : q = p
    · exact hqp ▸ hp
    · exact absurd (by simp [Fs.setDir, hqp]) hq

theorem contained_createDirAll {dest : AbsPath} {fs fs' : Fs} {p : AbsPath}
    (hp : Below dest p ∨ p <+: dest) (h : fs.createDirAll p = .ok fs') :
    Contained dest fs fs' := by
  have hin : ∀ q ∈ p.inits, q <+: dest ∨ Below dest q := fun q hq =>
    prefix_below hp ((List.mem_inits q p).mp hq)
  unfold Fs.createDirAll at h
  generalize p.inits = ps at h hin
  induction ps generalizing fs with
  | nil =>
    obtain rfl := Except.ok.inj h
    exact .refl dest fs
  | cons q ps ih =>
    rw [List.foldlM_cons] at h
    cases hstep : fs.mkdirStep q with
    | error e =>
      rw [hstep] at h
      cases h
    | ok fs₁ =>
      rw [hstep] at h
      have h₁ := contained_mkdirStep (hin q (List.mem_cons_self ..)) hstep
      exact h₁.trans (ih h fun q' hq' => hin q' (List.mem_cons_of_mem _ hq'))

theorem contained_setFile {dest : AbsPath} {fs : Fs} {p : AbsPath} (hp : Below dest p)
    (bs : Bytes) : Contained dest fs (fs.setFile p bs) where
  files := by
    intro q hq
    by_cases hqp : q = p
    · exact hqp ▸ hp
    · exact absurd (by simp [Fs.setFile, hqp]) hq
  dirs := fun _ hq => absurd rfl hq

theorem contained_appendFile {dest : AbsPath} (fs : Fs) {p : AbsPath} (hp : Below dest p)
    (bs : Bytes) : Contained dest fs (fs.appendFile p bs) := by
  unfold Fs.appendFile
  cases fs.files p with
  | some old => exact contained_setFile hp _
  | none => exact .refl dest fs

/-- A checked path leads to `dest` or below it. -/
theorem join_checked {rel : String} (h : validateRelPath rel = .ok ()) (dest : AbsPath) :
    join dest rel = dest ∨ Below dest (join dest rel) := by
  rw [join, foldl_stepTo dest (validateRelPath_ok h)]
  by_cases hnil : normals (components rel) = []
  · exact Or.inl (by rw [hnil, List.append_nil])
  · refine Or.inr ⟨_, hnil, ?_, rfl⟩
    intro n hn
    obtain ⟨c, hc, hcn⟩ := List.mem_filterMap.mp hn
    cases c with
    | normal s =>
      obtain rfl := Option.some.inj hcn
      exact properName_of_mem_components hc
    | rootDir => cases hcn
    | curDir => cases hcn
    | parentDir => cases hcn

/-- A text that ends in an empty piece is empty, or ends in a slash. -/
theorem getLast?_of_splitOn (c : Char) : ∀ {l : List Char},
    (l.splitOn c).getLast? = some [] → l = [] ∨ l.getLast? = some c
  | [], _ => Or.inl rfl
  | x :: l, h => by
    have ih := fun h => getLast?_of_splitOn c (l := l) h
    rw [List.splitOn_cons_eq_if_modifyHead] at h
    cases hs : l.splitOn c with
    | nil => exact absurd hs (List.splitOn_ne_nil c l)
    | cons q qs =>
      rw [hs] at h ih
      right
      split_ifs at h with hx
      · -- the last piece is one of what follows
        rw [List.getLast?_cons_cons] at h
        rcases ih h with rfl | hlast
        · rw [beq_iff_eq] at hx
          simp [hx]
        · rw [List.getLast?_cons, hlast]
          rfl
      · rw [List.modifyHead_cons] at h
        cases qs with
        | nil => simp at h
        | cons q' qs =>
          rw [List.getLast?_cons_cons] at h
          rcases ih (by rw [List.getLast?_cons_cons]; exact h) with rfl | hlast
          · simp at hs
          · rw [List.getLast?_cons, hlast]
            rfl

/-- A checked name that ends in neither a slash nor a dot leads below `dest`. -/
theorem below_of_name {name : String} (hv : validateRelPath name = .ok ())
    (hslash : name.toList.getLast? ≠ some '/') (hdot : ¬ endsInDot name = true)
    (dest : AbsPath) : Below dest (join dest name) := by
  have hcomps := validateRelPath_ok hv
  have hne : name ≠ "" := by
    rintro rfl
    cases hv
  -- the last piece is a component
  obtain ⟨s, hs⟩ : ∃ s, Component.normal s ∈ components name := by
    obtain ⟨p, hlast⟩ : ∃ p, (splitAt '/' name).getLast? = some p := by
      have hpieces : splitAt '/' name ≠ [] := by simp [splitAt, List.splitOn_ne_nil]
      exact ⟨_, List.getLast?_eq_some_getLast hpieces⟩
    have hp : p ≠ "" := by
      rintro rfl
      have hnil : (name.toList.splitOn '/').getLast? = some [] := by
        rw [splitAt, List.getLast?_map] at hlast
        obtain ⟨q, hq, hqe⟩ := Option.map_eq_some_iff.mp hlast
        rw [hq, String.ofList_eq_empty_iff.mp hqe]
      rcases getLast?_of_splitOn '/' hnil with hempty | hend
      · exact hne (String.toList_inj.mp hempty)
      · exact hslash hend
    have hpdot : p ≠ "." := by
      rintro rfl
      exact hdot (decide_eq_true hlast)
    have hsome : pieceComponent p = some .parentDir ∨ pieceComponent p = some (.normal p) := by
      unfold pieceComponent
      rw [if_neg (by simp [hp, hpdot])]
      split_ifs
      · exact Or.inl rfl
      · exact Or.inr rfl
    have hmem : ∀ c, pieceComponent p = some c → c ∈ components name := by
      intro c hc
      have hroot := fun h => (hcomps .rootDir h).1 rfl
      unfold components at hroot ⊢
      cases hsplit : splitAt '/' name with
      | nil =>
        rw [hsplit] at hlast
        cases hlast
      | cons first rest =>
        rw [hsplit] at hlast hroot
        dsimp only at hroot ⊢
        cases rest with
        | nil =>
          have hfirst : first = p := by simpa using hlast
          subst hfirst
          by_cases hstart : startsWith name "/" = true
          · rw [if_pos hstart] at hroot
            exact absurd (by simp) hroot
          · rw [if_neg hstart, if_neg hpdot]
            simp [hc]
        | cons second rest =>
          rw [List.getLast?_cons_cons] at hlast
          exact List.mem_append_right _
            (List.mem_filterMap.mpr ⟨p, List.mem_of_getLast? hlast, hc⟩)
    rcases hsome with hc | hc
    · exact absurd rfl (hcomps _ (hmem _ hc)).2
    · exact ⟨p, hmem _ hc⟩
  rcases join_checked hv dest with heq | hbelow
  · rw [join, foldl_stepTo dest hcomps] at heq
    have hnil : normals (components name) = [] := by simpa using heq
    have hmem : s ∈ normals (components name) := List.mem_filterMap.mpr ⟨_, hs, rfl⟩
    rw [hnil] at hmem
    cases hmem
  · exact hbelow

-- ---------------------------------------------------------------------------
-- The steps of the reader
-- ---------------------------------------------------------------------------

/-- A failure that is an error value. -/
def IsErr : Failure → Prop
  | .error _ => True
  | _ => False

/-- A step of the reader that is safe wherever it starts. -/
abbrev KeepsSafe {α : Type} (dest : AbsPath) (m : ZipReader α) : Prop :=
  Keeps (Safe dest) IsErr m

section

variable {dest : AbsPath}

theorem keeps_bail {α : Type} (e : AnyError) : KeepsSafe dest (bail e : ZipReader α) :=
  Keeps.throw trivial

theorem keeps_onFs {f : Fs → Except AnyError Fs}
    (hf : ∀ fs fs', f fs = .ok fs' → Contained dest fs fs') : KeepsSafe dest (onFs f) := by
  rintro ⟨r, fs⟩
  unfold Meets
  cases hstep : f fs with
  | ok fs' =>
    rw [onFs_ok hstep]
    exact ⟨hf fs fs' hstep, le_rfl⟩
  | error e =>
    rw [onFs_error hstep]
    exact ⟨⟨.refl dest fs, le_rfl⟩, trivial⟩

theorem length_read_le (r : Reader) (k : Nat) : (r.read k).2.rest.length ≤ r.rest.length := by
  unfold Reader.read
  split
  · simp
  · simp
  · exact le_rfl

theorem length_readExactLoop_le : ∀ (fuel need : Nat) (r : Reader),
    (Reader.readExactLoop fuel need r).2.rest.length ≤ r.rest.length
  | 0, _, r => le_rfl
  | fuel + 1, need, r => by
    have hread := length_read_le r need
    unfold Reader.readExactLoop
    split_ifs
    · exact le_rfl
    · split
      · rename_i h
        rw [h] at hread
        exact hread
      · rename_i h
        rw [h] at hread
        exact hread
      · rename_i b bs r' h
        rw [h] at hread
        have hloop := length_readExactLoop_le fuel (need - (bs.length + 1)) r'
        split
        · rename_i h'
          rw [h'] at hloop
          exact hloop.trans hread
        · rename_i h'
          rw [h'] at hloop
          exact hloop.trans hread

/-- What is read whole is gone from the stream. -/
theorem length_readExact_lt {r r' : Reader} {n : Nat} {bs : Bytes} (hn : 0 < n)
    (h : r.readExact n = (.ok bs, r')) : r'.rest.length < r.rest.length := by
  obtain ⟨n, rfl⟩ := Nat.exists_eq_add_one_of_ne_zero hn.ne'
  unfold Reader.readExact Reader.readExactLoop at h
  rw [if_neg (Nat.succ_ne_zero n)] at h
  split at h
  · cases h
  · cases h
  · rename_i b tl r₁ hread
    have hrest := congrArg List.length (Reader.read_ok hread).2
    have hloop := length_readExactLoop_le n (n + 1 - (tl.length + 1)) r₁
    simp only [List.length_append, List.length_cons] at hrest
    split at h
    · rename_i h'
      rw [h'] at hloop
      obtain ⟨-, rfl⟩ := Prod.mk.inj h
      dsimp only at hloop
      omega
    · cases h

theorem keeps_readExactRaw (n : Nat) : KeepsSafe dest (readExactRaw n) :=
  fun s => ⟨.refl dest s.env, length_readExactLoop_le n n s.reader⟩

theorem keeps_readExact (context : String) (n : Nat) : KeepsSafe dest (readExact context n) := by
  refine (keeps_readExactRaw n).bind fun r => ?_
  cases r with
  | ok bs => exact Keeps.pure bs
  | error e => exact keeps_bail _

theorem keeps_readU16 : KeepsSafe dest readU16 :=
  (keeps_readExact _ 2).bind fun bs => Keeps.pure (leNat bs)

theorem keeps_readU32 : KeepsSafe dest readU32 :=
  (keeps_readExact _ 4).bind fun bs => Keeps.pure (leNat bs)

theorem keeps_readU64 : KeepsSafe dest readU64 :=
  (keeps_readExact _ 8).bind fun bs => Keeps.pure (leNat bs)

theorem keeps_readLocalHeader : KeepsSafe dest readLocalHeader :=
  keeps_readU16.bind fun _ => keeps_readU16.bind fun _ => keeps_readU16.bind fun _ =>
    keeps_readU16.bind fun _ => keeps_readU16.bind fun _ => keeps_readU32.bind fun _ =>
      keeps_readU32.bind fun _ => keeps_readU32.bind fun _ => keeps_readU16.bind fun _ =>
        keeps_readU16.bind fun _ => Keeps.pure _

theorem keeps_readDataDescriptor (zip64 : Bool) : KeepsSafe dest (readDataDescriptor zip64) := by
  refine keeps_readU32.bind fun first => ?_
  have hsizes : ∀ crc32 : Nat, KeepsSafe dest (if zip64 then do
        let csize ← readU64
        let usize ← readU64
        return (crc32, csize, usize)
      else do
        let csize ← readU32
        let usize ← readU32
        return (crc32, csize, usize)) := by
    intro crc32
    cases zip64 with
    | true => exact keeps_readU64.bind fun _ => keeps_readU64.bind fun _ => Keeps.pure _
    | false => exact keeps_readU32.bind fun _ => keeps_readU32.bind fun _ => Keeps.pure _
  dsimp only
  by_cases hsig : first = ZIP_DATA_DESCRIPTOR_SIG
  · rw [if_pos hsig]
    exact keeps_readU32.bind hsizes
  · rw [if_neg hsig]
    exact (Keeps.pure first).bind hsizes

/-- The slices of the data buffer are in bounds: a `read` hands out no more than
it was given room for. -/
theorem keeps_readSome {k : Nat} (hk : k ≤ READ_BUF_LEN) : KeepsSafe dest (readSome k) := by
  rintro ⟨r, fs⟩
  have hle := length_read_le r k
  unfold Meets
  cases hread : r.read k with
  | mk res r' =>
    rw [hread] at hle
    cases res with
    | ok bs =>
      rw [readSome_ok hk hread fs]
      exact ⟨.refl dest fs, hle⟩
    | error e =>
      rw [readSome_error hk hread fs]
      exact ⟨⟨.refl dest fs, hle⟩, trivial⟩

/-- Each round of the data loop takes a byte, so the loop is never cut short. -/
theorem keeps_readFileData (name : String) {out : AbsPath} (hout : Below dest out) :
    ∀ {fuel remaining : Nat} (crc : UInt32), remaining ≤ fuel →
      KeepsSafe dest (readFileData name out fuel remaining crc) := by
  intro fuel
  induction fuel with
  | zero =>
    intro remaining crc hle
    obtain rfl := Nat.le_zero.mp hle
    exact Keeps.pure crc
  | succ fuel ih =>
    intro remaining crc hle
    unfold readFileData
    split_ifs
    · exact Keeps.pure crc
    · refine (keeps_readSome (min_le_left ..)).bind fun bs => ?_
      dsimp only
      split_ifs with hempty
      · exact Keeps.throw_bind trivial
      · -- something was read, so less remains
        have hpos : 0 < bs.length := by
          cases bs with
          | nil => exact absurd rfl hempty
          | cons b bs => exact Nat.succ_pos _
        refine (keeps_onFs ?_).bind fun _ => ih _ (by omega)
        intro fs fs' h
        obtain rfl := Except.ok.inj h
        exact contained_appendFile fs hout bs

-- ---------------------------------------------------------------------------
-- Sizes and names
-- ---------------------------------------------------------------------------

/-- The slices of the extra field are in bounds, and each round moves on. -/
theorem isErr_of_parseZip64Loop {extra : Bytes} : ∀ {fuel i : Nat} {x : Failure},
    i ≤ extra.length → extra.length < fuel + i → parseZip64Loop extra fuel i = .error x → IsErr x
  | 0, i, x, hi, hfuel, h => absurd hfuel (by omega)
  | fuel + 1, i, x, hi, hfuel, h => by
    unfold parseZip64Loop at h
    by_cases hguard : i + 4 ≤ extra.length
    · rw [if_pos hguard, slice_ok (by omega) (by omega), slice_ok (by omega) (by omega)] at h
      simp only [bind, Except.bind] at h
      generalize leNat (List.take (i + 4 - (i + 2)) (List.drop (i + 2) extra)) = len at h
      by_cases hlong : i + 4 + len > extra.length
      · rw [if_pos hlong] at h
        obtain rfl := Except.error.inj h
        trivial
      rw [if_neg hlong] at h
      split_ifs at h with hid hshort
      · obtain rfl := Except.error.inj h
        trivial
      · rw [slice_ok (by omega) (by omega), slice_ok (by omega) (by omega)] at h
        cases h
      · exact isErr_of_parseZip64Loop (by omega) (by omega) h
    · rw [if_neg hguard] at h
      obtain rfl := Except.error.inj h
      trivial

theorem keeps_entrySizes (h : LocalHeader) (extra : Bytes) : KeepsSafe dest (entrySizes h extra) := by
  unfold entrySizes
  split_ifs
  · cases hparse : parseZip64SizesFromExtra extra with
    | ok sizes => exact Keeps.pure sizes
    | error x =>
      exact Keeps.throw (isErr_of_parseZip64Loop (Nat.zero_le _) (Nat.lt_succ_self _) hparse)
  · exact Keeps.pure _

theorem keeps_decodeName (nameBytes : Bytes) : KeepsSafe dest (decodeName nameBytes) := by
  unfold decodeName
  split
  · exact Keeps.pure _
  · exact keeps_bail _

theorem keeps_checkMethod (method : Nat) : KeepsSafe dest (checkMethod method) := by
  unfold checkMethod
  split_ifs
  · exact keeps_bail _
  · exact Keeps.pure ()

theorem keeps_entryCheck (h : LocalHeader) (compressedSize uncompressedSize : Nat) :
    KeepsSafe dest (entryCheck h compressedSize uncompressedSize) := by
  unfold entryCheck
  split_ifs
  · exact keeps_readDataDescriptor _
  · exact Keeps.pure _

theorem keeps_checkCrc (name : String) (crc32 computedCrc : Nat) :
    KeepsSafe dest (checkCrc name crc32 computedCrc) := by
  unfold checkCrc
  split_ifs
  · exact keeps_bail _
  · exact Keeps.pure ()

theorem keeps_checkSizes (name : String) (compressedSize uncompressedSize ddCsize ddUsize : Nat) :
    KeepsSafe dest (checkSizes name compressedSize uncompressedSize ddCsize ddUsize) := by
  unfold checkSizes
  split_ifs
  · exact keeps_bail _
  · exact Keeps.pure ()

-- ---------------------------------------------------------------------------
-- Entries
-- ---------------------------------------------------------------------------

/-- A name that is not checked ends the entry. -/
theorem keeps_checked {α : Type} (rel : String) {m : ZipReader α}
    (hm : validateRelPath rel = .ok () → KeepsSafe dest m) :
    KeepsSafe dest (liftResult (validateRelPath rel) >>= fun _ => m) := by
  cases hv : validateRelPath rel with
  | ok u => exact (Keeps.pure u).bind fun _ => hm hv
  | error e => exact Keeps.throw_bind trivial

theorem keeps_createDirFor {rel : String} (hv : validateRelPath rel = .ok ()) :
    KeepsSafe dest (createDirFor dest rel) := by
  have hplace : Below dest (join dest rel) ∨ join dest rel <+: dest := by
    rcases join_checked hv dest with heq | hbelow
    · exact Or.inr (by rw [heq])
    · exact Or.inl hbelow
  have hparent : Below dest (join dest rel).dropLast ∨ (join dest rel).dropLast <+: dest :=
    (prefix_below hplace (List.dropLast_prefix _)).symm
  refine Keeps.get.bind fun s => ?_
  split_ifs
  · exact (keeps_onFs fun fs fs' h => contained_createDirAll hparent h).bind fun _ => keeps_bail _
  · exact keeps_onFs fun fs fs' h => contained_createDirAll hplace h

theorem keeps_extractDir (name : String) : KeepsSafe dest (extractDir dest name) :=
  keeps_checked _ keeps_createDirFor

/-- The file is opened: below `dest`, or not at all. -/
theorem keeps_createOut {α : Type} {name : String} {m : ZipReader α}
    (hv : validateRelPath name = .ok ()) (hslash : name.toList.getLast? ≠ some '/')
    (hm : Below dest (join dest name) → KeepsSafe dest m) :
    KeepsSafe dest ((onFs fun fs => createOut fs dest name) >>= fun _ => m) := by
  by_cases hdot : endsInDot name = true
  · rintro ⟨r, fs⟩
    have hfail : ∃ e, createOut fs dest name = .error e := by
      simp only [createOut, if_pos hdot]
      exact ⟨_, rfl⟩
    obtain ⟨e, he⟩ := hfail
    unfold Meets
    rw [bind_error (onFs_error (f := fun fs => createOut fs dest name) he r)]
    exact ⟨⟨.refl dest fs, le_rfl⟩, trivial⟩
  · have hbelow : Below dest (join dest name) := below_of_name hv hslash hdot dest
    refine (keeps_onFs fun fs fs' h => ?_).bind fun _ => hm hbelow
    rw [createOut_ok h]
    exact contained_setFile hbelow []

theorem keeps_extractFile {name : String} (hslash : name.toList.getLast? ≠ some '/')
    (h : LocalHeader) (compressedSize uncompressedSize : Nat) :
    KeepsSafe dest (extractFile dest name h compressedSize uncompressedSize) := by
  refine keeps_checked name fun hv => ?_
  have hparent : Below dest (join dest name).dropLast ∨ (join dest name).dropLast <+: dest := by
    rcases join_checked hv dest with heq | hbelow
    · exact Or.inr (by rw [heq]; exact List.dropLast_prefix _)
    · exact (prefix_below (Or.inl hbelow) (List.dropLast_prefix _)).symm
  refine (keeps_onFs fun fs fs' h => contained_createDirAll hparent h).bind fun _ => ?_
  refine keeps_createOut hv hslash fun hbelow => ?_
  refine (keeps_readFileData name hbelow crcInit le_rfl).bind fun crc => ?_
  refine (keeps_entryCheck h compressedSize uncompressedSize).bind fun sizes => ?_
  exact (keeps_checkCrc name _ _).bind fun _ => keeps_checkSizes name _ _ _ _

theorem keeps_extractEntry : KeepsSafe dest (extractEntry dest) := by
  refine keeps_readLocalHeader.bind fun h => ?_
  refine (keeps_readExact _ _).bind fun nameBytes => ?_
  refine (keeps_decodeName nameBytes).bind fun name => ?_
  refine (keeps_readExact _ _).bind fun extra => ?_
  refine (keeps_checkMethod h.method).bind fun _ => ?_
  refine (keeps_entrySizes h extra).bind fun sizes => ?_
  split_ifs with hslash
  · exact keeps_extractDir name
  · exact keeps_extractFile hslash h sizes.1 sizes.2

-- ---------------------------------------------------------------------------
-- The whole reader
-- ---------------------------------------------------------------------------

/-- A signature takes four bytes. -/
theorem readU32Opt_shorter (i : Input Fs) :
    Meets readU32Opt i (fun sig i' => Safe dest i i' ∧
        (sig.isSome = true → i'.reader.rest.length < i.reader.rest.length))
      fun x i' => Safe dest i i' ∧ IsErr x := by
  have hsafe : Safe dest i ⟨(i.reader.readExact 4).2, i.env⟩ :=
    ⟨.refl dest i.env, length_readExactLoop_le 4 4 i.reader⟩
  have hraw : readExactRaw 4 i =
      .ok (i.reader.readExact 4).1 ⟨(i.reader.readExact 4).2, i.env⟩ := rfl
  unfold Meets readU32Opt
  rw [bind_ok hraw]
  cases hread : i.reader.readExact 4 with
  | mk res r' =>
    rw [hread] at hsafe
    cases res with
    | ok bs => exact ⟨hsafe, fun _ => length_readExact_lt (by decide) hread⟩
    | error e =>
      cases e with
      | unexpectedEof => exact ⟨hsafe, fun h => by cases h⟩
      | other => exact ⟨hsafe, trivial⟩

/-- Every round but the last takes a signature, so the loop is never cut
short. -/
theorem extractLoop_safe : ∀ {fuel : Nat} {i : Input Fs}, i.reader.rest.length < fuel →
    Meets (extractLoop dest fuel) i (fun _ i' => Safe dest i i') fun x i' =>
      Safe dest i i' ∧ IsErr x
  | 0, i, h => absurd h (Nat.not_lt_zero _)
  | fuel + 1, i, h => by
    unfold extractLoop
    refine Keeps.meets_bind (readU32Opt_shorter i) fun sig i' hshort => ?_
    cases sig with
    | none => exact Keeps.pure (R := Safe dest) () i'
    | some sig =>
      dsimp only
      have hlt := hshort rfl
      split_ifs
      · refine Keeps.meets_bind (R := Safe dest) (Q := fun _ i'' => i''.reader.rest.length < fuel)
          ((keeps_extractEntry i').mono ?_ fun x i'' hx => hx) fun _ i'' hi'' => extractLoop_safe hi''
        intro _ i'' hi''
        exact ⟨hi'', by have := hi''.shorter; omega⟩
      · exact Keeps.pure (R := Safe dest) () i'
      · exact keeps_bail (α := Unit) _ i'

/-- Making the destination changes what is on the way to it. -/
theorem keeps_makeDest {f : Fs → Except AnyError Fs}
    (hf : ∀ fs fs', f fs = .ok fs' → fs.createDirAll dest = .ok fs') : KeepsSafe dest (onFs f) :=
  keeps_onFs fun fs fs' h => contained_createDirAll (Or.inr List.prefix_rfl) (hf fs fs' h)

theorem extractZip_meets (dest : AbsPath) (i : Input Fs) :
    Meets (extractZip dest) i (fun _ i' => Safe dest i i') fun x i' => Safe dest i i' ∧ IsErr x := by
  rw [extractZip]
  refine Keeps.meets_bind (R := Safe dest) (Q := fun _ _ => True)
    ((@keeps_makeDest dest _ (fun fs fs' h => ?_) i).mono ?_ ?_) ?_
  · cases hc : fs.createDirAll dest with
    | error e =>
      rw [hc] at h
      cases h
    | ok fs₁ =>
      rw [hc] at h
      exact h
  · exact fun _ i' hi' => ⟨hi', trivial⟩
  · exact fun _ i' hi' => hi'
  · exact fun _ i' _ => extractLoop_safe (Nat.lt_succ_self _)

/-- Reading any stream, in any pieces and with any failing reads, comes to an
end: well, or with an error. No slice is out of bounds. Files change below `dest`
only, and directories there and on the way to it. -/
theorem extractZip_safe (dest : AbsPath) (r : Reader) (fs : Fs) :
    ((runExtract dest r fs).1 = .ok () ∨ ∃ e, (runExtract dest r fs).1 = .error (.error e)) ∧
      Contained dest fs (runExtract dest r fs).2 := by
  have h := extractZip_meets dest ⟨r, fs⟩
  unfold Meets at h
  unfold runExtract
  cases hrun : extractZip dest ⟨r, fs⟩ with
  | ok u i =>
    rw [hrun] at h
    exact ⟨Or.inl rfl, h.tree⟩
  | error x i =>
    rw [hrun] at h
    refine ⟨Or.inr ?_, h.1.tree⟩
    cases x with
    | error e => exact ⟨e, rfl⟩
    | panic => exact h.2.elim
    | diverges => exact h.2.elim

/-- From an empty tree, a run into `/a/b` makes `/a`, which is not in `/a/b`. -/
theorem extractZip_makes_parent :
    (runExtract ["a", "b"] ⟨[], []⟩ Fs.empty).1 = .ok () ∧ Fs.empty.dirs ["a"] = false ∧
      (runExtract ["a", "b"] ⟨[], []⟩ Fs.empty).2.dirs ["a"] = true ∧
      ¬ ∃ ns, ["a"] = ["a", "b"] ++ ns := by
  refine ⟨by decide +kernel, by decide, by decide +kernel, ?_⟩
  rintro ⟨ns, h⟩
  exact absurd (congrArg List.length h) (by simp)

end

end Chbk
