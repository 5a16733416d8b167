import Chbk.Model.Collect
import Chbk.Safety.Limits
import Chbk.Safety.Multipart
import Chbk.Safety.Schedule
import Chbk.Safety.Staging
import Chbk.Zip.RoundTrip

/-!
# From a staged part to its blob and back

What becomes of the files of a part: `collect_files` lists them, `write_zip` puts them
into a stream, the multipart upload makes an object of it, and `extract_zip` takes the
object apart again.

* `ensures_collectFiles` — `collect_files` returns one list for one tree, whatever the
  order of the walk.
* `archive_reproducible` — directories with the same files have the same archive.
* `part_journey` — the extracted directory holds the files of the part.
-/

namespace Chbk

open Lib Prog

-- ---------------------------------------------------------------------------
-- Collecting
-- ---------------------------------------------------------------------------

/-- The entry of a file of a tree. -/
def zipEntryOf (dir : String) (t : Tree) (p : RelPath) : ZipFileEntry :=
  ⟨shown dir p, joinWith "/" p, UInt64.ofNat ((t.fileAt p).getD []).length⟩

/-- The files a walk has come to. -/
def filePaths (entries : List (Except AnyError (RelPath × FileType))) : List RelPath :=
  entries.filterMap fun
    | .ok (rel, .file) => some rel
    | _ => none

theorem mem_filePaths {entries : List (Except AnyError (RelPath × FileType))} {p : RelPath} :
    p ∈ filePaths entries ↔ .ok (p, FileType.file) ∈ entries := by
  unfold filePaths
  rw [List.mem_filterMap]
  constructor
  · rintro ⟨entry, hentry, hp⟩
    match entry, hp with
    | .ok (rel, .file), hp =>
      obtain rfl := Option.some.inj hp
      exact hentry
  · intro hp
    exact ⟨_, hp, rfl⟩

/-- The files of a tree in the order of their paths. -/
structure Listing (dir : String) (t : Tree) (files : List ZipFileEntry) (paths : List RelPath) :
    Prop where
  sorted : paths.Pairwise (· < ·)
  mem_iff : ∀ p, p ∈ paths ↔ (t.fileAt p).isSome = true
  files_eq : files = paths.map (zipEntryOf dir t)

/-- The loop over a walk. -/
structure Collected (dir : String) (t : Tree) (pre : List (Except AnyError (RelPath × FileType)))
    (out : List (RelPath × ZipFileEntry)) : Prop where
  healthy : ∀ e, .error e ∉ pre
  paths : out.map Prod.fst = filePaths pre
  entries : ∀ x ∈ out, x.2 = zipEntryOf dir t x.1

variable {source : Tree} {s : Staging} {dir : String}

/-- One round: an entry that is no file is passed over. -/
theorem Collected.skip {t : Tree} {pre : List (Except AnyError (RelPath × FileType))}
    {out : List (RelPath × ZipFileEntry)} {rel : RelPath} {ft : FileType}
    (h : Collected dir t pre out) (hft : ft ≠ .file) :
    Collected dir t (pre ++ [.ok (rel, ft)]) out := by
  refine ⟨?_, ?_, h.entries⟩
  · intro e he
    rcases List.mem_append.mp he with he | he
    · exact h.healthy e he
    · cases List.mem_singleton.mp he
  · rw [h.paths]
    unfold filePaths
    rw [List.filterMap_append]
    cases ft <;> simp_all

/-- One round: a file is kept. -/
theorem Collected.file {t : Tree} {pre : List (Except AnyError (RelPath × FileType))}
    {out : List (RelPath × ZipFileEntry)} {rel : RelPath} (h : Collected dir t pre out) :
    Collected dir t (pre ++ [.ok (rel, .file)]) (out ++ [(rel, zipEntryOf dir t rel)]) := by
  refine ⟨?_, ?_, ?_⟩
  · intro e he
    rcases List.mem_append.mp he with he | he
    · exact h.healthy e he
    · cases List.mem_singleton.mp he
  · rw [List.map_append, h.paths]
    unfold filePaths
    rw [List.filterMap_append]
    rfl
  · intro x hx
    rcases List.mem_append.mp hx with hx | hx
    · exact h.entries x hx
    · obtain rfl := List.mem_singleton.mp hx
      rfl

theorem ensures_collectEntry {pre : List (Except AnyError (RelPath × FileType))}
    {out : List (RelPath × ZipFileEntry)} {entry : Except AnyError (RelPath × FileType)}
    (hnodup : (s.dst.map Prod.fst).Nodup) (h : Collected dir s.dst pre out)
    (hentry : ∀ rel ft, entry = .ok (rel, ft) → ∃ node, (rel, node) ∈ s.dst ∧ node.fileType = ft) :
    Ensures (StageAnswers source) (fun _ => True) (collectEntry dir out entry) s
      (fun out' s' => s' = s ∧ Collected dir s.dst (pre ++ [entry]) out') fun _ s' => s' = s := by
  unfold collectEntry
  cases entry with
  | error e => exact Ensures.throw rfl
  | ok x =>
    obtain ⟨rel, ft⟩ := x
    refine Ensures.bind (R := fun x s' => x = (rel, ft) ∧ s = s') (Ensures.pure ⟨rfl, rfl⟩) ?_
    rintro _ _ ⟨rfl, rfl⟩
    dsimp only
    split
    · exact Ensures.throw rfl
    split
    · rename_i hft
      exact Ensures.pure ⟨rfl, h.skip hft⟩
    · rename_i hft
      obtain rfl : ft = .file := Decidable.not_not.mp hft
      obtain ⟨node, hnode, hfile⟩ := hentry rel .file rfl
      obtain ⟨bs, rfl⟩ : ∃ bs, node = .file bs := by
        cases node with
        | file bs => exact ⟨bs, rfl⟩
        | _ => cases hfile
      have hat : s.dst.fileAt rel = some bs :=
        Tree.fileAt_eq_some.mpr ((mem_iff_lookup hnodup).mp hnode)
      -- the path is checked, and the size is the file's
      refine Ensures.bind (R := fun _ s' => s = s') ?_ ?_
      · cases validateRelPath (joinWith "/" rel) with
        | ok _ => exact Ensures.pure rfl
        | error e => exact Ensures.throw rfl
      rintro _ _ rfl
      refine Ensures.bind (R := fun n s' => s = s' ∧ n = bs.length) ?_ ?_
      · unfold metadataLen fsCall
        refine Ensures.bind (R := fun r s' => s = s' ∧ ∀ n, r = .ok n → n = bs.length)
          (Ensures.ask trivial ?_) ?_
        · intro r s' hr
          cases r with
          | ok n =>
            refine ⟨hr.1.symm, fun m hm => ?_⟩
            rw [← Except.ok.inj hm]
            exact hr.2 bs hat
          | error e => exact ⟨hr.symm, fun m hm => by cases hm⟩
        · rintro r _ ⟨rfl, hn⟩
          cases r with
          | ok n => exact Ensures.pure ⟨rfl, hn n rfl⟩
          | error e => exact Ensures.throw rfl
      · rintro _ _ ⟨rfl, rfl⟩
        refine Ensures.pure ⟨rfl, ?_⟩
        have heq : zipEntryOf dir s.dst rel =
            ⟨shown dir rel, joinWith "/" rel, UInt64.ofNat bs.length⟩ := by
          unfold zipEntryOf
          rw [hat]
          rfl
        rw [← heq]
        exact h.file

theorem filePaths_tree : ∀ t : Tree, filePaths (t.map fun x => .ok (x.1, x.2.fileType)) =
    (t.filter fun x => x.2.isFile).map Prod.fst
  | [] => rfl
  | (p, .file _) :: t => congrArg (p :: ·) (filePaths_tree t)
  | (_, .dir) :: t => filePaths_tree t
  | (_, .symlink) :: t => filePaths_tree t
  | (_, .other) :: t => filePaths_tree t

/-- The files that a whole walk comes to are those of the tree. -/
theorem filePaths_spec {t : Tree} {entries : List (Except AnyError (RelPath × FileType))}
    (hnodup : (t.map Prod.fst).Nodup)
    (hperm : entries.Perm (t.map fun x => .ok (x.1, x.2.fileType))) :
    (filePaths entries).Nodup ∧ ∀ p, p ∈ filePaths entries ↔ (t.fileAt p).isSome = true := by
  constructor
  · have hsub : ((t.filter fun x => x.2.isFile).map Prod.fst).Nodup :=
      (List.filter_sublist.map Prod.fst).nodup hnodup
    rw [← filePaths_tree] at hsub
    exact (hperm.filterMap _).nodup_iff.mpr hsub
  · intro p
    rw [mem_filePaths, hperm.mem_iff, List.mem_map, Option.isSome_iff_exists]
    constructor
    · rintro ⟨x, hx, heq⟩
      obtain ⟨rel, node⟩ := x
      obtain ⟨rfl, hnode⟩ := Prod.mk.inj (Except.ok.inj heq)
      cases node with
      | file bs => exact ⟨bs, Tree.fileAt_eq_some.mpr ((mem_iff_lookup hnodup).mp hx)⟩
      | _ => cases hnode
    · rintro ⟨bs, hbs⟩
      exact ⟨(p, .file bs), mem_of_lookup (Tree.fileAt_eq_some.mp hbs), rfl⟩

/-- **`collect_files` lists the files of a tree**: once each, in the order of their
paths. -/
theorem ensures_collectFiles (hnodup : (s.dst.map Prod.fst).Nodup) :
    Ensures (StageAnswers source) (fun _ => True) (collectFiles dir) s
      (fun files s' => s' = s ∧ ∃ paths, Listing dir s.dst files paths) fun _ s' => s' = s := by
  unfold collectFiles
  refine Ensures.bind (R := fun entries s' => WalkAnswers s.dst entries ∧ s = s') ?_ ?_
  · exact Ensures.ask trivial fun r s' hr => ⟨hr.1, hr.2.symm⟩
  rintro entries _ ⟨hwalk, rfl⟩
  refine Ensures.bind (R := fun out s' => s' = s ∧ Collected dir s.dst entries out) ?_ ?_
  · refine ensures_foldl (fun pre out s' => s' = s ∧ Collected dir s.dst pre out) ?_
      ⟨rfl, by simp, rfl, by simp⟩
    rintro pre entry post out _ hsplit ⟨rfl, hcollected⟩
    refine ensures_collectEntry hnodup hcollected ?_
    rintro rel ft rfl
    exact hwalk.1 rel ft (by rw [hsplit]; simp)
  rintro out s' ⟨rfl, hout⟩
  obtain ⟨hpathsNodup, hpaths⟩ := filePaths_spec hnodup (hwalk.2 hout.healthy).2
  have hsorted : (out.insertionSort fun x y => x.1 ≤ y.1).map Prod.fst =
      (filePaths entries).insertionSort (· ≤ ·) := by
    rw [← hout.paths]
    exact List.map_insertionSort _ _ Prod.fst out fun _ _ _ _ => Iff.rfl
  refine Ensures.pure ⟨rfl, (filePaths entries).insertionSort (· ≤ ·), ?_, ?_, ?_⟩
  · have hle := List.pairwise_insertionSort (· ≤ ·) (filePaths entries)
    have hne : ((filePaths entries).insertionSort (· ≤ ·)).Nodup :=
      (List.perm_insertionSort _ _).nodup_iff.mpr hpathsNodup
    exact hle.imp₂ (fun _ _ hle hne => lt_of_le_of_ne hle hne) hne
  · intro p
    rw [List.mem_insertionSort]
    exact hpaths p
  · rw [← hsorted, List.map_map]
    refine List.map_congr_left fun x hx => ?_
    exact hout.entries x ((List.mem_insertionSort _).mp hx)

-- ---------------------------------------------------------------------------
-- Archives
-- ---------------------------------------------------------------------------

/-- Some run of `collect_files` over a staged directory has its files archived. -/
def Archives (source : Tree) (dir : String) (s : Staging) (files : List ZipFileEntry)
    (openFile : String → Except AnyError Reader) (n : UInt64) (bytes : Bytes) : Prop :=
  Reaches (StageAnswers source) (collectFiles dir) s (fun files' _ => files' = files) ∧
    (∀ p bs r, s.dst.fileAt p = some bs → openFile (shown dir p) = .ok r → r.rest = bs) ∧
    zipOutput openFile files = (.ok n, bytes)

/-- Directory entries come once, and their sizes fit into a `u64`. -/
structure OnDisk (t : Tree) : Prop where
  nodup : (t.map Prod.fst).Nodup
  sizes : ∀ p bs, t.fileAt p = some bs → bs.length < 2 ^ 64

theorem Archives.listing {files : List ZipFileEntry} {openFile : String → Except AnyError Reader}
    {n : UInt64} {bytes : Bytes} (hdisk : OnDisk s.dst)
    (h : Archives source dir s files openFile n bytes) :
    ∃ paths, Listing dir s.dst files paths := by
  obtain ⟨files', s', rfl, -, hlisting⟩ := h.1.ensured (ensures_collectFiles hdisk.nodup)
  exact hlisting

/-- The same files in the same order have the same paths. -/
theorem Listing.paths_eq {t t' : Tree} {dir' : String} {files files' : List ZipFileEntry}
    {paths paths' : List RelPath} (h : Listing dir t files paths)
    (h' : Listing dir' t' files' paths') (hsame : t.HoldsExactly t') : paths = paths' := by
  refine List.Pairwise.eq_of_mem_iff h.sorted h'.sorted fun p => ?_
  rw [h.mem_iff, h'.mem_iff, hsame p]

/-- Two entries that the writer does not tell apart. -/
structure SameEntry (openFile openFile' : String → Except AnyError Reader) (f g : ZipFileEntry) :
    Prop where
  relPath : f.relPath = g.relPath
  size : f.size = g.size
  content : fileContent openFile f = fileContent openFile' g

theorem SameEntry.nextOffset {openFile openFile' : String → Except AnyError Reader}
    {f g : ZipFileEntry} (h : SameEntry openFile openFile' f g) (offset : UInt64) :
    nextOffset offset f = nextOffset offset g := by
  unfold Chbk.nextOffset zipName
  rw [h.relPath, h.size]

theorem SameEntry.archiveEntry {openFile openFile' : String → Except AnyError Reader}
    {f g : ZipFileEntry} (h : SameEntry openFile openFile' f g) (offset : UInt64) :
    archiveEntry openFile offset f = Chbk.archiveEntry openFile' offset g := by
  unfold Chbk.archiveEntry zipName
  rw [h.relPath, h.size, h.content]

/-- Lists of such entries have the same archive. -/
theorem archives_eq {openFile openFile' : String → Except AnyError Reader}
    {files files' : List ZipFileEntry}
    (h : List.Forall₂ (SameEntry openFile openFile') files files') :
    ∀ offset, archiveEntries openFile offset files = archiveEntries openFile' offset files' ∧
      files.foldl nextOffset offset = files'.foldl nextOffset offset ∧
      ∀ es, centralsOf offset files es = centralsOf offset files' es := by
  induction h with
  | nil => exact fun offset => ⟨rfl, rfl, fun es => rfl⟩
  | @cons f g fs gs hfg _ ih =>
    intro offset
    obtain ⟨hentries, hend, hcentrals⟩ := ih (nextOffset offset f)
    refine ⟨?_, ?_, ?_⟩
    · rw [archiveEntries, archiveEntries, hentries, hfg.archiveEntry, hfg.nextOffset]
    · rw [List.foldl_cons, List.foldl_cons, hend, hfg.nextOffset]
    · intro es
      cases es with
      | nil => rfl
      | cons e es => rw [centralsOf, centralsOf, hcentrals, hfg.nextOffset, hfg.size]

/-- Each file of a list that is written is. -/
theorem Written.of_mem {openFile : String → Except AnyError Reader} :
    ∀ {files : List ZipFileEntry} {offset : UInt64} {es : List ArchiveEntry},
      Written openFile offset files es → ∀ f ∈ files, ∃ offset e, WrittenEntry openFile offset f e
  | _ :: _, offset, e :: _, h, f, hf => by
    rcases List.mem_cons.mp hf with rfl | hf
    · exact ⟨offset, e, h.1⟩
    · exact h.2.of_mem f hf

/-- What the writer finds in a file of the tree. -/
theorem Listing.content {t : Tree} {files : List ZipFileEntry}
    {openFile : String → Except AnyError Reader} {n : UInt64} {bytes : Bytes}
    {paths : List RelPath} (hlisting : Listing dir t files paths)
    (hsizes : ∀ p bs, t.fileAt p = some bs → bs.length < 2 ^ 64)
    (hread : ∀ p bs r, t.fileAt p = some bs → openFile (shown dir p) = .ok r → r.rest = bs)
    (hzip : zipOutput openFile files = (.ok n, bytes)) {p : RelPath} {bs : Bytes}
    (hp : t.fileAt p = some bs) :
    fullContent openFile (zipEntryOf dir t p) = bs ∧ (zipEntryOf dir t p).size.toNat = bs.length := by
  have hmem : zipEntryOf dir t p ∈ files := by
    rw [hlisting.files_eq]
    exact List.mem_map.mpr ⟨p, (hlisting.mem_iff p).mpr (by rw [hp]; rfl), rfl⟩
  obtain ⟨offset, e, he⟩ := (zipOutput_ok hzip).1.of_mem _ hmem
  obtain ⟨r, hopen, -⟩ := he.data
  have hopen : openFile (shown dir p) = .ok r := hopen
  constructor
  · unfold fullContent zipEntryOf
    dsimp only
    rw [hopen]
    exact hread p bs r hp hopen
  · unfold zipEntryOf
    dsimp only
    rw [hp, Option.getD_some, UInt64.toNat_ofNat']
    exact Nat.mod_eq_of_lt (hsizes p bs hp)

theorem Archives.content {files : List ZipFileEntry} {openFile : String → Except AnyError Reader}
    {n : UInt64} {bytes : Bytes} {paths : List RelPath} (hdisk : OnDisk s.dst)
    (h : Archives source dir s files openFile n bytes) (hlisting : Listing dir s.dst files paths)
    {p : RelPath} {bs : Bytes} (hp : s.dst.fileAt p = some bs) :
    fullContent openFile (zipEntryOf dir s.dst p) = bs ∧
      (zipEntryOf dir s.dst p).size.toNat = bs.length :=
  hlisting.content hdisk.sizes h.2.1 h.2.2 hp

/-- **Directories with the same files have the same archive**: wherever they lie, in
whatever order they are walked, and however their files are read. -/
theorem archive_reproducible {source' : Tree} {s' : Staging} {dir' : String}
    {files files' : List ZipFileEntry} {openFile openFile' : String → Except AnyError Reader}
    {n n' : UInt64} {bytes bytes' : Bytes} (hdisk : OnDisk s.dst) (hdisk' : OnDisk s'.dst)
    (hsame : s.dst.HoldsExactly s'.dst) (h : Archives source dir s files openFile n bytes)
    (h' : Archives source' dir' s' files' openFile' n' bytes') : bytes = bytes' ∧ n = n' := by
  obtain ⟨paths, hlisting⟩ := h.listing hdisk
  obtain ⟨paths', hlisting'⟩ := h'.listing hdisk'
  obtain rfl := hlisting.paths_eq hlisting' hsame
  have hentries : List.Forall₂ (SameEntry openFile openFile') files files' := by
    rw [hlisting.files_eq, hlisting'.files_eq, List.forall₂_map_left_iff,
      List.forall₂_map_right_iff, List.forall₂_same]
    intro p hp
    obtain ⟨bs, hbs⟩ := Option.isSome_iff_exists.mp ((hlisting.mem_iff p).mp hp)
    have hbs' : s'.dst.fileAt p = some bs := (hsame p).symm.trans hbs
    obtain ⟨hcontent, hsize⟩ := h.content hdisk hlisting hbs
    obtain ⟨hcontent', hsize'⟩ := h'.content hdisk' hlisting' hbs'
    refine ⟨rfl, UInt64.toNat_inj.mp (hsize.trans hsize'.symm), ?_⟩
    rw [fileContent_eq_full (by rw [hcontent, hsize]),
      fileContent_eq_full (by rw [hcontent', hsize']), hcontent, hcontent']
  obtain ⟨-, hbytes, hn⟩ := zipOutput_ends h.2.2
  obtain ⟨-, hbytes', hn'⟩ := zipOutput_ends h'.2.2
  obtain ⟨harchive, hend, hcentrals⟩ := archives_eq hentries 0
  constructor
  · rw [hbytes, hbytes', harchive]
    unfold archiveBytes directoryBytes
    rw [hcentrals, hend]
  · rw [hn, hn', harchive]
    unfold archiveEnd
    rw [hcentrals, hend]

/-- The file system answers at once, in the order of the tree. -/
def walkAnswer (op : StageOp) (s : Staging) : Option (StageResp op × Staging) :=
  match op with
  | .walkDir .dst =>
    if s.dst.present then some (s.dst.map fun x => .ok (x.1, x.2.fileType), s) else none
  | .metadata .dst rel => some (.ok ((s.dst.fileAt rel).getD []).length, s)
  | _ => none

theorem stageAnswers_walkAnswer {source : Tree} (op : StageOp) (s : Staging) (r : StageResp op)
    (s' : Staging) (h : walkAnswer op s = some (r, s')) : StageAnswers source op s r s' := by
  unfold walkAnswer at h
  split at h
  · split at h
    · rename_i hpresent
      obtain ⟨rfl, rfl⟩ := Prod.mk.inj (Option.some.inj h)
      refine ⟨⟨?_, fun _ => ⟨hpresent, List.Perm.refl _⟩⟩, rfl⟩
      intro rel ft hmem
      obtain ⟨x, hx, heq⟩ := List.mem_map.mp hmem
      obtain ⟨rfl, rfl⟩ := Prod.mk.inj (Except.ok.inj heq)
      exact ⟨x.2, hx, rfl⟩
    · cases h
  · obtain ⟨rfl, rfl⟩ := Prod.mk.inj (Option.some.inj h)
    refine ⟨rfl, fun bs hbs => ?_⟩
    have hbs : s.dst.fileAt _ = some bs := hbs
    rw [hbs]
    rfl
  · cases h

/-- Opening a file of the part. -/
def openOnePart (_ : String) : Except AnyError Reader := .ok ⟨[1], []⟩

/-- The part in another directory, beside an empty one, and walked the other way round. -/
def onePartAgain : Tree := [(["proj"], .dir), (["data.bin"], .file [1]), ([], .dir)]

def onePartZip : Bytes := (zipOutput openOnePart [⟨"/backup/ab/data.bin", "data.bin", 1⟩]).2

theorem archives_of_serve {source : Tree} {dir : String} {s : Staging} {files : List ZipFileEntry}
    {openFile : String → Except AnyError Reader} {n : UInt64} {bytes : Bytes}
    (hserve : Prog.serve walkAnswer (collectFiles dir) s = some (files, s))
    (hopen : ∀ p bs r, s.dst.fileAt p = some bs → openFile (shown dir p) = .ok r → r.rest = bs)
    (hzip : zipOutput openFile files = (.ok n, bytes)) :
    Archives source dir s files openFile n bytes :=
  ⟨(reaches_of_serve stageAnswers_walkAnswer hserve).mono fun _ _ h => h.1, hopen, hzip⟩

/-- The only file of the two trees. -/
theorem fileAt_onePart {t : Tree} (ht : t = onePart ∨ t = onePartAgain) {p : RelPath} {bs : Bytes}
    (hp : t.fileAt p = some bs) : p = ["data.bin"] ∧ bs = [1] := by
  have hmem := mem_of_lookup (Tree.fileAt_eq_some.mp hp)
  rcases ht with rfl | rfl
  · simpa [onePart] using hmem
  · simpa [onePartAgain] using hmem

theorem archives_onePart (source : Tree) : Archives source "/backup/ab" ⟨onePart, []⟩
    [⟨"/backup/ab/data.bin", "data.bin", 1⟩] openOnePart 131 onePartZip := by
  refine archives_of_serve (by decide +kernel) ?_ (Prod.ext (by decide +kernel) rfl)
  intro p bs r hp hr
  obtain rfl := Except.ok.inj hr
  exact (fileAt_onePart (.inl rfl) hp).2.symm

theorem onDisk_onePart {t : Tree} (ht : t = onePart ∨ t = onePartAgain) : OnDisk t where
  nodup := by rcases ht with rfl | rfl <;> decide
  sizes := by
    intro p bs hp
    obtain ⟨-, rfl⟩ := fileAt_onePart ht hp
    decide

theorem holdsExactly_onePartAgain : onePart.HoldsExactly onePartAgain := by
  intro p
  apply Option.ext
  intro bs
  constructor
  · intro hp
    obtain ⟨rfl, rfl⟩ := fileAt_onePart (.inl rfl) hp
    rfl
  · intro hp
    obtain ⟨rfl, rfl⟩ := fileAt_onePart (.inr rfl) hp
    rfl

theorem archive_reproducible_onePart : ∃ openFile n bytes,
    Archives onePart "/staging/ab" ⟨onePartAgain, []⟩ [⟨"/staging/ab/data.bin", "data.bin", 1⟩]
      openFile n bytes ∧ onePartZip = bytes ∧ 131 = n := by
  -- the same bytes, in two reads
  have hagain : Archives onePart "/staging/ab" ⟨onePartAgain, []⟩
      [⟨"/staging/ab/data.bin", "data.bin", 1⟩] (fun _ => .ok ⟨[1], [.short 1]⟩) 131
      (zipOutput (fun _ => .ok ⟨[1], [.short 1]⟩)
        [⟨"/staging/ab/data.bin", "data.bin", 1⟩]).2 := by
    refine archives_of_serve (by decide +kernel) ?_ (Prod.ext (by decide +kernel) rfl)
    intro p bs r hp hr
    obtain rfl := Except.ok.inj hr
    exact (fileAt_onePart (.inr rfl) hp).2.symm
  exact ⟨_, _, _, hagain, archive_reproducible (onDisk_onePart (.inl rfl))
    (onDisk_onePart (.inr rfl)) holdsExactly_onePartAgain (archives_onePart onePart) hagain⟩

-- ---------------------------------------------------------------------------
-- The way back
-- ---------------------------------------------------------------------------

/-- Without an ambiguous size the files come back. -/
theorem roundTrip_of_clear {openFile : String → Except AnyError Reader} {files : List ZipFileEntry}
    {n : UInt64} {bytes : Bytes} (hw : zipOutput openFile files = (.ok n, bytes))
    (hapart : files.Pairwise Apart)
    (hsize : ∀ f ∈ files, (fullContent openFile f).length = f.size.toNat)
    (hclear : ¬ AmbiguousSize files) {r : Reader} (hr : r.Serves bytes) {dest : AbsPath} {fs : Fs}
    (hfresh : Fresh dest fs) : RoundTrip openFile dest files (runExtract dest r fs) := by
  obtain ⟨hes, rfl⟩ := zipOutput_ok hw
  have hentries : ∀ e ∈ archiveEntries openFile 0 files, ¬ e.Ambiguous := fun e he ha =>
    hclear ((exists_ambiguous_iff hes).mp ⟨e, he, ha⟩)
  obtain ⟨fs₁, hdest, htree⟩ := TreeOf.start hfresh
  obtain ⟨fs', hrun⟩ := TreeOf.run hes hentries hapart (by simp) htree
  have hrestore : restoreArchive dest (archiveEntries openFile 0 files) fs = some fs' := by
    rw [restoreArchive, hdest]
    exact hrun
  rw [(runExtract_ends hes.sound hr (endsEntries_directoryBytes _ _) fs).1 fs' hrestore]
  refine ⟨rfl, fun f hf => ?_, fun q hq => ?_⟩
  · rw [restoreArchive_files hrestore, lastData_archiveEntries _ hes,
      contentAt_of_apart (hes.join_eq dest) hapart f hf, fileContent_eq_full (hsize f hf)]
    rfl
  · rw [restoreArchive_files hrestore, lastData_archiveEntries _ hes, contentAt_none hq,
      hfresh.noFiles]
    rfl

/-- A part as ClickHouse has it on disk: regular files and directories, with names a file
system allows. -/
structure PartTree (t : Tree) : Prop where
  tree : SourceTree t
  names : ∀ x ∈ t, ∀ name ∈ x.1, ProperName name

namespace PartTree

variable {part : Tree} {p q : RelPath} {bs bs' : Bytes}

theorem ne_nil (h : PartTree part) (hp : part.fileAt p = some bs) : p ≠ [] := by
  rintro rfl
  have hroot := Tree.fileAt_eq_some.mp hp
  rw [h.tree.root] at hroot
  cases hroot

/-- The path of a file, taken apart again. -/
theorem normals_eq (h : PartTree part) (hp : part.fileAt p = some bs) :
    normals (components (joinWith "/" p)) = p := by
  have hmem := mem_of_lookup (Tree.fileAt_eq_some.mp hp)
  rw [components_joinWith (h.ne_nil hp) (h.names _ hmem)]
  simp [normals, List.filterMap_map]

/-- No path leads through a file. -/
theorem not_prefix (h : PartTree part) (hp : part.fileAt p = some bs)
    (hq : part.fileAt q = some bs') (hne : p ≠ q) : ¬ p <+: q := by
  intro hpre
  have hq := Tree.fileAt_eq_some.mp hq
  have hdir := h.tree.closed q (by rw [hq]; rfl) p hpre hne
  rw [Tree.fileAt_eq_some.mp hp] at hdir
  cases hdir

end PartTree

/-- An archive of the files of a tree, wherever they lay. -/
def ArchiveOf (t : Tree) (bytes : Bytes) : Prop :=
  ∃ dir files paths openFile n, Listing dir t files paths ∧
    (∀ p bs r, t.fileAt p = some bs → openFile (shown dir p) = .ok r → r.rest = bs) ∧
    zipOutput openFile files = (.ok n, bytes)

/-- Trees with the same files have the same listings. -/
theorem Listing.congr {t t' : Tree} {files : List ZipFileEntry} {paths : List RelPath}
    (h : Listing dir t files paths) (hsame : t.HoldsExactly t') : Listing dir t' files paths where
  sorted := h.sorted
  mem_iff p := by rw [h.mem_iff, hsame p]
  files_eq := by
    rw [h.files_eq]
    refine List.map_congr_left fun p _ => ?_
    unfold zipEntryOf
    rw [hsame p]

theorem Archives.archiveOf {part : Tree} {files : List ZipFileEntry}
    {openFile : String → Except AnyError Reader} {n : UInt64} {bytes : Bytes}
    (hdisk : OnDisk s.dst) (hstaged : s.dst.HoldsExactly part)
    (h : Archives source dir s files openFile n bytes) : ArchiveOf part bytes := by
  obtain ⟨paths, hlisting⟩ := h.listing hdisk
  refine ⟨dir, files, paths, openFile, n, hlisting.congr hstaged, ?_, h.2.2⟩
  intro p bs r hp
  exact h.2.1 p bs r ((hstaged p).trans hp)

/-- The archive of a part holds the part. -/
theorem ArchiveOf.extracts {part : Tree} {bytes : Bytes} (hpart : PartTree part)
    (hsizes : ∀ p bs, part.fileAt p = some bs → bs.length < 2 ^ 64 ∧ bs.length ≠ U32_MAX)
    (h : ArchiveOf part bytes) {r : Reader} (hr : r.Serves bytes) {dest : AbsPath} {fs : Fs}
    (hfresh : Fresh dest fs) :
    (runExtract dest r fs).1 = .ok () ∧
      ∀ q, (runExtract dest r fs).2.files (dest ++ q) = part.fileAt q := by
  obtain ⟨dir, files, paths, openFile, n, hlisting, hread, hzip⟩ := h
  have hcontent : ∀ {p : RelPath} {bs : Bytes}, part.fileAt p = some bs →
      fullContent openFile (zipEntryOf dir part p) = bs ∧
        (zipEntryOf dir part p).size.toNat = bs.length :=
    fun hp => hlisting.content (fun p bs hp => (hsizes p bs hp).1) hread hzip hp
  have hfile : ∀ p ∈ paths, ∃ bs, part.fileAt p = some bs := fun p hp =>
    Option.isSome_iff_exists.mp ((hlisting.mem_iff p).mp hp)
  have hof : ∀ f ∈ files, ∃ p ∈ paths, zipEntryOf dir part p = f := by
    intro f hf
    rw [hlisting.files_eq] at hf
    exact List.mem_map.mp hf
  have hapart : files.Pairwise Apart := by
    rw [hlisting.files_eq, List.pairwise_map]
    refine hlisting.sorted.imp_of_mem fun {p q} hp hq hlt => ?_
    obtain ⟨bs, hbs⟩ := hfile p hp
    obtain ⟨bs', hbs'⟩ := hfile q hq
    show ¬ normals (components (joinWith "/" p)) <+: normals (components (joinWith "/" q)) ∧
      ¬ normals (components (joinWith "/" q)) <+: normals (components (joinWith "/" p))
    rw [hpart.normals_eq hbs, hpart.normals_eq hbs']
    exact ⟨hpart.not_prefix hbs hbs' hlt.ne, hpart.not_prefix hbs' hbs hlt.ne'⟩
  have hclear : ¬ AmbiguousSize files := by
    rintro ⟨pre, f, post, hsplit, hsize, -⟩
    obtain ⟨p, hp, rfl⟩ := hof f (by rw [hsplit]; simp)
    obtain ⟨bs, hbs⟩ := hfile p hp
    exact (hsizes p bs hbs).2 ((hcontent hbs).2.symm.trans hsize)
  have hsize : ∀ f ∈ files, (fullContent openFile f).length = f.size.toNat := by
    intro f hf
    obtain ⟨p, hp, rfl⟩ := hof f hf
    obtain ⟨bs, hbs⟩ := hfile p hp
    rw [(hcontent hbs).1, (hcontent hbs).2]
  obtain ⟨hok, hthere, hnone⟩ := roundTrip_of_clear hzip hapart hsize hclear hr hfresh
  have hplace : ∀ p ∈ paths, join dest (zipEntryOf dir part p).relPath = dest ++ p := by
    intro p hp
    obtain ⟨bs, hbs⟩ := hfile p hp
    have hmem : zipEntryOf dir part p ∈ files := by
      rw [hlisting.files_eq]
      exact List.mem_map_of_mem hp
    rw [(zipOutput_ok hzip).1.join_eq dest _ hmem]
    exact congrArg (dest ++ ·) (hpart.normals_eq hbs)
  refine ⟨hok, fun q => ?_⟩
  cases hq : part.fileAt q with
  | some bs =>
    have hmem : q ∈ paths := (hlisting.mem_iff q).mpr (by rw [hq]; rfl)
    have hrestored := hthere (zipEntryOf dir part q) (by
      rw [hlisting.files_eq]
      exact List.mem_map_of_mem hmem)
    rw [hplace q hmem, (hcontent hq).1] at hrestored
    exact hrestored
  | none =>
    refine hnone q fun f hf heq => ?_
    obtain ⟨p, hp, rfl⟩ := hof f hf
    obtain ⟨bs, hbs⟩ := hfile p hp
    rw [hplace p hp] at heq
    obtain rfl := List.append_cancel_left heq
    rw [hq] at hbs
    cases hbs

/-- **The journey of a part**: staged, archived through a pipe into a multipart upload
with any of its requests failing and its tasks in any order, and extracted from the
object into a fresh directory, it is the part again. -/
theorem part_journey {part : Tree} {files : List ZipFileEntry}
    {openFile : String → Except AnyError Reader} {n : UInt64} {bytes : Bytes}
    (hpart : PartTree part) (hdisk : OnDisk s.dst) (hstaged : s.dst.HoldsExactly part)
    (hsizes : ∀ p bs, part.fileAt p = some bs → bs.length ≠ U32_MAX)
    (h : Archives source dir s files openFile n bytes) {storage : Storage} {key : String}
    {chunkSize : Nat} {pipe : Reader} (hpipe : pipe.rest = bytes) {w₀ : World}
    {upload : Pipeline × World}
    (hupload : Pipeline.Run storage key chunkSize (.start pipe, w₀) upload) {total : Nat}
    (hreturned : upload.1.phase = .returned total) :
    ∃ o blob, upload.2.get? key = some o ∧ o.body = .data blob ∧
      ∀ r : Reader, r.Serves blob → ∀ (dest : AbsPath) (fs : Fs), Fresh dest fs →
        (runExtract dest r fs).1 = .ok () ∧
          ∀ q, (runExtract dest r fs).2.files (dest ++ q) = part.fileAt q := by
  obtain ⟨o, hget, hbody⟩ := ((inv_run inv_start hupload).reassembled hreturned).object
  rw [hpipe] at hbody
  refine ⟨o, bytes, hget, hbody, fun r hr dest fs hfresh =>
    (h.archiveOf hdisk hstaged).extracts hpart (fun p bs hp => ⟨?_, hsizes p bs hp⟩) hr hfresh⟩
  exact hdisk.sizes p bs ((hstaged p).trans hp)

theorem partTree_onePart : PartTree onePart where
  tree := sourceTree_onePart
  names := by
    intro x hx name hname
    simp only [onePart, List.mem_cons, List.not_mem_nil, or_false] at hx
    rcases hx with rfl | rfl
    · cases hname
    · obtain rfl := List.mem_singleton.mp hname
      exact ⟨by decide, by decide, by decide, by decide⟩

/-! ### An upload on its own -/

namespace Pipeline

/-- The reader task goes on. -/
def produce (chunkSize : Nat) (p : Pipeline) : Option Pipeline :=
  match p.producer with
  | .reading reader n =>
    if p.phase.isCreating then none
    else some { p with producer := .filled n (fillBuffer chunkSize chunkSize reader) }
  | .sending reader part =>
    if p.phase.isOpen ∧ p.channel.length < READ_AHEAD_CHUNKS then
      some { p with channel := p.channel ++ [part], producer := .sent chunkSize reader part }
    else none
  | .ended _ => none

/-- The loop over the channel goes on. -/
def receive (storage : Storage) (p : Pipeline) : Option Pipeline :=
  match p.phase with
  | .receiving =>
    if p.tasks.length < storage.multipartPartConcurrency then
      match p.channel with
      | part :: rest => some { p with
          channel := rest
          tasks := p.tasks ++ [⟨part, .running (s3RetryConfig.maxAttempts - 1)⟩] }
      | [] =>
        match p.producer with
        | .ended _ => some { p with phase := .awaitingReader }
        | _ => none
    else none
  | _ => none

/-- The oldest part upload goes on. -/
def work (storage : Storage) (key : String) (p : Pipeline) (w : World) :
    Option (Pipeline × World) :=
  match p.tasks with
  | ⟨part, .running left⟩ :: after =>
    let (r, w') := (S3Op.uploadPart key p.id part.1 part.2).perform w
    some (called { p with tasks := ⟨part, .attempted left r⟩ :: after }
      (.uploadPart key p.id part.1 part.2) r, w')
  | ⟨part, .finished res⟩ :: after =>
    match p.phase with
    | .receiving =>
      if storage.multipartPartConcurrency ≤ p.tasks.length then
        some (joined { p with tasks := after } part res, w)
      else none
    | .draining => some (joined { p with tasks := after } part res, w)
    | _ => none
  | [] => none

/-- A request of the upload as a whole, or a change of its phase. -/
def proceed (key : String) (p : Pipeline) (w : World) : Option (Pipeline × World) :=
  match p.phase with
  | .creating left =>
    let (r, w') := (S3Op.createMultipartUpload key).perform w
    some ((p.created key left r).called (.createMultipartUpload key) r, w')
  | .awaitingReader =>
    match p.producer with
    | .ended res => some (p.readerJoined key res, w)
    | _ => none
  | .draining =>
    match p.tasks with
    | [] => some ({ p with phase := .completing (s3RetryConfig.maxAttempts - 1) }, w)
    | _ => none
  | .completing left =>
    let (r, w') := (S3Op.completeMultipartUpload key p.id p.listed).perform w
    some ((p.completed key left r).called (.completeMultipartUpload key p.id p.listed) r, w')
  | _ => none

/-- One step, where no request fails: the reader task goes first. -/
def advance (storage : Storage) (key : String) (chunkSize : Nat) (x : Pipeline × World) :
    Option (Pipeline × World) :=
  ((x.1.produce chunkSize).map fun p => (p, x.2)).or <|
    ((x.1.receive storage).map fun p => (p, x.2)).or <|
    (x.1.proceed key x.2).or (x.1.work storage key x.2)

/-- So many steps, or as many as there are. -/
def advances (storage : Storage) (key : String) (chunkSize : Nat) :
    Nat → Pipeline × World → Pipeline × World
  | 0, x => x
  | n + 1, x =>
    match advance storage key chunkSize x with
    | some y => advances storage key chunkSize n y
    | none => x

variable {storage : Storage} {key : String} {chunkSize : Nat} {p p' : Pipeline} {w w' : World}

theorem step_of_produce (h : p.produce chunkSize = some p') :
    Step storage key chunkSize p w p' w := by
  unfold produce at h
  split at h
  · rename_i reader n hproducer
    split at h
    · cases h
    · rename_i hphase
      obtain rfl := Option.some.inj h
      exact .fill (Bool.eq_false_iff.mpr hphase) hproducer
  · rename_i reader part hproducer
    split at h
    · rename_i hopen
      obtain rfl := Option.some.inj h
      exact .send hopen.1 hproducer hopen.2
    · cases h
  · cases h

theorem step_of_receive (h : p.receive storage = some p') :
    Step storage key chunkSize p w p' w := by
  unfold receive at h
  split at h
  · rename_i hphase
    split at h
    · rename_i hroom
      split at h
      · rename_i part rest hchannel
        obtain rfl := Option.some.inj h
        exact .recv hphase hroom hchannel
      · rename_i hchannel
        split at h
        · rename_i res hproducer
          obtain rfl := Option.some.inj h
          exact .closed hphase hroom hchannel hproducer
        · cases h
    · cases h
  · cases h

theorem step_of_work (h : p.work storage key w = some (p', w')) :
    Step storage key chunkSize p w p' w' := by
  unfold work at h
  split at h
  · rename_i part left after htasks
    obtain ⟨rfl, rfl⟩ := Prod.mk.inj (Option.some.inj h)
    exact @Step.attempt _ _ _ p w _ [] after part left _ htasks
      (Answer.answers_perform (.uploadPart key p.id part.1 part.2) w)
  · rename_i part res after htasks
    split at h
    · rename_i hphase
      split at h
      · rename_i hfull
        obtain ⟨rfl, rfl⟩ := Prod.mk.inj (Option.some.inj h)
        refine @Step.join _ _ _ p w [] after part res ?_ htasks
        unfold Joins
        rw [hphase]
        exact hfull
      · cases h
    · rename_i hphase
      obtain ⟨rfl, rfl⟩ := Prod.mk.inj (Option.some.inj h)
      refine @Step.join _ _ _ p w [] after part res ?_ htasks
      unfold Joins
      rw [hphase]
      trivial
    · cases h
  · cases h

theorem step_of_proceed (h : p.proceed key w = some (p', w')) :
    Step storage key chunkSize p w p' w' := by
  unfold proceed at h
  split at h
  · rename_i left hphase
    obtain ⟨rfl, rfl⟩ := Prod.mk.inj (Option.some.inj h)
    exact .create hphase (Answer.answers_perform (.createMultipartUpload key) w)
  · rename_i hphase
    split at h
    · rename_i res hproducer
      obtain ⟨rfl, rfl⟩ := Prod.mk.inj (Option.some.inj h)
      exact .joinReader hphase hproducer
    · cases h
  · rename_i hphase
    split at h
    · rename_i htasks
      obtain ⟨rfl, rfl⟩ := Prod.mk.inj (Option.some.inj h)
      exact .drained hphase htasks
    · cases h
  · rename_i left hphase
    obtain ⟨rfl, rfl⟩ := Prod.mk.inj (Option.some.inj h)
    exact .complete hphase (Answer.answers_perform (.completeMultipartUpload key p.id p.listed) w)
  · cases h

theorem step_of_advance {x y : Pipeline × World} (h : advance storage key chunkSize x = some y) :
    Step storage key chunkSize x.1 x.2 y.1 y.2 := by
  unfold advance at h
  rcases Option.or_eq_some_iff.mp h with h | ⟨-, h⟩
  · obtain ⟨p', hp, rfl⟩ := Option.map_eq_some_iff.mp h
    exact step_of_produce hp
  rcases Option.or_eq_some_iff.mp h with h | ⟨-, h⟩
  · obtain ⟨p', hp, rfl⟩ := Option.map_eq_some_iff.mp h
    exact step_of_receive hp
  rcases Option.or_eq_some_iff.mp h with h | ⟨-, h⟩
  · exact step_of_proceed h
  · exact step_of_work h

theorem run_advances (n : Nat) (x : Pipeline × World) :
    Run storage key chunkSize x (advances storage key chunkSize n x) := by
  induction n generalizing x with
  | zero => exact .refl
  | succ n ih =>
    unfold advances
    split
    · rename_i y hy
      exact .head (step_of_advance hy) (ih y)
    · exact .refl

end Pipeline

/-- A part of two files, one of them in a directory of its own. -/
def twoFilesPart : Tree :=
  [([], .dir), (["a.bin"], .file [1]), (["proj"], .dir), (["proj", "b.bin"], .file [2, 3])]

def openTwoFilesPart (place : String) : Except AnyError Reader :=
  if place = "/backup/ab/a.bin" then .ok ⟨[1], []⟩ else .ok ⟨[2, 3], [.short 1]⟩

def twoFilesPartEntries : List ZipFileEntry :=
  [⟨"/backup/ab/a.bin", "a.bin", 1⟩, ⟨"/backup/ab/proj/b.bin", "proj/b.bin", 2⟩]

def twoFilesPartZip : Bytes := (zipOutput openTwoFilesPart twoFilesPartEntries).2

theorem fileAt_twoFilesPart {p : RelPath} {bs : Bytes} (hp : twoFilesPart.fileAt p = some bs) :
    p = ["a.bin"] ∧ bs = [1] ∨ p = ["proj", "b.bin"] ∧ bs = [2, 3] := by
  have hmem := mem_of_lookup (Tree.fileAt_eq_some.mp hp)
  simpa [twoFilesPart] using hmem

theorem partTree_twoFilesPart : PartTree twoFilesPart where
  tree := {
    nodup := by decide
    plain := by
      intro x hx
      simp only [twoFilesPart, List.mem_cons, List.not_mem_nil, or_false] at hx
      rcases hx with rfl | rfl | rfl | rfl
      · exact .inl rfl
      · exact .inr ⟨_, rfl⟩
      · exact .inl rfl
      · exact .inr ⟨_, rfl⟩
    root := rfl
    closed := by
      intro p hp q hq hne
      obtain ⟨node, hnode⟩ := Option.isSome_iff_exists.mp hp
      have hmem := List.mem_map_of_mem (f := Prod.fst) (mem_of_lookup hnode)
      have hall : ∀ p ∈ twoFilesPart.map Prod.fst, ∀ q ∈ p.inits, q ≠ p →
          twoFilesPart.lookup q = some .dir := by decide
      exact hall p hmem q ((List.mem_inits q p).mpr hq) hne }
  names := by
    intro x hx name hname
    have hall : ∀ x ∈ twoFilesPart, ∀ name ∈ x.1,
        name = "a.bin" ∨ name = "proj" ∨ name = "b.bin" := by decide
    rcases hall x hx name hname with rfl | rfl | rfl
    · exact ⟨by decide, by decide, by decide, by decide⟩
    · exact ⟨by decide, by decide, by decide, by decide⟩
    · exact ⟨by decide, by decide, by decide, by decide⟩

theorem onDisk_twoFilesPart : OnDisk twoFilesPart where
  nodup := by decide
  sizes := by
    intro p bs hp
    rcases fileAt_twoFilesPart hp with ⟨-, rfl⟩ | ⟨-, rfl⟩
    · decide
    · decide

theorem archives_twoFilesPart : Archives twoFilesPart "/backup/ab" ⟨twoFilesPart, []⟩
    twoFilesPartEntries openTwoFilesPart 239 twoFilesPartZip := by
  refine archives_of_serve (by decide +kernel) ?_ (Prod.ext (by decide +kernel) rfl)
  intro p bs r hp hr
  rcases fileAt_twoFilesPart hp with ⟨rfl, rfl⟩ | ⟨rfl, rfl⟩
  · obtain rfl : ⟨[1], []⟩ = r := Except.ok.inj hr
    rfl
  · obtain rfl : ⟨[2, 3], [.short 1]⟩ = r := Except.ok.inj hr
    rfl

/-- The number of parts a finished upload has sent. -/
def Pipeline.finished (p : Pipeline) : Option Nat :=
  match p.phase with
  | .returned _ => some p.completedParts.length
  | _ => none

theorem part_journey_twoFiles : ∃ upload o blob,
    Pipeline.Run ⟨2, 2, 1, 2⟩ "k" 50 (.start ⟨twoFilesPartZip, [.short 7]⟩, {}) upload ∧
      upload.1.finished = some 5 ∧ upload.2.get? "k" = some o ∧ o.body = .data blob ∧
      ∀ q, (runExtract ["dst"] ⟨blob, [.short 1]⟩ Fs.empty).2.files (["dst"] ++ q) =
        twoFilesPart.fileAt q := by
  have hrun := @Pipeline.run_advances ⟨2, 2, 1, 2⟩ "k" 50 60
    (.start ⟨twoFilesPartZip, [.short 7]⟩, {})
  have hfinished : (Pipeline.advances ⟨2, 2, 1, 2⟩ "k" 50 60
      (.start ⟨twoFilesPartZip, [.short 7]⟩, {})).1.finished = some 5 := by decide +kernel
  generalize Pipeline.advances ⟨2, 2, 1, 2⟩ "k" 50 60 _ = upload at hrun hfinished
  have hreturned : ∃ total, upload.1.phase = .returned total := by
    unfold Pipeline.finished at hfinished
    split at hfinished
    · rename_i total hphase
      exact ⟨total, hphase⟩
    · cases hfinished
  obtain ⟨total, hreturned⟩ := hreturned
  have hsizes : ∀ p bs, twoFilesPart.fileAt p = some bs → bs.length ≠ U32_MAX := by
    intro p bs hp
    rcases fileAt_twoFilesPart hp with ⟨-, rfl⟩ | ⟨-, rfl⟩
    · decide
    · decide
  obtain ⟨o, blob, hget, hbody, hback⟩ := part_journey partTree_twoFilesPart onDisk_twoFilesPart
    (fun _ => rfl) hsizes archives_twoFilesPart rfl hrun hreturned
  exact ⟨upload, o, blob, hrun, hfinished, hget, hbody,
    (hback ⟨blob, [.short 1]⟩ ⟨rfl, by simp⟩ ["dst"] Fs.empty (fresh_empty "dst")).2⟩

end Chbk
