import Chbk.Safety.Paths
import Chbk.Safety.Requests

/-!
# Where a restore writes

The paths of a restore are the output directory joined with texts from the
manifest, taken as they are.

* `WritesInside` — a call that writes nothing outside the output directory.
* `RestoreFits` — the texts a restore comes to use stay inside.
* `restoreManifest_inside_iff` — a restore writes nothing outside exactly then.
* `restoreFits_of_valid` — they do when the reader of archives would take them
  for entry names.
-/

namespace Chbk

open Lib Prog

-- ---------------------------------------------------------------------------
-- Calls
-- ---------------------------------------------------------------------------

/-- Directories are made in the output directory and on the way to it; files and
archives go to places in it. -/
def WritesInside (cwd : AbsPath) (outputDir : String) : Op → Prop
  | .env (.createDirAll path) => ∀ q ∈ trail cwd path, Within cwd outputDir q
  | .env (.writeFile path _) => join cwd outputDir <+: path.foldl stepTo cwd
  | .env (.extractZip dest _) => join cwd outputDir <+: dest.foldl stepTo cwd
  | _ => True

/-- The place of a part, below the output directory. -/
def relPartDir (attach : Bool) (part : ManifestPart) : String :=
  let table := pathJoin (pathJoin "data" part.database) part.tableName
  if attach then pathJoin (pathJoin table "detached") part.partName
  else pathJoin table part.partName

theorem partDir_eq (outputDir : String) (attach : Bool) (part : ManifestPart) :
    partDir outputDir attach part = pathJoin outputDir (relPartDir attach part) := by
  unfold partDir relPartDir
  cases attach with
  | true => simp only [if_true, pathJoin_assoc]
  | false => simp only [Bool.false_eq_true, if_false, pathJoin_assoc]

/-- The texts a restore uses stay inside: of the files it keeps the ones before
the first that does not decode, and, when all decode, of the parts it keeps the
ones before the first whose key panics. -/
def RestoreFits (cwd : AbsPath) (decodeContent : ManifestFile → Except AnyError Bytes)
    (snapshotName outputDir : String) (flags : RestoreFlags) (m : Manifest) : Prop :=
  ∀ items, selectItems snapshotName flags m = .ok items →
    (∀ f ∈ items.files.takeWhile fun f => (decodeContent f).isOk,
      StaysInside cwd outputDir f.path) ∧
    ((∀ f ∈ items.files, (decodeContent f).isOk = true) →
      ∀ p ∈ items.parts.takeWhile fun p => (blobShard p.blobHash).isSome,
        StaysInside cwd outputDir (relPartDir flags.attach p))

-- ---------------------------------------------------------------------------
-- One file, one part
-- ---------------------------------------------------------------------------

section

variable {cwd : AbsPath} {outputDir : String} {decodeContent : ManifestFile → Except AnyError Bytes}

theorem only_createDirAll_iff {path : List Component} :
    Only (WritesInside cwd outputDir) (createDirAll path) ↔
      ∀ q ∈ trail cwd path, Within cwd outputDir q := by
  constructor
  · intro h
    exact h.1
  · intro h
    exact ⟨h, fun _ => only_liftP _⟩

theorem canReturn_createDirAll (path : List Component) : CanReturn (createDirAll path) () :=
  ⟨.ok (), rfl⟩

theorem canReturn_createParents (path : List Component) : CanReturn (createParents path) () := by
  unfold createParents
  split
  · exact canReturn_createDirAll _
  · exact canReturn_pure.mpr rfl

theorem canReturn_restoreFile {file : ManifestFile} :
    (∃ u, CanReturn (restoreFile decodeContent outputDir file) u) ↔
      (decodeContent file).isOk = true := by
  unfold restoreFile
  cases hdec : decodeContent file with
  | error e =>
    constructor
    · intro ⟨_, h⟩
      exact h.elim
    · intro h
      cases h
  | ok content =>
    refine ⟨fun _ => rfl, fun _ => ⟨(), canReturn_bind.mpr ⟨content, rfl, ?_⟩⟩⟩
    refine canReturn_bind.mpr ⟨(), canReturn_createParents _, ?_⟩
    exact canReturn_bind.mpr ⟨Except.ok (), canReturn_ask _, canReturn_pure.mpr rfl⟩

theorem only_createParents_iff {text : String} (hin : join cwd outputDir <+: join cwd text) :
    Only (WritesInside cwd outputDir) (createParents (components text)) ↔
      ∀ q ∈ trail cwd (components text), Within cwd outputDir q := by
  have hcwd : ∀ q ∈ trail cwd [], Within cwd outputDir q := by
    intro q hq
    rw [List.mem_singleton.mp hq]
    exact .inr (mem_trail_start cwd _)
  unfold createParents parentComponents
  cases hlast : (components text).getLast? with
  | none =>
    rw [List.getLast?_eq_none_iff.mp hlast]
    exact ⟨fun _ => hcwd, fun _ => trivial⟩
  | some c =>
    have hne : components text ≠ [] := by
      intro hnil
      rw [hnil] at hlast
      cases hlast
    have hall : (∀ q ∈ trail cwd (components text), Within cwd outputDir q) ↔
        ∀ q ∈ trail cwd (components text).dropLast, Within cwd outputDir q := by
      constructor
      · intro h q hq
        exact h q ((mem_trail_dropLast hne).mpr (.inl hq))
      · intro h q hq
        rcases (mem_trail_dropLast hne).mp hq with hq | rfl
        · exact h q hq
        · exact .inl hin
    rw [hall]
    cases c with
    | rootDir =>
      rw [dropLast_components_of_root hlast]
      exact ⟨fun _ => hcwd, fun _ => trivial⟩
    | curDir => exact only_createDirAll_iff
    | parentDir => exact only_createDirAll_iff
    | normal s => exact only_createDirAll_iff

/-- A file that decodes is written inside when its path stays there. -/
theorem only_restoreFile_iff {file : ManifestFile} :
    Only (WritesInside cwd outputDir) (restoreFile decodeContent outputDir file) ↔
      ((decodeContent file).isOk = true → StaysInside cwd outputDir file.path) := by
  unfold restoreFile
  cases hdec : decodeContent file with
  | error e =>
    refine ⟨fun _ h => ?_, fun _ => trivial⟩
    cases h
  | ok content =>
    rw [liftP_ok_bind, staysInside_iff]
    have hwrite : ∀ path, Only (WritesInside cwd outputDir)
        (do liftP (← askEnv (.writeFile path content)) : P Unit) ↔
          join cwd outputDir <+: path.foldl stepTo cwd := by
      intro path
      constructor
      · intro h
        exact h.1
      · intro h
        exact ⟨h, fun _ => only_liftP _⟩
    constructor
    · intro h _
      obtain ⟨hparents, hfile⟩ := only_bind_iff.mp h
      have hin := (hwrite _).mp (hfile () (canReturn_createParents _))
      exact ⟨(only_createParents_iff hin).mp hparents, hin⟩
    · intro h
      obtain ⟨hall, hin⟩ := h rfl
      exact Only.bind ((only_createParents_iff hin).mpr hall) fun _ => (hwrite _).mpr hin

theorem keyOrPanic_bind {α : Type} {hash : String} (h : (blobShard hash).isSome = true)
    (f : String → P α) : (keyOrPanic hash >>= f) = f (blobRemoteKey hash) := by
  rw [keyOrPanic_some h]
  rfl

/-- A part that has a key is written inside when its place stays there. -/
theorem only_restorePart_iff {attach : Bool} {part : ManifestPart} :
    Only (WritesInside cwd outputDir) (restorePart outputDir attach part) ↔
      ((blobShard part.blobHash).isSome = true →
        StaysInside cwd outputDir (relPartDir attach part)) := by
  unfold restorePart
  cases hshard : blobShard part.blobHash with
  | none =>
    obtain ⟨msg, k, heq⟩ := keyOrPanic_none hshard
    rw [heq]
    refine ⟨fun _ h => ?_, fun _ => ⟨trivial, fun r => r.elim⟩⟩
    cases h
  | some shard =>
    rw [keyOrPanic_bind (by rw [hshard]; rfl), staysInside_iff, ← partDir_eq, only_bind_iff,
      only_mapFail_iff, only_createDirAll_iff]
    simp only [Option.isSome_some, forall_const]
    refine and_congr_right fun _ => ?_
    constructor
    · intro h
      -- the archive is downloaded, then it is unpacked
      have hget := (only_bind_iff.mp (h () (canReturn_createDirAll _).mapFail)).2
      exact (hget (.data []) (CanReturn.mapFail ⟨.ok (.data []), rfl⟩)).1
    · intro h _ _
      refine Only.bind (Only.mapFail (Only.bind (only_ask trivial) fun _ => only_orContext _ _))
        fun _ => ?_
      exact Only.bind (only_ask h) fun _ => Only.bind (only_liftP _) fun _ => only_pure _

/-- A try of a part can return unless its key panics. -/
theorem canReturn_attempt_restorePart {attach : Bool} {part : ManifestPart} :
    (∃ r, CanReturn (Prog.attempt (restorePart outputDir attach part)) r) ↔
      (blobShard part.blobHash).isSome = true := by
  unfold restorePart
  cases hshard : blobShard part.blobHash with
  | none =>
    obtain ⟨msg, k, heq⟩ := keyOrPanic_none hshard
    rw [heq]
    refine ⟨?_, fun h => ?_⟩
    · rintro ⟨r, answer, -⟩
      exact answer.elim
    · cases h
  | some shard =>
    rw [keyOrPanic_bind (by rw [hshard]; rfl)]
    refine ⟨fun _ => rfl, fun _ => ?_⟩
    refine ⟨_, CanReturn.attempt (a := (part.database, part.tableName, part.partName)) ?_⟩
    refine canReturn_bind.mpr ⟨(), (canReturn_createDirAll _).mapFail, ?_⟩
    refine canReturn_bind.mpr ⟨.data [], CanReturn.mapFail ⟨.ok (.data []), rfl⟩, ?_⟩
    exact canReturn_bind.mpr ⟨Except.ok (), canReturn_ask _, canReturn_pure.mpr rfl⟩

-- ---------------------------------------------------------------------------
-- The whole restore
-- ---------------------------------------------------------------------------

theorem only_println (text : String) (items : List String) :
    Only (WritesInside cwd outputDir) (printEach text items) :=
  Only.bind (only_collect fun _ _ => only_ask trivial) fun _ => only_pure _

theorem canReturn_println (line : String) : CanReturn (ask (Op.env (.println line)) : P Unit) () :=
  ⟨(), rfl⟩

theorem canReturn_printEach (text : String) (items : List String) :
    CanReturn (printEach text items) () := by
  obtain ⟨us, hus⟩ := canReturn_collect.mpr
    fun (item : String) (_ : item ∈ items) => ⟨(), canReturn_println (text ++ item)⟩
  exact canReturn_bind.mpr ⟨us, hus, rfl⟩

theorem only_attach (attach : Bool) (results : List (Except AnyError (String × String × String))) :
    Only (WritesInside cwd outputDir) (do
      let restored ← Prog.collect liftP results
      if attach then
        let order ← askEnv .order
        let results ← Prog.collect (fun part => Prog.attempt (attachRestored part))
          (reorder order restored)
        let _ ← Prog.collect liftP results
        return ()) := by
  refine Only.bind (only_collect fun _ _ => only_liftP _) fun restored => ?_
  split
  · refine Only.bind (only_ask trivial) fun order => ?_
    refine Only.bind (only_collect fun part _ => Only.attempt (Only.mapFail ?_)) fun _ =>
      Only.bind (only_collect fun _ _ => only_liftP _) fun _ => only_pure _
    refine Only.bind (only_ask trivial) fun r => Only.bind (only_liftP _) fun result => ?_
    split
    · exact only_throw _
    · exact only_pure _
  · exact only_pure _

theorem mem_takeWhile_iff {α : Type} {p : α → Bool} {a : α} : ∀ {l : List α},
    a ∈ l.takeWhile p ↔ ∃ pre post, l = pre ++ a :: post ∧ (∀ x ∈ pre, p x = true) ∧ p a = true
  | [] => by simp
  | b :: l => by
    constructor
    · intro h
      rw [List.takeWhile_cons] at h
      split at h
      · rename_i hb
        rcases List.mem_cons.mp h with rfl | h
        · exact ⟨[], l, rfl, by simp, hb⟩
        · obtain ⟨pre, post, rfl, hpre, ha⟩ := mem_takeWhile_iff.mp h
          exact ⟨b :: pre, post, rfl, List.forall_mem_cons.mpr ⟨hb, hpre⟩, ha⟩
      · cases h
    · intro ⟨pre, post, hsplit, hpre, ha⟩
      rw [hsplit, List.takeWhile_append_of_pos hpre, List.takeWhile_cons_of_pos ha]
      exact List.mem_append_right _ (List.mem_cons_self ..)

theorem takeWhile_servedOrder (order : List Nat) (parts : List ManifestPart) :
    (servedOrder order parts).takeWhile (fun p => (blobShard p.blobHash).isSome) =
      reorder order (parts.takeWhile fun p => (blobShard p.blobHash).isSome) := by
  have hrest : ∀ ps : List ManifestPart,
      (ps.dropWhile fun p => (blobShard p.blobHash).isSome).takeWhile
        (fun p => (blobShard p.blobHash).isSome) = [] := by
    intro ps
    induction ps with
    | nil => rfl
    | cons p ps ih =>
      rw [List.dropWhile_cons]
      split
      · exact ih
      · rename_i hp
        exact List.takeWhile_cons_of_neg hp
  unfold servedOrder
  rw [List.takeWhile_append_of_pos, hrest, List.append_nil]
  intro p hp
  exact List.mem_takeWhile_imp (p := fun p : ManifestPart => (blobShard p.blobHash).isSome)
    (mem_reorder.mp hp)

/-- Every part is tried, whatever happens to the others, unless one panics. -/
theorem only_restoreParts_iff {attach : Bool} {parts : List ManifestPart} :
    Only (WritesInside cwd outputDir) (restoreParts outputDir attach parts) ↔
      ∀ p ∈ parts.takeWhile fun p => (blobShard p.blobHash).isSome,
        StaysInside cwd outputDir (relPartDir attach p) := by
  unfold restoreParts
  have htries : ∀ order, Only (WritesInside cwd outputDir)
      (Prog.collect (fun part => Prog.attempt (restorePart outputDir attach part))
        (servedOrder order parts)) ↔ ∀ p ∈ parts.takeWhile fun p => (blobShard p.blobHash).isSome,
          StaysInside cwd outputDir (relPartDir attach p) := by
    intro order
    simp only [only_collect_iff, only_attempt_iff, only_restorePart_iff,
      canReturn_attempt_restorePart]
    simp only [← @mem_reorder _ order (parts.takeWhile _), ← takeWhile_servedOrder]
    constructor
    · intro h p hp
      obtain ⟨pre, post, hsplit, hpre, hkeyed⟩ := mem_takeWhile_iff.mp hp
      exact h pre p post hsplit hpre hkeyed
    · intro h pre p post hsplit hpre hkeyed
      exact h p (mem_takeWhile_iff.mpr ⟨pre, post, hsplit, hpre, hkeyed⟩)
  constructor
  · intro h
    have hrest := (only_bind_iff.mp h).2 [] (canReturn_ask _)
    exact (htries []).mp (only_bind_iff.mp hrest).1
  · intro h
    refine Only.bind (only_ask trivial) fun order => ?_
    exact Only.bind ((htries order).mpr h) fun results => only_attach attach results

/-- Files are written in order, up to the first that does not decode. -/
theorem only_restoreFiles_iff {files : List ManifestFile} :
    Only (WritesInside cwd outputDir) (Prog.collect (restoreFile decodeContent outputDir) files) ↔
      ∀ f ∈ files.takeWhile fun f => (decodeContent f).isOk, StaysInside cwd outputDir f.path := by
  simp only [only_collect_iff, only_restoreFile_iff, canReturn_restoreFile]
  constructor
  · intro h f hf
    obtain ⟨pre, post, hsplit, hpre, hdec⟩ := mem_takeWhile_iff.mp hf
    exact h pre f post hsplit hpre hdec
  · intro h pre f post hsplit hpre hdec
    exact h f (mem_takeWhile_iff.mpr ⟨pre, post, hsplit, hpre, hdec⟩)

theorem only_restoreItems_iff {attach : Bool} {items : FilteredRestoreItems} :
    Only (WritesInside cwd outputDir) (restoreItems decodeContent outputDir attach items) ↔
      (∀ f ∈ items.files.takeWhile fun f => (decodeContent f).isOk,
        StaysInside cwd outputDir f.path) ∧
      ((∀ f ∈ items.files, (decodeContent f).isOk = true) →
        ∀ p ∈ items.parts.takeWhile fun p => (blobShard p.blobHash).isSome,
          StaysInside cwd outputDir (relPartDir attach p)) := by
  have hprint := @only_println cwd outputDir "Skipping existing table: "
    (items.skipped.map fun t => t.1 ++ "." ++ t.2)
  have hcreate : Only (WritesInside cwd outputDir)
      (Prog.mapFail (withContext ("create " ++ outputDir)) (createDirAll (components outputDir))) :=
    (only_createDirAll_iff.mpr fun q hq => .inr hq).mapFail
  unfold restoreItems
  constructor
  · intro h
    have h := (only_bind_iff.mp h).2 () (canReturn_printEach _ _)
    have h := (only_bind_iff.mp h).2 () (canReturn_createDirAll _).mapFail
    obtain ⟨hfiles, hrest⟩ := only_bind_iff.mp h
    refine ⟨only_restoreFiles_iff.mp hfiles, fun hdec => ?_⟩
    obtain ⟨us, hus⟩ := canReturn_collect.mpr fun f hf => canReturn_restoreFile.mpr (hdec f hf)
    have hparts := hrest us hus
    split at hparts
    · rename_i hnil
      rw [hnil]
      intro p hp
      cases hp
    · exact only_restoreParts_iff.mp hparts
  · intro ⟨hfiles, hparts⟩
    refine Only.bind hprint fun _ => Only.bind hcreate fun _ => ?_
    refine only_bind_iff.mpr ⟨only_restoreFiles_iff.mpr hfiles, fun us hus => ?_⟩
    split
    · exact only_pure _
    · exact only_restoreParts_iff.mpr (hparts fun f hf =>
        canReturn_restoreFile.mp (canReturn_collect.mp ⟨us, hus⟩ f hf))

end

/-- A restore writes inside its output directory exactly when the texts it uses
stay inside. -/
theorem restoreManifest_inside_iff (cwd : AbsPath)
    (decodeContent : ManifestFile → Except AnyError Bytes) (snapshotName outputDir : String)
    (flags : RestoreFlags) (m : Manifest) :
    Only (WritesInside cwd outputDir)
        (restoreManifest decodeContent snapshotName outputDir flags m) ↔
      RestoreFits cwd decodeContent snapshotName outputDir flags m := by
  unfold restoreManifest RestoreFits
  cases hsel : selectItems snapshotName flags m with
  | error e =>
    refine ⟨fun _ items h => ?_, fun _ => trivial⟩
    cases h
  | ok items =>
    rw [liftP_ok_bind, only_restoreItems_iff]
    constructor
    · intro h items' hitems
      rw [← Except.ok.inj hitems]
      exact h
    · intro h
      exact h items rfl

/-- A manifest with a path that leads out of the output directory. -/
def evilManifest : Manifest :=
  ⟨"backup1", 0, "s1", "r1", "h1", [], [⟨"../evil", []⟩]⟩

/-- A restore of it. -/
theorem restore_escapes : ¬ ∀ (cwd : AbsPath) (decodeContent : ManifestFile → Except AnyError Bytes)
    (snapshotName outputDir : String) (flags : RestoreFlags) (m : Manifest),
    Only (WritesInside cwd outputDir)
      (restoreManifest decodeContent snapshotName outputDir flags m) := by
  intro hall
  have h := hall ["tmp"] (fun f => .ok f.content) "backup1" "out"
    ⟨none, none, none, none, false⟩ evilManifest
  have hsel : selectItems "backup1" ⟨none, none, none, none, false⟩ evilManifest =
      .ok ⟨[], evilManifest.files, []⟩ := rfl
  unfold restoreManifest at h
  rw [hsel, liftP_ok_bind, only_restoreItems_iff] at h
  have hin := (h.1 ⟨"../evil", []⟩ (List.mem_singleton_self _)).2
  revert hin
  decide +kernel

-- ---------------------------------------------------------------------------
-- Texts that stay inside
-- ---------------------------------------------------------------------------

theorem names_pathJoin {a b : String} (ha : ∀ c ∈ components a, c ≠ .rootDir ∧ c ≠ .parentDir)
    (hb : ∀ c ∈ components b, c ≠ .rootDir ∧ c ≠ .parentDir) :
    ∀ c ∈ components (pathJoin a b), c ≠ .rootDir ∧ c ≠ .parentDir := by
  by_cases habs : startsWith b "/" = true ∨ a = ""
  · rw [pathJoin_abs habs]
    exact hb
  rw [not_or, Bool.not_eq_true] at habs
  rw [components_pathJoin habs.2 habs.1]
  intro c hc
  rcases List.mem_append.mp hc with hc | hc
  · exact ha c hc
  · exact hb c (List.mem_of_mem_filter hc)

/-- Everything kept comes from the manifest. -/
theorem selectItems_subset {snapshotName : String} {flags : RestoreFlags} {m : Manifest}
    {items : FilteredRestoreItems} (h : selectItems snapshotName flags m = .ok items) :
    items.files ⊆ m.files ∧ items.parts ⊆ m.parts := by
  obtain ⟨u, -, h⟩ := except_bind_eq_ok h
  obtain ⟨u', -, h⟩ := except_bind_eq_ok h
  obtain ⟨⟨parts, files⟩, htable, h⟩ := except_bind_eq_ok h
  obtain ⟨hparts, hfiles⟩ : parts ⊆ m.parts ∧ files ⊆ m.files := by
    unfold filterTable at htable
    split at htable
    · cases htable
      exact ⟨List.Subset.refl _, List.Subset.refl _⟩
    · dsimp only at htable
      split at htable
      · cases htable
      · cases htable
        exact ⟨fun p hp => List.mem_of_mem_filter hp, fun f hf => List.mem_of_mem_filter hf⟩
  dsimp only at h
  split at h
  · cases h
    exact ⟨hfiles, hparts⟩
  · cases h
    exact ⟨fun f hf => hfiles (List.mem_of_mem_filter hf),
      fun p hp => hparts (List.mem_of_mem_filter hp)⟩

/-- With the check of `validate_rel_path` on every text a restore stays inside. -/
theorem restoreFits_of_valid {m : Manifest}
    (hfiles : ∀ f ∈ m.files, validateRelPath f.path = .ok ())
    (hparts : ∀ p ∈ m.parts, validateRelPath p.database = .ok () ∧
      validateRelPath p.tableName = .ok () ∧ validateRelPath p.partName = .ok ())
    (cwd : AbsPath) (decodeContent : ManifestFile → Except AnyError Bytes)
    (snapshotName outputDir : String) (flags : RestoreFlags) :
    RestoreFits cwd decodeContent snapshotName outputDir flags m := by
  intro items hitems
  obtain ⟨hsubf, hsubp⟩ := selectItems_subset hitems
  constructor
  · intro f hf
    have hmem := hsubf ((List.takeWhile_prefix _).subset hf)
    exact staysInside_of_names (validateRelPath_ok (hfiles f hmem)) cwd outputDir
  · intro _ p hp
    obtain ⟨hdb, htable, hpart⟩ := hparts p (hsubp ((List.takeWhile_prefix _).subset hp))
    have hname : ∀ {s : String}, validateRelPath s = .ok () → _ := validateRelPath_ok
    have hdata : ∀ c ∈ components "data", c ≠ .rootDir ∧ c ≠ .parentDir := by decide
    have hdetached : ∀ c ∈ components "detached", c ≠ .rootDir ∧ c ≠ .parentDir := by decide
    have hdir := names_pathJoin (names_pathJoin hdata (hname hdb)) (hname htable)
    refine staysInside_of_names ?_ cwd outputDir
    unfold relPartDir
    split
    · exact names_pathJoin (names_pathJoin hdir hdetached) (hname hpart)
    · exact names_pathJoin hdir (hname hpart)

end Chbk
