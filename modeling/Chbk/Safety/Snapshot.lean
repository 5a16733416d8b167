import Chbk.Safety.Upload

/-!
# `create_snapshot` follows the rule of a backup

Each piece of the command in turn: what it has learned when it returns.

* `backs_loadKnown`, `backs_headCheckExisting`, `backs_uploadPartArchives` — the
  three ways to learn of a blob.
* `follows_createSnapshot` — the whole command, up to its manifest.
-/

namespace Chbk

open Lib Prog

/-! ## Pieces that ask the surroundings -/

section
variable {S : Op → Prop}

theorem only_localStep {what : String} (hstep : S (.env (.localStep what))) :
    Only S (localStep what) :=
  Only.bind (only_ask hstep) fun _ => only_liftP _

theorem only_queryParts (hquery : ∀ sql, S (.env (.runQuery sql))) (json : Json) (cfg : Config) :
    Only S (queryParts json cfg) :=
  Only.bind (only_ask (hquery _)) fun _ => only_liftP _

theorem only_macrosFor (hquery : ∀ sql, S (.env (.runQuery sql))) (json : Json) (cfg : Config) :
    Only S (macrosFor json cfg) := by
  unfold macrosFor
  split
  · exact Only.bind (only_ask (hquery _)) fun _ => only_pure _
  · exact only_pure _

theorem only_resolveShardReplica (hquery : ∀ sql, S (.env (.runQuery sql))) (json : Json)
    (cfg : Config) : Only S (resolveShardReplica json cfg) := by
  refine Only.bind (only_macrosFor hquery json cfg) fun macros => ?_
  split
  · exact only_throw _
  · split
    · exact only_throw _
    · exact only_pure _

theorem only_nameOrAuto (hid : S (.env .newV4)) (name : Option String) (shard replica : String)
    (timestamp : Int) : Only S (nameOrAuto name shard replica timestamp) := by
  cases name with
  | some n => exact only_pure _
  | none => exact Only.bind (only_ask hid) fun _ => only_pure _

theorem only_readDdl (hread : ∀ path, S (.env (.readFile path))) (path place : String) :
    Only S (readDdl path place) := by
  refine Only.bind (only_ask (hread path)) fun r => ?_
  cases r with
  | ok content => exact only_pure _
  | error e => exact only_throw _

theorem only_collectTableFiles (hread : ∀ path, S (.env (.readFile path)))
    (dir db table : String) : Only S (collectTableFiles dir db table) := by
  unfold collectTableFiles
  split
  · exact only_pure _
  · exact Only.bind (only_readDdl hread _ _) fun _ => only_pure _

theorem only_collectDatabaseFiles (hread : ∀ path, S (.env (.readFile path))) (dir : String)
    (entry : String × List String) : Only S (collectDatabaseFiles dir entry) :=
  Only.bind (only_readDdl hread _ _) fun _ =>
    Only.bind (only_collect fun t _ => only_collectTableFiles hread dir entry.1 t) fun _ =>
      only_pure _

theorem only_collectDirectoryFiles (hwalk : ∀ dir, S (.env (.walkFiles dir)))
    (dir pfx : String) : Only S (collectDirectoryFiles dir pfx) :=
  Only.bind (only_ask (hwalk dir)) fun _ => Only.bind (only_liftP _) fun _ => only_pure _

theorem only_collectMetadataFiles (hread : ∀ path, S (.env (.readFile path)))
    (hwalk : ∀ dir, S (.env (.walkFiles dir))) (cfg : Config)
    (tables : List (String × List String)) : Only S (collectMetadataFiles cfg tables) :=
  Only.bind (only_collect fun t _ => only_collectDatabaseFiles hread _ t) fun _ =>
    Only.bind (only_collectDirectoryFiles hwalk _ _) fun _ =>
      Only.bind (only_collectDirectoryFiles hwalk _ _) fun _ => only_pure _

theorem only_metadataAttempts (hquery : ∀ sql, S (.env (.runQuery sql)))
    (hread : ∀ path, S (.env (.readFile path))) (hwalk : ∀ dir, S (.env (.walkFiles dir)))
    (json : Json) (cfg : Config) : ∀ left parts, Only S (metadataAttempts json cfg left parts)
  | 0, _ => only_throw _
  | left + 1, parts => by
    unfold metadataAttempts
    refine Only.bind (only_collectMetadataFiles hread hwalk cfg _).attempt fun r => ?_
    cases r with
    | ok files => exact only_pure _
    | error e =>
      dsimp only
      split
      · exact only_throw _
      · exact Only.bind (only_queryParts hquery json cfg) fun ps =>
          only_metadataAttempts hquery hread hwalk json cfg left ps

end

/-! ## Quiet pieces -/

theorem quiet_localStep (what : String) : Only Quiet (localStep what) := only_localStep trivial

theorem quiet_queryParts (json : Json) (cfg : Config) : Only Quiet (queryParts json cfg) :=
  only_queryParts (fun _ => trivial) json cfg

theorem quiet_resolveShardReplica (json : Json) (cfg : Config) :
    Only Quiet (resolveShardReplica json cfg) :=
  only_resolveShardReplica (fun _ => trivial) json cfg

theorem quiet_nameOrAuto (name : Option String) (shard replica : String) (timestamp : Int) :
    Only Quiet (nameOrAuto name shard replica timestamp) :=
  only_nameOrAuto trivial name shard replica timestamp

theorem quiet_listManifestNames : Only Quiet listManifestNames := by
  refine Only.bind (Only.bind (only_ask trivial) fun r => ?_) fun _ => only_pure _
  cases r with
  | ok es => exact only_pure _
  | error e => exact only_throw _

theorem quiet_stagePart (cfg : Config) (part : PartInfo) : Only Quiet (stagePart cfg part) := by
  refine Only.bind (only_ask trivial) fun r => ?_
  cases r with
  | ok u => exact only_pure _
  | error e => exact only_pure _

theorem quiet_stagePasses (json : Json) (cfg : Config) (known : List String) :
    ∀ left staged parts, Only Quiet (stagePasses json cfg known left staged parts)
  | 0, _, _ => only_pure _
  | left + 1, staged, parts => by
    unfold stagePasses
    dsimp only
    split
    · exact only_pure _
    · refine Only.bind (only_collect fun p _ => quiet_stagePart cfg p) fun results => ?_
      split
      · exact only_pure _
      · split
        · exact only_throw _
        · exact Only.bind (quiet_queryParts json cfg) fun ps =>
            quiet_stagePasses json cfg known left _ ps

theorem quiet_metadataAttempts (json : Json) (cfg : Config) (left : Nat) (parts : List PartInfo) :
    Only Quiet (metadataAttempts json cfg left parts) :=
  only_metadataAttempts (fun _ => trivial) (fun _ => trivial) (fun _ => trivial) json cfg left parts

/-! ## Known blobs -/

theorem backs_readManifest (name : String) (v : BackupView) :
    Backs (readManifest name) v fun m v' => ∀ k ∈ m.blobKeys, k ∈ v'.known := by
  refine Backs.bind (R := fun body v' => ∀ m, body = .manifest m → ∀ k ∈ m.blobKeys, k ∈ v'.known)
    (Backs.mapFail (follows_getObject ⟨name, rfl⟩ (fun b => ?_) fun _ _ => .refl v))
    fun body v₁ _ hbody => ?_
  · cases b with
    | manifest m =>
      refine ⟨⟨fun _ h => List.mem_append_right _ h, fun _ h => h, fun _ h => h, rfl, fun _ h => h,
        fun _ h => h⟩, ?_⟩
      rintro m' ⟨⟩ k hk
      exact List.mem_append_left _ hk
    | lock info => exact ⟨.refl v, by simp⟩
    | data bs => exact ⟨.refl v, by simp⟩
  · refine Backs.bind (Backs.liftP (Q := fun m v' => ∀ k ∈ m.blobKeys, k ∈ v'.known)
      fun m hm => hbody m (decodeManifest_ok hm)) fun m v₂ _ hm => ?_
    exact Backs.pure hm

/-- The known hashes are those of a manifest that was read. -/
theorem backs_loadKnown (shard replica : String) (v : BackupView) :
    Backs (loadKnownFromLatestManifest shard replica) v
      fun known v' => ∀ x ∈ known, blobRemoteKey x.1 ∈ v'.known := by
  refine Backs.bind (Backs.quiet quiet_listManifestNames v) fun names v₁ _ _ => ?_
  split
  · exact Backs.pure (by simp)
  · refine Backs.bind (backs_readManifest _ v₁) fun m v₂ _ hm => Backs.pure fun x hx => ?_
    obtain ⟨p, hp, rfl⟩ := List.mem_map.mp (List.mem_reverse.mp hx)
    exact hm _ (List.mem_map.mpr ⟨p, hp, rfl⟩)

/-! ## Blobs found -/

theorem backs_headCheck (hash : String) (v : BackupView) :
    Backs (headCheck hash) v fun x v' => ∀ size, x.2 = some size → blobRemoteKey x.1 ∈ v'.head := by
  have hle : v.Le { v with head := blobRemoteKey hash :: v.head } :=
    ⟨fun _ h => h, fun _ h => List.mem_cons_of_mem _ h, fun _ h => h, rfl, fun _ h => h,
      fun _ h => h⟩
  refine Backs.bind (Backs.attempt (Q := fun size v' => size.isSome → blobRemoteKey hash ∈ v'.head)
    (follows_objectExists trivial (fun size => ⟨hle, fun _ => List.mem_cons_self ..⟩)
      (fun e => ⟨.refl v, by simp⟩) fun _ _ => .refl v)) fun x v₁ _ hx => ?_
  cases x with
  | ok size => exact Backs.pure fun n hn => hx size rfl (by simp_all)
  | error e => exact Backs.pure (by simp)

/-- The hashes found are those of HEAD checks that found an object. -/
theorem backs_headCheckExisting (l : List (String × UInt64)) (v : BackupView) :
    Backs (headCheckExisting l) v fun found v' => ∀ x ∈ found, blobRemoteKey x.1 ∈ v'.head := by
  unfold headCheckExisting
  dsimp only
  split
  · exact Backs.pure (by simp)
  · refine Backs.bind (Backs.ask .order trivial v) fun order v₁ _ _ => ?_
    refine Backs.bind (Backs.collect (fun _ xs v' => ∀ x ∈ xs, ∀ size, x.2 = some size →
      blobRemoteKey x.1 ∈ v'.head) ?_ (by simp)) fun results v₂ _ hres => Backs.pure ?_
    · intro pre xs hash post v' _ _ hI
      refine (backs_headCheck hash v').mono fun x v'' hle hx y hy => ?_
      rcases List.mem_append.mp hy with hy | hy
      · exact fun n hn => hle.head _ (hI y hy n hn)
      · rw [List.mem_singleton.mp hy]
        exact hx
    · intro x hx
      obtain ⟨y, hy, hyx⟩ := List.mem_filterMap.mp hx
      obtain ⟨size, hsize, rfl⟩ := Option.map_eq_some_iff.mp hyx
      exact hres y hy size hsize

/-! ## Blobs uploaded -/

theorem computeChunkSize_pos {a b c t n : Nat} (h : 0 < b) (h' : 0 < c) :
    0 < computeChunkSize (max n a) b c t := by
  unfold computeChunkSize
  omega

/-- A storage whose chunks are not empty. -/
def Storage.Sound (storage : Storage) : Prop :=
  0 < storage.minChunkSize ∧ 0 < storage.maxChunkSize

theorem Storage.sound_new (a b c d : Nat) : (Storage.new a b c d).Sound := by
  simp only [Storage.Sound, Storage.new, MULTIPART_MIN_CHUNK, MULTIPART_MAX_CHUNK]
  omega

theorem sound_initStorage {cfg : Config} {storage : Storage} (h : initStorage cfg = .ok storage) :
    storage.Sound := by
  unfold initStorage at h
  dsimp only at h
  split at h
  · cases h
  · split at h
    · cases h
    · split at h
      · cases h
      · split at h
        · cases h
        · exact Except.ok.inj h ▸ Storage.sound_new ..

theorem backs_uploadPartArchive {storage : Storage} (hs : storage.Sound) (cfg : Config)
    (hash : String) (v : BackupView) :
    Backs (uploadPartArchive storage cfg hash) v
      fun x v' => x.1 = hash ∧ blobRemoteKey hash ∈ v'.uploaded := by
  unfold uploadPartArchive
  dsimp only
  refine Backs.bind (R := fun r v' => ∀ files, r = .ok files → (hash, files) ∈ v'.files)
    (follows_askEnv trivial fun r => ?_) fun r v₁ _ hr => ?_
  · cases r with
    | ok files =>
      refine ⟨⟨fun _ h => h, fun _ h => h, fun _ h => h, rfl, fun _ h => List.mem_cons_of_mem _ h,
        fun _ h => h⟩, ?_⟩
      rintro _ ⟨⟩
      exact List.mem_cons_self ..
    | error e => exact ⟨.refl v, by simp⟩
  refine Backs.bind (Backs.liftP (Q := fun files v' => (hash, files) ∈ v'.files) hr)
    fun files v₂ _ hfiles => ?_
  refine Backs.bind (R := fun openFile v' => (hash, openFile) ∈ v'.opened)
    (follows_askEnv trivial fun openFile => ⟨⟨fun _ h => h, fun _ h => h, fun _ h => h, rfl,
      fun _ h => h, fun _ h => List.mem_cons_of_mem _ h⟩, List.mem_cons_self ..⟩)
    fun openFile v₃ hle₃ hopen => ?_
  refine Backs.bind (Backs.ask .pipe trivial v₃) fun cuts v₄ hle₄ hv₄ => ?_
  subst hv₄
  refine Backs.bind (Backs.mapFail (backs_putObjectMultipartReader
    (computeChunkSize_pos hs.1 hs.2) rfl (hle₃.files _ hfiles) hopen))
    fun uploaded v₅ _ hup => ?_
  refine Backs.bind (Backs.liftP (Q := fun _ v' => v' = v₅) fun _ _ => rfl)
    fun written v₆ _ hv₆ => ?_
  subst hv₆
  split
  · exact Backs.bind (R := fun _ _ => False) Backs.throw fun _ _ _ h => h.elim
  · refine Backs.bind (Backs.mapFail (Backs.quiet (quiet_localStep _) v₆)) fun _ v₇ _ hv₇ => ?_
    exact Backs.pure ⟨rfl, hv₇ ▸ hup⟩

/-- The sizes of the uploads are those of uploads that returned. -/
theorem backs_uploadPartArchives {storage : Storage} (hs : storage.Sound) (cfg : Config)
    (hashes : List String) (v : BackupView) :
    Backs (uploadPartArchives storage cfg hashes) v
      fun xs v' => ∀ x ∈ xs, blobRemoteKey x.1 ∈ v'.uploaded := by
  refine Backs.bind (Backs.ask .order trivial v) fun order v₁ _ _ => ?_
  refine Backs.bind (Backs.collect (fun _ (rs : List (Except AnyError (String × UInt64))) v' =>
    ∀ x, .ok x ∈ rs → blobRemoteKey x.1 ∈ v'.uploaded) ?_ (by simp)) fun results v₂ _ hres => ?_
  · intro pre rs hash post v' _ _ hI
    refine (backs_uploadPartArchive hs cfg hash v').attempt.mono fun r v'' hle hr x hx => ?_
    rcases List.mem_append.mp hx with hx | hx
    · exact hle.uploaded _ (hI x hx)
    · obtain ⟨hh, hup⟩ := hr x (List.mem_singleton.mp hx).symm
      exact hh ▸ hup
  · refine (Backs.collect (fun pre xs v' => v' = v₂ ∧ ∀ x ∈ xs, .ok x ∈ pre) ?_
      ⟨rfl, by simp⟩).mono fun xs v' _ hxs x hx => hxs.1 ▸ hres x (hxs.2 x hx)
    intro pre xs r post v' _ _ hI
    refine Backs.liftP fun a ha => ⟨hI.1, fun x hx => ?_⟩
    rcases List.mem_append.mp hx with hx | hx
    · exact List.mem_append_left _ (hI.2 x hx)
    · rw [List.mem_singleton.mp hx, ha]
      exact List.mem_append_right _ (List.mem_singleton_self _)

/-! ## Sizes -/

theorem mem_insertKey {κ α : Type} [DecidableEq κ] {k : κ} {a : α} {l : List (κ × α)} {x : κ × α}
    (h : x ∈ insertKey k a l) : x = (k, a) ∨ x ∈ l :=
  (List.mem_cons.mp h).imp_right fun h => (List.mem_filter.mp h).1

/-- No size is known but those of the list and those entered. -/
theorem backs_addSizes {v : BackupView} {known xs : List (String × UInt64)}
    (hk : ∀ x ∈ known, blobRemoteKey x.1 ∈ v.relied)
    (hx : ∀ x ∈ xs, blobRemoteKey x.1 ∈ v.relied) :
    Backs (Prog.foldl addSize known xs) v
      fun sizes v' => v' = v ∧ ∀ x ∈ sizes, blobRemoteKey x.1 ∈ v.relied := by
  refine Follows.mono (follows_foldl (E := fun _ v' => v' = v)
    (fun sizes v' => v' = v ∧ ∀ x ∈ sizes, blobRemoteKey x.1 ∈ v.relied) xs known v ?_ ⟨rfl, hk⟩)
    (fun _ v' h => ⟨h.1 ▸ .refl v, h⟩) fun _ v' h => h ▸ .refl v
  rintro sizes x v' hmem ⟨rfl, hI⟩
  have hnew : ∀ y ∈ insertKey x.1 x.2 sizes, blobRemoteKey y.1 ∈ v'.relied := fun y hy => by
    rcases mem_insertKey hy with rfl | hy
    · exact hx _ hmem
    · exact hI y hy
  unfold addSize
  split
  · split
    · exact Follows.throw rfl
    · exact Follows.pure ⟨rfl, hnew⟩
  · exact Follows.pure ⟨rfl, hnew⟩

theorem manifestPart_ok {sizes : List (String × UInt64)} {p : PartInfo} {mp : ManifestPart}
    (h : manifestPart sizes p = .ok mp) : ∃ x ∈ sizes, x.1 = mp.blobHash := by
  unfold manifestPart at h
  split at h
  · rename_i size hl
    obtain rfl := Except.ok.inj h
    exact ⟨_, mem_of_lookup hl, rfl⟩
  · cases h

theorem mem_of_mapM_ok {α β : Type} {f : α → Except AnyError β} : ∀ {l : List α} {bs : List β},
    l.mapM f = .ok bs → ∀ b ∈ bs, ∃ a ∈ l, f a = .ok b
  | [], bs, h, b, hb => by
    obtain rfl := Except.ok.inj h
    simp at hb
  | a :: l, bs, h, b, hb => by
    rw [List.mapM_cons] at h
    cases ha : f a with
    | error e => rw [ha] at h; cases h
    | ok b₀ =>
      rw [ha] at h
      cases hl : l.mapM f with
      | error e => rw [hl] at h; cases h
      | ok bs₀ =>
        rw [hl] at h
        obtain rfl := Except.ok.inj h
        rcases List.mem_cons.mp hb with rfl | hb
        · exact ⟨a, List.mem_cons_self .., ha⟩
        · obtain ⟨a', ha', hf⟩ := mem_of_mapM_ok hl b hb
          exact ⟨a', List.mem_cons_of_mem _ ha', hf⟩

/-! ## The command -/

theorem backs_prepareParts (json : Json) (cfg : Config) (knownHashes : List String)
    (parts : List PartInfo) (v : BackupView) :
    Backs (prepareParts json cfg knownHashes parts) v
      fun x v' => ∀ y ∈ x.1, blobRemoteKey y.1 ∈ v'.head := by
  refine Backs.bind (Backs.quiet (quiet_localStep _) v) fun _ v₁ _ _ => ?_
  refine Backs.bind (Backs.quiet (quiet_localStep _) v₁) fun _ v₂ _ _ => ?_
  refine Backs.bind (Backs.quiet (quiet_localStep _) v₂) fun _ v₃ _ _ => ?_
  refine Backs.bind (backs_headCheckExisting _ v₃) fun head v₄ _ hhead => ?_
  refine Backs.bind (Backs.quiet (quiet_stagePasses json cfg _ _ _ _) v₄) fun x v₅ hle₅ _ => ?_
  refine Backs.bind (Backs.quiet (quiet_metadataAttempts json cfg _ _) v₅) fun y v₆ hle₆ _ => ?_
  exact Backs.pure fun z hz => hle₆.head _ (hle₅.head _ (hhead z hz))

theorem backs_uploadPhase {storage : Storage} (hs : storage.Sound) (cfg : Config)
    {known : List (String × UInt64)} {head : List (String × Nat)} (staged : List String)
    (parts : List PartInfo) {v : BackupView} (hknown : ∀ x ∈ known, blobRemoteKey x.1 ∈ v.known)
    (hhead : ∀ x ∈ head, blobRemoteKey x.1 ∈ v.head) :
    Backs (uploadPhase storage cfg known head staged parts) v
      fun sizes v' => ∀ x ∈ sizes, blobRemoteKey x.1 ∈ v'.relied := by
  refine Backs.bind (Backs.liftP (Q := fun _ _ => True) fun _ _ => trivial) fun up v₁ hle₁ _ => ?_
  refine Backs.bind (Backs.quiet (quiet_localStep _) v₁) fun _ v₂ hle₂ _ => ?_
  refine Backs.bind (backs_uploadPartArchives hs cfg up v₂) fun new v₃ hle₃ hnew => ?_
  refine Backs.bind (Backs.quiet (quiet_localStep _) v₃) fun _ v₄ hle₄ _ => ?_
  refine Backs.bind (Backs.ask .order trivial v₄) fun order v₅ hle₅ _ => ?_
  have hle : v.Le v₅ := hle₁.trans (hle₂.trans (hle₃.trans (hle₄.trans hle₅)))
  refine (backs_addSizes (fun x hx => ?_) fun x hx => ?_).mono fun sizes v' _ h x hx =>
    h.1 ▸ h.2 x hx
  · exact BackupView.mem_relied.mpr (.inl (hle.known _ (hknown x hx)))
  · rw [mem_reorder] at hx
    rcases List.mem_append.mp hx with hx | hx
    · obtain ⟨y, hy, rfl⟩ := List.mem_map.mp hx
      exact BackupView.mem_relied.mpr (.inr (.inl (hle.head _ (hhead y hy))))
    · exact BackupView.mem_relied.mpr
        (.inr (.inr (hle₅.uploaded _ (hle₄.uploaded _ (hnew x hx)))))

theorem follows_writeManifest {m : Manifest} {v : BackupView} (hput : v.put = none)
    (hm : ∀ k ∈ m.blobKeys, k ∈ v.relied) :
    Follows backupWatch BackupRule (writeManifest m) v (fun _ _ => True) (fun _ _ => True) := by
  refine Follows.bind (R := fun _ _ => True) (Follows.mapFail (follows_putObjectConditional
    ⟨hput, m, rfl, rfl, rfl, rfl, hm⟩ (fun _ _ => trivial) fun _ _ => trivial)) fun x v' _ => ?_
  dsimp only
  split
  · exact Follows.throw trivial
  · exact Follows.pure trivial

/-- A backup follows the rule of backups. -/
theorem follows_createSnapshot (json : Json) (cfg : Config) (name : Option String) :
    Follows backupWatch BackupRule (createSnapshot json cfg name) backupWatch.init
      (fun _ _ => True) (fun _ _ => True) := by
  have seq : ∀ {α β : Type} {p : P α} {f : α → P β} {v : BackupView}
      {R : α → BackupView → Prop}, Backs p v R →
      (∀ a v', v.Le v' → R a v' →
        Follows backupWatch BackupRule (f a) v' (fun _ _ => True) (fun _ _ => True)) →
      Follows backupWatch BackupRule (p >>= f) v (fun _ _ => True) (fun _ _ => True) :=
    fun hp hf => Follows.bind (Follows.mono hp (fun _ _ h => h) fun _ _ _ => trivial)
      fun a v' h => hf a v' h.1 h.2
  refine seq (Backs.ask .utcNow trivial _) fun timestamp v₀ hle₀ _ => ?_
  refine seq (Backs.liftP (Q := fun storage _ => storage.Sound) fun _ h => sound_initStorage h)
    fun storage v₁ hle₁ hstorage => ?_
  refine seq (Backs.quiet (quiet_queryParts json cfg) v₁) fun parts v₂ hle₂ _ => ?_
  refine seq (Backs.quiet (quiet_resolveShardReplica json cfg) v₂) fun ident v₃ hle₃ _ => ?_
  refine seq (Backs.quiet (quiet_nameOrAuto name ident.1 ident.2 timestamp) v₃)
    fun snapshotName v₄ hle₄ _ => ?_
  refine seq (backs_loadKnown ident.1 ident.2 v₄) fun known v₅ hle₅ hknown => ?_
  refine seq (backs_prepareParts json cfg _ parts v₅) fun prep v₆ hle₆ hprep => ?_
  refine seq (backs_uploadPhase hstorage cfg prep.2.1 prep.2.2.1 (fun x hx =>
    hle₆.known _ (hknown x hx)) hprep) fun sizes v₇ hle₇ hsizes => ?_
  refine seq (Backs.liftP (Q := fun mps v' => v' = v₇ ∧
    ∀ mp ∈ mps, blobRemoteKey mp.blobHash ∈ v₇.relied) fun mps hmps => ⟨rfl, fun mp hmp => ?_⟩)
    fun manifestParts v₈ hle₈ hmps => ?_
  · obtain ⟨p, -, hp⟩ := mem_of_mapM_ok hmps mp hmp
    obtain ⟨x, hx, hxh⟩ := manifestPart_ok hp
    exact hxh ▸ hsizes x hx
  obtain ⟨rfl, hmps⟩ := hmps
  refine seq (Backs.ask .gethostname trivial v₈) fun host v₉ hle₉ hv₉ => ?_
  subst hv₉
  have hput : v₉.put = none :=
    (hle₀.trans <| hle₁.trans <| hle₂.trans <| hle₃.trans <| hle₄.trans <| hle₅.trans <|
      hle₆.trans hle₇).put
  refine Follows.bind (R := fun _ _ => True) (follows_writeManifest hput ?_)
    fun _ _ _ => Follows.pure trivial
  intro k hk
  obtain ⟨mp, hmp, rfl⟩ := List.mem_map.mp hk
  exact hmps mp hmp

end Chbk
