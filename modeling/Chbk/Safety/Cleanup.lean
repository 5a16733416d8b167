import Chbk.Safety.Collector

/-!
# The cleanup commands follow their rules

* `cleans_readAllManifests`, `cleans_unionHashesForNames` — reading is all or
  nothing: a result covers every name of the listing.
* `follows_gcSnapshot`, `follows_pruneOldLiveSnapshots`, `follows_gcAllBlobs`.
-/

namespace Chbk

open Lib Prog

variable {T : GcTerms}

/-! ## Reading manifests -/

theorem cleans_listManifestNames (v : GcView) :
    Cleans T listManifestNames v fun names v' => v' = { listed := some names } := by
  refine Cleans.bind (R := fun es v' => v' = { listed := some (manifestNames es) })
    (follows_listObjects trivial (fun es => by simp [gcWatch, GcView.observe]) fun _ _ => trivial)
    fun es v' hv' => Cleans.pure hv'

theorem follows_readManifest (name : String) (v : GcView) :
    Follows gcWatch (GcRule T) (readManifest name) v
      (fun m v' => m.name = name ∧ v' = { v with read := v.read ++ [m] })
      (fun _ v' => ∃ ms, v' = { v with read := v.read ++ ms }) := by
  have hsame : v = { v with read := v.read ++ [] } := by simp
  refine Follows.bind (R := fun body v' =>
      (∀ m, body = .manifest m → v' = { v with read := v.read ++ [{ m with name }] })
        ∧ ∃ ms, v' = { v with read := v.read ++ ms })
    (Follows.mapFail (follows_getObject trivial (fun b => ?_) fun _ _ => ⟨[], hsame⟩))
    fun body v₁ hbody => ?_
  · cases b with
    | manifest m =>
      have hobs : gcWatch.observe v (.s3 (.getObject (manifestKey name))) (.ok (.manifest m)) =
          { v with read := v.read ++ [{ m with name }] } := by
        simp [gcWatch, GcView.observe]
      refine ⟨?_, _, hobs⟩
      rintro m' ⟨⟩
      exact hobs
    | lock info => exact ⟨by simp, [], hsame⟩
    | data bs => exact ⟨by simp, [], hsame⟩
  · refine Follows.bind (follows_liftP (Q := fun m v' => v' = { v with read := v.read ++ [{ m with name }] })
      (fun m hm => hbody.1 m (decodeManifest_ok hm)) fun _ _ => hbody.2) fun m v₂ hv₂ => ?_
    exact Follows.pure ⟨rfl, hv₂⟩

/-- A result covers every name that was listed. -/
theorem cleans_readAllManifests (v : GcView) :
    Cleans T readAllManifests v fun ms v' => ∃ names, v' = { listed := some names, read := ms } ∧
      ∀ name ∈ names, ∃ m ∈ ms, m.name = name := by
  refine Cleans.bind (cleans_listManifestNames v) fun names v₁ hv₁ => ?_
  refine Cleans.bind (Cleans.aside (aside_ask .order trivial) v₁) fun order v₂ hv₂ => ?_
  rw [hv₂, hv₁]
  refine Cleans.mono (follows_collect (fun pre ms v' => v' = { listed := some names, read := ms } ∧
      ∀ name ∈ pre, ∃ m ∈ ms, m.name = name) ?_ ⟨rfl, by simp⟩)
    fun ms v' h => ⟨names, h.1, fun name hn => h.2 name (mem_reorder.mpr hn)⟩
  rintro pre ms name post v' - ⟨rfl, hI⟩
  refine Follows.mono (follows_readManifest name _) ?_ fun _ _ _ => trivial
  rintro m v' ⟨hm, rfl⟩
  refine ⟨rfl, fun n hn => ?_⟩
  rcases List.mem_append.mp hn with hn | hn
  · obtain ⟨m', hm', hname⟩ := hI n hn
    exact ⟨m', List.mem_append_left _ hm', hname⟩
  · exact ⟨m, List.mem_append_right _ (List.mem_singleton_self m),
      hm.trans (List.mem_singleton.mp hn).symm⟩

theorem mem_unionHashes {ms : List Manifest} {hash : String} :
    hash ∈ unionHashes ms ↔ ∃ m ∈ ms, ∃ p ∈ m.parts, p.blobHash = hash := by
  simp [unionHashes]

/-- A key whose hash no manifest of the union has is no blob of these. -/
theorem not_mem_blobKeys {ms : List Manifest} {m : Manifest} {hash : String} (hm : m ∈ ms)
    (h : hash ∉ unionHashes ms) : blobRemoteKey hash ∉ m.blobKeys := fun hk => by
  obtain ⟨p, hp, he⟩ := List.mem_map.mp hk
  exact h (mem_unionHashes.mpr ⟨m, hm, p, hp, blobRemoteKey_inj he⟩)

theorem exists_of_forall₂ {α β : Type} {R : α → β → Prop} {l : List α} {l' : List β}
    (h : List.Forall₂ R l l') : ∀ a ∈ l, ∃ b ∈ l', R a b := by
  induction h with
  | nil => simp
  | cons hab _ ih =>
    intro a ha
    rcases List.mem_cons.mp ha with rfl | ha
    · exact ⟨_, List.mem_cons_self .., hab⟩
    · obtain ⟨b, hb, hr⟩ := ih a ha
      exact ⟨b, List.mem_cons_of_mem _ hb, hr⟩

/-- The union covers every name of the list. -/
theorem cleans_unionHashesForNames (names : List String) (v : GcView) :
    Cleans T (unionHashesForNames names) v fun hashes v' =>
      ∃ ms, v' = { v with read := v.read ++ ms } ∧ ∀ name ∈ names, ∃ m ∈ ms, m.name = name ∧
        ∀ hash, hash ∉ hashes → blobRemoteKey hash ∉ m.blobKeys := by
  refine Cleans.bind (Cleans.aside (aside_ask .order trivial) v) fun order v₁ hv₁ => ?_
  subst hv₁
  refine Cleans.bind (R := fun rs v' => ∃ ms, v' = { v₁ with read := v₁.read ++ ms } ∧
      List.Forall₂ (fun name (r : Except AnyError Manifest) =>
        ∀ m, r = .ok m → m.name = name ∧ m ∈ ms) (reorder order names) rs) ?_ fun rs v₂ hrs => ?_
  · refine follows_collect (v := v₁) (fun pre rs v' => ∃ ms, v' = { v₁ with read := v₁.read ++ ms } ∧
      List.Forall₂ (fun name (r : Except AnyError Manifest) =>
        ∀ m, r = .ok m → m.name = name ∧ m ∈ ms) pre rs) ?_
      ⟨[], by simp, .nil⟩
    rintro pre rs name post v' - ⟨ms, rfl, hI⟩
    have hgrow : ∀ ms', List.Forall₂ (fun name (r : Except AnyError Manifest) =>
        ∀ m, r = .ok m → m.name = name ∧ m ∈ ms ++ ms') pre rs := fun ms' =>
      hI.imp fun n r h m hm => ⟨(h m hm).1, List.mem_append_left _ (h m hm).2⟩
    refine Follows.attempt (Follows.mono (follows_readManifest name _) ?_ ?_)
    · rintro m v' ⟨hm, rfl⟩
      refine ⟨ms ++ [m], by simp, List.rel_append (hgrow [m]) (.cons ?_ .nil)⟩
      rintro m' ⟨⟩
      exact ⟨hm, by simp⟩
    · rintro e v' ⟨ms', rfl⟩
      exact ⟨ms ++ ms', by simp, List.rel_append (hgrow ms') (.cons (by simp) .nil)⟩
  · obtain ⟨ms, rfl, hrel⟩ := hrs
    refine Cleans.bind (R := fun all v' => v' = { v₁ with read := v₁.read ++ ms } ∧
      rs = all.map Except.ok) ?_ fun all v₃ h₃ => Cleans.pure ?_
    · refine follows_collect (fun pre all v' => v' = { v₁ with read := v₁.read ++ ms } ∧
        pre = all.map Except.ok) ?_ ⟨rfl, rfl⟩
      rintro pre all r post v' - ⟨rfl, rfl⟩
      refine Cleans.liftP fun m hm => ⟨rfl, ?_⟩
      simp [hm]
    · obtain ⟨rfl, rfl⟩ := h₃
      refine ⟨ms, rfl, fun name hn => ?_⟩
      obtain ⟨r, hr, hrm⟩ := exists_of_forall₂ hrel name (mem_reorder.mpr hn)
      obtain ⟨m, hm, rfl⟩ := List.mem_map.mp hr
      obtain ⟨hname, hmem⟩ := hrm m rfl
      exact ⟨m, hmem, hname, fun hash => not_mem_blobKeys hm⟩

/-! ## Calls of one kind -/

section

variable {S : Op → Prop}

theorem only_readManifest {name : String} (hget : S (.s3 (.getObject (manifestKey name)))) :
    Only S (readManifest name) := by
  refine Only.bind (Only.mapFail (Only.bind (only_ask hget) fun r => only_orContext _ _))
    fun body => ?_
  refine Only.bind ?_ fun m => only_pure _
  cases decodeManifest body with
  | ok m => exact only_pure m
  | error e => exact only_throw e

theorem only_listManifestNames (hlist : S (.s3 (.listObjectsV2 MANIFEST_PREFIX))) :
    Only S listManifestNames := by
  refine Only.bind (Only.bind (only_ask hlist) fun r => ?_) fun entries => only_pure _
  cases r with
  | ok entries => exact only_pure entries
  | error e => exact only_throw _

theorem only_readAllManifests (hlist : S (.s3 (.listObjectsV2 MANIFEST_PREFIX)))
    (hget : ∀ name, S (.s3 (.getObject (manifestKey name)))) (horder : S (.env .order)) :
    Only S readAllManifests := by
  refine Only.bind (only_listManifestNames hlist) fun names => ?_
  refine Only.bind (only_ask horder) fun order => ?_
  exact only_collect fun name _ => only_readManifest (hget name)

end

/-! ## Deleting -/

theorem manifestNameFromKey_blob (hash : String) :
    manifestNameFromKey (blobRemoteKey hash) = none := by
  by_contra h
  obtain ⟨n, hn⟩ := Option.ne_none_iff_exists'.mp h
  exact manifestKey_ne_blobRemoteKey n hash (manifestNameFromKey_eq_some.mp hn).symm

theorem DeletesOf.observe {keys : List String} (hkeys : ∀ k ∈ keys, ∃ hash, k = blobRemoteKey hash)
    {op : Op} (h : DeletesOf keys op) (v : GcView) (r : Resp op) : v.observe op r = v := by
  match op, h, r with
  | .s3 (.deleteObjects ks), _, _ => rfl
  | .env .order, _, _ => rfl
  | .s3 (.deleteObject key), h, r =>
    obtain ⟨hash, rfl⟩ := hkeys key h
    cases r <;> simp [GcView.observe, manifestNameFromKey_blob]

/-- Blobs that are free may be deleted in bulk. -/
theorem cleans_deleteObjectsBulk {keys : List String} {v : GcView}
    (h : ∀ k ∈ keys, BlobFree T v k) :
    Cleans T (deleteObjectsBulk keys) v fun _ v' => v' = v := by
  refine Follows.mono ((only_deleteObjectsBulk keys).follows (I := fun v' => v' = v) ?_ ?_ rfl)
    (fun _ _ hv => hv) fun _ _ _ => trivial
  · rintro v' op ho rfl
    match op, ho with
    | .s3 (.deleteObject key), ho => exact .inr (.inr (h key ho))
    | .s3 (.deleteObjects ks), ho => exact fun k hk => h k (ho k hk)
    | .env .order, _ => trivial
  · rintro v' op r ho rfl
    exact ho.observe (fun k hk => (h k hk).isBlob) v' r

theorem cleans_deleteExclusiveBlobs {exclusive : List String} {v : GcView}
    (h : ∀ hash ∈ exclusive, BlobFree T v (blobRemoteKey hash)) :
    Cleans T (deleteExclusiveBlobs exclusive) v fun _ v' => v' = v := by
  rcases deleteExclusiveBlobs_cases exclusive with ⟨-, heq⟩ | ⟨-, msg, k, heq⟩
  · rw [heq]
    refine Cleans.bind (cleans_deleteObjectsBulk fun k hk => ?_) fun _ v' hv' => Cleans.pure hv'
    obtain ⟨hash, hh, rfl⟩ := List.mem_map.mp hk
    exact h hash hh
  · rw [heq]
    exact ⟨trivial, fun r => r.elim⟩

theorem cleans_exclusiveHashes (target other : List String) (v : GcView) :
    Cleans T (exclusiveHashes target other) v fun exclusive v' => v' = v ∧
      ∀ hash ∈ exclusive, hash ∈ target ∧ hash ∉ other := by
  refine Cleans.bind (Cleans.aside (aside_ask .order trivial) v) fun order v' hv' => Cleans.pure ⟨hv', ?_⟩
  intro hash hh
  simpa using mem_reorder.mp hh

/-! ## `rm-snapshot` -/

/-- The terms of `rm-snapshot`, strict or not. -/
def snapshotTerms (strict : Bool) (snapshotName : String) : GcTerms :=
  ⟨strict, none, fun _ n => n = snapshotName⟩

variable {strict : Bool}

theorem cleans_deleteManifest {name : String} {v : GcView} (hT : T.mayDelete v name) :
    Cleans T (deleteManifest name) v fun _ v' => v' =
      { v with tried := name :: v.tried, gone := name :: v.gone } := by
  refine Follows.mapFail (follows_deleteObject (.inr (.inl ⟨name, rfl, hT⟩)) ?_ fun _ _ => trivial)
  simp [gcWatch, GcView.observe]

/-- The last part of `rm-snapshot`: the manifest, then the blobs only it had. -/
theorem cleans_deleteSnapshot {snapshotName : String} {exclusive names : List String} {v : GcView}
    (hlisted : v.listed = some names)
    (hread : ∀ name ∈ names, name ≠ snapshotName → ∃ m ∈ v.read, m.name = name ∧
      ∀ hash ∈ exclusive, blobRemoteKey hash ∉ m.blobKeys) :
    Cleans (snapshotTerms strict snapshotName) (do
      bailIfLockLost
      deleteManifest snapshotName
      if exclusive ≠ [] then
        bailIfLockLost
        deleteExclusiveBlobs exclusive) v fun _ _ => True := by
  refine Cleans.bind (Cleans.aside aside_bailIfLockLost v) fun _ v₁ hv₁ => ?_
  subst hv₁
  refine Cleans.bind (cleans_deleteManifest rfl) fun _ v₂ hv₂ => ?_
  split
  · refine Cleans.bind (Cleans.aside aside_bailIfLockLost v₂) fun _ v₃ hv₃ => ?_
    refine Cleans.mono (cleans_deleteExclusiveBlobs fun hash hh => ?_) fun _ _ _ => trivial
    subst hv₃ hv₂
    refine ⟨⟨hash, rfl⟩, ⟨names, hlisted, fun name hn => ?_⟩, by simp [snapshotTerms]⟩
    by_cases he : name = snapshotName
    · left
      cases strict <;> simp [snapshotTerms, GcView.settled, he]
    · obtain ⟨m, hm, hname, hk⟩ := hread name hn he
      exact .inr ⟨m, hm, hname, hk hash hh⟩
  · exact Cleans.pure trivial

theorem aside_printEach (text : String) (items : List String) :
    Prog.Only Aside (printEach text items) :=
  (only_collect fun item _ => aside_ask (.println (text ++ item)) trivial).bind fun _ => only_pure _

theorem follows_gcSnapshot (snapshotName : String) (dryRun : Bool) (v : GcView) :
    Cleans (snapshotTerms strict snapshotName) (gcSnapshot snapshotName dryRun) v fun _ _ => True := by
  refine Cleans.withGcLock (fun v => ?_) v
  refine Cleans.bind (R := fun _ _ => True) (Follows.mapFail (Follows.mono
    (follows_readManifest snapshotName v) (fun _ _ _ => trivial) fun _ _ _ => trivial))
    fun target v₁ _ => ?_
  refine Cleans.bind (cleans_listManifestNames v₁) fun names v₂ hv₂ => ?_
  refine Cleans.bind (cleans_unionHashesForNames _ v₂) fun other v₃ hother => ?_
  refine Cleans.bind (cleans_exclusiveHashes _ other v₃) fun exclusive v₄ hex => ?_
  obtain ⟨rfl, hex⟩ := hex
  split
  · refine Cleans.bind (Cleans.aside (aside_printEach _ _) _) fun _ v₅ _ => ?_
    refine Cleans.bind (Cleans.aside (aside_printEach _ _) v₅) fun _ v₆ _ => ?_
    exact Cleans.pure trivial
  · obtain ⟨ms, rfl, hms⟩ := hother
    subst hv₂
    refine cleans_deleteSnapshot rfl fun name hn hne => ?_
    obtain ⟨m, hm, hname, hk⟩ := hms name (List.mem_filter.mpr ⟨hn, by simpa using hne⟩)
    exact ⟨m, List.mem_append_right _ hm, hname, fun hash hh => hk hash (hex hash hh).2⟩

/-! ## `gc-live` -/

/-- The terms of `gc-live`: a manifest is deleted when it is in the prune set of
the manifests read. -/
def pruneTerms (retainAllMinutes : UInt64) (retainDailyMinutes : Option UInt64)
    (currentTimestamp : Int) : GcTerms :=
  ⟨false, none, fun v name => name ∈
    computePruneSet (liveByName v.read) retainAllMinutes retainDailyMinutes currentTimestamp⟩

theorem cleans_pruneManifest {name : String} {v : GcView} (hT : T.mayDelete v name) :
    Cleans T (pruneManifest name) v fun _ v' =>
      v'.listed = v.listed ∧ v'.read = v.read ∧ v'.tried = name :: v.tried := by
  refine Cleans.bind (Cleans.aside aside_bailIfLockLost v) fun _ v₁ hv₁ => ?_
  subst hv₁
  refine Cleans.bind (R := fun _ v' => v'.listed = v₁.listed ∧ v'.read = v₁.read ∧
    v'.tried = name :: v₁.tried) (Follows.attempt (Follows.mapFail
      (follows_deleteObject (.inr (.inl ⟨name, rfl, hT⟩)) ?_ fun e e' => ?_)))
    fun _ v₂ hv₂ => Cleans.pure hv₂
  · simp [gcWatch, GcView.observe]
  · simp [gcWatch, GcView.observe]

/-- The loop over the prune set tries every manifest of it. -/
theorem cleans_pruneManifests {toPrune names : List String} {ms : List Manifest}
    (hT : ∀ v : GcView, v.read = ms → ∀ name ∈ toPrune, T.mayDelete v name) {v : GcView}
    (hv : v.listed = some names ∧ v.read = ms) :
    Cleans T (Prog.collect pruneManifest toPrune) v fun _ v' =>
      v'.listed = some names ∧ v'.read = ms ∧ ∀ name ∈ toPrune, name ∈ v'.tried := by
  refine follows_collect (v := v) (fun pre _ v' => v'.listed = some names ∧ v'.read = ms ∧
    ∀ name ∈ pre, name ∈ v'.tried) ?_ ⟨hv.1, hv.2, by simp⟩
  rintro pre us name post v' hl ⟨hlisted, hread, htried⟩
  have hmay : T.mayDelete v' name := hT v' hread name (by rw [hl]; simp)
  refine Cleans.mono (cleans_pruneManifest hmay) fun _ v'' h => ?_
  refine ⟨h.1.trans hlisted, h.2.1.trans hread, fun n hn => ?_⟩
  rw [h.2.2]
  rcases List.mem_append.mp hn with hn | hn
  · exact List.mem_cons_of_mem _ (htried n hn)
  · exact List.mem_singleton.mp hn ▸ List.mem_cons_self ..

theorem follows_pruneOldLiveSnapshots (retainAllMinutes : UInt64)
    (retainDailyMinutes : Option UInt64) (currentTimestamp : Int) (dryRun : Bool) (v : GcView) :
    Cleans (pruneTerms retainAllMinutes retainDailyMinutes currentTimestamp)
      (pruneOldLiveSnapshots retainAllMinutes retainDailyMinutes currentTimestamp dryRun) v
      fun _ _ => True := by
  refine Cleans.withGcLock (fun v => ?_) v
  refine Cleans.bind (cleans_readAllManifests v) fun ms v₁ hms => ?_
  obtain ⟨names, rfl, hcover⟩ := hms
  dsimp only
  split
  · exact Cleans.pure trivial
  refine Cleans.bind (cleans_exclusiveHashes _ _ _) fun exclusive v₂ hex => ?_
  obtain ⟨rfl, hex⟩ := hex
  refine Cleans.bind (Cleans.aside (aside_ask .order trivial) _) fun order v₃ hv₃ => ?_
  subst hv₃
  split
  · refine Cleans.bind (Cleans.aside (aside_printEach _ _) _) fun _ v₅ _ => ?_
    refine Cleans.bind (Cleans.aside (aside_printEach _ _) v₅) fun _ v₆ _ => ?_
    exact Cleans.pure trivial
  refine Cleans.bind (cleans_pruneManifests ?_ ⟨rfl, rfl⟩)
    fun _ v₄ h₄ => ?_
  · rintro v' rfl name hname
    exact mem_reorder.mp hname
  obtain ⟨hlisted, hread, htried⟩ := h₄
  split
  · refine Cleans.bind (Cleans.aside aside_bailIfLockLost v₄) fun _ v₅ hv₅ => ?_
    subst hv₅
    refine Cleans.mono (cleans_deleteExclusiveBlobs fun hash hh => ?_) fun _ _ _ => trivial
    refine ⟨⟨hash, rfl⟩, ⟨names, hlisted, fun name hn => ?_⟩, by simp [pruneTerms]⟩
    obtain ⟨m, hm, rfl⟩ := hcover name hn
    by_cases hp : m.name ∈ computePruneSet (liveByName ms) retainAllMinutes retainDailyMinutes
      currentTimestamp
    · exact .inl (htried _ (mem_reorder.mpr hp))
    · refine .inr ⟨m, hread ▸ hm, rfl, not_mem_blobKeys ?_ (hex hash hh).2⟩
      exact List.mem_filter.mpr ⟨hm, by simpa using hp⟩
  · exact Cleans.pure trivial

/-! ## `gc-all` -/

/-- The grace period in seconds, as the code reckons it. -/
def graceSecs (gracePeriodHours : UInt64) : Int := wrapI64 gracePeriodHours.toNat * 3600

/-- The terms of `gc-all`, strict or not. -/
def allTerms (strict : Bool) (gracePeriodHours : UInt64) : GcTerms :=
  ⟨strict, some (graceSecs gracePeriodHours), fun _ _ => False⟩

theorem parseUnreferencedBlob_eq_some {key hash : String} {referenced : List BlobHash}
    (h : parseUnreferencedBlob key referenced = some hash) :
    parseUnreferencedBlob key [] = some hash ∧
      ∃ b, fromHex hash = some b ∧ b ∉ referenced := by
  unfold parseUnreferencedBlob at h ⊢
  split at h
  · split at h
    · cases h
    · rename_i hshape
      obtain ⟨b, hb, he⟩ := Option.bind_eq_some_iff.mp h
      split at he
      · cases he
      · rename_i hmem
        obtain rfl := Option.some.inj he
        simp [hshape, hb, hmem]
  · cases h

/-- A scan under way: what is pending was listed, and what is in the batch may
be deleted. -/
structure ScanInv (T : GcTerms) (names : List String) (ms : List Manifest) (now : Int)
    (scan : Scan) (v : GcView) : Prop where
  listed : v.listed = some names
  read : v.read = ms
  clock : v.clock = some now
  pending : ∀ e ∈ scan.pending, (e.key, e.lastModified) ∈ v.seen
  batch : ∀ hash ∈ scan.batch, BlobFree T v (blobRemoteKey hash)

variable {gracePeriodHours : UInt64} {names : List String} {ms : List Manifest} {now : Int}

/-- An orphan the scan has found may be deleted. -/
theorem ScanInv.orphan {scan : Scan} {v : GcView}
    (hI : ScanInv (allTerms strict gracePeriodHours) names ms now scan v)
    (hcover : ∀ name ∈ names, ∃ m ∈ ms, m.name = name) {e : ListEntry} (he : e ∈ scan.pending)
    {hash : String} (h : orphanOf ((unionHashes ms).filterMap fromHex)
      (now - graceSecs gracePeriodHours) e = some hash) :
    BlobFree (allTerms strict gracePeriodHours) v (blobRemoteKey hash) := by
  unfold orphanOf at h
  split at h
  · cases h
  · rename_i hage
    obtain ⟨hparse, b, hb, hnot⟩ := parseUnreferencedBlob_eq_some h
    refine ⟨⟨hash, rfl⟩, ⟨names, hI.listed, fun name hn => ?_⟩, ?_⟩
    · obtain ⟨m, hm, hname⟩ := hcover name hn
      refine .inr ⟨m, hI.read ▸ hm, hname, not_mem_blobKeys hm fun hu => hnot ?_⟩
      exact List.mem_filterMap.mpr ⟨hash, hu, hb⟩
    · rintro _ ⟨⟩
      exact ⟨now, e.key, e.lastModified, hash, hI.clock, hI.pending e he, by omega, hparse, rfl⟩

theorem cleans_deleteOrReportBatch {batch : List String} {dryRun : Bool} {v : GcView}
    (h : ∀ hash ∈ batch, BlobFree T v (blobRemoteKey hash)) :
    Cleans T (deleteOrReportBatch batch dryRun) v fun _ v' => v' = v := by
  unfold deleteOrReportBatch
  split
  · exact Cleans.pure rfl
  · refine Cleans.bind (cleans_deleteObjectsBulk fun k hk => ?_) fun _ v' hv' => Cleans.pure hv'
    obtain ⟨hash, hh, rfl⟩ := List.mem_map.mp hk
    exact h hash hh

theorem cleans_pushOrphan {dryRun : Bool} {batch : List String} {hash : String} {v : GcView}
    (hb : ∀ h ∈ batch, BlobFree T v (blobRemoteKey h)) (hh : BlobFree T v (blobRemoteKey hash)) :
    Cleans T (pushOrphan dryRun batch hash) v fun batch' v' => v' = v ∧
      ∀ h ∈ batch', BlobFree T v (blobRemoteKey h) := by
  have hnew : ∀ h ∈ batch ++ [hash], BlobFree T v (blobRemoteKey h) := fun h hm => by
    rcases List.mem_append.mp hm with hm | hm
    · exact hb h hm
    · exact List.mem_singleton.mp hm ▸ hh
  unfold pushOrphan
  dsimp only
  split
  · refine Cleans.bind (Cleans.aside aside_bailIfLockLost v) fun _ v₁ hv₁ => ?_
    subst hv₁
    exact Cleans.bind (cleans_deleteOrReportBatch hnew) fun _ v₂ hv₂ =>
      Cleans.pure ⟨hv₂, by simp⟩
  · exact Cleans.pure ⟨rfl, hnew⟩

theorem cleans_consumePending {dryRun : Bool} {n : Nat} {scan : Scan} {v : GcView}
    (hcover : ∀ name ∈ names, ∃ m ∈ ms, m.name = name)
    (hI : ScanInv (allTerms strict gracePeriodHours) names ms now scan v) :
    Cleans (allTerms strict gracePeriodHours) (consumePending ((unionHashes ms).filterMap fromHex)
      (now - graceSecs gracePeriodHours) dryRun n scan) v
      fun scan' v' => ScanInv (allTerms strict gracePeriodHours) names ms now scan' v' := by
  refine Cleans.bind (R := fun batch v' => v' = v ∧
    ∀ h ∈ batch, BlobFree (allTerms strict gracePeriodHours) v (blobRemoteKey h)) ?_ ?_
  · refine follows_foldl (fun batch v' => v' = v ∧
      ∀ h ∈ batch, BlobFree (allTerms strict gracePeriodHours) v (blobRemoteKey h)) _ _ _ ?_
      ⟨rfl, hI.batch⟩
    rintro batch hash v' hmem ⟨rfl, hb⟩
    obtain ⟨e, he, horphan⟩ := List.mem_filterMap.mp hmem
    exact cleans_pushOrphan hb (hI.orphan hcover (List.mem_of_mem_take he) horphan)
  · rintro batch v' ⟨rfl, hb⟩
    exact Cleans.pure ⟨hI.listed, hI.read, hI.clock,
      fun e he => hI.pending e (List.mem_of_mem_drop he), hb⟩

theorem shardPrefix_ne_manifest (shard : Nat) : shardPrefix shard ≠ MANIFEST_PREFIX := fun h => by
  have hl : (shardPrefix shard).toList.head? = some 'b' := by
    have hb : "base/data/blobs/".toList.head? = some 'b' := by decide +kernel
    unfold shardPrefix
    rw [String.toList_append, String.toList_append, List.append_assoc, List.head?_append, hb,
      Option.some_or]
  rw [h] at hl
  exact absurd hl (by decide +kernel)

/-- What was free stays free when more is listed. -/
theorem BlobFree.mono_seen {v : GcView} {key : String} {more : List (String × Int)}
    (h : BlobFree T v key) : BlobFree T { v with seen := more ++ v.seen } key := by
  refine ⟨h.isBlob, h.unreferenced, fun grace hg => ?_⟩
  obtain ⟨t, k, lm, hash, hc, hs, hrest⟩ := h.old grace hg
  exact ⟨t, k, lm, hash, hc, List.mem_append_right _ hs, hrest⟩

theorem cleans_scanShard {dryRun : Bool} {scan : Scan} {shard : Nat} {v : GcView}
    (hcover : ∀ name ∈ names, ∃ m ∈ ms, m.name = name)
    (hI : ScanInv (allTerms strict gracePeriodHours) names ms now scan v) :
    Cleans (allTerms strict gracePeriodHours) (scanShard ((unionHashes ms).filterMap fromHex)
      (now - graceSecs gracePeriodHours) dryRun scan shard) v
      fun scan' v' => ScanInv (allTerms strict gracePeriodHours) names ms now scan' v' := by
  refine Cleans.bind (Cleans.aside (aside_ask .ahead trivial) v) fun n v₁ hv₁ => ?_
  subst hv₁
  refine Cleans.bind (cleans_consumePending hcover hI) fun scan₂ v₂ hI₂ => ?_
  refine Cleans.bind (R := fun (r : Except AnyError (List ListEntry)) v' =>
    (∀ es, r = .ok es →
      v' = { v₂ with seen := (es.map fun e => (e.key, e.lastModified)) ++ v₂.seen }) ∧
    (∀ e, r = .error e → v' = v₂)) (Follows.attempt (follows_listObjects trivial ?_ ?_))
    fun r v₃ h₃ => ?_
  · intro es
    refine ⟨?_, by simp⟩
    rintro _ ⟨⟩
    simp only [gcWatch, GcView.observe, shardPrefix_ne_manifest shard, if_false]
  · exact fun e e' => ⟨by simp, fun _ _ => rfl⟩
  · cases r with
    | ok es =>
      rw [h₃.1 es rfl]
      refine Cleans.pure ⟨hI₂.listed, hI₂.read, hI₂.clock, fun e he => ?_,
        fun hash hh => (hI₂.batch hash hh).mono_seen⟩
      rcases List.mem_append.mp he with he | he
      · exact List.mem_append_right _ (hI₂.pending e he)
      · exact List.mem_append_left _ (List.mem_map_of_mem he)
    | error e =>
      rw [h₃.2 e rfl]
      exact Cleans.pure hI₂

theorem cleans_graceCutoff (gracePeriodHours : UInt64) (v : GcView) :
    Cleans T (graceCutoff gracePeriodHours) v fun cutoff v' =>
      ∃ now, v' = { v with clock := some now } ∧ cutoff = now - graceSecs gracePeriodHours := by
  refine Cleans.bind (R := fun now v' => v' = { v with clock := some now })
    (Follows.ask trivial fun _ => rfl) fun now v₁ hv₁ => ?_
  dsimp only
  split
  · exact Cleans.bind (R := fun _ _ => False) (Follows.ask trivial fun r => r.elim)
      fun _ _ h => h.elim
  · split
    · exact Cleans.bind (R := fun _ _ => False) (Follows.ask trivial fun r => r.elim)
        fun _ _ h => h.elim
    · exact Cleans.pure ⟨now, hv₁, rfl⟩

theorem follows_gcAllBlobs (dryRun : Bool) (gracePeriodHours : UInt64) (v : GcView) :
    Cleans (allTerms strict gracePeriodHours) (gcAllBlobs dryRun gracePeriodHours) v
      fun _ _ => True := by
  refine Cleans.withGcLock (fun v => ?_) v
  refine Cleans.bind (R := fun referenced v' => ∃ names ms, referenced = unionHashes ms ∧
      v' = { listed := some names, read := ms } ∧ ∀ name ∈ names, ∃ m ∈ ms, m.name = name)
    (Cleans.bind (cleans_readAllManifests v) fun ms v₁ h => ?_) fun referenced v₁ h => ?_
  · obtain ⟨names, rfl, hcover⟩ := h
    exact Cleans.pure ⟨names, ms, rfl, rfl, hcover⟩
  obtain ⟨names, ms, rfl, rfl, hcover⟩ := h
  refine Cleans.bind (cleans_graceCutoff gracePeriodHours _) fun cutoff v₂ h₂ => ?_
  obtain ⟨now, rfl, rfl⟩ := h₂
  refine Cleans.bind (Cleans.aside (aside_ask .order trivial) _) fun order v₃ hv₃ => ?_
  subst hv₃
  refine Cleans.bind (follows_foldl (ScanInv (allTerms strict gracePeriodHours) names ms now) _ _ _
    (fun scan shard v' _ hI => cleans_scanShard hcover hI)
    ⟨rfl, rfl, rfl, by simp, by simp⟩) fun scan v₄ hI₄ => ?_
  refine Cleans.bind (cleans_consumePending hcover hI₄) fun scan v₅ hI₅ => ?_
  split
  · refine Cleans.bind (Cleans.aside aside_bailIfLockLost v₅) fun _ v₆ hv₆ => ?_
    subst hv₆
    exact Cleans.mono (cleans_deleteOrReportBatch hI₅.batch) fun _ _ _ => trivial
  · exact Cleans.pure trivial

end Chbk
