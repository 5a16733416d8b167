import Chbk.Safety.Catalog
import Chbk.Safety.Replicas

/-!
# What `rm-snapshot` and `gc-live` remove

Both commands in a bucket nobody else works on, with no call failing. What one
of them removes is a set of snapshots, so the order does not matter.

* `surely_gcSnapshot`, `surely_prune` — the command does what it is for, or says
  what it would do.
* `surely_removeEach` — snapshots removed one by one.
* `removal_exact` — all of it, over runs.
-/

namespace Chbk

open Lib Prog

variable {s : Session} {E : Prop}

-- ---------------------------------------------------------------------------
-- Deleting blobs
-- ---------------------------------------------------------------------------

/-- The objects under the keys are gone, and nothing else has happened. -/
structure Erased (keys : List String) (s s' : Session) : Prop where
  get? : ∀ key, s'.world.get? key = if key ∈ keys then none else s.world.get? key
  printed : s'.printed = s.printed

theorem Erased.nil (s : Session) : Erased [] s s := ⟨by simp, rfl⟩

theorem Erased.append {ks ks' : List String} {s s' s'' : Session} (h : Erased ks s s')
    (h' : Erased ks' s' s'') : Erased (ks ++ ks') s s'' := by
  refine ⟨fun key => ?_, h'.printed.trans h.printed⟩
  rw [h'.get?, h.get?]
  by_cases hk' : key ∈ ks'
  · simp [hk']
  · simp [hk']

theorem Erased.perm {ks ks' : List String} {s s' : Session} (h : Erased ks s s')
    (hperm : ks.Perm ks') : Erased ks' s s' := by
  refine ⟨fun key => ?_, h.printed⟩
  rw [h.get?]
  simp only [hperm.mem_iff]

theorem Erased.eraseAll (ks : List String) (s : Session) :
    Erased ks s ⟨s.world.eraseAll ks, s.printed⟩ := ⟨by simp, rfl⟩

theorem surely_deleteBatch (batch : List String) :
    Surely (deleteBatch batch) s (fun _ s' => Erased batch s s') E := by
  unfold deleteBatch
  split
  · rename_i hnil
    rw [hnil]
    exact Surely.pure (.nil s)
  -- the first attempt is served
  have honce : Surely (deleteBatchOnce batch) s
      (fun r s' => r = RetryResult.ok [] ∧ Erased batch s s') E := by
    refine Surely.bind (Surely.send (o := .deleteObjects batch)
      (Q := fun r s' => r = .ok [] ∧ Erased batch s s') ⟨rfl, .eraseAll batch s⟩) ?_
    rintro r s' ⟨rfl, herased⟩
    exact Surely.pure ⟨rfl, herased⟩
  have hretry : Surely (withRetry ⟨5, by decide⟩ fun _ => deleteBatchOnce batch) s
      (fun r s' => r = Except.ok [] ∧ Erased batch s s') E := by
    unfold withRetry withRetryFrom
    refine Surely.bind honce ?_
    rintro r s' ⟨rfl, herased⟩
    exact Surely.pure ⟨rfl, herased⟩
  refine Surely.bind hretry ?_
  rintro r s' ⟨rfl, herased⟩
  exact Surely.pure herased

theorem surely_deleteObjectsBulk (keys : List String) :
    Surely (deleteObjectsBulk keys) s (fun _ s' => Erased keys s s') E := by
  unfold deleteObjectsBulk
  split
  · rename_i hnil
    rw [hnil]
    exact Surely.pure (.nil s)
  refine Surely.bind (surely_order (Q := fun _ s' => s' = s) fun _ => rfl) ?_
  rintro order s₁ rfl
  refine Surely.bind (Surely.collect (fun pre _ s' => Erased pre.flatten s₁ s') ?_ (.nil s₁)) ?_
  · intro pre cs batch post s' _ hpre
    refine Surely.mono (surely_deleteBatch batch) ?_ fun h => h
    intro _ s'' hbatch
    rw [List.flatten_append, List.flatten_singleton]
    exact hpre.append hbatch
  · intro _ s' hall
    -- the batches hold the keys, in whatever order
    have hperm := (reorder_perm order (batchKeysByShard keys 1000)).flatten.trans
      (perm_batchKeysByShard keys (by decide))
    exact Surely.pure (hall.perm hperm)

/-- No key panics. -/
theorem surely_deleteExclusiveBlobs {hashes : List String}
    (hkeyed : ∀ hash ∈ hashes, (blobShard hash).isSome = true) :
    Surely (deleteExclusiveBlobs hashes) s
      (fun _ s' => Erased (hashes.map blobRemoteKey) s s') E := by
  rcases deleteExclusiveBlobs_cases hashes with ⟨-, heq⟩ | ⟨⟨hash, hmem, hnone⟩, -⟩
  · rw [heq]
    refine Surely.bind (surely_deleteObjectsBulk _) ?_
    intro _ s' herased
    exact Surely.pure herased
  · have hsome := hkeyed hash hmem
    rw [hnone] at hsome
    cases hsome

theorem surely_deleteManifest (name : String) :
    Surely (deleteManifest name) s (fun _ s' => Erased [manifestKey name] s s') E := by
  refine Surely.mapFail (Surely.mono (surely_deleteObject (manifestKey name)) ?_ fun h => h)
  rintro _ s' rfl
  exact ⟨by simp, rfl⟩

/-- The end of both commands. -/
theorem surely_deleteRest {hashes keys : List String} {s₀ : Session} (h : Erased keys s₀ s)
    (hkeyed : ∀ hash ∈ hashes, (blobShard hash).isSome = true) :
    Surely (do
        if hashes ≠ [] then
          bailIfLockLost
          deleteExclusiveBlobs hashes) s
      (fun _ s' => Erased (keys ++ hashes.map blobRemoteKey) s₀ s') E := by
  split
  · refine Surely.bind (surely_bailIfLockLost (Q := fun _ s' => s' = s) rfl) ?_
    rintro _ s' rfl
    exact Surely.mono (surely_deleteExclusiveBlobs hkeyed) (fun _ _ hblobs => h.append hblobs)
      fun h => h
  · rename_i hnil
    rw [Decidable.not_not.mp hnil, List.map_nil, List.append_nil]
    exact Surely.pure h

-- ---------------------------------------------------------------------------
-- Targets
-- ---------------------------------------------------------------------------

/-- The lists a command works with: the snapshots in `T`, and the blobs that only
they have. -/
structure Targets (w : World) (T : Set String) (names hashes : List String) : Prop where
  names : ∀ name, name ∈ names ↔ name ∈ T
  hashes : ∀ hash, hash ∈ hashes ↔ hash ∈ w.sharing.exclusive T

theorem Targets.perm {w : World} {T : Set String} {names names' hashes : List String}
    (h : Targets w T names hashes) (hperm : names'.Perm names) : Targets w T names' hashes :=
  ⟨fun name => hperm.mem_iff.trans (h.names name), h.hashes⟩

/-- With its targets erased, a bucket is without the snapshots. -/
theorem Erased.removed {T : Set String} {names hashes : List String} {s s' : Session}
    (h : Erased (names.map manifestKey ++ hashes.map blobRemoteKey) s s')
    (htargets : Targets s.world T names hashes) : Removed T s.world s'.world := by
  have hkeys : ∀ key, key ∈ names.map manifestKey ++ hashes.map blobRemoteKey ↔
      GoesWith s.world T key := by
    intro key
    unfold GoesWith
    rw [List.mem_append, List.mem_map, List.mem_map]
    simp only [htargets.names, htargets.hashes, eq_comm]
  constructor
  · intro key hkey
    rw [h.get?, if_pos ((hkeys key).mpr hkey)]
  · intro key _ hkey
    rw [h.get?, if_neg fun hmem => hkey ((hkeys key).mp hmem)]

theorem Erased.get?_lock {names hashes : List String} {s s' : Session}
    (h : Erased (names.map manifestKey ++ hashes.map blobRemoteKey) s s') :
    s'.world.get? LOCK_KEY = s.world.get? LOCK_KEY := by
  have hno : LOCK_KEY ∉ names.map manifestKey ++ hashes.map blobRemoteKey := by
    intro hmem
    rcases List.mem_append.mp hmem with hmem | hmem
    · obtain ⟨name, -, hkey⟩ := List.mem_map.mp hmem
      exact manifestKey_ne_lock name hkey
    · obtain ⟨hash, -, hkey⟩ := List.mem_map.mp hmem
      exact blobRemoteKey_ne_lock hash hkey
  rw [h.get?, if_neg hno]

/-- The report of a dry run: the targets, one a line. -/
structure Reported (text : String) (T : Set String) (s s' : Session) : Prop where
  same : SameButLock s.world s'.world
  lines : ∃ names hashes, Targets s.world T names hashes ∧
    s'.printed = s.printed ++ (names.map (text ++ ·) ++ hashes.map ("Would delete blob: " ++ ·))

/-- The snapshots are removed, or a dry run reports that they would be. -/
def Handled (dryRun : Bool) (text : String) (T : Set String) (s s' : Session) : Prop :=
  if dryRun then Reported text T s s' else Removed T s.world s'.world

theorem Handled.congr {dryRun : Bool} {text : String} {T : Set String} {s₁ s₂ s' : Session}
    (h : Handled dryRun text T s₁ s₂) (hs : SameButLock s.world s₁.world)
    (hp : s₁.printed = s.printed) (hs' : SameButLock s₂.world s'.world)
    (hp' : s'.printed = s₂.printed) : Handled dryRun text T s s' := by
  unfold Handled at h ⊢
  cases dryRun with
  | true =>
    rw [if_pos rfl] at h ⊢
    obtain ⟨names, hashes, htargets, hlines⟩ := h.lines
    refine ⟨hs.trans (h.same.trans hs'), names, hashes, ⟨htargets.names, ?_⟩, ?_⟩
    · rw [← hs.sharing]
      exact htargets.hashes
    · rw [hp', hlines, hp]
  | false => exact Removed.congr h hs.symm hs'

theorem sameButLock_erase_lock (w : World) : SameButLock w (w.erase LOCK_KEY) := by
  intro key hkey
  rw [World.get?_erase, if_neg hkey]

/-- The end of a dry run. -/
theorem surely_report {T : Set String} {names hashes : List String} (text : String)
    (htargets : Targets s.world T names hashes) :
    Surely (do
        printEach text names
        printEach "Would delete blob: " hashes
        pure ()) s
      (fun _ s' => Handled true text T s s' ∧ s'.world.get? LOCK_KEY = s.world.get? LOCK_KEY) E := by
  refine Surely.bind (surely_printEach text names) ?_
  rintro _ s₁ rfl
  refine Surely.bind (surely_printEach "Would delete blob: " hashes) ?_
  rintro _ s₂ rfl
  refine Surely.pure ⟨?_, rfl⟩
  exact ⟨.refl _, names, hashes, htargets, by rw [List.append_assoc]⟩

/-- The end of a removal. -/
theorem Erased.handled {T : Set String} {names hashes : List String} {s s' : Session}
    (text : String) (h : Erased (names.map manifestKey ++ hashes.map blobRemoteKey) s s')
    (htargets : Targets s.world T names hashes) :
    Handled false text T s s' ∧ s'.world.get? LOCK_KEY = s.world.get? LOCK_KEY :=
  ⟨h.removed htargets, h.get?_lock⟩

/-- Under the lock. Which snapshots are handled may depend on what is read. -/
theorem surely_withGcLock_handled {f : P Unit} {dryRun : Bool} {text : String}
    {C : World → Set String → Prop}
    (hC : ∀ w T, SameButLock s.world w → C w T → C s.world T)
    (hf : ∀ s₁, SameButLock s.world s₁.world →
      Surely f s₁ (fun _ s₂ => ∃ T, C s₁.world T ∧ Handled dryRun text T s₁ s₂ ∧
        s₂.world.get? LOCK_KEY = s₁.world.get? LOCK_KEY) False) :
    Surely (withGcLock f) s (fun _ s' => s'.world.get? LOCK_KEY = none ∧
      ∃ T, C s.world T ∧ Handled dryRun text T s s') (¬ LockFree s.world) := by
  refine Surely.mono (surely_withGcLock (R := fun s₂ => ∃ T, C s.world T ∧
    Handled dryRun text T s s₂) ?_) ?_ fun h => h
  · intro s₁ hsame hprinted
    refine Surely.mono (hf s₁ hsame) ?_ fun h => h
    rintro _ s₂ ⟨T, hT, hdone, hlock⟩
    exact ⟨⟨T, hC s₁.world T hsame hT, hdone.congr hsame hprinted (.refl _) rfl⟩, hlock⟩
  · rintro _ s' ⟨s₂, ⟨T, hT, hdone⟩, rfl⟩
    exact ⟨by simp, T, hT, hdone.congr (.refl _) rfl (sameButLock_erase_lock s₂.world) rfl⟩

-- ---------------------------------------------------------------------------
-- Hashes
-- ---------------------------------------------------------------------------

/-- What the names in `T` refer to, and no one else does. -/
theorem surely_exclusiveHashes {T : Set String} {target other : List String}
    (htarget : ∀ hash, hash ∈ target ↔ ∃ name ∈ T, (name, hash) ∈ s.world.sharing.refs)
    (hother : ∀ hash, hash ∈ other ↔ ∃ name, name ∉ T ∧ (name, hash) ∈ s.world.sharing.refs) :
    Surely (exclusiveHashes target other) s (fun hashes s' => s' = s ∧
      ∀ hash, hash ∈ hashes ↔ hash ∈ s.world.sharing.exclusive T) E := by
  refine Surely.bind (surely_order (Q := fun _ s' => s' = s) fun _ => rfl) ?_
  rintro order s' rfl
  refine Surely.pure ⟨rfl, fun hash => ?_⟩
  rw [mem_reorder, List.mem_filter, decide_eq_true_eq, htarget, hother]
  refine and_congr_right fun _ => ?_
  constructor
  · intro hno name href
    by_contra hname
    exact hno ⟨name, hname, href⟩
  · rintro hall ⟨name, hname, href⟩
    exact hname (hall name href)

theorem mem_unionHashes_iff {ms : List Manifest} {hash : String} :
    hash ∈ unionHashes ms ↔ ∃ m ∈ ms, hash ∈ blobHashSet m := by
  unfold blobHashSet
  simp only [mem_unionHashes, List.mem_dedup, List.mem_map]

/-- The hashes of some of the manifests read. -/
theorem mem_unionHashes_filter {w : World} {ms : List Manifest} (hread : ReadOf w ms)
    (p : String → Bool) {hash : String} : hash ∈ unionHashes (ms.filter fun m => p m.name) ↔
      ∃ name, p name = true ∧ (name, hash) ∈ w.sharing.refs := by
  rw [mem_unionHashes_iff]
  constructor
  · rintro ⟨m, hm, hhash⟩
    obtain ⟨hm, hp⟩ := List.mem_filter.mp hm
    obtain ⟨m₀, hm₀, heq⟩ := (hread.mem_iff m).mp hm
    rw [heq] at hhash
    exact ⟨m.name, hp, m₀, hm₀, hhash⟩
  · rintro ⟨name, hp, m₀, hm₀, hhash⟩
    have hm : { m₀ with name } ∈ ms := (hread.mem_iff _).mpr ⟨m₀, hm₀, rfl⟩
    exact ⟨_, List.mem_filter.mpr ⟨hm, hp⟩, hhash⟩

theorem surely_collect_liftP (ms : List Manifest) :
    Surely (Prog.collect liftP (ms.map Except.ok)) s (fun ms' s' => ms' = ms ∧ s' = s) E := by
  induction ms with
  | nil => exact Surely.pure ⟨rfl, rfl⟩
  | cons m ms ih =>
    refine Surely.bind (R := fun m' s' => m' = m ∧ s' = s) ⟨rfl, rfl⟩ ?_
    rintro m' s' ⟨rfl, rfl⟩
    refine Surely.bind ih ?_
    rintro ms' s' ⟨rfl, rfl⟩
    exact Surely.pure ⟨rfl, rfl⟩

/-- The hashes of the named snapshots, which are there. -/
theorem surely_unionHashesForNames (hread : Readable s.world) {names : List String}
    (hnames : ∀ name ∈ names, s.world.Has (manifestKey name)) :
    Surely (unionHashesForNames names) s (fun hashes s' => s' = s ∧
      ∀ hash, hash ∈ hashes ↔ ∃ name ∈ names, (name, hash) ∈ s.world.sharing.refs) E := by
  refine Surely.bind (surely_order (Q := fun _ s' => s' = s) fun _ => rfl) ?_
  rintro order s₁ rfl
  refine Surely.bind (Surely.collect (fun pre rs s' => s' = s₁ ∧ ∃ ms : List Manifest,
    rs = ms.map Except.ok ∧ ∀ hash, hash ∈ unionHashes ms ↔
      ∃ name ∈ pre, (name, hash) ∈ s₁.world.sharing.refs) ?_ ⟨rfl, [], rfl, by simp [mem_unionHashes]⟩) ?_
  · rintro pre rs name post s' hsplit ⟨rfl, ms, rfl, hms⟩
    have hmem : name ∈ reorder order names := by
      rw [hsplit]
      simp
    obtain ⟨m, hm⟩ := hread.holds (hnames name (mem_reorder.mp hmem))
    refine Surely.mono (surely_readManifest hm).attempt ?_ fun h => h
    rintro r s'' ⟨m', rfl, rfl, rfl⟩
    refine ⟨rfl, ms ++ [{ m with name }], by simp, fun hash => ?_⟩
    -- the manifest under the name is this one
    have hone : hash ∈ blobHashSet m ↔ (name, hash) ∈ s''.world.sharing.refs := by
      constructor
      · intro hhash
        exact ⟨m, hm, hhash⟩
      · rintro ⟨m', hm', hhash⟩
        rw [hm.unique hm']
        exact hhash
    simp only [mem_unionHashes_iff] at hms ⊢
    simp only [List.mem_append, List.mem_singleton, or_and_right, exists_or, exists_eq_left]
    exact or_congr (hms hash) hone
  · rintro rs s' ⟨rfl, ms, rfl, hms⟩
    refine Surely.bind (surely_collect_liftP ms) ?_
    rintro ms' s'' ⟨rfl, rfl⟩
    refine Surely.pure ⟨rfl, fun hash => ?_⟩
    rw [hms]
    simp only [mem_reorder]

-- ---------------------------------------------------------------------------
-- The commands
-- ---------------------------------------------------------------------------

/-- `rm-snapshot` of a snapshot that is there. It fails only where another
instance holds the lock. -/
theorem surely_gcSnapshot (hread : Readable s.world) {name : String}
    (hhas : s.world.Has (manifestKey name)) {dryRun : Bool}
    (hkeyed : dryRun = false → Keyed s.world) :
    Surely (gcSnapshot name dryRun) s (fun _ s' => s'.world.get? LOCK_KEY = none ∧
      Handled dryRun "Would delete manifest: " {name} s s') (¬ LockFree s.world) := by
  suffices hlocked : Surely (gcSnapshot name dryRun) s (fun _ s' => s'.world.get? LOCK_KEY = none ∧
      ∃ T, T = {name} ∧ Handled dryRun "Would delete manifest: " T s s') (¬ LockFree s.world) by
    refine Surely.mono hlocked ?_ fun h => h
    rintro _ s' ⟨hlock, T, rfl, hdone⟩
    exact ⟨hlock, hdone⟩
  refine surely_withGcLock_handled (C := fun _ T => T = {name}) (fun _ _ _ hT => hT)
    fun s₁ hsame => ?_
  have hread₁ := hsame.readable hread
  obtain ⟨m, hm⟩ := hread₁.holds ((hsame.has (manifestKey_ne_lock name)).mpr hhas)
  refine Surely.bind (Surely.mapFail (surely_readManifest hm)) ?_
  rintro target s₂ ⟨rfl, rfl⟩
  refine Surely.bind surely_listManifestNames ?_
  rintro allNames s₃ ⟨rfl, -, hnames⟩
  refine Surely.bind (surely_unionHashesForNames hread₁ fun n hn =>
    (hnames n).mp (List.mem_filter.mp hn).1) ?_
  rintro other s₄ ⟨rfl, hother⟩
  refine Surely.bind (surely_exclusiveHashes (T := {name}) ?_ ?_) ?_
  · intro hash
    constructor
    · intro hhash
      exact ⟨name, rfl, m, hm, hhash⟩
    · rintro ⟨n, rfl, m', hm', hhash⟩
      rw [hm.unique hm']
      exact hhash
  · intro hash
    rw [hother]
    constructor
    · rintro ⟨n, hn, href⟩
      exact ⟨n, of_decide_eq_true (List.mem_filter.mp hn).2, href⟩
    · rintro ⟨n, hn, m', hm', hhash⟩
      exact ⟨n, List.mem_filter.mpr ⟨(hnames n).mpr hm'.has, decide_eq_true hn⟩, m', hm', hhash⟩
  rintro exclusive s₅ ⟨rfl, hexclusive⟩
  have htargets : Targets s₅.world {name} [name] exclusive := ⟨by simp, hexclusive⟩
  cases dryRun with
  | true =>
    refine Surely.mono (surely_report "Would delete manifest: " htargets) ?_ fun h => h
    rintro _ s' ⟨hdone, hlock⟩
    exact ⟨_, rfl, hdone, hlock⟩
  | false =>
    refine Surely.bind (surely_bailIfLockLost (Q := fun _ s' => s' = s₅) rfl) ?_
    rintro _ s₆ rfl
    refine Surely.bind (surely_deleteManifest name) ?_
    intro _ s₇ herased
    refine Surely.mono (@surely_deleteRest _ _ exclusive _ _ herased
      ((hsame.keyed (hkeyed rfl)).of_exclusive hexclusive)) ?_ fun h => h
    intro _ s' hrest
    obtain ⟨hdone, hlock⟩ := @Erased.handled _ [name] _ _ _ "Would delete manifest: " hrest htargets
    exact ⟨_, rfl, hdone, hlock⟩

theorem surely_pruneManifest (name : String) :
    Surely (pruneManifest name) s (fun _ s' => Erased [manifestKey name] s s') E := by
  refine Surely.bind (surely_bailIfLockLost (Q := fun _ s' => s' = s) rfl) ?_
  rintro _ s₁ rfl
  refine Surely.bind (surely_deleteManifest name).attempt ?_
  rintro r s₂ ⟨u, rfl, herased⟩
  exact Surely.pure herased

theorem surely_pruneManifests (names : List String) : Surely (Prog.collect pruneManifest names) s
    (fun _ s' => Erased (names.map manifestKey) s s') E := by
  refine Surely.collect (fun pre _ s' => Erased (pre.map manifestKey) s s') ?_ (.nil s)
  intro pre cs name post s' _ hpre
  refine Surely.mono (surely_pruneManifest name) ?_ fun h => h
  intro _ s'' hname
  rw [List.map_append]
  exact hpre.append hname

/-- The prune set of the snapshots in a bucket, for an order in which they are
read. -/
def PruneSetOf (all : UInt64) (daily : Option UInt64) (now : Int) (w : World) (T : Set String) :
    Prop :=
  ∃ ms, ReadOf w ms ∧ T = {name | name ∈ computePruneSet (liveByName ms) all daily now}

theorem SameButLock.readOf {w w' : World} (h : SameButLock w w') {ms : List Manifest}
    (hread : ReadOf w' ms) : ReadOf w ms := by
  refine ⟨hread.nodup, fun m => ?_⟩
  rw [hread.mem_iff]
  simp only [h.holds]

/-- `gc-live`. It fails only where another instance holds the lock. -/
theorem surely_prune (hread : Readable s.world) (all : UInt64) (daily : Option UInt64) (now : Int)
    {dryRun : Bool} (hkeyed : dryRun = false → Keyed s.world) :
    Surely (pruneOldLiveSnapshots all daily now dryRun) s
      (fun _ s' => s'.world.get? LOCK_KEY = none ∧ ∃ T, PruneSetOf all daily now s.world T ∧
        Handled dryRun "Would prune snapshot: " T s s') (¬ LockFree s.world) := by
  refine surely_withGcLock_handled (C := PruneSetOf all daily now) ?_ fun s₁ hsame => ?_
  · rintro w T hw ⟨ms, hms, hT⟩
    exact ⟨ms, hw.readOf hms, hT⟩
  refine Surely.bind (surely_readAllManifests (hsame.readable hread)) ?_
  rintro ms s₂ ⟨rfl, hms⟩
  dsimp only
  generalize hprune : computePruneSet (liveByName ms) all daily now = toPrune
  have hset : PruneSetOf all daily now s₂.world {name | name ∈ toPrune} := ⟨ms, hms, by rw [hprune]⟩
  split
  · rename_i hnil
    -- nothing to do
    refine Surely.pure ⟨_, hset, ?_, rfl⟩
    have htargets : Targets s₂.world {name | name ∈ toPrune} [] [] := by
      rw [hnil]
      refine ⟨by simp, fun hash => ⟨by simp, ?_⟩⟩
      rintro ⟨⟨n, hn, -⟩, -⟩
      simp at hn
    unfold Handled
    split
    · exact ⟨.refl _, [], [], htargets, by simp⟩
    · exact @Erased.removed _ [] [] _ _ (Erased.nil s₂) htargets
  refine Surely.bind (surely_exclusiveHashes (T := {name | name ∈ toPrune})
    (fun hash => ?_) fun hash => ?_) ?_
  · rw [mem_unionHashes_filter hms fun name => decide (name ∈ toPrune)]
    simp only [decide_eq_true_eq, Set.mem_ofPred_eq]
  · rw [mem_unionHashes_filter hms fun name => decide (name ∉ toPrune)]
    simp only [decide_eq_true_eq, Set.mem_ofPred_eq]
  rintro exclusive s₃ ⟨rfl, hexclusive⟩
  refine Surely.bind (surely_order (Q := fun _ s' => s' = s₃) fun _ => rfl) ?_
  rintro order s₄ rfl
  have htargets : Targets s₄.world {name | name ∈ toPrune} (reorder order toPrune) exclusive :=
    ⟨fun name => mem_reorder, hexclusive⟩
  cases dryRun with
  | true =>
    refine Surely.mono (surely_report "Would prune snapshot: " htargets) ?_ fun h => h
    rintro _ s' ⟨hdone, hlock⟩
    exact ⟨_, hset, hdone, hlock⟩
  | false =>
    refine Surely.bind (surely_pruneManifests (reorder order toPrune)) ?_
    intro _ s₅ herased
    refine Surely.mono (@surely_deleteRest _ _ exclusive _ _ herased
      ((hsame.keyed (hkeyed rfl)).of_exclusive hexclusive)) ?_ fun h => h
    intro _ s' hrest
    obtain ⟨hdone, hlock⟩ := Erased.handled "Would prune snapshot: " hrest htargets
    exact ⟨_, hset, hdone, hlock⟩

/-- `rm-snapshot` of some snapshots, one by one. -/
def removeEach (names : List String) : P Unit := do
  let _ ← Prog.collect (fun name => gcSnapshot name false) names
  return ()

theorem LockFree.of_none {w : World} (h : w.get? LOCK_KEY = none) : LockFree w := by
  intro o info ho
  rw [h] at ho
  cases ho

theorem surely_removeEach (hread : Readable s.world) (hfree : LockFree s.world)
    (hkeyed : Keyed s.world) {names : List String} (hnodup : names.Nodup)
    (hnames : ∀ name ∈ names, s.world.Has (manifestKey name)) :
    Surely (removeEach names) s
      (fun _ s' => Removed {name | name ∈ names} s.world s'.world) E := by
  refine Surely.bind (Surely.collect (fun pre _ s' => LockFree s'.world ∧
    Removed {name | name ∈ pre} s.world s'.world) ?_ ⟨hfree, ?_⟩) ?_
  · rintro pre cs name post s' hsplit ⟨hfree', hpre⟩
    rw [hsplit] at hnodup hnames
    -- it is still there
    have hnew : name ∉ pre := by
      intro hmem
      have hdisjoint := List.disjoint_of_nodup_append hnodup
      exact hdisjoint hmem (List.mem_cons_self ..)
    have hhas : s'.world.Has (manifestKey name) := by
      rw [hpre.has_iff (manifestKey_ne_lock name), goesWith_manifestKey]
      exact ⟨hnames name (by simp), hnew⟩
    refine Surely.mono (surely_gcSnapshot (hpre.readable hread) hhas
      fun _ => hpre.keyed hkeyed) ?_
      fun hheld => absurd hfree' hheld
    rintro _ s'' ⟨hlock, hdone⟩
    refine ⟨.of_none hlock, ?_⟩
    have hunion : {n | n ∈ pre ++ [name]} = {n | n ∈ pre} ∪ {name} := by
      ext n
      exact List.mem_append.trans (or_congr Iff.rfl List.mem_singleton)
    rw [hunion]
    exact hpre.union hdone
  · have hnone : {name : String | name ∈ ([] : List String)} = ∅ := by
      ext n
      simp
    rw [hnone]
    exact .empty s.world
  · rintro _ s' ⟨-, hdone⟩
    exact Surely.pure hdone

-- ---------------------------------------------------------------------------
-- Prune sets
-- ---------------------------------------------------------------------------

/-- Prune sets are of snapshots that are there. -/
theorem PruneSetOf.has {all : UInt64} {daily : Option UInt64} {now : Int} {w : World}
    {T : Set String} (h : PruneSetOf all daily now w T) {name : String} (hname : name ∈ T) :
    w.Has (manifestKey name) := by
  obtain ⟨ms, hms, rfl⟩ := h
  have htiers := computePruneSet_tiered (nodup_liveByName hms.nodup) all daily now
  obtain ⟨x, hx, rfl, -⟩ := htiers.old name hname
  obtain ⟨m, hm, -, rfl⟩ := mem_liveByName.mp hx
  obtain ⟨m₀, hm₀, -⟩ := (hms.mem_iff m).mp hm
  exact hm₀.has

theorem pairwise_liveByName (ms : List Manifest) :
    (liveByName ms).Pairwise fun x y => x.2 ≤ y.2 := by
  unfold liveByName
  exact List.pairwise_insertionSort _ _

/-- The automatic snapshots were made at different times. -/
def TimesApart (w : World) : Prop :=
  ∀ name m name' m', w.Holds name m → w.Holds name' m' → startsWith name "live_" = true →
    startsWith name' "live_" = true → m.timestamp = m'.timestamp → name = name'

theorem TimesApart.liveByName_eq {w : World} (h : TimesApart w) {ms ms' : List Manifest}
    (hms : ReadOf w ms) (hms' : ReadOf w ms') : liveByName ms = liveByName ms' := by
  have hperm : ms.Perm ms' := by
    refine (List.perm_ext_iff_of_nodup hms.nodup.of_map hms'.nodup.of_map).mpr fun m => ?_
    rw [hms.mem_iff, hms'.mem_iff]
  have hlive : (liveByName ms).Perm (liveByName ms') :=
    (List.perm_insertionSort _ _).trans
      (((hperm.filter _).map _).trans (List.perm_insertionSort _ _).symm)
  refine @List.Perm.eq_of_pairwise _ (fun x y => x.2 ≤ y.2) _ _ ?_ ?_ ?_ hlive
  · -- equal times, equal names
    intro x y hx hy hle hge
    obtain ⟨m, hm, hml, rfl⟩ := mem_liveByName.mp hx
    obtain ⟨m', hm', hml', rfl⟩ := mem_liveByName.mp hy
    obtain ⟨m₀, hm₀, heq⟩ := (hms.mem_iff m).mp hm
    obtain ⟨m₁, hm₁, heq'⟩ := (hms'.mem_iff m').mp hm'
    have htime : m.timestamp = m'.timestamp := le_antisymm hle hge
    have htime₀ : m₀.timestamp = m₁.timestamp := by
      rw [heq, heq'] at htime
      exact htime
    rw [htime, h _ _ _ _ hm₀ hm₁ hml hml' htime₀]
  · exact pairwise_liveByName ms
  · exact pairwise_liveByName ms'

theorem PruneSetOf.unique {all : UInt64} {daily : Option UInt64} {now : Int} {w : World}
    (hw : TimesApart w) {T T' : Set String} (h : PruneSetOf all daily now w T)
    (h' : PruneSetOf all daily now w T') : T = T' := by
  obtain ⟨ms, hms, rfl⟩ := h
  obtain ⟨ms', hms', rfl⟩ := h'
  rw [hw.liveByName_eq hms hms']

-- ---------------------------------------------------------------------------
-- Runs
-- ---------------------------------------------------------------------------

/-- The command, run in `w` with no call failing, can end so. -/
def Ends (p : P Unit) (w : World) (s : Session) : Prop :=
  ∃ tr p', Proc.Trace Served Eq ⟨p, []⟩ ⟨w, []⟩ tr p' s ∧ p'.prog = .done ()

theorem Ends.of_surely {p : P Unit} {w : World} {Q : Unit → Session → Prop} (hend : Ends p w s)
    (h : Surely p ⟨w, []⟩ Q E) : Q () s := by
  obtain ⟨tr, p', hrun, hdone⟩ := hend
  exact hrun.returns h.ensures hdone

-- ---------------------------------------------------------------------------
-- Computed runs
-- ---------------------------------------------------------------------------

/-- Answer a call without failing; hash maps are walked and batches finish in the
given order. -/
def serve (order : List Nat) : (op : Op) → Session → Option (Resp op × Session)
  | .s3 o, s => some ((o.perform s.world).1, ⟨(o.perform s.world).2, s.printed⟩)
  | .env (.println line), s => some ((), { s with printed := s.printed ++ [line] })
  | .env .utcNow, s => some (s.world.now, s)
  | .env .order, s => some (order, s)
  | .env .lockLost, s => some (false, s)
  | .env o, s => (siteEnv o).map fun r => (r, s)

theorem served_of_serve {order : List Nat} (op : Op) (s : Session) (r : Resp op) (s' : Session)
    (h : serve order op s = some (r, s')) : Served op s r s' := by
  cases op with
  | s3 o =>
    obtain ⟨rfl, rfl⟩ := Prod.mk.inj (Option.some.inj h)
    exact ⟨rfl, rfl⟩
  | env o =>
    cases o with
    | println line =>
      obtain ⟨-, rfl⟩ := Prod.mk.inj (Option.some.inj h)
      rfl
    | utcNow =>
      obtain ⟨rfl, rfl⟩ := Prod.mk.inj (Option.some.inj h)
      exact ⟨rfl, rfl⟩
    | order =>
      obtain ⟨rfl, rfl⟩ := Prod.mk.inj (Option.some.inj h)
      exact ⟨trivial, rfl⟩
    | lockLost =>
      obtain ⟨rfl, rfl⟩ := Prod.mk.inj (Option.some.inj h)
      exact ⟨rfl, rfl⟩
    | _ =>
      simp only [serve, Option.map_eq_some_iff, Prod.mk.injEq] at h
      obtain ⟨r', -, -, rfl⟩ := h
      exact ⟨trivial, rfl⟩

/-- The session in which a program has returned, after so many calls at most. -/
def sessionAfter (order : List Nat) : Nat → Proc Op Resp AnyError Unit → Session → Option Session
  | _, ⟨.done (), _⟩, s => some s
  | fuel + 1, ⟨.call op k, hist⟩, s =>
    match serve order op s with
    | some (r, s') => sessionAfter order fuel ⟨k r, ⟨op, r⟩ :: hist⟩ s'
    | none => none
  | _, _, _ => none

theorem trace_of_sessionAfter {order : List Nat} {fuel : Nat} {p₀ p : Proc Op Resp AnyError Unit}
    {s₀ s s' : Session} {tr : List (Event Op Resp Session)}
    (h : Proc.Trace Served Eq p₀ s₀ tr p s) (hrun : sessionAfter order fuel p s = some s') :
    ∃ tr' p', Proc.Trace Served Eq p₀ s₀ tr' p' s' ∧ p'.prog = .done () := by
  induction fuel generalizing p s tr with
  | zero =>
    obtain ⟨prog, hist⟩ := p
    cases prog with
    | done a =>
      obtain rfl := Option.some.inj hrun
      exact ⟨tr, _, h, rfl⟩
    | fail e => cases hrun
    | call op k => cases hrun
  | succ fuel ih =>
    obtain ⟨prog, hist⟩ := p
    cases prog with
    | done a =>
      obtain rfl := Option.some.inj hrun
      exact ⟨tr, _, h, rfl⟩
    | fail e => cases hrun
    | call op k =>
      unfold sessionAfter at hrun
      split at hrun
      · rename_i r s₁ hserve
        exact ih (h.call (.call (served_of_serve op s r s₁ hserve)) rfl) hrun
      · cases hrun

theorem ends_of_sessionAfter {order : List Nat} {fuel : Nat} {p : P Unit} {w : World}
    (h : sessionAfter order fuel ⟨p, []⟩ ⟨w, []⟩ = some s) : Ends p w s :=
  trace_of_sessionAfter .start h

/-- The program panics, on computed answers and after so many calls at most. -/
def panicsAfter (order : List Nat) : Nat → P Unit → Session → Bool
  | _ + 1, .call (.env (.panic _)) _, _ => true
  | fuel + 1, .call op k, s =>
    match serve order op s with
    | some (r, s') => panicsAfter order fuel (k r) s'
    | none => false
  | _, _, _ => false

theorem Surely.not_panicsAfter {order : List Nat} {fuel : Nat} {p : P Unit}
    {Q : Unit → Session → Prop} (h : Surely p s Q E) : panicsAfter order fuel p s = false := by
  induction fuel generalizing p s with
  | zero => rfl
  | succ fuel ih =>
    unfold panicsAfter
    split
    · rename_i heq
      obtain rfl := Nat.succ.inj heq
      obtain ⟨⟨r, -⟩, -⟩ := h
      exact r.elim
    · rename_i heq
      obtain rfl := Nat.succ.inj heq
      split
      · rename_i r s' hserve
        exact ih (h.2 r s' (served_of_serve _ _ r s' hserve))
      · rfl
    · rfl

-- ---------------------------------------------------------------------------
-- Exactness and order
-- ---------------------------------------------------------------------------

/-- In a bucket where each snapshot can be read and no other instance holds the
lock, with no call failing: `rm-snapshot` and `gc-live` remove their targets and
what only these had, or report them; what no snapshot had stays so, and the
others' references lead where they led; and the order does not matter. To remove
blobs their keys must be computable. -/
theorem removal_exact (w : World) (hread : Readable w) (hfree : LockFree w) :
    (∀ name dryRun, (dryRun = false → Keyed w) → w.Has (manifestKey name) →
      Surely (gcSnapshot name dryRun) ⟨w, []⟩
        (fun _ s => Handled dryRun "Would delete manifest: " {name} ⟨w, []⟩ s) False) ∧
    (∀ all daily now dryRun, (dryRun = false → Keyed w) →
      Surely (pruneOldLiveSnapshots all daily now dryRun) ⟨w, []⟩
        (fun _ s => ∃ T, PruneSetOf all daily now w T ∧
          Handled dryRun "Would prune snapshot: " T ⟨w, []⟩ s) False) ∧
    (TimesApart w → ∀ all daily now T T', PruneSetOf all daily now w T →
      PruneSetOf all daily now w T' → T = T') ∧
    (∀ T w', Removed T w w' → w'.sharing = w.sharing.remove T ∧
      w'.sharing.orphans = w.sharing.orphans ∧
      w'.sharing.dangling = {x ∈ w.sharing.dangling | x.1 ∉ T}) ∧
    (Keyed w → ∀ names, names.Nodup → (∀ name ∈ names, w.Has (manifestKey name)) →
      Surely (removeEach names) ⟨w, []⟩
        (fun _ s => Removed {name | name ∈ names} w s.world) False ∧
      ∀ names', names.Perm names' → ∀ s s', Ends (removeEach names) w s →
        Ends (removeEach names') w s' → SameButLock s.world s'.world) ∧
    (Keyed w → ∀ all daily now s, Ends (pruneOldLiveSnapshots all daily now false) w s →
      ∃ T, PruneSetOf all daily now w T ∧ Removed T w s.world ∧
        ∀ names, names.Nodup → (∀ name, name ∈ names ↔ name ∈ T) →
          ∀ s', Ends (removeEach names) w s' → SameButLock s.world s'.world) := by
  have hnever : ∀ {P : Prop}, ¬ LockFree w → P := fun h => absurd hfree h
  have heach : Keyed w → ∀ names, names.Nodup → (∀ name ∈ names, w.Has (manifestKey name)) →
      Surely (removeEach names) ⟨w, []⟩
        (fun _ s => Removed {name | name ∈ names} w s.world) False :=
    fun hkeyed names hnodup hnames => surely_removeEach hread hfree hkeyed hnodup hnames
  refine ⟨?_, ?_, ?_, ?_, ?_, ?_⟩
  · intro name dryRun hkeyed hhas
    exact Surely.mono (surely_gcSnapshot (s := ⟨w, []⟩) hread hhas hkeyed) (fun _ _ h => h.2) hnever
  · intro all daily now dryRun hkeyed
    exact Surely.mono (surely_prune (s := ⟨w, []⟩) hread all daily now hkeyed) (fun _ _ h => h.2)
      hnever
  · intro hapart all daily now T T' hT hT'
    exact hT.unique hapart hT'
  · intro T w' h
    rw [h.sharing, Sharing.orphans_remove, Sharing.dangling_remove]
    exact ⟨rfl, rfl, rfl⟩
  · intro hkeyed names hnodup hnames
    refine ⟨heach hkeyed names hnodup hnames, ?_⟩
    intro names' hperm s s' hend hend'
    have hset : {name | name ∈ names'} = {name | name ∈ names} := by
      ext name
      exact hperm.mem_iff.symm
    have hdone' := hend'.of_surely (heach hkeyed names' (hperm.nodup_iff.mp hnodup)
      fun name hname => hnames name (hperm.mem_iff.mpr hname))
    rw [hset] at hdone'
    exact (hend.of_surely (heach hkeyed names hnodup hnames)).unique hdone'
  · intro hkeyed all daily now s hend
    obtain ⟨-, T, hT, hdone⟩ :=
      hend.of_surely (surely_prune (s := ⟨w, []⟩) hread all daily now fun _ => hkeyed)
    refine ⟨T, hT, hdone, ?_⟩
    intro names hnodup hnames s' hend'
    have hset : {name | name ∈ names} = T := by
      ext name
      exact hnames name
    have hdone' := hend'.of_surely (heach hkeyed names hnodup
      fun name hname => hT.has ((hnames name).mp hname))
    rw [hset] at hdone'
    exact Removed.unique hdone hdone'

/-- Three snapshots: `a` has a blob of its own and one that `b` has too, `b` and
`c` share another. One blob is an orphan. -/
def sharedBlobs : World where
  objects :=
    [(manifestKey "a", ⟨.manifest ⟨"a", 0, "s1", "r1", "h",
        [⟨"db", "t", "p1", "a1", 1⟩, ⟨"db", "t", "p2", "b2", 1⟩], []⟩, 0, 0⟩),
      (manifestKey "b", ⟨.manifest ⟨"b", 0, "s1", "r1", "h",
        [⟨"db", "t", "p2", "b2", 1⟩, ⟨"db", "t", "p3", "c3", 1⟩], []⟩, 1, 0⟩),
      (manifestKey "c", ⟨.manifest ⟨"c", 0, "s1", "r1", "h",
        [⟨"db", "t", "p3", "c3", 1⟩], []⟩, 2, 0⟩),
      (blobRemoteKey "a1", ⟨.data [1], 3, 0⟩), (blobRemoteKey "b2", ⟨.data [2], 4, 0⟩),
      (blobRemoteKey "c3", ⟨.data [3], 5, 0⟩), (blobRemoteKey "d4", ⟨.data [4], 6, 0⟩)]
  fresh := 7

/-- What is under a manifest's key in it. -/
theorem sharedBlobs_manifest {name : String} {o : Object}
    (h : sharedBlobs.get? (manifestKey name) = some o) :
    ∃ m, o.body = .manifest m ∧ ∀ p ∈ m.parts, (blobShard p.blobHash).isSome = true := by
  have hmem := mem_of_lookup h
  simp only [sharedBlobs, List.mem_cons, Prod.mk.injEq, List.not_mem_nil, or_false] at hmem
  rcases hmem with ⟨-, rfl⟩ | ⟨-, rfl⟩ | ⟨-, rfl⟩ | ⟨hkey, -⟩ | ⟨hkey, -⟩ | ⟨hkey, -⟩ | ⟨hkey, -⟩
  · exact ⟨_, rfl, by decide +kernel⟩
  · exact ⟨_, rfl, by decide +kernel⟩
  · exact ⟨_, rfl, by decide +kernel⟩
  all_goals exact absurd hkey (manifestKey_ne_blobRemoteKey _ _)

theorem sharedBlobs_readable : Readable sharedBlobs := by
  intro name o ho
  obtain ⟨m, hm, -⟩ := sharedBlobs_manifest ho
  exact ⟨m, hm⟩

theorem sharedBlobs_keyed : Keyed sharedBlobs := by
  rintro ⟨name, hash⟩ ⟨m, ⟨o, ho, hbody⟩, hhash⟩
  obtain ⟨m', hm', hkeyed⟩ := sharedBlobs_manifest ho
  obtain rfl : m' = m := Body.manifest.inj (hm'.symm.trans hbody)
  obtain ⟨p, hp, rfl⟩ := List.mem_map.mp (List.mem_dedup.mp hhash)
  exact hkeyed p hp

/-- The objects of `sharedBlobs` that are left. -/
def sharedLeft (w : World) : List String :=
  (["a", "b", "c"].map manifestKey ++ ["a1", "b2", "c3", "d4"].map blobRemoteKey).filter
    fun key => (w.get? key).isSome

/-- `a` and `b` are removed, in both orders. -/
theorem removal_exact_sharedBlobs : ∃ s s', Ends (removeEach ["a", "b"]) sharedBlobs s ∧
    Ends (removeEach ["b", "a"]) sharedBlobs s' ∧
    sharedLeft s.world = [manifestKey "c", blobRemoteKey "c3", blobRemoteKey "d4"] ∧
    Removed {name | name ∈ ["a", "b"]} sharedBlobs s.world ∧ SameButLock s.world s'.world := by
  obtain ⟨s, hs, hleft⟩ := Option.map_eq_some_iff.mp (show
    (sessionAfter [] 80 ⟨removeEach ["a", "b"], []⟩ ⟨sharedBlobs, []⟩).map
      (fun s => sharedLeft s.world) =
        some [manifestKey "c", blobRemoteKey "c3", blobRemoteKey "d4"] by decide +kernel)
  obtain ⟨s', hs'⟩ := Option.isSome_iff_exists.mp (show
    (sessionAfter [1] 80 ⟨removeEach ["b", "a"], []⟩ ⟨sharedBlobs, []⟩).isSome = true by
      decide +kernel)
  have hend := ends_of_sessionAfter hs
  have hend' := ends_of_sessionAfter hs'
  have hhas : ∀ name ∈ ["a", "b"], sharedBlobs.Has (manifestKey name) := by
    intro name hname
    refine Option.isSome_iff_exists.mp ?_
    have hall : ∀ name ∈ ["a", "b"], (sharedBlobs.get? (manifestKey name)).isSome = true := by
      decide +kernel
    exact hall name hname
  have hexact := removal_exact sharedBlobs sharedBlobs_readable (.of_none (by decide +kernel))
  obtain ⟨hdone, horder⟩ :=
    hexact.2.2.2.2.1 sharedBlobs_keyed ["a", "b"] (by decide) hhas
  exact ⟨s, s', hend, hend', hleft, hend.of_surely hdone,
    horder ["b", "a"] (List.Perm.swap ..) s s' hend hend'⟩

/-- A snapshot with a hash that has no key. -/
def unkeyedSnapshot : World where
  objects :=
    [(manifestKey "a", ⟨.manifest ⟨"a", 0, "s1", "r1", "h", [⟨"db", "t", "p", "aé", 1⟩], []⟩, 0, 0⟩)]
  fresh := 1

theorem unkeyedSnapshot_readable : Readable unkeyedSnapshot := by
  intro name o ho
  have hmem := mem_of_lookup ho
  simp only [unkeyedSnapshot, List.mem_singleton, Prod.mk.injEq] at hmem
  rw [hmem.2]
  exact ⟨_, rfl⟩

/-- One snapshot, whose blob is missing. -/
def danglingSnapshot : World where
  objects :=
    [(manifestKey "a", ⟨.manifest ⟨"a", 0, "s1", "r1", "h", [⟨"db", "t", "p", siteHash, 1⟩], []⟩, 0, 0⟩)]
  fresh := 1

theorem danglingSnapshot_readable : Readable danglingSnapshot := by
  intro name o ho
  have hmem := mem_of_lookup ho
  simp only [danglingSnapshot, List.mem_singleton, Prod.mk.injEq] at hmem
  rw [hmem.2]
  exact ⟨_, rfl⟩

theorem danglingSnapshot_lockFree : LockFree danglingSnapshot := .of_none (by decide +kernel)

/-- Two automatic snapshots of one time. -/
def sameTime : World where
  objects :=
    [(manifestKey "live_a", ⟨.manifest ⟨"live_a", 100, "s1", "r1", "h", [], []⟩, 0, 100⟩),
      (manifestKey "live_b", ⟨.manifest ⟨"live_b", 100, "s1", "r1", "h", [], []⟩, 1, 100⟩)]
  fresh := 2
  now := 200000

theorem sameTime_readable : Readable sameTime := by
  intro name o ho
  have hmem := mem_of_lookup ho
  simp only [sameTime, List.mem_cons, Prod.mk.injEq, List.not_mem_nil, or_false] at hmem
  rcases hmem with ⟨-, rfl⟩ | ⟨-, rfl⟩
  · exact ⟨_, rfl⟩
  · exact ⟨_, rfl⟩

/-- The references that lead nowhere do not stay the same: those of the removed
snapshot go. Of two snapshots of one time a dry run may report the one and a
removal take the other. And a hash may have no key. -/
theorem removal_not_exact :
    (¬ ∀ w, Readable w → LockFree w → ∀ name, w.Has (manifestKey name) →
      ∀ s, Ends (gcSnapshot name false) w s → s.world.sharing.dangling = w.sharing.dangling) ∧
    (¬ ∀ w, Readable w → LockFree w → ∀ all daily now s s',
      Ends (pruneOldLiveSnapshots all daily now true) w s →
      Ends (pruneOldLiveSnapshots all daily now false) w s' →
      ∀ name, "Would prune snapshot: " ++ name ∈ s.printed →
        ¬ s'.world.Has (manifestKey name)) ∧
    ¬ ∀ w, Readable w → LockFree w → ∀ name, w.Has (manifestKey name) →
      Surely (gcSnapshot name false) ⟨w, []⟩ (fun _ _ => True) False := by
  refine ⟨?_, ?_, ?_⟩
  · intro hall
    have hget : danglingSnapshot.get? (manifestKey "a") = some ⟨.manifest
        ⟨"a", 0, "s1", "r1", "h", [⟨"db", "t", "p", siteHash, 1⟩], []⟩, 0, 0⟩ := by
      decide +kernel
    obtain ⟨s, hs, hgone⟩ := Option.map_eq_some_iff.mp (show
      (sessionAfter [] 40 ⟨gcSnapshot "a" false, []⟩ ⟨danglingSnapshot, []⟩).map
        (fun s => s.world.get? (manifestKey "a")) = some none by decide +kernel)
    have hsame := hall danglingSnapshot danglingSnapshot_readable danglingSnapshot_lockFree "a"
      ⟨_, hget⟩ s (ends_of_sessionAfter hs)
    have hmem : ("a", siteHash) ∈ danglingSnapshot.sharing.dangling := by
      refine ⟨⟨_, ⟨_, hget, rfl⟩, by decide +kernel⟩, ?_⟩
      rintro ⟨o, ho⟩
      have hnone : danglingSnapshot.get? (blobRemoteKey siteHash) = none := by decide +kernel
      rw [hnone] at ho
      cases ho
    rw [← hsame] at hmem
    obtain ⟨⟨m, ⟨o, ho, -⟩, -⟩, -⟩ := hmem
    rw [hgone] at ho
    cases ho
  · intro hall
    -- the dry run reads the two in the one order, the removal in the other
    obtain ⟨s, hs, hline⟩ := Option.map_eq_some_iff.mp (show
      (sessionAfter [] 40 ⟨pruneOldLiveSnapshots 60 (some 14400) 200000 true, []⟩
        ⟨sameTime, []⟩).map Session.printed = some ["Would prune snapshot: live_b"] by
        decide +kernel)
    obtain ⟨s', hs', hkept⟩ := Option.map_eq_some_iff.mp (show
      (sessionAfter [1] 40 ⟨pruneOldLiveSnapshots 60 (some 14400) 200000 false, []⟩
        ⟨sameTime, []⟩).map (fun s => (s.world.get? (manifestKey "live_b")).isSome) = some true by
        decide +kernel)
    have hgone := hall sameTime sameTime_readable (.of_none (by decide +kernel)) 60 (some 14400)
      200000 s s' (ends_of_sessionAfter hs) (ends_of_sessionAfter hs') "live_b"
      (by rw [hline]; exact List.mem_singleton.mpr rfl)
    exact hgone (Option.isSome_iff_exists.mp hkept)
  · intro hall
    have hsurely := hall unkeyedSnapshot unkeyedSnapshot_readable (.of_none (by decide +kernel)) "a"
      (Option.isSome_iff_exists.mp (by decide +kernel))
    have hpanics : panicsAfter [] 40 (gcSnapshot "a" false) ⟨unkeyedSnapshot, []⟩ = true := by
      decide +kernel
    rw [hsurely.not_panicsAfter] at hpanics
    cases hpanics

end Chbk
