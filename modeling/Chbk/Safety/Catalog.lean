import Chbk.Lib.Sharing
import Chbk.Safety.Served

/-!
# The bucket as snapshots that share blobs

What the cleanup commands are about, in the terms of `Sharing`: the snapshots of
a bucket are owners, their blob hashes references, the blobs items.

* `Removed` — some snapshots are gone, with the blobs that only they had.
* `Removed.sharing` — then the bucket is what `Sharing.remove` makes of it.
* `Removed.union` — removing some and then others.
-/

namespace Chbk

open Lib Prog

-- ---------------------------------------------------------------------------
-- Snapshots and blobs
-- ---------------------------------------------------------------------------

/-- Every snapshot can be read. -/
def Readable (w : World) : Prop :=
  ∀ name o, w.get? (manifestKey name) = some o → ∃ m, o.body = .manifest m

theorem Readable.holds {w : World} (h : Readable w) {name : String}
    (hhas : w.Has (manifestKey name)) : ∃ m, w.Holds name m := by
  obtain ⟨o, ho⟩ := hhas
  obtain ⟨m, hm⟩ := h name o ho
  exact ⟨m, o, ho, hm⟩

theorem World.Holds.has {w : World} {name : String} {m : Manifest} (h : w.Holds name m) :
    w.Has (manifestKey name) := by
  obtain ⟨o, ho, -⟩ := h
  exact ⟨o, ho⟩

/-- The snapshots, their references, and the blobs. -/
def World.sharing (w : World) : Sharing String String where
  owners := {name | w.Has (manifestKey name)}
  refs := {x | ∃ m, w.Holds x.1 m ∧ x.2 ∈ blobHashSet m}
  items := {hash | w.Has (blobRemoteKey hash)}

/-- The object key of each blob that a snapshot refers to can be computed. -/
def Keyed (w : World) : Prop :=
  ∀ x ∈ w.sharing.refs, (blobShard x.2).isSome = true

theorem SameButLock.has {w w' : World} (h : SameButLock w w') {key : String}
    (hkey : key ≠ LOCK_KEY) : w'.Has key ↔ w.Has key := by
  unfold World.Has
  rw [h key hkey]

theorem SameButLock.sharing {w w' : World} (h : SameButLock w w') : w'.sharing = w.sharing := by
  ext x
  · exact h.has (manifestKey_ne_lock x)
  · show (∃ m, w'.Holds x.1 m ∧ x.2 ∈ blobHashSet m) ↔ ∃ m, w.Holds x.1 m ∧ x.2 ∈ blobHashSet m
    simp only [h.holds]
  · exact h.has (blobRemoteKey_ne_lock x)

theorem SameButLock.keyed {w w' : World} (h : SameButLock w w') (hkeyed : Keyed w) : Keyed w' := by
  unfold Keyed
  rw [h.sharing]
  exact hkeyed

theorem Keyed.of_exclusive {w : World} (h : Keyed w) {T : Set String} {hashes : List String}
    (hhashes : ∀ hash, hash ∈ hashes ↔ hash ∈ w.sharing.exclusive T) :
    ∀ hash ∈ hashes, (blobShard hash).isSome = true := by
  intro hash hmem
  obtain ⟨⟨name, -, href⟩, -⟩ := (hhashes hash).mp hmem
  exact h _ href

theorem SameButLock.readable {w w' : World} (h : SameButLock w w') (hread : Readable w) :
    Readable w' := by
  intro name o ho
  rw [h _ (manifestKey_ne_lock name)] at ho
  exact hread name o ho

-- ---------------------------------------------------------------------------
-- Removing snapshots
-- ---------------------------------------------------------------------------

/-- What goes with the snapshots in `T`: their manifests, and the blobs that only
they have. -/
def GoesWith (w : World) (T : Set String) (key : String) : Prop :=
  (∃ name ∈ T, key = manifestKey name) ∨ ∃ hash ∈ w.sharing.exclusive T, key = blobRemoteKey hash

/-- The snapshots in `T` are removed, and nothing else is. -/
structure Removed (T : Set String) (w w' : World) : Prop where
  gone : ∀ key, GoesWith w T key → w'.get? key = none
  kept : ∀ key, key ≠ LOCK_KEY → ¬ GoesWith w T key → w'.get? key = w.get? key

theorem goesWith_manifestKey {w : World} {T : Set String} {name : String} :
    GoesWith w T (manifestKey name) ↔ name ∈ T := by
  constructor
  · rintro (⟨n, hn, hkey⟩ | ⟨hash, -, hkey⟩)
    · rw [manifestKey_inj hkey]
      exact hn
    · exact absurd hkey (manifestKey_ne_blobRemoteKey name hash)
  · intro hn
    exact .inl ⟨name, hn, rfl⟩

theorem goesWith_blobRemoteKey {w : World} {T : Set String} {hash : String} :
    GoesWith w T (blobRemoteKey hash) ↔ hash ∈ w.sharing.exclusive T := by
  constructor
  · rintro (⟨n, -, hkey⟩ | ⟨h, hh, hkey⟩)
    · exact absurd hkey.symm (manifestKey_ne_blobRemoteKey n hash)
    · rw [blobRemoteKey_inj hkey]
      exact hh
  · intro hh
    exact .inr ⟨hash, hh, rfl⟩

theorem SameButLock.goesWith {w w' : World} (h : SameButLock w w') {T : Set String}
    {key : String} : GoesWith w' T key ↔ GoesWith w T key := by
  unfold GoesWith
  rw [h.sharing]

theorem GoesWith.ne_lock {w : World} {T : Set String} {key : String} (h : GoesWith w T key) :
    key ≠ LOCK_KEY := by
  rcases h with ⟨n, -, rfl⟩ | ⟨hash, -, rfl⟩
  · exact manifestKey_ne_lock n
  · exact blobRemoteKey_ne_lock hash

namespace Removed

variable {T T' : Set String} {w w' w'' : World}

theorem empty (w : World) : Removed ∅ w w where
  gone := by
    rintro key (⟨n, hn, -⟩ | ⟨hash, ⟨⟨n, hn, -⟩, -⟩, -⟩)
    · exact hn.elim
    · exact hn.elim
  kept := fun _ _ _ => rfl

/-- The lock does not count. -/
theorem congr {w₁ w₁' : World} (h : Removed T w w') (hw : SameButLock w w₁)
    (hw' : SameButLock w' w₁') : Removed T w₁ w₁' where
  gone := by
    intro key hkey
    have hgoes := hw.goesWith.mp hkey
    rw [hw' key hgoes.ne_lock]
    exact h.gone key hgoes
  kept := by
    intro key hlock hkey
    rw [hw' key hlock, hw key hlock]
    exact h.kept key hlock fun hgoes => hkey (hw.goesWith.mpr hgoes)

/-- What is removed fixes the bucket. -/
theorem unique (h : Removed T w w') (h' : Removed T w w'') : SameButLock w' w'' := by
  intro key hlock
  by_cases hkey : GoesWith w T key
  · rw [h.gone key hkey, h'.gone key hkey]
  · rw [h.kept key hlock hkey, h'.kept key hlock hkey]

theorem has_iff (h : Removed T w w') {key : String} (hlock : key ≠ LOCK_KEY) :
    w'.Has key ↔ w.Has key ∧ ¬ GoesWith w T key := by
  unfold World.Has
  by_cases hkey : GoesWith w T key
  · simp [h.gone key hkey, hkey]
  · simp [h.kept key hlock hkey, hkey]

theorem holds_iff (h : Removed T w w') {name : String} {m : Manifest} :
    w'.Holds name m ↔ w.Holds name m ∧ name ∉ T := by
  unfold World.Holds
  by_cases hname : name ∈ T
  · simp [h.gone _ (goesWith_manifestKey.mpr hname), hname]
  · have hkey : ¬ GoesWith w T (manifestKey name) := fun hg => hname (goesWith_manifestKey.mp hg)
    simp [h.kept _ (manifestKey_ne_lock name) hkey, hname]

/-- The bucket is what is left when the owners are removed. -/
theorem sharing (h : Removed T w w') : w'.sharing = w.sharing.remove T := by
  ext x
  · show w'.Has (manifestKey x) ↔ w.Has (manifestKey x) ∧ x ∉ T
    rw [h.has_iff (manifestKey_ne_lock x), goesWith_manifestKey]
  · show (∃ m, w'.Holds x.1 m ∧ x.2 ∈ blobHashSet m) ↔
      (∃ m, w.Holds x.1 m ∧ x.2 ∈ blobHashSet m) ∧ x.1 ∉ T
    simp only [h.holds_iff]
    constructor
    · rintro ⟨m, ⟨hm, hT⟩, hx⟩
      exact ⟨⟨m, hm, hx⟩, hT⟩
    · rintro ⟨⟨m, hm, hx⟩, hT⟩
      exact ⟨m, ⟨hm, hT⟩, hx⟩
  · show w'.Has (blobRemoteKey x) ↔ w.Has (blobRemoteKey x) ∧ x ∉ w.sharing.exclusive T
    rw [h.has_iff (blobRemoteKey_ne_lock x), goesWith_blobRemoteKey]

theorem readable (h : Removed T w w') (hread : Readable w) : Readable w' := by
  intro name o ho
  by_cases hkey : GoesWith w T (manifestKey name)
  · rw [h.gone _ hkey] at ho
    cases ho
  · rw [h.kept _ (manifestKey_ne_lock name) hkey] at ho
    exact hread name o ho

theorem keyed (h : Removed T w w') (hkeyed : Keyed w) : Keyed w' := by
  intro x hx
  rw [h.sharing] at hx
  exact hkeyed x hx.1

/-- Some are removed, and then others. -/
theorem union (h : Removed T w w') (h' : Removed T' w' w'') : Removed (T ∪ T') w w'' := by
  have hgoes : ∀ key, GoesWith w (T ∪ T') key ↔ GoesWith w T key ∨ GoesWith w' T' key := by
    intro key
    unfold GoesWith
    rw [w.sharing.exclusive_union, ← h.sharing]
    simp only [Set.mem_union, or_and_right, exists_or]
    exact or_or_or_comm
  constructor
  · intro key hkey
    by_cases hthen : GoesWith w' T' key
    · exact h'.gone key hthen
    · have hfirst := ((hgoes key).mp hkey).resolve_right hthen
      rw [h'.kept key hfirst.ne_lock hthen]
      exact h.gone key hfirst
  · intro key hlock hkey
    rw [hgoes, not_or] at hkey
    rw [h'.kept key hlock hkey.2, h.kept key hlock hkey.1]

end Removed

-- ---------------------------------------------------------------------------
-- What the commands read
-- ---------------------------------------------------------------------------

variable {s : Session} {E : Prop}

theorem surely_listManifestNames : Surely listManifestNames s (fun names s' => s' = s ∧
    names.Nodup ∧ ∀ n, n ∈ names ↔ s.world.Has (manifestKey n)) E := by
  refine Surely.bind (R := fun entries s' => entries = S3Op.listing s.world MANIFEST_PREFIX ∧ s' = s)
    (Surely.bind (R := fun r s' => r = .ok (S3Op.listing s.world MANIFEST_PREFIX) ∧ s' = s)
      (Surely.send ⟨rfl, rfl⟩) ?_) ?_
  · rintro r s' ⟨rfl, rfl⟩
    exact Surely.pure ⟨rfl, rfl⟩
  · rintro entries s' ⟨rfl, rfl⟩
    exact Surely.pure ⟨rfl, nodup_manifestNames _, fun n => mem_manifestNames⟩

theorem surely_readManifest {name : String} {m : Manifest} (h : s.world.Holds name m) :
    Surely (readManifest name) s (fun m' s' => m' = { m with name } ∧ s' = s) E := by
  obtain ⟨o, ho, hbody⟩ := h
  refine Surely.bind (Surely.mapFail (surely_getObject ho)) ?_
  rintro body s' ⟨rfl, rfl⟩
  rw [hbody]
  exact Surely.pure ⟨rfl, rfl⟩

/-- All the manifests are read. -/
theorem surely_readAllManifests (hread : Readable s.world) :
    Surely readAllManifests s (fun ms s' => s' = s ∧ ReadOf s.world ms) E := by
  refine Surely.bind surely_listManifestNames ?_
  rintro names s' ⟨rfl, hnodup, hnames⟩
  refine Surely.bind (surely_order (Q := fun _ s'' => s'' = s') fun _ => rfl) ?_
  rintro order s'' rfl
  have hperm := reorder_perm order names
  refine Surely.mono (Surely.collect (fun pre ms s' => s' = s'' ∧ ms.map Manifest.name = pre ∧
    ∀ m ∈ ms, ∃ m₀, s''.world.Holds m.name m₀ ∧ m = { m₀ with name := m.name }) ?_
    ⟨rfl, rfl, by simp⟩) ?_ fun h => h
  · rintro pre ms name post s' hsplit ⟨rfl, hpre, hms⟩
    have hmem : name ∈ reorder order names := by
      rw [hsplit]
      simp
    obtain ⟨m₀, hm₀⟩ := hread.holds ((hnames name).mp (mem_reorder.mp hmem))
    refine Surely.mono (surely_readManifest hm₀) ?_ fun h => h
    rintro m s₁ ⟨rfl, rfl⟩
    exact ⟨rfl, by simp [hpre], holdAs_concat hms hm₀⟩
  · rintro ms s' ⟨rfl, hpre, hms⟩
    refine ⟨rfl, readOf_of_names ?_ ?_ hms⟩
    · rw [hpre]
      exact hperm.nodup_iff.mpr hnodup
    · intro name hhas
      rw [hpre, hperm.mem_iff, hnames]
      exact hhas

end Chbk
