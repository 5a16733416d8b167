import Chbk.Safety.Reading
import Chbk.Safety.Retention
import Chbk.Safety.Schedule

/-!
# Daily retention and the replicas of a bucket

`gc-live` groups the snapshots of a day whatever shard and replica they are of.
So a day keeps one snapshot, not one for each replica.

* `prune_keeps_day` — along a run of `gc-live`, whatever calls fail, each day in
  the daily window that had an automatic snapshot has one.
* `prune_drops_replica` — two replicas with a snapshot each on one day; the run
  leaves that of one of them.
-/

namespace Chbk

open Lib Prog

-- ---------------------------------------------------------------------------
-- What `gc-live` removes
-- ---------------------------------------------------------------------------

/-- Calls that remove no manifests but these, and write none. -/
def Removes (names : List String) : Op → Prop
  | .env _ => True
  | .s3 (.deleteObject key) =>
    (∃ name ∈ names, key = manifestKey name) ∨ ∃ hash, key = blobRemoteKey hash
  | .s3 (.deleteObjects keys) => ∀ key ∈ keys, ∃ hash, key = blobRemoteKey hash
  | _ => False

theorem Removes.holds {names : List String} {op : Op} (h : Removes names op) {w w' : World}
    {r : Resp op} (hans : Answers op w r w') {name : String} (hname : name ∉ names) {m : Manifest}
    (hm : w.Holds name m) : w'.Holds name m := by
  obtain ⟨o, ho, hb⟩ := hm
  refine ⟨o, ?_, hb⟩
  cases op with
  | env e =>
    rw [hans.2]
    exact ho
  | s3 op =>
    cases (S3Answers.change hans).2 with
    | removes gone hsub hget =>
      have hno : manifestKey name ∉ gone := by
        intro hg
        have hdel := hsub _ hg
        cases op with
        | deleteObject key =>
          obtain rfl := List.mem_singleton.mp hdel
          rcases h with ⟨n, hn, hk⟩ | ⟨hash, hk⟩
          · exact hname (manifestKey_inj hk ▸ hn)
          · exact manifestKey_ne_blobRemoteKey name hash hk
        | deleteObjects keys =>
          obtain ⟨hash, hk⟩ := h _ hdel
          exact manifestKey_ne_blobRemoteKey name hash hk
        | _ => exact h.elim
      rw [hget, if_neg hno]
      exact ho
    | writes key body hw hget =>
      cases op with
      | putObject key' body' im inm => exact h.elim
      | completeMultipartUpload key' id parts => exact h.elim
      | _ => exact hw.elim

theorem removes_bailIfLockLost (names : List String) : Only (Removes names) bailIfLockLost :=
  aside_bailIfLockLost.mono fun op h => by
    match op, h with
    | .env _, _ => trivial

theorem removes_pruneManifest {names : List String} {name : String} (h : name ∈ names) :
    Only (Removes names) (pruneManifest name) := by
  refine Only.bind (removes_bailIfLockLost names) fun _ => ?_
  refine Only.bind (Only.attempt (Only.mapFail (Only.bind (only_ask ?_) fun r => only_orContext _ _)))
    fun _ => only_pure _
  exact .inl ⟨name, h, rfl⟩

theorem removes_deleteExclusiveBlobs (names hashes : List String) :
    Only (Removes names) (deleteExclusiveBlobs hashes) := by
  have hblob : ∀ key ∈ hashes.map blobRemoteKey, ∃ hash, key = blobRemoteKey hash := by
    intro key hkey
    obtain ⟨hash, -, rfl⟩ := List.mem_map.mp hkey
    exact ⟨hash, rfl⟩
  rcases deleteExclusiveBlobs_cases hashes with ⟨-, heq⟩ | ⟨-, msg, k, heq⟩
  swap
  · rw [heq]
    exact ⟨trivial, fun r => r.elim⟩
  rw [heq]
  refine Only.bind ((only_deleteObjectsBulk _).mono fun op hop => ?_) fun _ => only_pure _
  match op, hop with
  | .s3 (.deleteObject key), hop => exact .inr (hblob key hop)
  | .s3 (.deleteObjects keys), hop => exact fun key hk => hblob key (hop key hk)
  | .env .order, _ => trivial

-- ---------------------------------------------------------------------------
-- The days
-- ---------------------------------------------------------------------------

/-- Each day that had an automatic snapshot in `w`, not older than the cutoff,
has one in `w'`. A time out of the range of dates counts for the day of `now`. -/
def KeepsDays (now cutoff : Int) (w w' : World) : Prop :=
  ∀ name m, w.Holds name m → startsWith name "live_" = true → cutoff ≤ m.timestamp →
    ∃ name' m', w'.Holds name' m' ∧ startsWith name' "live_" = true ∧
      dayKey now m'.timestamp = dayKey now m.timestamp

theorem mem_liveByName {ms : List Manifest} {x : String × Int} :
    x ∈ liveByName ms ↔ ∃ m ∈ ms, startsWith m.name "live_" = true ∧ (m.name, m.timestamp) = x := by
  unfold liveByName
  rw [(List.perm_insertionSort _ _).mem_iff, List.mem_map]
  constructor
  · rintro ⟨m, hm, rfl⟩
    obtain ⟨hm, hlive⟩ := List.mem_filter.mp hm
    exact ⟨m, hm, hlive, rfl⟩
  · rintro ⟨m, hm, hlive, rfl⟩
    exact ⟨m, List.mem_filter.mpr ⟨hm, hlive⟩, rfl⟩

theorem nodup_liveByName {ms : List Manifest} (h : (ms.map Manifest.name).Nodup) :
    ((liveByName ms).map Prod.fst).Nodup := by
  unfold liveByName
  refine ((List.perm_insertionSort _ _).map Prod.fst).nodup_iff.mpr ?_
  rw [List.map_map]
  exact (List.filter_sublist.map Manifest.name).nodup h

/-- The manifests that are not in the prune set keep the days. -/
theorem keepsDays_of_kept {w w' : World} {ms : List Manifest} (hread : ReadOf w ms) (all d : UInt64)
    (now : Int) (hkept : ∀ name m, name ∉ computePruneSet (liveByName ms) all (some d) now →
      w.Holds name m → w'.Holds name m) : KeepsDays now (cutoffBefore now d) w w' := by
  intro name m hm hlive hts
  have htiers := computePruneSet_tiered (nodup_liveByName hread.nodup) all (some d) now
  have hmem : { m with name } ∈ ms := (hread.mem_iff _).mpr ⟨m, hm, rfl⟩
  have hx : (name, m.timestamp) ∈ liveByName ms := mem_liveByName.mpr ⟨_, hmem, hlive, rfl⟩
  rcases lt_or_ge m.timestamp (cutoffBefore now all) with hlt | hge
  · -- in the window: another one of its day is kept
    obtain ⟨y, hy, -, hday, hyk, -⟩ := htiers.oneADay _ rfl _ hx ⟨hts, hlt⟩
    obtain ⟨my, hmy, hylive, rfl⟩ := mem_liveByName.mp hy
    obtain ⟨m₀, hm₀, heq⟩ := (hread.mem_iff my).mp hmy
    have htime : m₀.timestamp = my.timestamp := by rw [heq]
    exact ⟨my.name, m₀, hkept my.name m₀ hyk hm₀, hylive, by rw [htime]; exact hday⟩
  · refine ⟨name, m, hkept name m ?_ hm, hlive, rfl⟩
    intro hn
    obtain ⟨y, hy, hname, hlt⟩ := htiers.old name hn
    have hyx := eq_of_name (nodup_liveByName hread.nodup) hy hx hname
    rw [hyx] at hlt
    omega

theorem KeepsDays.refl (now cutoff : Int) (w : World) : KeepsDays now cutoff w w :=
  fun name m hm hlive _ => ⟨name, m, hm, hlive, rfl⟩

theorem KeepsDays.congr {now cutoff : Int} {w w₁ w' w₁' : World}
    (h : KeepsDays now cutoff w w') (hw : SameButLock w w₁) (hw' : SameButLock w' w₁') :
    KeepsDays now cutoff w₁ w₁' := by
  intro name m hm hlive hts
  obtain ⟨name', m', hm', hlive', hday⟩ := h name m (hw.holds.mp hm) hlive hts
  exact ⟨name', m', hw'.holds.mpr hm', hlive', hday⟩

/-- A run of `gc-live` keeps the days at each of its calls and at its end,
whatever fails. -/
theorem ensures_keepsDays (all d : UInt64) (now : Int) (dryRun : Bool) (w : World) :
    Ensures Answers (KeepsDays now (cutoffBefore now d) w)
      (pruneOldLiveSnapshots all (some d) now dryRun) w
      (fun _ w' => KeepsDays now (cutoffBefore now d) w w')
      fun _ w' => KeepsDays now (cutoffBefore now d) w w' := by
  refine ensures_withGcLock (fun _ _ _ hans => hans.2) (I := SameButLock w)
    (R := fun _ w' => KeepsDays now (cutoffBefore now d) w w')
    (fun op w₁ r w₂ ho hI hans => hI.trans (ho.same hans))
    (fun _ op w₁ r w₂ ho hR hans => hR.congr (.refl w) (ho.same hans))
    (fun w₁ hI => (KeepsDays.refl now _ w).congr (.refl w) hI) (fun _ _ h => h)
    (fun _ w₁ hI => (KeepsDays.refl now _ w).congr (.refl w) hI) (fun _ h => h)
    (fun w₁ hw₁ => ?_) (SameButLock.refl w)
  have hstart : KeepsDays now (cutoffBefore now d) w w₁ :=
    (KeepsDays.refl now _ w).congr (.refl w) hw₁
  refine Ensures.bind (Ensures.mono (ensures_readAllManifests hstart) (fun _ h => h)
    (fun _ _ h => h) fun _ _ h => h ▸ hstart) ?_
  rintro ms w₂ ⟨rfl, hread⟩
  dsimp only
  split
  · exact Ensures.pure hstart
  refine Ensures.bind (Ensures.mono (Ensures.reads (Only.bind (reads_env .order)
    fun _ => only_pure _) hstart) (fun _ h => h) (fun _ _ h => h) fun _ _ h => h ▸ hstart) ?_
  rintro exclusive w₃ rfl
  refine Ensures.bind (Ensures.mono (Ensures.reads (reads_env .order) hstart) (fun _ h => h)
    (fun _ _ h => h) fun _ _ h => h ▸ hstart) ?_
  rintro order w₄ rfl
  split
  · have hprints : Only Reads (do
        printEach "Would prune snapshot: "
          (reorder order (computePruneSet (liveByName ms) all (some d) now))
        printEach "Would delete blob: " exclusive
        pure ()) :=
      (reads_printEach _ _).bind fun _ => (reads_printEach _ _).bind fun _ => only_pure _
    exact Ensures.mono (Ensures.reads hprints hstart) (fun _ h => h) (fun _ _ h => h ▸ hstart)
      fun _ _ h => h ▸ hstart
  -- from here on only members of the prune set, and blobs, are removed
  have hrest : Only (Removes (computePruneSet (liveByName ms) all (some d) now))
      (do
        let _ ← Prog.collect pruneManifest
          (reorder order (computePruneSet (liveByName ms) all (some d) now))
        if exclusive ≠ [] then
          bailIfLockLost
          deleteExclusiveBlobs exclusive) := by
    refine Only.bind (only_collect fun name hn => removes_pruneManifest (mem_reorder.mp hn))
      fun _ => ?_
    split
    · exact Only.bind (removes_bailIfLockLost _) fun _ => removes_deleteExclusiveBlobs _ _
    · exact only_pure _
  have hdays : ∀ w', (∀ name m, name ∉ computePruneSet (liveByName ms) all (some d) now →
      w₄.Holds name m → w'.Holds name m) → KeepsDays now (cutoffBefore now d) w w' :=
    fun w' h => (keepsDays_of_kept hread all d now h).congr hw₁.symm (.refl w')
  refine Ensures.mono (hrest.ensures
    (I := fun w' => ∀ name m, name ∉ computePruneSet (liveByName ms) all (some d) now →
      w₄.Holds name m → w'.Holds name m) ?_ fun _ _ _ hm => hm) hdays (fun _ => hdays) fun _ => hdays
  intro op w₅ r w₆ ho hI hans name m hn hm
  exact ho.holds hans hn (hI name m hn hm)

/-- `gc-live` alone, with any calls failing: at each point of a run, each UTC day
with an automatic snapshot at or after the daily cutoff has one. -/
theorem prune_keeps_day (all d : UInt64) (now : Int) (hfits : RetentionFits now d) (dryRun : Bool)
    (w : World) (tr : List (Event Op Resp World)) (p : Proc Op Resp AnyError Unit) (w' : World)
    (hrun : Proc.Trace Answers Eq ⟨pruneOldLiveSnapshots all (some d) now dryRun, []⟩ w tr p w') :
    KeepsDays now (now - 60 * (d.toNat : Int)) w w' := by
  rw [← cutoffBefore_eq hfits]
  exact hrun.meets (ensures_keepsDays all d now dryRun w) (fun _ _ h => h) fun _ _ h => h

-- ---------------------------------------------------------------------------
-- Two replicas
-- ---------------------------------------------------------------------------

/-- The same for each replica by itself. -/
def KeepsReplicaDays (cutoff : Int) (w w' : World) : Prop :=
  ∀ name m, w.Holds name m → startsWith name "live_" = true → cutoff ≤ m.timestamp →
    ∃ name' m', w'.Holds name' m' ∧ startsWith name' "live_" = true ∧ m'.shard = m.shard ∧
      m'.replica = m.replica ∧ utcDay m'.timestamp = utcDay m.timestamp

/-- A snapshot of each of two replicas, on the first day. -/
def twoReplicas : World where
  objects :=
    [(manifestKey "live_s1_r1_a", ⟨.manifest ⟨"live_s1_r1_a", 100, "s1", "r1", "h1", [], []⟩, 0, 100⟩),
      (manifestKey "live_s1_r2_b", ⟨.manifest ⟨"live_s1_r2_b", 200, "s1", "r2", "h2", [], []⟩, 1, 200⟩)]
  fresh := 2
  now := 200000

/-- The replicas the manifests in a bucket are of. -/
def replicasIn (w : World) : List String :=
  w.objects.filterMap fun x => match x.2.body with
    | .manifest m => some m.replica
    | _ => none

theorem mem_replicasIn {w : World} {name : String} {m : Manifest} (h : w.Holds name m) :
    m.replica ∈ replicasIn w := by
  obtain ⟨o, ho, hb⟩ := h
  refine List.mem_filterMap.mpr ⟨_, mem_of_lookup ho, ?_⟩
  rw [hb]

/-- A run of `gc-live` in it, with no call failing: an hour of all, ten days of
one a day. -/
theorem exists_twoReplicasRun : ∃ tr p w', Proc.Trace Answers Eq
    ⟨pruneOldLiveSnapshots 60 (some 14400) 200000 false, []⟩ twoReplicas tr p w' ∧
    replicasIn w' = ["r2"] := by
  have hend : (runAlone (List.replicate 23 served) []
      ⟨pruneOldLiveSnapshots 60 (some 14400) 200000 false, []⟩ twoReplicas).any
      (fun x => decide (replicasIn x.2.2 = ["r2"])) = true := by
    decide +kernel
  cases hrun : runAlone (List.replicate 23 served) []
      ⟨pruneOldLiveSnapshots 60 (some 14400) 200000 false, []⟩ twoReplicas with
  | none =>
    rw [hrun] at hend
    cases hend
  | some x =>
    rw [hrun] at hend
    exact ⟨x.1, x.2.1, x.2.2, trace_of_runAlone .start hrun, of_decide_eq_true hend⟩

theorem prune_keeps_day_twoReplicas : ∃ tr p w', Proc.Trace Answers Eq
    ⟨pruneOldLiveSnapshots 60 (some 14400) 200000 false, []⟩ twoReplicas tr p w' ∧
    replicasIn w' = ["r2"] ∧ KeepsDays 200000 (200000 - 60 * (14400 : UInt64).toNat) twoReplicas w' := by
  obtain ⟨tr, p, w', hrun, hend⟩ := exists_twoReplicasRun
  have hfits : RetentionFits 200000 14400 := by
    unfold RetentionFits
    decide
  exact ⟨tr, p, w', hrun, hend, prune_keeps_day 60 14400 200000 hfits false twoReplicas tr p w' hrun⟩

/-- One of the two loses its only snapshot of the day. -/
theorem prune_drops_replica : ¬ ∀ (all d : UInt64) (now : Int), RetentionFits now all →
    RetentionFits now d → ∀ (w : World) tr p w',
    Proc.Trace Answers Eq ⟨pruneOldLiveSnapshots all (some d) now false, []⟩ w tr p w' →
    KeepsReplicaDays (now - 60 * (d.toNat : Int)) w w' := by
  intro hall
  obtain ⟨tr, p, w', hrun, hend⟩ := exists_twoReplicasRun
  have hkeeps := hall 60 14400 200000 (by unfold RetentionFits; decide)
    (by unfold RetentionFits; decide) twoReplicas tr p w' hrun
  have hholds : twoReplicas.Holds "live_s1_r1_a" ⟨"live_s1_r1_a", 100, "s1", "r1", "h1", [], []⟩ :=
    ⟨⟨.manifest ⟨"live_s1_r1_a", 100, "s1", "r1", "h1", [], []⟩, 0, 100⟩, by decide +kernel, rfl⟩
  obtain ⟨name', m', hm', -, -, hreplica, -⟩ := hkeeps "live_s1_r1_a" _ hholds (by decide) (by decide)
  have hin := mem_replicasIn hm'
  rw [hreplica, hend] at hin
  simp at hin

end Chbk
