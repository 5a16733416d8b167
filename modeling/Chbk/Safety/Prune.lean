import Chbk.Safety.Schedule

/-!
# `gc-live` alone, with failing calls

`gc-live` deletes the manifests of its prune set one by one, and goes on when a
DELETE fails; then it deletes the blobs that only those manifests had. A
manifest that survived its DELETE is left without its blobs.

* `prune_noDangling_iff` — at every point of a run no manifest dangles, if and
  only if no blob DELETE so far has taken a blob of such a survivor.
* `prune_dangles` — a run with one failing call that leaves a manifest dangling.
-/

namespace Chbk

open Lib Prog

-- ---------------------------------------------------------------------------
-- Manifests first, then blobs
-- ---------------------------------------------------------------------------

/-- A request to delete blobs. -/
def sweeps : Op → Bool
  | .s3 (.deleteObjects _) => true
  | .s3 (.deleteObject key) => key ≠ LOCK_KEY && (manifestNameFromKey key).isNone
  | _ => false

/-- Whether blobs have been deleted. -/
def sweepWatch : Watch Op Resp Bool := ⟨false, fun v op _ => v || sweeps op⟩

/-- Once blobs have been deleted, no manifest is. -/
def SweepRule (v : Bool) (op : Op) : Prop := v = true → ∀ name, manifestKey name ∉ op.deletes

/-- Calls before the blobs. -/
def BeforeSweep (op : Op) : Prop := sweeps op = false

/-- Calls that delete no manifest. -/
def SparesManifests (op : Op) : Prop := ∀ name, manifestKey name ∉ op.deletes

theorem AboutLock.beforeSweep {op : Op} (h : AboutLock op) : BeforeSweep op := by
  match op, h with
  | .env _, _ => rfl
  | .s3 (.getObject _), _ => rfl
  | .s3 (.putObject ..), _ => rfl
  | .s3 (.deleteObject key), h =>
    have hkey : key = LOCK_KEY := h
    simp [BeforeSweep, sweeps, hkey]

theorem AboutLock.sparesManifests {op : Op} (h : AboutLock op) : SparesManifests op := by
  intro name hmem
  match op, h with
  | .s3 (.deleteObject key), h =>
    have hkey : key = LOCK_KEY := h
    have hname : manifestKey name = key := List.mem_singleton.mp hmem
    exact manifestKey_ne_lock name (hname.trans hkey)

theorem aboutLock_bailIfLockLost : Only AboutLock bailIfLockLost :=
  aside_bailIfLockLost.mono fun op h => by
    match op, h with
    | .env _, _ => trivial

theorem beforeSweep_env (o : EnvOp) : BeforeSweep (.env o) := rfl

theorem only_exclusiveHashes (target other : List String) :
    Only BeforeSweep (exclusiveHashes target other) :=
  Only.bind (only_ask (beforeSweep_env .order)) fun _ => only_pure _

theorem only_printEach (text : String) (items : List String) :
    Only BeforeSweep (printEach text items) := by
  refine Only.bind (only_collect fun item _ => ?_) fun _ => only_pure _
  exact only_ask (beforeSweep_env (.println (text ++ item)))

theorem only_pruneManifest (name : String) : Only BeforeSweep (pruneManifest name) := by
  have hsweep : sweeps (.s3 (.deleteObject (manifestKey name))) = false := by
    simp [sweeps]
  refine Only.bind (aboutLock_bailIfLockLost.mono fun _ h => h.beforeSweep) fun _ => ?_
  refine Only.bind (Only.attempt (Only.mapFail (Only.bind (only_ask hsweep) fun r => ?_)))
    fun _ => only_pure _
  exact only_orContext _ _

theorem only_deleteExclusiveBlobs (hashes : List String) :
    Only SparesManifests (deleteExclusiveBlobs hashes) := by
  have hspare : ∀ op, DeletesOf (hashes.map blobRemoteKey) op → SparesManifests op := by
    intro op hop name hmem
    have hkey : manifestKey name ∈ hashes.map blobRemoteKey := by
      match op, hop with
      | .s3 (.deleteObject key), hop => exact List.mem_singleton.mp hmem ▸ hop
      | .s3 (.deleteObjects keys), hop => exact hop _ hmem
    obtain ⟨hash, -, he⟩ := List.mem_map.mp hkey
    exact manifestKey_ne_blobRemoteKey name hash he.symm
  rcases deleteExclusiveBlobs_cases hashes with ⟨-, heq⟩ | ⟨-, msg, k, heq⟩
  · rw [heq]
    exact Only.bind ((only_deleteObjectsBulk _).mono hspare) fun _ => only_pure _
  · rw [heq]
    exact ⟨fun name hmem => absurd hmem List.not_mem_nil, fun r => r.elim⟩

theorem BeforeSweep.rule {v : Bool} {op : Op} (h : v = false) : SweepRule v op := by
  intro hv
  rw [h] at hv
  cases hv

theorem BeforeSweep.observe {v : Bool} {op : Op} {r : Resp op} (h : BeforeSweep op)
    (hv : v = false) : sweepWatch.observe v op r = false := by
  show (v || sweeps op) = false
  rw [hv, h, Bool.or_self]

/-- A part of the command before the blobs. -/
theorem follows_beforeSweep {α : Type} {p : P α} (h : Only BeforeSweep p) {v : Bool}
    (hv : v = false) :
    Follows sweepWatch SweepRule p v (fun _ v' => v' = false) fun _ _ => True :=
  Follows.mono (h.follows (I := fun v' => v' = false) (fun _ _ _ hv' => BeforeSweep.rule hv')
    (fun _ _ _ ho hv' => ho.observe hv') hv) (fun _ _ h => h) fun _ _ _ => trivial

/-- `gc-live` deletes manifests first, then blobs. -/
theorem follows_prune_sweep (all : UInt64) (daily : Option UInt64) (now : Int) (dryRun : Bool) :
    Follows sweepWatch SweepRule (pruneOldLiveSnapshots all daily now dryRun) false
      (fun _ _ => True) fun _ _ => True := by
  have hlock : ∀ v op, AboutLock op → SweepRule v op := fun _ _ ho _ => ho.sparesManifests
  refine follows_withGcLock (I := fun v => v = false) hlock
    (fun v op r ho hv => ho.beforeSweep.observe hv) (fun v b => Bool.or_false v)
    (fun v hv => ?_) rfl
  refine Follows.bind (follows_beforeSweep (only_readAllManifests rfl (fun _ => rfl) rfl) hv) fun ms v₁ hv₁ => ?_
  dsimp only
  split
  · exact Follows.pure trivial
  refine Follows.bind (follows_beforeSweep (only_exclusiveHashes _ _) hv₁)
    fun exclusive v₂ hv₂ => ?_
  refine Follows.bind (follows_beforeSweep (only_ask (beforeSweep_env .order)) hv₂)
    fun order v₃ hv₃ => ?_
  split
  · refine Follows.bind (follows_beforeSweep (only_printEach _ _) hv₃) fun _ v₄ hv₄ => ?_
    refine Follows.bind (follows_beforeSweep (only_printEach _ _) hv₄) fun _ v₅ hv₅ => ?_
    exact Follows.pure trivial
  refine Follows.bind (follows_beforeSweep (only_collect fun name _ => only_pruneManifest name) hv₃)
    fun _ v₄ hv₄ => ?_
  split
  · -- from here on blobs only
    have hrest : Only SparesManifests (do bailIfLockLost; deleteExclusiveBlobs exclusive) :=
      Only.bind (aboutLock_bailIfLockLost.mono fun _ h => h.sparesManifests)
        fun _ => only_deleteExclusiveBlobs exclusive
    have hrule : ∀ v op, SparesManifests op → True → SweepRule v op := fun _ _ ho _ _ => ho
    exact Follows.mono (hrest.follows (I := fun _ => True) hrule
      (fun _ _ _ _ _ => trivial) trivial) (fun _ _ _ => trivial) fun _ _ _ => trivial
  · exact Follows.pure trivial

-- ---------------------------------------------------------------------------
-- Runs
-- ---------------------------------------------------------------------------

/-- Nothing but the lock object changes: heartbeats, the clock, and uploads that
are not completed. -/
def Beside (w w' : World) : Prop := ∀ key, key ≠ LOCK_KEY → w'.get? key = w.get? key

/-- A run of `gc-live` alone. -/
abbrev PruneTrace (all : UInt64) (daily : Option UInt64) (now : Int) (dryRun : Bool) (w : World) :
    List (Event Op Resp World) → Proc Op Resp AnyError Unit → World → Prop :=
  Proc.Trace Answers Beside ⟨pruneOldLiveSnapshots all daily now dryRun, []⟩ w

/-- The call takes a blob away from a manifest that is in the bucket, although
its own DELETE was issued before. -/
def StripsSurvivor (x : Event Op Resp World) : Prop :=
  ∃ name m key, name ∈ (gcWatch.view x.hist).tried ∧ x.before.Holds name m ∧
    key ∈ m.blobKeys ∧ x.before.Has key ∧ ¬ x.after.Has key

/-- A manifest in the bucket lacks a blob, and no manifest will be deleted any
more. -/
def Stripped (p : Proc Op Resp AnyError Unit) (w : World) : Prop :=
  sweepWatch.view p.hist = true ∧ ∃ name m hash, w.Holds name m ∧
    blobRemoteKey hash ∈ m.blobKeys ∧ ¬ w.Has (blobRemoteKey hash)

/-- What holds along a run of `gc-live`. -/
structure PruneInv (T : GcTerms) (tr : List (Event Op Resp World))
    (p : Proc Op Resp AnyError Unit) (w : World) : Prop where
  obeys : p.Obeys gcWatch (GcRule T)
  ordered : p.Obeys sweepWatch SweepRule
  /-- The manifests in the bucket were listed, and read as they are. -/
  accounted : ∀ names, (gcView p).listed = some names → ∀ name m, w.Holds name m →
    name ∈ names ∧ ∀ m' ∈ (gcView p).read, m'.name = name → m'.parts = m.parts
  safe : (∀ x ∈ tr, ¬ StripsSurvivor x) → NoDangling w
  stripped : (∃ x ∈ tr, StripsSurvivor x) → Stripped p w

theorem sweeps_of_deletes {op : Op} {hash : String} (h : blobRemoteKey hash ∈ op.deletes) :
    sweeps op = true := by
  match op, h with
  | .s3 (.deleteObjects _), _ => rfl
  | .s3 (.deleteObject key), h =>
    obtain rfl := List.mem_singleton.mp h
    simp [sweeps, blobRemoteKey_ne_lock, manifestNameFromKey_blob]

/-- No call deletes a manifest and a blob. -/
theorem not_deletes_of_sweeps {T : GcTerms} {v : GcView} {op : Op} (hrule : GcRule T v op)
    (h : sweeps op = true) (name : String) : manifestKey name ∉ op.deletes := by
  intro hname
  cases op with
  | env e => cases h
  | s3 o =>
    cases o with
    | deleteObject key =>
      obtain rfl := List.mem_singleton.mp hname
      simp [sweeps] at h
    | deleteObjects keys =>
      obtain ⟨hash, he⟩ := (hrule _ hname).isBlob
      exact manifestKey_ne_blobRemoteKey name hash he
    | _ => cases h

/-- A cleanup command brings no blob back. -/
theorem has_of_gc {T : GcTerms} {v : GcView} {op : Op} (hrule : GcRule T v op) {w w' : World}
    {r : Resp op} (h : Answers op w r w') {hash : String} (hk : w'.Has (blobRemoteKey hash)) :
    w.Has (blobRemoteKey hash) := by
  obtain ⟨o, ho⟩ := hk
  cases op with
  | env e => exact ⟨o, by rw [← h.2]; exact ho⟩
  | s3 op =>
    cases (S3Answers.change h).2 with
    | removes gone hsub hget =>
      rw [hget] at ho
      split at ho
      · cases ho
      · exact ⟨o, ho⟩
    | writes key body hw hget =>
      rw [hget] at ho
      split at ho
      · rename_i hkey
        cases op with
        | putObject key' body' im inm =>
          obtain ⟨rfl, -⟩ := hw
          obtain ⟨rfl, -⟩ := hrule
          exact absurd hkey (blobRemoteKey_ne_lock hash)
        | _ => first | exact hw.elim | exact hrule.elim
      · exact ⟨o, ho⟩

/-- A manifest goes only when it is deleted. -/
theorem holds_or_deletes {T : GcTerms} {v : GcView} {op : Op} (hrule : GcRule T v op) {w w' : World}
    {r : Resp op} (h : Answers op w r w') {name : String} {m : Manifest} (hm : w.Holds name m) :
    w'.Holds name m ∨ manifestKey name ∈ op.deletes := by
  obtain ⟨o, ho, hb⟩ := hm
  cases op with
  | env e => exact .inl ⟨o, by rw [h.2]; exact ho, hb⟩
  | s3 op =>
    cases (S3Answers.change h).2 with
    | removes gone hsub hget =>
      by_cases hg : manifestKey name ∈ gone
      · exact .inr (hsub _ hg)
      · exact .inl ⟨o, by rw [hget, if_neg hg]; exact ho, hb⟩
    | writes key body hw hget =>
      have hne : manifestKey name ≠ key := by
        rintro rfl
        cases op with
        | putObject key' body' im inm =>
          obtain ⟨hk, -⟩ := hw
          exact manifestKey_ne_lock name (hk.trans hrule.1)
        | _ => first | exact hw.elim | exact hrule.elim
      exact .inl ⟨o, by rw [hget, if_neg hne]; exact ho, hb⟩

theorem PruneInv.start {T : GcTerms} {p : P Unit} {w : World} (hsafe : NoDangling w)
    (hclean : Cleans T p {} fun _ _ => True)
    (hsweep : Follows sweepWatch SweepRule p false (fun _ _ => True) fun _ _ => True) :
    PruneInv T [] ⟨p, []⟩ w where
  obeys := hclean
  ordered := hsweep
  accounted := by
    intro names hl
    cases hl
  safe := fun _ => hsafe
  stripped := by simp

theorem PruneInv.beside {T : GcTerms} {tr : List (Event Op Resp World)}
    {p : Proc Op Resp AnyError Unit} {w w' : World} (h : PruneInv T tr p w) (hw : Beside w w') :
    PruneInv T tr p w' := by
  have hholds : ∀ {name m}, w'.Holds name m ↔ w.Holds name m := by
    intro name m
    unfold World.Holds
    rw [hw _ (manifestKey_ne_lock name)]
  have hhas : ∀ {hash}, w'.Has (blobRemoteKey hash) ↔ w.Has (blobRemoteKey hash) := by
    intro hash
    unfold World.Has
    rw [hw _ (blobRemoteKey_ne_lock hash)]
  refine ⟨h.obeys, h.ordered, fun names hl name m hm => h.accounted names hl name m (hholds.mp hm),
    ?_, ?_⟩
  · intro hno name m hm k hk
    obtain ⟨hash, rfl⟩ := exists_hash_of_mem_blobKeys hk
    exact hhas.mpr (h.safe hno name m (hholds.mp hm) _ hk)
  · intro hex
    obtain ⟨hswept, name, m, hash, hm, hk, hgone⟩ := h.stripped hex
    exact ⟨hswept, name, m, hash, hholds.mpr hm, hk, fun hh => hgone (hhas.mp hh)⟩

/-- One call: a blob that goes is free of every manifest that was not tried, and
what a survivor lost stays lost. -/
theorem PruneInv.call {T : GcTerms} (hT : T.strict = false) {tr : List (Event Op Resp World)}
    {p p' : Proc Op Resp AnyError Unit} {w w' : World} {c : Called Op Resp}
    (h : PruneInv T tr p w) (hstep : p.Step Answers w p' w') (hc : p'.hist = c :: p.hist) :
    PruneInv T (tr ++ [⟨p.hist, w, c, w'⟩]) p' w' := by
  obtain ⟨op, a, -, hhist, hans, hobey⟩ := hstep.cases
  obtain rfl : c = ⟨op, a⟩ := List.head_eq_of_cons_eq (hc.symm.trans hhist)
  obtain ⟨hrule, hobeys⟩ := hobey h.obeys
  obtain ⟨hsweep, hordered⟩ := hobey h.ordered
  have hview : gcView p' = (gcView p).observe op a := by
    unfold gcView
    rw [hhist]
    rfl
  have hswept : sweepWatch.view p'.hist = (sweepWatch.view p.hist || sweeps op) := by
    rw [hhist]
    rfl
  -- a survivor that has lost a blob keeps lacking it
  have hkeep : Stripped p w → Stripped p' w' := by
    rintro ⟨hs, name, m, hash, hm, hk, hgone⟩
    refine ⟨by rw [hswept, hs, Bool.true_or], name, m, hash, ?_, hk, fun hh => ?_⟩
    · exact (holds_or_deletes hrule hans hm).resolve_right (hsweep hs name)
    · exact hgone (has_of_gc hrule hans hh)
  -- the call itself takes a blob from a survivor
  have hnow : StripsSurvivor ⟨p.hist, w, ⟨op, a⟩, w'⟩ → Stripped p' w' := by
    rintro ⟨name, m, key, -, hm, hk, hhas, hgone⟩
    obtain ⟨hash, rfl⟩ := exists_hash_of_mem_blobKeys hk
    have hdel : blobRemoteKey hash ∈ op.deletes := (has_of_answers hans hhas).resolve_left hgone
    have hblob : sweeps op = true := sweeps_of_deletes hdel
    have hm' : w'.Holds name m :=
      (holds_or_deletes hrule hans hm).resolve_right (not_deletes_of_sweeps hrule hblob name)
    exact ⟨by rw [hswept, hblob, Bool.or_true], name, m, hash, hm', hk, hgone⟩
  refine ⟨hobeys, hordered, ?_, ?_, ?_⟩
  · intro names hl name m hm
    have hold := holds_of_gc hrule hans hm
    rw [hview] at hl ⊢
    cases hlist : listsManifests ⟨op, a⟩ with
    | true =>
      have hacc := System.accounted_of_listing (T := T) hans hlist hl hold []
      rcases hacc with ⟨hn, -, hread⟩ | ⟨b, hb, -⟩
      · exact ⟨hn, hread⟩
      · cases hb
    | false =>
      rw [System.listed_observe_eq hlist] at hl
      obtain ⟨hn, hread⟩ := h.accounted names hl name m hold
      exact ⟨hn, System.read_observe hans hold hread⟩
  · intro hno name m hm k hk
    obtain ⟨hash, rfl⟩ := exists_hash_of_mem_blobKeys hk
    have hold := holds_of_gc hrule hans hm
    have hbefore := h.safe (fun x hx => hno x (List.mem_append_left _ hx)) name m hold _ hk
    by_contra hgone
    have hdel := (has_of_answers hans hbefore).resolve_left hgone
    -- the blob is free of every manifest not tried; so this one was
    obtain ⟨names, hl, hall⟩ := (blobFree_of_deletes hrule hdel).unreferenced
    obtain ⟨hn, hread⟩ := h.accounted names hl name m hold
    rcases hall name hn with htried | ⟨m', hm', hname, hnot⟩
    · rw [GcView.settled, hT] at htried
      refine hno ⟨p.hist, w, ⟨op, a⟩, w'⟩ (by simp) ⟨name, m, _, htried, hold, hk, hbefore, hgone⟩
    · apply hnot
      unfold Manifest.blobKeys at hk ⊢
      rwa [hread m' hm' hname]
  · rintro ⟨x, hx, hstrip⟩
    rcases List.mem_append.mp hx with hx | hx
    · exact hkeep (h.stripped ⟨x, hx, hstrip⟩)
    · obtain rfl := List.mem_singleton.mp hx
      exact hnow hstrip

/-- What holds at every point of a run of `gc-live`. -/
theorem prune_inv {all : UInt64} {daily : Option UInt64} {now : Int} {dryRun : Bool} {w w' : World}
    (hsafe : NoDangling w) {tr : List (Event Op Resp World)} {p : Proc Op Resp AnyError Unit}
    (hrun : PruneTrace all daily now dryRun w tr p w') :
    PruneInv (pruneTerms all daily now) tr p w' := by
  induction hrun with
  | start =>
    exact PruneInv.start hsafe (follows_pruneOldLiveSnapshots all daily now dryRun {})
      (follows_prune_sweep all daily now dryRun)
  | call _ hstep hc ih => exact ih.call rfl hstep hc
  | beside _ hw ih => exact ih.beside hw

/-- From a bucket where no manifest dangles, whatever calls fail: at every point
of a run of `gc-live` no manifest dangles, if and only if no blob DELETE has
taken a blob of a manifest that survived its own. -/
theorem prune_noDangling_iff (all : UInt64) (daily : Option UInt64) (now : Int) (dryRun : Bool)
    (w : World) (hsafe : NoDangling w) (tr : List (Event Op Resp World))
    (p : Proc Op Resp AnyError Unit) (w' : World)
    (hrun : PruneTrace all daily now dryRun w tr p w') :
    NoDangling w' ↔ ∀ x ∈ tr, ¬ StripsSurvivor x := by
  have hinv := prune_inv hsafe hrun
  constructor
  · intro hend x hx hstrip
    obtain ⟨-, name, m, hash, hm, hk, hgone⟩ := hinv.stripped ⟨x, hx, hstrip⟩
    exact hgone (hend name m hm _ hk)
  · exact hinv.safe

/-- A check of the bucket at the end of a run of `gc-live` is a check of a
bucket a run reaches. -/
theorem exists_pruneTrace (all : UInt64) (daily : Option UInt64) (now : Int) (dryRun : Bool)
    (w : World) (as : List Answer) (P : World → Bool)
    (h : (runAlone as [] ⟨pruneOldLiveSnapshots all daily now dryRun, []⟩ w).any
      (fun x => P x.2.2) = true) :
    ∃ tr p w', PruneTrace all daily now dryRun w tr p w' ∧ P w' = true := by
  cases hrun : runAlone as [] ⟨pruneOldLiveSnapshots all daily now dryRun, []⟩ w with
  | none =>
    rw [hrun] at h
    cases h
  | some x =>
    rw [hrun] at h
    exact ⟨x.1, x.2.1, x.2.2, trace_of_runAlone .start hrun, h⟩

theorem prune_noDangling_iff_served : ∃ tr p w',
    PruneTrace 0 none 100000 false (siteWorld "live_s1_r1_a") tr p w' ∧ w'.objects = [] ∧
      (NoDangling w' ↔ ∀ x ∈ tr, ¬ StripsSurvivor x) := by
  have hsafe : NoDangling (siteWorld "live_s1_r1_a") :=
    noDangling_of_complete (by decide +kernel)
  obtain ⟨tr, p, w', hrun, hend⟩ := exists_pruneTrace 0 none 100000 false
    (siteWorld "live_s1_r1_a") (List.replicate 27 served) (fun w => decide (w.objects = []))
    (by decide +kernel)
  exact ⟨tr, p, w', hrun, of_decide_eq_true hend,
    prune_noDangling_iff 0 none 100000 false _ hsafe tr p w' hrun⟩

/-- The one DELETE of a manifest fails, and nothing else does. -/
def survivorAnswers : List Answer :=
  List.replicate 17 served ++ lost false :: List.replicate 9 served

/-- From a bucket where no manifest dangles, a run of `gc-live` in which one call
fails ends with a manifest that does. -/
theorem prune_dangles : ¬ ∀ (all : UInt64) (daily : Option UInt64) (now : Int) (w : World),
    NoDangling w → ∀ tr p w', PruneTrace all daily now false w tr p w' → NoDangling w' := by
  intro hall
  have hsafe : NoDangling (siteWorld "live_s1_r1_a") :=
    noDangling_of_complete (by decide +kernel)
  obtain ⟨tr, p, w', hrun, hend⟩ := exists_pruneTrace 0 none 100000 false
    (siteWorld "live_s1_r1_a") survivorAnswers
    (fun w => decide (w.missing "live_s1_r1_a" = some [blobRemoteKey siteHash]))
    (by decide +kernel)
  exact not_noDangling_of_missing (of_decide_eq_true hend) (hall 0 none 100000 _ hsafe tr p w' hrun)

end Chbk
