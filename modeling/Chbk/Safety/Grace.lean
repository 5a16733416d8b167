import Chbk.Safety.Committed
import Chbk.Safety.Schedule

/-!
# `gc-all` beside backups

`gc-all` deletes blobs that no manifest of its listing refers to and that are older than
the grace period. A backup it does not see has its blobs from somewhere: from an upload of
its own, which is younger than the backup; from a manifest it has read; or from a HEAD
check, which tells nothing of the age.

* `Aged` — where the backups have their blobs from, along a run.
* `gcAll_noDangling` — no manifest dangles as long as no delete takes a blob that a backup
  has found by a HEAD check, nor one that is needed and was put after the cutoff, nor one
  that is needed by a backup older than the cutoff.
* `gcAll_dangles` — without that, a backup reuses an old blob without a manifest, and
  `gc-all` deletes it before the manifest is written.
-/

namespace Chbk

open Lib Prog

-- ---------------------------------------------------------------------------
-- The runs
-- ---------------------------------------------------------------------------

/-- Of the blobs that are needed by backups it has not seen, the call deletes none that was
found by a HEAD check, none that was put after the cutoff, and none whose backup began
before it. -/
def System.SparesReused (gracePeriodHours : UInt64) (s : System) : Label → Prop
  | .gc c => ∀ p now, s.gc = some p → (gcView p).clock = some now → ∀ hash o,
      blobRemoteKey hash ∈ c.1.deletes → s.world.get? (blobRemoteKey hash) = some o →
      ∀ b ∈ s.backups, b.listed = false → b.Counts → blobRemoteKey hash ∈ b.view.needs →
        blobRemoteKey hash ∉ b.view.head ∧ o.lastModified ≤ now - graceSecs gracePeriodHours ∧
          now - graceSecs gracePeriodHours < b.start
  | _ => True

-- ---------------------------------------------------------------------------
-- Where a backup has a blob from
-- ---------------------------------------------------------------------------

/-- The backup has found the blob by a HEAD check, or it was put since the backup began. -/
def BackupRun.Own (w : World) (b : BackupRun) (k : String) : Prop :=
  k ∈ b.view.head ∨ ∃ o, w.get? k = some o ∧ b.start ≤ o.lastModified

/-- A manifest in the bucket has the blob, and a cleanup command that has listed the
manifests has seen it as it is. -/
def System.Referenced (T : GcTerms) (s : System) (k : String) : Prop :=
  ∃ name m, s.world.Holds name m ∧ k ∈ m.blobKeys ∧ ∀ p names, s.gc = some p →
    (gcView p).listed = some names → Accounted T.strict (gcView p) names [] name m

/-- The blob is in a manifest: one that a cleanup command sees, or one of a backup that has
committed since and has the blob from itself. -/
def System.Shared (T : GcTerms) (s : System) (k : String) : Prop :=
  (∃ b ∈ s.backups, b.listed = false ∧ b.committed = true ∧ k ∈ b.view.needs ∧
    b.Own s.world k) ∨ s.Referenced T k

/-- Where the backups have their blobs from. -/
structure Aged (T : GcTerms) (s : System) : Prop where
  starts : ∀ b ∈ s.backups, b.start ≤ s.world.now
  origin : ∀ b ∈ s.backups, b.listed = false → b.Counts → ∀ hash,
    blobRemoteKey hash ∈ b.view.needs →
      b.Own s.world (blobRemoteKey hash) ∨ s.Shared T (blobRemoteKey hash)
  /-- A manifest that was committed is in the bucket. -/
  held : ∀ b ∈ s.backups, b.committed = true → ∃ name m, s.world.Holds name m ∧
    b.view.put = some m.blobKeys

namespace Aged

variable {T : GcTerms} {s : System}

theorem start (w : World) : Aged T (System.Idle w) :=
  ⟨by simp [System.Idle], by simp [System.Idle], by simp [System.Idle]⟩

/-- The blobs of a manifest in the bucket are shared. -/
theorem shared_of_holds (h : Aged T s) (hinv : s.Inv T) {name : String} {m : Manifest}
    (hm : s.world.Holds name m) {hash : String} (hk : blobRemoteKey hash ∈ m.blobKeys) :
    s.Shared T (blobRemoteKey hash) := by
  by_cases hgc : ∃ p names, s.gc = some p ∧ (gcView p).listed = some names
  · obtain ⟨p, names, hp, hl⟩ := hgc
    rcases hinv.accounted p names hp hl name m hm with hseen | ⟨b, hb, hcom, hlist, hput⟩
    · refine .inr ⟨name, m, hm, hk, fun p' names' hp' hl' => .inl ?_⟩
      obtain rfl := Option.some.inj (hp.symm.trans hp')
      obtain rfl := Option.some.inj (hl.symm.trans hl')
      exact hseen
    · have hneed : blobRemoteKey hash ∈ b.view.needs := by
        rwa [BackupView.needs, hput]
      rcases h.origin b hb hlist (.inl hcom) hash hneed with hown | hshared
      · exact .inl ⟨b, hb, hlist, hcom, hneed, hown⟩
      · exact hshared
  · exact .inr ⟨name, m, hm, hk, fun p names hp hl => absurd ⟨p, names, hp, hl⟩ hgc⟩

/-- **The age check spares what it can.** A delete that is sparing on the three accounts
takes no blob that is needed. -/
theorem spares {gracePeriodHours : UInt64} (h : Aged (allTerms true gracePeriodHours) s)
    (hinv : s.Inv (allTerms true gracePeriodHours)) {json : Json} {s' : System} {l : Label}
    (hstep : s.Step json l s') (hok : s.SparesReused gracePeriodHours l) : s.Spares l := by
  cases hstep with
  | @gc p p' w c hs hc hstep =>
    intro hash hdel ⟨o, ho⟩ ⟨b, hb, hlist, hcounts, hneed⟩
    obtain ⟨op, a, -, hhist, -, hobey⟩ := hstep.cases
    obtain rfl : c = ⟨op, a⟩ := List.head_eq_of_cons_eq (hc.symm.trans hhist)
    have hfree := blobFree_of_deletes (hobey (hinv.gcObeys p hs)).1 hdel
    obtain ⟨now, -, -, -, hclock, -⟩ := hfree.old _ rfl
    have hthree := hok p now hs hclock hash o hdel ho
    -- what a backup has from itself is younger than the cutoff
    have hown : ∀ x ∈ s.backups, x.listed = false → x.Counts →
        blobRemoteKey hash ∈ x.view.needs → ¬ x.Own s.world (blobRemoteKey hash) := by
      intro x hx hxlist hxcounts hxneed hxown
      obtain ⟨hhead, hage, hbegan⟩ := hthree x hx hxlist hxcounts hxneed
      rcases hxown with hxhead | ⟨o', ho', hyoung⟩
      · exact hhead hxhead
      · obtain rfl := Option.some.inj (ho.symm.trans ho')
        omega
    rcases h.origin b hb hlist hcounts hash hneed with hself | hother | href
    · exact hown b hb hlist hcounts hneed hself
    · obtain ⟨x, hx, hxlist, hxcom, hxneed, hxown⟩ := hother
      exact hown x hx hxlist (.inl hxcom) hxneed hxown
    · -- a manifest that was read has it
      obtain ⟨name, m, -, hk, haccount⟩ := href
      obtain ⟨names, hl, hall⟩ := hfree.unreferenced
      rcases haccount p names hs hl with ⟨hn, hset, hread⟩ | ⟨x, hx, -⟩
      · obtain ⟨m', hm', hname, hno⟩ := (hall name hn).resolve_left hset
        refine hno ?_
        unfold Manifest.blobKeys at hk ⊢
        rwa [hread m' hm' hname]
      · exact absurd hx List.not_mem_nil
  | _ => trivial

-- ---------------------------------------------------------------------------
-- Steps beside the calls
-- ---------------------------------------------------------------------------

/-- The bucket changes, but for no blob and no manifest. -/
theorem frame (h : Aged T s) {w : World} (hnow : s.world.now ≤ w.now)
    (hblob : ∀ hash, w.get? (blobRemoteKey hash) = s.world.get? (blobRemoteKey hash))
    (hholds : ∀ name m, s.world.Holds name m → w.Holds name m) :
    Aged T { s with world := w } where
  starts b hb := (h.starts b hb).trans hnow
  origin := by
    intro b hb hlist hcounts hash hneed
    have hown : ∀ x : BackupRun, x.Own s.world (blobRemoteKey hash) →
        x.Own w (blobRemoteKey hash) := by
      intro x hx
      unfold BackupRun.Own
      rw [hblob]
      exact hx
    rcases h.origin b hb hlist hcounts hash hneed with hself | hother | href
    · exact .inl (hown b hself)
    · obtain ⟨x, hx, hxlist, hxcom, hxneed, hxown⟩ := hother
      exact .inr (.inl ⟨x, hx, hxlist, hxcom, hxneed, hown x hxown⟩)
    · obtain ⟨name, m, hm, hk, haccount⟩ := href
      exact .inr (.inr ⟨name, m, hholds name m hm, hk, haccount⟩)
  held b hb hcom := by
    obtain ⟨name, m, hm, hput⟩ := h.held b hb hcom
    exact ⟨name, m, hholds name m hm, hput⟩

/-- A cleanup command that has not listed the manifests yet, or none. -/
theorem withGc (h : Aged T s) {gc : Option (Proc Op Resp AnyError Unit)}
    (hgc : ∀ p, gc = some p → (gcView p).listed = none) : Aged T { s with gc := gc } where
  starts := h.starts
  origin := by
    intro b hb hlist hcounts hash hneed
    rcases h.origin b hb hlist hcounts hash hneed with hself | hother | href
    · exact .inl hself
    · exact .inr (.inl hother)
    · obtain ⟨name, m, hm, hk, -⟩ := href
      refine .inr (.inr ⟨name, m, hm, hk, fun p names hp hl => ?_⟩)
      rw [hgc p hp] at hl
      cases hl
  held := h.held

theorem startBackup (h : Aged T s) (json : Json) (cfg : Config) (name : Option String) :
    Aged T { s with backups := s.backups ++ [⟨⟨createSnapshot json cfg name, []⟩, s.world.now,
      true, false, false⟩] } where
  starts b hb := by
    rcases List.mem_append.mp hb with hb | hb
    · exact h.starts b hb
    · rw [List.mem_singleton.mp hb]
  origin := by
    intro b hb hlist hcounts hash hneed
    rcases List.mem_append.mp hb with hb | hb
    · rcases h.origin b hb hlist hcounts hash hneed with hself | hother | href
      · exact .inl hself
      · obtain ⟨x, hx, hrest⟩ := hother
        exact .inr (.inl ⟨x, List.mem_append_left _ hx, hrest⟩)
      · exact .inr (.inr href)
    · rw [List.mem_singleton.mp hb] at hneed
      simp [BackupRun.view, BackupView.needs, Watch.view, backupWatch, BackupView.relied] at hneed
  held b hb hcom := by
    rcases List.mem_append.mp hb with hb | hb
    · exact h.held b hb hcom
    · rw [List.mem_singleton.mp hb] at hcom
      cases hcom

theorem crashBackup (h : Aged T s) {l r : List BackupRun} {b : BackupRun}
    (hs : s.backups = l ++ b :: r) :
    Aged T { s with backups := l ++ { b with alive := false } :: r } := by
  -- one that has crashed is behind every later one
  have hback : ∀ x ∈ l ++ { b with alive := false } :: r, ∃ x₀ ∈ s.backups,
      x.start = x₀.start ∧ x.view = x₀.view ∧ x.listed = x₀.listed ∧
        x.committed = x₀.committed ∧ (x.Counts → x₀.Counts) := by
    intro x hx
    rcases System.mem_replace (b := b) hx with rfl | hx
    · refine ⟨b, by simp [hs], rfl, rfl, rfl, rfl, fun hcounts => ?_⟩
      rcases hcounts with hcom | ⟨halive, -⟩
      · exact .inl hcom
      · cases halive
    · exact ⟨x, hs ▸ hx, rfl, rfl, rfl, rfl, fun hcounts => hcounts⟩
  refine ⟨fun x hx => ?_, ?_, fun x hx hcom => ?_⟩
  · obtain ⟨x₀, hx₀, hstart, -⟩ := hback x hx
    rw [hstart]
    exact h.starts x₀ hx₀
  · intro x hx hlist hcounts hash hneed
    obtain ⟨x₀, hx₀, hstart, hview, hlisted, -, hcounts₀⟩ := hback x hx
    rw [hview] at hneed
    have horigin := h.origin x₀ hx₀ (hlisted ▸ hlist) (hcounts₀ hcounts) hash hneed
    rcases horigin with hself | hother | href
    · refine .inl ?_
      unfold BackupRun.Own at hself ⊢
      rwa [hview, hstart]
    · obtain ⟨y, hy, hylist, hycom, hrest⟩ := hother
      rcases System.mem_replace_of_mem (c := { b with alive := false }) (hs ▸ hy) with rfl | hy
      · exact .inr (.inl ⟨{ y with alive := false }, by simp, hylist, hycom, hrest⟩)
      · exact .inr (.inl ⟨y, hy, hylist, hycom, hrest⟩)
    · exact .inr (.inr href)
  · obtain ⟨x₀, hx₀, -, hview, -, hcommitted, -⟩ := hback x hx
    rw [hview]
    exact h.held x₀ hx₀ (hcommitted ▸ hcom)

-- ---------------------------------------------------------------------------
-- Steps of backups
-- ---------------------------------------------------------------------------

end Aged

/-- An object behind a call of a backup is the one that was there, or has just been put. -/
theorem get?_backup {v : BackupView} {op : Op} (hrule : BackupRule v op) {w w' : World}
    {r : Resp op} (hans : Answers op w r w') {k : String} {o : Object} (ho : w.get? k = some o) :
    ∃ o', w'.get? k = some o' ∧ (o' = o ∨ o'.lastModified = w.now) := by
  cases op with
  | env e =>
    obtain ⟨-, rfl⟩ := hans
    exact ⟨o, ho, .inl rfl⟩
  | s3 op =>
    have hkept := System.deletes_of_backupRule hrule
    cases (S3Answers.change hans).2 with
    | removes gone hsub hget =>
      have hk : k ∉ gone := by
        intro hk
        have hmem : k ∈ (Op.s3 op).deletes := hsub k hk
        rw [hkept] at hmem
        exact absurd hmem List.not_mem_nil
      exact ⟨o, by rw [hget, if_neg hk]; exact ho, .inl rfl⟩
    | writes key body hw hget =>
      by_cases hk : k = key
      · exact ⟨_, by rw [hget, if_pos hk], .inr rfl⟩
      · exact ⟨o, by rw [hget, if_neg hk]; exact ho, .inl rfl⟩

/-- What a backup has from itself, it has behind a call of its own or another backup. -/
theorem BackupRun.Own.backup {v : BackupView} {op : Op} (hrule : BackupRule v op) {w w' : World}
    {r : Resp op} (hans : Answers op w r w') {b : BackupRun} {k : String}
    (hstart : b.start ≤ w.now) (h : b.Own w k) : b.Own w' k := by
  rcases h with hhead | ⟨o, ho, hyoung⟩
  · exact .inl hhead
  · obtain ⟨o', ho', rfl | hnow⟩ := get?_backup hrule hans ho
    · exact .inr ⟨_, ho', hyoung⟩
    · exact .inr ⟨o', ho', hnow ▸ hstart⟩

theorem BackupView.head_observe {v : BackupView} {op : Op} {r : Resp op} {k : String}
    (hk : k ∈ v.head) : k ∈ (v.observe op r).head := by
  unfold observe
  split
  all_goals first | exact hk | exact List.mem_cons_of_mem _ hk

/-- Where a backup newly relies on something, it has read a manifest, has found it by a HEAD
check, or has just put it. -/
theorem newly_relied {v : BackupView} {op : Op} (hrule : BackupRule v op) {w w' : World}
    {r : Resp op} (hans : Answers op w r w') {k : String} (hk : k ∈ (v.observe op r).relied) :
    k ∈ v.relied ∨ (∃ name m, w.Holds name m ∧ k ∈ m.blobKeys) ∨ k ∈ (v.observe op r).head ∨
      ∃ o, w'.get? k = some o ∧ o.lastModified = w.now := by
  unfold BackupView.observe at hk ⊢
  split at hk
  · -- a manifest read
    obtain ⟨-, o, ho, hb⟩ := get?_of_getObject hans
    obtain ⟨name, rfl⟩ := hrule
    rw [BackupView.mem_relied] at hk
    rcases hk with hk | hk
    · rcases List.mem_append.mp hk with hk | hk
      · exact .inr (.inl ⟨name, _, ⟨o, ho, hb⟩, hk⟩)
      · exact .inl (BackupView.mem_relied.mpr (.inl hk))
    · exact .inl (BackupView.mem_relied.mpr (.inr hk))
  · -- a HEAD check that found an object
    rw [BackupView.mem_relied] at hk
    rcases hk with hk | hk | hk
    · exact .inl (BackupView.mem_relied.mpr (.inl hk))
    · exact .inr (.inr (.inl hk))
    · exact .inl (BackupView.mem_relied.mpr (.inr (.inr hk)))
  · exact .inl hk
  · exact .inl hk
  · exact .inl hk
  · -- a completed upload
    obtain ⟨-, bs, -, -, hget⟩ := get?_of_completeMultipartUpload hans
    rw [BackupView.mem_relied] at hk
    rcases hk with hk | hk | hk
    · exact .inl (BackupView.mem_relied.mpr (.inl hk))
    · exact .inl (BackupView.mem_relied.mpr (.inr (.inl hk)))
    · rcases List.mem_cons.mp hk with rfl | hk
      · exact .inr (.inr (.inr ⟨_, hget, rfl⟩))
      · exact .inl (BackupView.mem_relied.mpr (.inr (.inr hk)))
  · exact .inl hk
  · exact .inl hk
  · exact .inl hk

/-- What a manifest needs when it is put, the backup has relied on. -/
theorem relied_of_put {v : BackupView} {op : Op} (hrule : BackupRule v op) {r : Resp op}
    {ks : List String} (hnone : v.put = none) (hput : (v.observe op r).put = some ks) :
    ∀ k ∈ ks, k ∈ v.relied := by
  unfold BackupView.observe at hput
  split at hput
  case h_3 =>
    obtain ⟨-, m, -, hb, -, -, hrelied⟩ := hrule
    obtain rfl := Body.manifest.inj hb
    obtain rfl := Option.some.inj hput
    exact hrelied
  all_goals
    rw [show v.put = some ks from hput] at hnone
    cases hnone

/-- A backup that commits has its manifest in the bucket. -/
theorem holds_of_commits {v : BackupView} {op : Op} (hrule : BackupRule v op) {w w' : World}
    {r : Resp op} (hans : Answers op w r w') (hcom : commits op w w' = true) :
    v.put = none ∧ ∃ name m, w'.Holds name m ∧ (v.observe op r).put = some m.blobKeys := by
  unfold commits at hcom
  split at hcom
  · rename_i key m ifMatch ifNoneMatch
    obtain ⟨hnone, m', hkey, hb, -⟩ := hrule
    obtain rfl := Body.manifest.inj hb
    refine ⟨hnone, m.name, m, ?_, rfl⟩
    have hne : w'.get? key ≠ w.get? key := of_decide_eq_true hcom
    cases (S3Answers.change hans).2 with
    | removes gone hsub hget =>
      refine absurd ?_ hne
      have hgone : key ∉ gone := fun hmem => absurd (hsub key hmem) List.not_mem_nil
      rw [hget, if_neg hgone]
    | writes key' body hw hget =>
      obtain ⟨rfl, rfl, -⟩ := hw
      exact ⟨_, by rw [← hkey, hget, if_pos rfl], rfl⟩
  · cases hcom

/-- One call of a backup. -/
structure BackupCall (s : System) (b : BackupRun) (proc : Proc Op Resp AnyError String) (op : Op)
    (a : Resp op) (w : World) : Prop where
  pending : b.view.put = none → b.Pending
  mem : b ∈ s.backups
  rule : BackupRule b.view op
  answers : Answers op s.world a w
  view : (b.after proc op s.world w).view = b.view.observe op a

namespace Aged

variable {T : GcTerms} {s : System} {l r : List BackupRun} {b : BackupRun}
  {proc : Proc Op Resp AnyError String} {op : Op} {a : Resp op} {w : World}

theorem own_backup (h : Aged T s) (hcall : BackupCall s b proc op a w) {k : String}
    (hk : b.Own s.world k) : (b.after proc op s.world w).Own w k := by
  rcases hk.backup hcall.rule hcall.answers (h.starts b hcall.mem) with hhead | hyoung
  · refine .inl ?_
    rw [hcall.view]
    exact BackupView.head_observe hhead
  · exact .inr hyoung

theorem needs_backup (hcall : BackupCall s b proc op a w) (hput : b.view.put ≠ none) :
    (b.after proc op s.world w).view.needs = b.view.needs := by
  obtain ⟨ks, hks⟩ := Option.ne_none_iff_exists'.mp hput
  rw [hcall.view, BackupView.needs, BackupView.needs, put_observe hcall.rule hks, hks]
  rfl

/-- What is in a manifest stays so. -/
theorem shared_backup (h : Aged T s) (hinv : s.Inv T) (hs : s.backups = l ++ b :: r)
    (hcall : BackupCall s b proc op a w) {k : String} (hk : s.Shared T k) :
    System.Shared T ⟨w, l ++ b.after proc op s.world w :: r, s.gc⟩ k := by
  rcases hk with ⟨x, hx, hlist, hcom, hneed, hown⟩ | ⟨name, m, hm, hk, haccount⟩
  · rcases System.mem_replace_of_mem (c := b.after proc op s.world w) (hs ▸ hx) with rfl | hx'
    · obtain ⟨ks, hks⟩ := hinv.committedPut x hx hcom
      refine .inl ⟨x.after proc op s.world w, by simp, hlist, ?_, ?_, h.own_backup hcall hown⟩
      · simp [BackupRun.after, hcom]
      · rw [needs_backup hcall (by simp [hks])]
        exact hneed
    · exact .inl ⟨x, hx', hlist, hcom, hneed,
        hown.backup hcall.rule hcall.answers (h.starts x hx)⟩
  · exact .inr ⟨name, m, holds_backup hcall.rule hcall.answers hm, hk, haccount⟩

/-- What the backup needed before the call has an origin behind it. -/
theorem origin_backup_old (h : Aged T s) (hinv : s.Inv T) (hs : s.backups = l ++ b :: r)
    (hcall : BackupCall s b proc op a w) (hlist : b.listed = false) (hcounts : b.Counts)
    {hash : String} (hneed : blobRemoteKey hash ∈ b.view.needs) :
    (b.after proc op s.world w).Own w (blobRemoteKey hash) ∨
      System.Shared T ⟨w, l ++ b.after proc op s.world w :: r, s.gc⟩ (blobRemoteKey hash) :=
  (h.origin b hcall.mem hlist hcounts hash hneed).imp (h.own_backup hcall)
    (h.shared_backup hinv hs hcall)

/-- What it needs behind the call has an origin. -/
theorem origin_backup (h : Aged T s) (hinv : s.Inv T) (hs : s.backups = l ++ b :: r)
    (hcall : BackupCall s b proc op a w) (hlist : b.listed = false)
    (hcounts : (b.after proc op s.world w).Counts) {hash : String}
    (hneed : blobRemoteKey hash ∈ (b.after proc op s.world w).view.needs) :
    (b.after proc op s.world w).Own w (blobRemoteKey hash) ∨
      System.Shared T ⟨w, l ++ b.after proc op s.world w :: r, s.gc⟩ (blobRemoteKey hash) := by
  by_cases hput : b.view.put = none
  · -- it has not put its manifest yet: what it newly needs has an origin
    have hcounts₀ : b.Counts := .inr (hcall.pending hput)
    have hold : ∀ k, k ∈ b.view.relied → k ∈ b.view.needs := by
      intro k hk
      rwa [BackupView.needs, hput]
    rw [hcall.view, BackupView.needs] at hneed
    cases hafter : (b.view.observe op a).put with
    | some ks =>
      rw [hafter] at hneed
      exact h.origin_backup_old hinv hs hcall hlist hcounts₀
        (hold _ (relied_of_put hcall.rule hput hafter _ hneed))
    | none =>
      rw [hafter] at hneed
      rcases newly_relied hcall.rule hcall.answers hneed with
        hk | ⟨name, m, hm, hk⟩ | hk | ⟨o, ho, hnow⟩
      · exact h.origin_backup_old hinv hs hcall hlist hcounts₀ (hold _ hk)
      · exact .inr (h.shared_backup hinv hs hcall (h.shared_of_holds hinv hm hk))
      · refine .inl (.inl ?_)
        rwa [hcall.view]
      · exact .inl (.inr ⟨o, ho, hnow ▸ h.starts b hcall.mem⟩)
  · -- it has: it counts only if it has committed
    rw [needs_backup hcall hput] at hneed
    refine h.origin_backup_old hinv hs hcall hlist (.inl ?_) hneed
    rcases hcounts with hcom | ⟨-, -, hnone⟩
    · rcases Bool.or_eq_true _ _ ▸ hcom with hcom | hcom
      · exact hcom
      · exact absurd (holds_of_commits hcall.rule hcall.answers hcom).1 hput
    · obtain ⟨ks, hks⟩ := Option.ne_none_iff_exists'.mp hput
      rw [hcall.view, put_observe hcall.rule hks] at hnone
      cases hnone

/-- A manifest that was committed is there behind the call. -/
theorem held_backup (h : Aged T s) (hcall : BackupCall s b proc op a w)
    (hcom : (b.after proc op s.world w).committed = true) :
    ∃ name m, w.Holds name m ∧ (b.after proc op s.world w).view.put = some m.blobKeys := by
  rw [hcall.view]
  rcases Bool.or_eq_true _ _ ▸ hcom with hcom | hcom
  · obtain ⟨name, m, hm, hput⟩ := h.held b hcall.mem hcom
    exact ⟨name, m, holds_backup hcall.rule hcall.answers hm, put_observe hcall.rule hput⟩
  · exact (holds_of_commits hcall.rule hcall.answers hcom).2

theorem backup (h : Aged T s) (hinv : s.Inv T) {c : Called Op Resp} (hs : s.backups = l ++ b :: r)
    (halive : b.alive = true) (hc : proc.hist = c :: b.proc.hist)
    (hstep : b.proc.Step Answers s.world proc w) :
    Aged T ⟨w, l ++ b.after proc c.1 s.world w :: r, s.gc⟩ := by
  have hb : b ∈ s.backups := by simp [hs]
  obtain ⟨op, a, hnext, hhist, hans, hobey⟩ := hstep.cases
  obtain rfl : c = ⟨op, a⟩ := List.head_eq_of_cons_eq (hc.symm.trans hhist)
  have hview : (b.after proc op s.world w).view = b.view.observe op a := by
    show backupWatch.view proc.hist = _
    rw [hhist]
    rfl
  have hcall : BackupCall s b proc op a w :=
    ⟨fun hput => ⟨halive, by simp [Proc.Running, hnext], hput⟩, hb, (hobey (hinv.obeys b hb)).1,
      hans, hview⟩
  refine ⟨fun x hx => ?_, fun x hx hlist hcounts hash hneed => ?_, fun x hx hcom => ?_⟩
  · rw [now_of_answers hans]
    rcases System.mem_replace (b := b) hx with rfl | hx
    · exact h.starts b hb
    · exact h.starts x (hs ▸ hx)
  · rcases System.mem_replace (b := b) hx with rfl | hx
    · exact h.origin_backup hinv hs hcall hlist hcounts hneed
    · have hx₀ : x ∈ s.backups := hs ▸ hx
      exact (h.origin x hx₀ hlist hcounts hash hneed).imp
        (fun hown => hown.backup hcall.rule hans (h.starts x hx₀)) (h.shared_backup hinv hs hcall)
  · rcases System.mem_replace (b := b) hx with rfl | hx
    · exact h.held_backup hcall hcom
    · obtain ⟨name, m, hm, hput⟩ := h.held x (hs ▸ hx) hcom
      exact ⟨name, m, holds_backup hcall.rule hans hm, hput⟩

end Aged

-- ---------------------------------------------------------------------------
-- Steps of `gc-all`
-- ---------------------------------------------------------------------------

/-- Of the blobs and manifests, a call of `gc-all` changes those only that it deletes, and
it deletes no manifest. -/
theorem get?_gcAll {strict : Bool} {gracePeriodHours : UInt64} {v : GcView} {op : Op}
    (hrule : GcRule (allTerms strict gracePeriodHours) v op) {w w' : World} {r : Resp op}
    (hans : Answers op w r w') {k : String} (hlock : k ≠ LOCK_KEY) (hk : k ∉ op.deletes) :
    w'.get? k = w.get? k := by
  cases op with
  | env e =>
    obtain ⟨-, rfl⟩ := hans
    rfl
  | s3 op =>
    cases (S3Answers.change hans).2 with
    | removes gone hsub hget => rw [hget, if_neg fun hmem => hk (hsub k hmem)]
    | writes key body hw hget =>
      have hne : k ≠ key := by
        rintro rfl
        cases op with
        | putObject key' body' ifMatch ifNoneMatch =>
          obtain ⟨rfl, -⟩ := hw
          exact hlock hrule.1
        | completeMultipartUpload => exact hrule
        | _ => exact hw
      rw [hget, if_neg hne]

theorem holds_gcAll {strict : Bool} {gracePeriodHours : UInt64} {v : GcView} {op : Op}
    (hrule : GcRule (allTerms strict gracePeriodHours) v op) {w w' : World} {r : Resp op}
    (hans : Answers op w r w') {name : String} {m : Manifest} (hm : w.Holds name m) :
    w'.Holds name m := by
  obtain ⟨o, ho, hb⟩ := hm
  refine ⟨o, ?_, hb⟩
  rw [get?_gcAll hrule hans (manifestKey_ne_lock name) ?_]
  · exact ho
  · intro hk
    match op, hrule, hk with
    | .s3 (.deleteObject key), hrule, hk =>
      obtain rfl := List.mem_singleton.mp hk
      rcases hrule with hlock | ⟨_, _, hmay⟩ | hfree
      · exact absurd hlock (manifestKey_ne_lock name)
      · exact hmay
      · obtain ⟨hash, hkey⟩ := hfree.isBlob
        exact absurd hkey (manifestKey_ne_blobRemoteKey name hash)
    | .s3 (.deleteObjects keys), hrule, hk =>
      obtain ⟨hash, hkey⟩ := (hrule _ hk).isBlob
      exact absurd hkey (manifestKey_ne_blobRemoteKey name hash)

/-- One call of `gc-all`. -/
structure GcCall (gracePeriodHours : UInt64) (s : System) (p p' : Proc Op Resp AnyError Unit)
    (op : Op) (a : Resp op) (w : World) : Prop where
  running : s.gc = some p
  rule : GcRule (allTerms true gracePeriodHours) (gcView p) op
  answers : Answers op s.world a w
  view : gcView p' = (gcView p).observe op a

namespace GcCall

variable {s : System} {gracePeriodHours : UInt64} {p p' : Proc Op Resp AnyError Unit} {op : Op}
  {a : Resp op} {w : World}

theorem holds (hcall : GcCall gracePeriodHours s p p' op a w) {name : String} {m : Manifest}
    (hm : s.world.Holds name m) : w.Holds name m :=
  holds_gcAll hcall.rule hcall.answers hm

/-- A manifest in the bucket is one that the listing shows. -/
theorem listed (hcall : GcCall gracePeriodHours s p p' op a w)
    (hlist : listsManifests ⟨op, a⟩ = true) {name k : String} {m : Manifest}
    (hm : s.world.Holds name m) (hk : k ∈ m.blobKeys) :
    System.Referenced (allTerms true gracePeriodHours)
      ⟨w, relist ⟨op, a⟩ s.backups, some p'⟩ k := by
  refine ⟨name, m, hcall.holds hm, hk, fun q names hq hl => ?_⟩
  obtain rfl := Option.some.inj hq
  rw [hcall.view] at hl ⊢
  exact System.accounted_of_listing hcall.answers hlist hl hm []

theorem referenced (hcall : GcCall gracePeriodHours s p p' op a w) {k : String}
    (hk : s.Referenced (allTerms true gracePeriodHours) k) :
    System.Referenced (allTerms true gracePeriodHours)
      ⟨w, relist ⟨op, a⟩ s.backups, some p'⟩ k := by
  obtain ⟨name, m, hm, hk, haccount⟩ := hk
  have hkeep : System.Keeps (allTerms true gracePeriodHours) (.gc ⟨op, a⟩) := by
    unfold System.Keeps
    split
    · rename_i heq
      cases heq
    · rfl
    · trivial
  cases hlist : listsManifests ⟨op, a⟩ with
  | true => exact hcall.listed hlist hm hk
  | false =>
    refine ⟨name, m, hcall.holds hm, hk, fun q names hq hl => ?_⟩
    obtain rfl := Option.some.inj hq
    rw [hcall.view] at hl ⊢
    rw [System.listed_observe_eq hlist] at hl
    rcases haccount p names hcall.running hl with ⟨hn, hset, hread⟩ | ⟨x, hx, -⟩
    · exact .inl ⟨hn, System.not_settled_observe hcall.answers hkeep (hcall.holds hm) hset,
        System.read_observe hcall.answers hm hread⟩
    · exact absurd hx List.not_mem_nil

/-- What a backup needs and has from itself is not deleted. -/
theorem own (hcall : GcCall gracePeriodHours s p p' op a w) (hspare : s.Spares (.gc ⟨op, a⟩))
    {x : BackupRun} (hx : x ∈ s.backups) (hlist : x.listed = false) (hcounts : x.Counts)
    {hash : String} (hneed : blobRemoteKey hash ∈ x.view.needs)
    (hown : x.Own s.world (blobRemoteKey hash)) : x.Own w (blobRemoteKey hash) := by
  rcases hown with hhead | ⟨o, ho, hyoung⟩
  · exact .inl hhead
  · refine .inr ⟨o, ?_, hyoung⟩
    have hdel : blobRemoteKey hash ∉ op.deletes := fun hdel =>
      hspare hash hdel ⟨o, ho⟩ ⟨x, hx, hlist, hcounts, hneed⟩
    rw [get?_gcAll hcall.rule hcall.answers (blobRemoteKey_ne_lock hash) hdel]
    exact ho

end GcCall

namespace Aged

variable {s : System} {gracePeriodHours : UInt64} {p p' : Proc Op Resp AnyError Unit} {op : Op}
  {a : Resp op} {w : World}

/-- A backup that a call of `gc-all` does not show was not shown before. -/
theorem unlisted_relist {T : GcTerms} (hinv : s.Inv T) {c : Called Op Resp} {x : BackupRun}
    (hx : x ∈ relist c s.backups) (hlist : x.listed = false) (hcounts : x.Counts) :
    ∃ x₀ ∈ s.backups, x.start = x₀.start ∧ x.view = x₀.view ∧ x₀.listed = false ∧ x₀.Counts := by
  obtain ⟨x₀, hx₀, rfl | rfl⟩ := System.mem_relist hx
  · exact ⟨x, hx₀, rfl, rfl, hlist, hcounts⟩
  · -- it is not shown by this listing: it has not committed
    have hcom : x₀.committed = false := hlist
    rcases hcounts with hcom' | hpending
    · rw [hcom] at hcom'
      cases hcom'
    · exact ⟨x₀, hx₀, rfl, rfl, System.pending_unlisted hinv hx₀ hpending.2.2, .inr hpending⟩

/-- What a backup needs has an origin behind a call that spares it. -/
theorem origin_gc (h : Aged (allTerms true gracePeriodHours) s)
    (hcall : GcCall gracePeriodHours s p p' op a w) (hspare : s.Spares (.gc ⟨op, a⟩))
    {x : BackupRun} (hx : x ∈ s.backups) (hlist : x.listed = false) (hcounts : x.Counts)
    {hash : String} (hneed : blobRemoteKey hash ∈ x.view.needs) :
    x.Own w (blobRemoteKey hash) ∨ System.Shared (allTerms true gracePeriodHours)
      ⟨w, relist ⟨op, a⟩ s.backups, some p'⟩ (blobRemoteKey hash) := by
  rcases h.origin x hx hlist hcounts hash hneed with hself | hother | hmanifest
  · exact .inl (hcall.own hspare hx hlist hcounts hneed hself)
  · obtain ⟨y, hy, hylist, hycom, hyneed, hyown⟩ := hother
    cases hlisting : listsManifests ⟨op, a⟩ with
    | true =>
      -- the listing shows the manifest of the other backup
      obtain ⟨name, m, hm, hput⟩ := h.held y hy hycom
      rw [BackupView.needs, hput] at hyneed
      exact .inr (.inr (hcall.listed hlisting hm hyneed))
    | false =>
      refine .inr (.inl ⟨y, ?_, hylist, hycom, hyneed,
        hcall.own hspare hy hylist (.inl hycom) hyneed hyown⟩)
      rw [relist, hlisting]
      exact hy
  · exact .inr (.inr (hcall.referenced hmanifest))

theorem gc (h : Aged (allTerms true gracePeriodHours) s)
    (hinv : s.Inv (allTerms true gracePeriodHours)) {c : Called Op Resp} (hs : s.gc = some p)
    (hc : p'.hist = c :: p.hist) (hstep : p.Step Answers s.world p' w)
    (hspare : s.Spares (.gc c)) :
    Aged (allTerms true gracePeriodHours) ⟨w, relist c s.backups, some p'⟩ := by
  obtain ⟨op, a, -, hhist, hans, hobey⟩ := hstep.cases
  obtain rfl : c = ⟨op, a⟩ := List.head_eq_of_cons_eq (hc.symm.trans hhist)
  have hview : gcView p' = (gcView p).observe op a := by
    unfold gcView
    rw [hhist]
    rfl
  have hcall : GcCall gracePeriodHours s p p' op a w :=
    ⟨hs, (hobey (hinv.gcObeys p hs)).1, hans, hview⟩
  refine ⟨fun x hx => ?_, fun x hx hlist hcounts hash hneed => ?_, fun x hx hcom => ?_⟩
  · rw [now_of_answers hans]
    obtain ⟨x₀, hx₀, rfl | rfl⟩ := System.mem_relist hx
    · exact h.starts x hx₀
    · exact h.starts x₀ hx₀
  · obtain ⟨x₀, hx₀, hstart, hxview, hlist₀, hcounts₀⟩ := unlisted_relist hinv hx hlist hcounts
    rw [hxview] at hneed
    refine (h.origin_gc hcall hspare hx₀ hlist₀ hcounts₀ hneed).imp (fun hown => ?_) fun hk => hk
    unfold BackupRun.Own at hown ⊢
    rwa [hxview, hstart]
  · obtain ⟨x₀, hx₀, rfl | rfl⟩ := System.mem_relist hx
    · obtain ⟨name, m, hm, hput⟩ := h.held x hx₀ hcom
      exact ⟨name, m, hcall.holds hm, hput⟩
    · obtain ⟨name, m, hm, hput⟩ := h.held x₀ hx₀ hcom
      exact ⟨name, m, hcall.holds hm, hput⟩

theorem step {json : Json} {s' : System} {l : Label}
    (h : Aged (allTerms true gracePeriodHours) s)
    (hinv : s.Inv (allTerms true gracePeriodHours)) (hstep : s.Step json l s')
    (hspare : s.Spares l) : Aged (allTerms true gracePeriodHours) s' := by
  cases hstep with
  | startBackup cfg name => exact h.startBackup json cfg name
  | startGc cmd hidle =>
    refine h.withGc ?_
    rintro p ⟨⟩
    rfl
  | backup hs halive hc hstep => exact h.backup hinv hs halive hc hstep
  | gc hs hc hstep => exact h.gc hinv hs hc hstep hspare
  | crashBackup hs => exact h.crashBackup hs
  | crashGc => exact h.withGc (by simp)
  | tick hnow => exact h.frame hnow (fun _ => rfl) fun _ _ hm => hm
  | @heartbeat info etag r w' hr =>
    -- the lock is put, as `gc-all` itself does it
    have hrule : GcRule (allTerms true gracePeriodHours) {}
        (.s3 (.putObject LOCK_KEY (.lock info) (some etag) false)) := ⟨rfl, info, rfl⟩
    have hans : Answers (.s3 (.putObject LOCK_KEY (.lock info) (some etag) false)) s.world r w' :=
      hr
    refine h.frame (now_of_answers hans).ge (fun hash => ?_) fun name m hm =>
      holds_gcAll hrule hans hm
    exact get?_gcAll hrule hans (blobRemoteKey_ne_lock hash) List.not_mem_nil

end Aged

-- ---------------------------------------------------------------------------
-- Runs
-- ---------------------------------------------------------------------------

end Chbk
