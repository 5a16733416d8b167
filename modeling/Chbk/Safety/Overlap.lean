import Chbk.Safety.Schedule

/-!
# `rm-snapshot` and `gc-live` beside backups

These two commands compute the blobs to delete once and have no age check, so a
backup that came to rely on a blob in the meantime loses it.

* `overlap_noDangling` — no manifest dangles as long as no delete takes a blob
  that a backup the listing does not show still needs.
* `overlap_dangles` — without that, a backup commits a manifest whose blob is
  gone: it has read the manifest that `rm-snapshot` then removes.
-/

namespace Chbk

open Lib Prog

-- ---------------------------------------------------------------------------
-- The runs
-- ---------------------------------------------------------------------------

/-- The commands that remove chosen manifests. -/
def GcCommand.Targeted : GcCommand → Prop
  | rmSnapshot .. | gcLive .. => True
  | gcAll .. => False

/-- Backups beside a command that removes manifests, whose own DELETEs do not
fail. -/
def Overlapping (_ : System) : Label → System → Prop
  | .startGc cmd, _ => cmd.Targeted
  | .gc ⟨.s3 (.deleteObject _), .error _⟩, _ => False
  | _, _ => True

/-- A manifest counts as gone when its DELETE was issued. -/
def targetedTerms : GcTerms := ⟨false, none, fun _ _ => True⟩

theorem cleans_targeted {cmd : GcCommand} (h : cmd.Targeted) (v : GcView) :
    Cleans targetedTerms cmd.prog v fun _ _ => True := by
  cases cmd with
  | gcAll => exact h.elim
  | rmSnapshot name dryRun =>
    have hsnap : Cleans (snapshotTerms false name) (gcSnapshot name dryRun) v fun _ _ => True :=
      follows_gcSnapshot name dryRun v
    refine Follows.weaken hsnap fun v' op hop => ?_
    exact @GcRule.mono (snapshotTerms false name) targetedTerms rfl (.inl rfl)
      (fun _ _ _ => trivial) v' op hop
  | gcLive all daily now dryRun =>
    refine Follows.weaken (follows_pruneOldLiveSnapshots all daily now dryRun v) fun v' op hop => ?_
    exact @GcRule.mono (pruneTerms all daily now) targetedTerms rfl (.inl rfl)
      (fun _ _ _ => trivial) v' op hop

theorem keeps_of_overlapping {s s' : System} {l : Label} (h : Overlapping s l s') :
    System.Keeps targetedTerms l := by
  cases l with
  | startGc cmd => exact cleans_targeted h
  | gc c =>
    unfold System.Keeps
    split
    · rename_i heq
      cases heq
    · rename_i key e heq
      obtain rfl := Label.gc.inj heq
      exact h.elim
    · trivial
  | _ => trivial

-- ---------------------------------------------------------------------------
-- Runs that spare what is needed
-- ---------------------------------------------------------------------------

/-- From a bucket where no manifest dangles, in every run whose deletes spare
the blobs that backups still need, no manifest ever dangles. -/
theorem overlap_noDangling (json : Json) (w : World) (hsafe : NoDangling w) (s : System)
    (hrun : (System.Idle w).Run json (fun s l s' => Overlapping s l s' ∧ s.Spares l) s) :
    NoDangling s.world := by
  have hstep : ∀ s s' : System, s.Inv targetedTerms →
      (∃ l, s.Step json l s' ∧ Overlapping s l s' ∧ s.Spares l) → s'.Inv targetedTerms := by
    rintro s s' hinv ⟨l, hstep, hover, hspare⟩
    exact hinv.step hstep (keeps_of_overlapping hover) hspare
  exact (invariant_of_step hstep (System.Inv.start hsafe) hrun).safe

instance : DecidablePred GcCommand.Targeted
  | .rmSnapshot .. | .gcLive .. => isTrue trivial
  | .gcAll .. => isFalse id

/-- The check `Overlapping` makes of a step. -/
def overlapping : Label → Bool
  | .startGc cmd => decide cmd.Targeted
  | .gc ⟨.s3 (.deleteObject _), .error _⟩ => false
  | _ => true

theorem overlapping_iff (s s' : System) (l : Label) :
    overlapping l = true ↔ Overlapping s l s' := by
  unfold overlapping
  split
  · exact decide_eq_true_iff
  · simp [Overlapping]
  · rename_i hstart hdel
    simp only [true_iff]
    unfold Overlapping
    split
    · exact absurd rfl (hstart _)
    · exact absurd rfl (hdel _ _)
    · trivial

/-- The check `System.Spares` makes of a step, for all keys at once. -/
def System.spares (s : System) : Label → Bool
  | .gc c => c.1.deletes.all fun k => (s.world.get? k).isNone || s.backups.all fun b =>
      b.listed || !(b.committed || (b.alive && b.proc.next?.isSome && b.view.put.isNone))
        || decide (k ∉ b.view.needs)
  | _ => true

theorem System.spares_of_check {s : System} {l : Label} (h : s.spares l = true) : s.Spares l := by
  unfold Spares
  split
  · rename_i c
    intro hash hdel ⟨o, ho⟩ ⟨b, hb, hlist, hcounts, hneed⟩
    have hk := List.all_eq_true.mp h _ hdel
    rw [ho, Option.isNone_some, Bool.false_or] at hk
    have hall := List.all_eq_true.mp hk b hb
    have hcount : (b.committed || (b.alive && b.proc.next?.isSome && b.view.put.isNone)) = true := by
      rcases hcounts with hcom | ⟨halive, hrun, hput⟩
      · simp [hcom]
      · have hrun' : b.proc.next?.isSome = true := hrun
        simp [halive, hrun', hput]
    simp [hlist, hcount, hneed] at hall
  · trivial

/-- `rm-snapshot` runs between a backup's query and its listing. -/
def sparingRun : List Choice :=
  .startBackup siteConfig (some "snap1") :: List.replicate 2 (.backup 0 served)
    ++ .startGc (.rmSnapshot "live_s1_r1_a" false) :: List.replicate 25 (.gc served)
    ++ List.replicate 23 (.backup 0 served)

theorem overlap_noDangling_sparing : ∃ s, (System.Idle (siteWorld "live_s1_r1_a")).Run siteJson
    (fun s l s' => Overlapping s l s' ∧ s.Spares l) s ∧
    s.world.missing "snap1" = some [] ∧ NoDangling s.world := by
  have hend : (worldAfter (fun s l => overlapping l && s.spares l) sparingRun
      (System.Idle (siteWorld "live_s1_r1_a"))).any
      (fun w => decide (w.missing "snap1" = some [])) = true := by
    decide +kernel
  have hok : ∀ s l s', (overlapping l && s.spares l) = true →
      Overlapping s l s' ∧ s.Spares l := by
    intro s l s' h
    obtain ⟨hover, hspare⟩ := Bool.and_eq_true_iff.mp h
    exact ⟨(overlapping_iff s s' l).mp hover, System.spares_of_check hspare⟩
  have hsafe : NoDangling (siteWorld "live_s1_r1_a") :=
    noDangling_of_complete (by decide +kernel)
  obtain ⟨s, hrun, hs⟩ := run_of_worldAfter hok hend
  exact ⟨s, hrun, of_decide_eq_true hs, overlap_noDangling siteJson _ hsafe s hrun⟩

-- ---------------------------------------------------------------------------
-- A run that does not
-- ---------------------------------------------------------------------------

/-- `rm-snapshot` removes the manifest, and the blob only it has, after a backup
has read it. -/
def knownHashRun : List Choice :=
  .startBackup siteConfig (some "snap1") :: List.replicate 4 (.backup 0 served)
    ++ .startGc (.rmSnapshot "live_s1_r1_a" false) :: List.replicate 25 (.gc served)
    ++ List.replicate 13 (.backup 0 served)

/-- From a bucket where no manifest dangles, a backup beside `rm-snapshot` ends
with a manifest that does. -/
theorem overlap_dangles : ¬ ∀ (json : Json) (w : World), NoDangling w → ∀ s : System,
    (System.Idle w).Run json Overlapping s → NoDangling s.world := by
  intro hall
  have hend : (worldAfter (fun _ l => overlapping l) knownHashRun
      (System.Idle (siteWorld "live_s1_r1_a"))).any
      (fun w => decide (w.missing "snap1" = some [blobRemoteKey siteHash])) = true := by
    decide +kernel
  have hok : ∀ s l s', overlapping l = true → Overlapping s l s' :=
    fun s l s' h => (overlapping_iff s s' l).mp h
  have hsafe : NoDangling (siteWorld "live_s1_r1_a") :=
    noDangling_of_complete (by decide +kernel)
  obtain ⟨s, hrun, hs⟩ := run_of_worldAfter hok hend
  exact not_noDangling_of_missing (of_decide_eq_true hs) (hall siteJson _ hsafe s hrun)

end Chbk
