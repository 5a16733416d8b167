import Chbk.Safety.Schedule

/-!
# Commands one after the other

Backups, `gc-all` and `rm-snapshot` on one bucket, each started when the one
before it has ended, failed or crashed. While a cleanup command runs no backup
is under way, and every backup that has committed did so before the listing; so
nothing it deletes is needed.

* `sequential_noDangling` — from an empty bucket on, no manifest ever dangles.
-/

namespace Chbk

open Lib Prog

-- ---------------------------------------------------------------------------
-- The runs
-- ---------------------------------------------------------------------------

/-- No command is under way. -/
def System.Quiescent (s : System) : Prop :=
  (∀ b ∈ s.backups, b.alive = true → ¬ b.proc.Running) ∧ ∀ p, s.gc = some p → ¬ p.Running

/-- The commands a sequence is made of, next to the backups. -/
def GcCommand.InSequence : GcCommand → Prop
  | gcAll .. | rmSnapshot .. => True
  | gcLive .. => False

/-- A command starts when none is under way. -/
def Sequential (s : System) : Label → System → Prop
  | .startBackup, _ => s.Quiescent
  | .startGc cmd, _ => s.Quiescent ∧ cmd.InSequence
  | _, _ => True

-- ---------------------------------------------------------------------------
-- Both commands keep to the same terms
-- ---------------------------------------------------------------------------

/-- A manifest counts as gone when its DELETE succeeded; nothing else is asked. -/
def sequenceTerms : GcTerms := ⟨true, none, fun _ _ => True⟩

theorem cleans_inSequence {cmd : GcCommand} (h : cmd.InSequence) (v : GcView) :
    Cleans sequenceTerms cmd.prog v fun _ _ => True := by
  cases cmd with
  | gcAll dryRun hours =>
    -- `gc-all` deletes no manifest and asks for an age on top
    have hall : Cleans (allTerms true hours) (gcAllBlobs dryRun hours) v fun _ _ => True :=
      follows_gcAllBlobs dryRun hours v
    refine Follows.weaken hall fun v' op hop => ?_
    exact @GcRule.mono (allTerms true hours) sequenceTerms rfl (.inl rfl) (fun _ _ hd => hd.elim) v' op hop
  | rmSnapshot name dryRun =>
    have hsnap : Cleans (snapshotTerms true name) (gcSnapshot name dryRun) v fun _ _ => True :=
      follows_gcSnapshot name dryRun v
    refine Follows.weaken hsnap fun v' op hop => ?_
    exact @GcRule.mono (snapshotTerms true name) sequenceTerms rfl (.inl rfl) (fun _ _ _ => trivial) v' op hop
  | gcLive => exact h.elim

-- ---------------------------------------------------------------------------
-- What holds while a cleanup command runs
-- ---------------------------------------------------------------------------

/-- No backup is under way, and the listing shows every commit. -/
structure Alone (s : System) (p : Proc Op Resp AnyError Unit) : Prop where
  ended : ∀ b ∈ s.backups, b.alive = true → ¬ b.proc.Running
  listed : (gcView p).listed ≠ none → ∀ b ∈ s.backups, b.committed = true → b.listed = true

/-- A running cleanup command is alone. -/
def System.Alternates (s : System) : Prop := ∀ p, s.gc = some p → p.Running → Alone s p

theorem running_of_step {α : Type} {p p' : Proc Op Resp AnyError α} {w w' : World}
    (h : p.Step Answers w p' w') : p.Running := by
  obtain ⟨op, r, hnext, -⟩ := h.cases
  rw [Proc.Running, hnext]
  rfl

theorem System.Alternates.gc {s : System} (h : s.Alternates) {p p' : Proc Op Resp AnyError Unit}
    {w : World} {c : Called Op Resp} (hs : s.gc = some p) (hc : p'.hist = c :: p.hist)
    (hstep : p.Step Answers s.world p' w) :
    System.Alternates ⟨w, relist c s.backups, some p'⟩ := by
  intro q hq _
  obtain rfl := Option.some.inj hq
  have halone : Alone s p := h p hs (running_of_step hstep)
  have hview : gcView p' = (gcView p).observe c.1 c.2 := by
    unfold gcView
    rw [hc]
    rfl
  constructor
  · intro b hb
    obtain ⟨b₀, hb₀, rfl | rfl⟩ := mem_relist hb
    · exact halone.ended b hb₀
    · exact halone.ended b₀ hb₀
  · intro hl b hb hcom
    cases hlist : listsManifests c with
    | true =>
      -- the listing of this step: each flag is set anew
      rw [relist, hlist, if_pos rfl] at hb
      obtain ⟨b₀, -, rfl⟩ := List.mem_map.mp hb
      exact hcom
    | false =>
      rw [relist, hlist] at hb
      rw [hview, System.listed_observe_eq hlist] at hl
      exact halone.listed hl b hb hcom

/-- A step that starts from an idle system, or leaves the cleanup command as it
is and ends no backup's rest. -/
theorem System.Alternates.step {json : Json} {s s' : System} {l : Label} (h : s.Alternates)
    (hstep : s.Step json l s') (hseq : Sequential s l s') : s'.Alternates := by
  cases hstep with
  | startBackup cfg name =>
    -- no cleanup command runs
    intro p hp hrun
    exact absurd hrun (hseq.2 p hp)
  | startGc cmd hidle =>
    intro p hp _
    obtain rfl := Option.some.inj hp
    refine ⟨hseq.1.1, fun hl => ?_⟩
    exact absurd rfl hl
  | @backup l r b w proc c hs halive hc hstep =>
    -- a backup that moves is under way, so no cleanup command runs
    intro p hp hrun
    have hb : b ∈ s.backups := by simp [hs]
    exact absurd (running_of_step hstep) ((h p hp hrun).ended b hb halive)
  | gc hs hc hstep => exact h.gc hs hc hstep
  | @crashBackup l r b hs =>
    intro p hp hrun
    have halone := h p hp hrun
    have hb : b ∈ s.backups := by simp [hs]
    constructor
    · intro x hx
      rcases mem_replace (b := b) hx with rfl | hx
      · intro halive
        cases halive
      · exact halone.ended x (hs ▸ hx)
    · intro hl x hx hcom
      rcases mem_replace (b := b) hx with rfl | hx
      · exact halone.listed hl b hb hcom
      · exact halone.listed hl x (hs ▸ hx) hcom
  | crashGc =>
    intro p hp
    cases hp
  | tick hnow => exact fun p hp hrun => ⟨(h p hp hrun).ended, (h p hp hrun).listed⟩
  | heartbeat hr => exact fun p hp hrun => ⟨(h p hp hrun).ended, (h p hp hrun).listed⟩

/-- A cleanup command that is alone deletes nothing that is needed. -/
theorem System.Alternates.spares {T : GcTerms} {json : Json} {s s' : System} {l : Label}
    (h : s.Alternates) (hinv : s.Inv T) (hstep : s.Step json l s') : s.Spares l := by
  cases hstep with
  | @gc p p' w c hs hc hstep =>
    intro hash hdel _ ⟨b, hb, hlist, hcounts, _⟩
    obtain ⟨op, a, -, hhist, -, hobey⟩ := hstep.cases
    obtain rfl : c = ⟨op, a⟩ := List.head_eq_of_cons_eq (hc.symm.trans hhist)
    have halone : Alone s p := h p hs (running_of_step hstep)
    -- a delete of a blob has a listing before it
    have hfree := blobFree_of_deletes (hobey (hinv.gcObeys p hs)).1 hdel
    obtain ⟨names, hl, -⟩ := hfree.unreferenced
    rcases hcounts with hcom | ⟨halive, hrun, -⟩
    · have hsome : (gcView p).listed ≠ none := by
        rw [gcView, hl]
        exact Option.some_ne_none names
      have := halone.listed hsome b hb hcom
      rw [hlist] at this
      cases this
    · exact halone.ended b hb halive hrun
  | _ => trivial

-- ---------------------------------------------------------------------------
-- Runs
-- ---------------------------------------------------------------------------

theorem keeps_of_sequential {s s' : System} {l : Label} (h : Sequential s l s') :
    System.Keeps sequenceTerms l := by
  cases l with
  | startGc cmd => exact cleans_inSequence h.2
  | gc c =>
    -- the terms are strict
    unfold System.Keeps
    split
    · rename_i heq
      cases heq
    · rfl
    · trivial
  | _ => trivial

theorem sequential_inv {json : Json} {s s' : System} (hinv : s.Inv sequenceTerms)
    (halt : s.Alternates) (hrun : s.Run json Sequential s') :
    s'.Inv sequenceTerms ∧ s'.Alternates := by
  refine invariant_of_step (I := fun s => s.Inv sequenceTerms ∧ s.Alternates) ?_ ⟨hinv, halt⟩ hrun
  rintro s s' ⟨hinv, halt⟩ ⟨l, hstep, hseq⟩
  have hspare := halt.spares hinv hstep
  exact ⟨hinv.step hstep (keeps_of_sequential hseq) hspare, halt.step hstep hseq⟩

/-- Commands run one after the other from an empty bucket, with any calls
failing: in every state on the way each blob of each manifest is there. -/
theorem sequential_noDangling (json : Json) (w : World) (hempty : w.objects = []) (s : System)
    (hrun : (System.Idle w).Run json Sequential s) : NoDangling s.world := by
  have hstart : NoDangling w := by
    rintro name m ⟨o, ho, -⟩
    rw [World.get?, hempty] at ho
    cases ho
  have halt : (System.Idle w).Alternates := by
    intro p hp
    cases hp
  exact (sequential_inv (System.Inv.start hstart) halt hrun).1.safe

instance {α : Type} (p : Proc Op Resp AnyError α) : Decidable p.Running :=
  inferInstanceAs (Decidable (_ = true))

instance (s : System) : Decidable s.Quiescent :=
  inferInstanceAs (Decidable (_ ∧ ∀ p, p ∈ s.gc → ¬ p.Running))

instance : DecidablePred GcCommand.InSequence
  | .gcAll .. | .rmSnapshot .. => isTrue trivial
  | .gcLive .. => isFalse id

instance (s s' : System) : (l : Label) → Decidable (Sequential s l s')
  | .startBackup => inferInstanceAs (Decidable s.Quiescent)
  | .startGc cmd => inferInstanceAs (Decidable (s.Quiescent ∧ cmd.InSequence))
  | .backup .. | .gc _ | .crashBackup | .crashGc | .tick _ | .heartbeat => isTrue trivial

/-- A backup whose manifest is written although the PUT fails, and an
`rm-snapshot` that fails at the DELETE of that manifest. -/
def failingSequence : List Choice :=
  .startBackup siteConfig (some "snap1") :: List.replicate 24 (.backup 0 served)
    ++ .backup 0 (lost true) :: .startGc (.rmSnapshot "snap1" false)
    :: List.replicate 15 (.gc served) ++ [.gc (lost false)]

theorem sequential_noDangling_failing : ∃ s, (System.Idle {}).Run siteJson Sequential s ∧
    s.world.missing "snap1" = some [] ∧ NoDangling s.world := by
  have hend : (worldAfter (fun s l => decide (Sequential s l s)) failingSequence
      (System.Idle {})).any (fun w => decide (w.missing "snap1" = some [])) = true := by
    decide +kernel
  have hok : ∀ s l s', decide (Sequential s l s) = true → Sequential s l s' := by
    intro s l s' h
    cases l <;> exact of_decide_eq_true h
  obtain ⟨s, hrun, hs⟩ := run_of_worldAfter hok hend
  exact ⟨s, hrun, of_decide_eq_true hs, sequential_noDangling siteJson {} rfl s hrun⟩

end Chbk
