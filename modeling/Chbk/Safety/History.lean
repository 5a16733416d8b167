import Chbk.Lib.Tiers
import Chbk.Safety.Retention

/-!
# Retention over a history of runs

What `compute_prune_set` keeps at the end of a history, whatever happened before:
runs at other times, with other settings, and runs that stopped half way.

* `GenerousRuns` — the histories: no run was stricter than the last one will be.
* `keptTimes_eq` — one run keeps the tiers of the times.
* `generous_inv` — along a history all that the last run would keep is there.
* `retention_history` — the last run leaves what it would have left if no other
  had ever run.
* `retention_settings` — longer retention keeps more.
-/

namespace Chbk

open Lib

-- ---------------------------------------------------------------------------
-- Times
-- ---------------------------------------------------------------------------

/-- The times of a list of snapshots. -/
def timesOf (l : List (String × Int)) : Set Int := {ts | ∃ x ∈ l, x.2 = ts}

/-- What a run leaves of a list. -/
def survivors (l : List (String × Int)) (all : UInt64) (daily : Option UInt64) (now : Int) :
    List (String × Int) :=
  l.filter fun x => x.1 ∉ computePruneSet l all daily now

theorem timesOf_finite (l : List (String × Int)) : (timesOf l).Finite := by
  refine (l.map Prod.snd).finite_toSet.subset ?_
  rintro ts ⟨x, hx, rfl⟩
  exact List.mem_map.mpr ⟨x, hx, rfl⟩

theorem timesOf_mono {l l' : List (String × Int)} (h : ∀ x ∈ l, x ∈ l') :
    timesOf l ⊆ timesOf l' := by
  rintro ts ⟨x, hx, rfl⟩
  exact ⟨x, h x hx, rfl⟩

theorem timesOf_perm {l l' : List (String × Int)} (h : l.Perm l') : timesOf l = timesOf l' :=
  Set.Subset.antisymm (timesOf_mono fun _ hx => h.mem_iff.mp hx)
    (timesOf_mono fun _ hx => h.mem_iff.mpr hx)

theorem mem_survivors {l : List (String × Int)} {all : UInt64} {daily : Option UInt64} {now : Int}
    {x : String × Int} :
    x ∈ survivors l all daily now ↔ x ∈ l ∧ x.1 ∉ computePruneSet l all daily now := by
  unfold survivors
  rw [List.mem_filter, decide_eq_true_iff]

/-- The times that a prune set leaves are the tiers of the times. -/
theorem Tiered.keptTimes {allCutoff : Int} {dailyCutoff : Option Int} {day : Int → Int}
    {l : List (String × Int)} {pruned : List String} (h : Tiered allCutoff dailyCutoff day l pruned)
    (hnodup : (l.map Prod.fst).Nodup) (ts : Int) :
    (∃ x ∈ l, x.1 ∉ pruned ∧ x.2 = ts) ↔
      ts ∈ tierKeep id day allCutoff dailyCutoff (timesOf l) := by
  constructor
  · rintro ⟨x, hx, hkept, rfl⟩
    refine ⟨⟨x, hx, rfl⟩, ?_⟩
    rcases le_or_gt allCutoff x.2 with hge | hlt
    · exact .inl hge
    -- an old one that is kept is the latest of its day
    cases hc : dailyCutoff with
    | none => exact absurd (h.plain hc x hx hlt) hkept
    | some c =>
      rcases lt_or_ge x.2 c with hlow | hcx
      · exact absurd (h.belowBoth c hc x hx hlt hlow) hkept
      obtain ⟨y, -, -, -, -, hall⟩ := h.oneADay c hc x hx ⟨hcx, hlt⟩
      have hxy : x = y := by
        by_contra hne
        exact hkept ((hall x hx ⟨hcx, hlt⟩ rfl).2 hne)
      refine .inr ⟨c, rfl, hcx, ?_⟩
      rintro z ⟨w, hw, rfl⟩ hcw hwlt hwd
      have hle := (hall w hw ⟨hcw, hwlt⟩ hwd).1
      rw [← hxy] at hle
      exact hle
  · rintro ⟨⟨x, hx, rfl⟩, hkeep⟩
    rcases lt_or_ge x.2 allCutoff with hlt | hge
    · obtain ⟨c, hc, hcx, hmax⟩ := hkeep.resolve_left (not_le.mpr hlt)
      obtain ⟨y, hy, hyw, hyd, hykept, hall⟩ := h.oneADay c hc x hx ⟨hcx, hlt⟩
      refine ⟨y, hy, hykept, le_antisymm ?_ (hall x hx ⟨hcx, hlt⟩ rfl).1⟩
      exact hmax y.2 ⟨y, hy, rfl⟩ hyw.1 hyw.2 hyd
    · refine ⟨x, hx, fun hn => ?_, rfl⟩
      obtain ⟨y, hy, hname, hlt⟩ := h.old x.1 hn
      obtain rfl := eq_of_name hnodup hy hx hname
      exact absurd hlt (not_lt.mpr hge)

/-- **One run keeps the tiers of the times.** -/
theorem keptTimes_eq {l : List (String × Int)} {all : UInt64} {daily : Option UInt64} {now : Int}
    (hnodup : (l.map Prod.fst).Nodup) (hrange : ∀ x ∈ l, inDateRange x.2 = true)
    (hall : RetentionFits now all) (hdaily : ∀ d ∈ daily, RetentionFits now d) :
    timesOf (survivors l all daily now) =
      tierKeep id utcDay (allCutoffOf all now) (dailyCutoffOf daily now) (timesOf l) := by
  have htiers := computePruneSet_exact hnodup hrange hall hdaily
  ext ts
  rw [← htiers.keptTimes hnodup ts]
  constructor
  · rintro ⟨x, hx, rfl⟩
    obtain ⟨hxl, hkept⟩ := mem_survivors.mp hx
    exact ⟨x, hxl, hkept, rfl⟩
  · rintro ⟨x, hxl, hkept, rfl⟩
    exact ⟨x, mem_survivors.mpr ⟨hxl, hkept⟩, rfl⟩

-- ---------------------------------------------------------------------------
-- Histories
-- ---------------------------------------------------------------------------

/-- The cutoffs of a run are no later than these. -/
def Generous (recent : Int) (reach : Option Int) (all : UInt64) (daily : Option UInt64)
    (now : Int) : Prop :=
  allCutoffOf all now ≤ recent ∧ ReachesBack (dailyCutoffOf daily now) reach

/-- The snapshots there are and all there ever were, after runs of any settings at any
times, none stricter than the two cutoffs. Snapshots arrive in between, and a run may
stop after it deleted a part of its prune set. -/
inductive GenerousRuns (recent : Int) (reach : Option Int) :
    List (String × Int) → List (String × Int) → Prop
  | start {l : List (String × Int)} (hnodup : (l.map Prod.fst).Nodup) :
      GenerousRuns recent reach l l
  | arrive {present ever : List (String × Int)} {x : String × Int}
      (h : GenerousRuns recent reach present ever) (hnew : x.1 ∉ ever.map Prod.fst) :
      GenerousRuns recent reach (x :: present) (x :: ever)
  | prune {present ever l left : List (String × Int)} {all : UInt64} {daily : Option UInt64}
      {now : Int} (h : GenerousRuns recent reach present ever) (hl : l.Perm present)
      (hgenerous : Generous recent reach all daily now) (hall : RetentionFits now all)
      (hdaily : ∀ d ∈ daily, RetentionFits now d) (hleft : left.Sublist l)
      (hkept : ∀ x ∈ survivors l all daily now, x ∈ left) :
      GenerousRuns recent reach left ever

/-- What holds along a history. -/
structure GenerousInv (recent : Int) (reach : Option Int) (present ever : List (String × Int)) :
    Prop where
  sub : ∀ x ∈ present, x ∈ ever
  nodupEver : (ever.map Prod.fst).Nodup
  nodup : (present.map Prod.fst).Nodup
  kept : tierKeep id utcDay recent reach (timesOf ever) ⊆ timesOf present

/-- A run that is no stricter, or a part of one. -/
theorem GenerousInv.prune {recent : Int} {reach : Option Int}
    {present ever l left : List (String × Int)} {all : UInt64} {daily : Option UInt64} {now : Int}
    (h : GenerousInv recent reach present ever) (hl : l.Perm present)
    (hgenerous : Generous recent reach all daily now) (hall : RetentionFits now all)
    (hdaily : ∀ d ∈ daily, RetentionFits now d) (hleft : left.Sublist l)
    (hkept : ∀ x ∈ survivors l all daily now, x ∈ left)
    (hrange : ∀ x ∈ ever, inDateRange x.2 = true) : GenerousInv recent reach left ever := by
  have hmem : ∀ x ∈ l, x ∈ ever := fun x hx => h.sub x (hl.mem_iff.mp hx)
  have hnodup : (l.map Prod.fst).Nodup := (hl.map Prod.fst).nodup_iff.mpr h.nodup
  have hone := keptTimes_eq hnodup (fun x hx => hrange x (hmem x hx)) hall hdaily
  refine ⟨fun x hx => hmem x (hleft.subset hx), h.nodupEver, (hleft.map Prod.fst).nodup hnodup, ?_⟩
  intro ts hts
  have hpresent : ts ∈ timesOf l := by
    rw [timesOf_perm hl]
    exact h.kept hts
  have hkeep : ts ∈ tierKeep id utcDay recent reach (timesOf l) :=
    tierKeep_inter (timesOf_mono hmem) ⟨hts, hpresent⟩
  have hsurvives : ts ∈ timesOf (survivors l all daily now) := by
    rw [hone]
    exact tierKeep_mono hgenerous.1 hgenerous.2 hkeep
  exact timesOf_mono hkept hsurvives

/-- **Along a history** all that the two cutoffs keep of what ever was is there. -/
theorem generous_inv {recent : Int} {reach : Option Int} {present ever : List (String × Int)}
    (h : GenerousRuns recent reach present ever) (hrange : ∀ x ∈ ever, inDateRange x.2 = true) :
    GenerousInv recent reach present ever := by
  induction h with
  | start hnodup => exact ⟨fun _ hx => hx, hnodup, hnodup, tierKeep_subset⟩
  | @arrive present ever x _ hnew ih =>
    have hinv := ih fun y hy => hrange y (List.mem_cons_of_mem _ hy)
    have hnew' : x.1 ∉ present.map Prod.fst := by
      intro hin
      obtain ⟨y, hy, hname⟩ := List.mem_map.mp hin
      exact hnew (List.mem_map.mpr ⟨y, hinv.sub y hy, hname⟩)
    refine ⟨?_, List.nodup_cons.mpr ⟨hnew, hinv.nodupEver⟩, List.nodup_cons.mpr ⟨hnew', hinv.nodup⟩,
      ?_⟩
    · intro y hy
      rcases List.mem_cons.mp hy with rfl | hy
      · exact List.mem_cons_self ..
      · exact List.mem_cons_of_mem _ (hinv.sub y hy)
    · intro ts hts
      obtain ⟨y, hy, rfl⟩ := hts.1
      rcases List.mem_cons.mp hy with rfl | hy
      · exact ⟨y, List.mem_cons_self .., rfl⟩
      · have hkeep := tierKeep_inter (timesOf_mono fun z hz => List.mem_cons_of_mem x hz)
          ⟨hts, ⟨y, hy, rfl⟩⟩
        exact timesOf_mono (fun z hz => List.mem_cons_of_mem x hz) (hinv.kept hkeep)
  | prune _ hl hgenerous hall hdaily hleft hkept ih =>
    exact (ih hrange).prune hl hgenerous hall hdaily hleft hkept hrange

-- ---------------------------------------------------------------------------
-- Names
-- ---------------------------------------------------------------------------

/-- Where all times differ, a snapshot is known by its time. -/
theorem mem_of_times {ever l l' : List (String × Int)} (hdistinct : (ever.map Prod.snd).Nodup)
    (hl : ∀ x ∈ l, x ∈ ever) (hl' : ∀ x ∈ l', x ∈ ever) (h : timesOf l ⊆ timesOf l') :
    ∀ x ∈ l, x ∈ l' := by
  intro x hx
  obtain ⟨y, hy, hyx⟩ := h ⟨x, hx, rfl⟩
  obtain rfl := List.inj_on_of_nodup_map hdistinct (hl' y hy) (hl x hx) hyx
  exact hy

theorem survivors_subset {l : List (String × Int)} {all : UInt64} {daily : Option UInt64}
    {now : Int} : ∀ x ∈ survivors l all daily now, x ∈ l := fun _ hx => (mem_survivors.mp hx).1

/-- **Retention forgets its history**: after runs none of which was stricter than
this one is, this one leaves the times that one run over all that ever was leaves, and
the same snapshots where no two have the same time. -/
theorem retention_history (all : UInt64) (daily : Option UInt64) (now : Int)
    (present ever l : List (String × Int)) (hall : RetentionFits now all)
    (hdaily : ∀ d ∈ daily, RetentionFits now d)
    (h : GenerousRuns (allCutoffOf all now) (dailyCutoffOf daily now) present ever)
    (hl : l.Perm present) (hrange : ∀ x ∈ ever, inDateRange x.2 = true) :
    timesOf (survivors l all daily now) = timesOf (survivors ever all daily now) ∧
    ((ever.map Prod.snd).Nodup →
      ∀ x, x ∈ survivors l all daily now ↔ x ∈ survivors ever all daily now) := by
  obtain ⟨hsub, hnodupEver, hnodup, hkept⟩ := generous_inv h hrange
  have hmem : ∀ x ∈ l, x ∈ ever := fun x hx => hsub x (hl.mem_iff.mp hx)
  have htimes : timesOf (survivors l all daily now) = timesOf (survivors ever all daily now) := by
    calc timesOf (survivors l all daily now)
      _ = tierKeep id utcDay (allCutoffOf all now) (dailyCutoffOf daily now) (timesOf l) :=
          keptTimes_eq ((hl.map Prod.fst).nodup_iff.mpr hnodup) (fun x hx => hrange x (hmem x hx))
            hall hdaily
      _ = tierKeep id utcDay (allCutoffOf all now) (dailyCutoffOf daily now) (timesOf ever) := by
          rw [timesOf_perm hl]
          exact tierKeep_of_between (timesOf_finite ever) hkept (timesOf_mono hsub)
      _ = timesOf (survivors ever all daily now) :=
          (keptTimes_eq hnodupEver hrange hall hdaily).symm
  refine ⟨htimes, fun hdistinct x => ⟨?_, ?_⟩⟩
  · exact mem_of_times hdistinct (fun y hy => hmem y (survivors_subset y hy)) survivors_subset
      htimes.subset x
  · exact mem_of_times hdistinct survivors_subset (fun y hy => hmem y (survivors_subset y hy))
      htimes.superset x

theorem retentionFits_sample {now : Int} (hnow : now = 1699999000 ∨ now = 1700000000)
    {minutes : UInt64} (hminutes : minutes = 60 ∨ minutes = 14400) : RetentionFits now minutes := by
  unfold RetentionFits
  rcases hnow with rfl | rfl <;> rcases hminutes with rfl | rfl <;> decide

/-- Two runs before, the first of which stopped before it deleted anything, and one
snapshot in between. -/
theorem retention_history_threeSnapshots :
    ∃ present : List (String × Int), ("live_a", 1699661000) ∉ present ∧
    timesOf (survivors present 60 (some 14400) 1700000000) =
      timesOf (survivors (("live_d", 1699999995) :: threeSnapshots) 60 (some 14400)
        1700000000) := by
  have hfits : ∀ now : Int, now = 1699999000 ∨ now = 1700000000 →
      RetentionFits now 60 ∧ ∀ d ∈ (some 14400 : Option UInt64), RetentionFits now d := by
    intro now hnow
    refine ⟨retentionFits_sample hnow (.inl rfl), ?_⟩
    rintro d ⟨⟩
    exact retentionFits_sample hnow (.inr rfl)
  have hgenerous : Generous (allCutoffOf 60 1700000000) (dailyCutoffOf (some 14400) 1700000000)
      60 (some 14400) 1699999000 := by
    refine ⟨by decide, ?_⟩
    rintro c ⟨⟩
    exact ⟨_, rfl, by decide⟩
  have hall : RetentionFits 1699999000 60 := (hfits _ (.inl rfl)).1
  have hdaily : ∀ d ∈ (some 14400 : Option UInt64), RetentionFits 1699999000 d :=
    (hfits _ (.inl rfl)).2
  have hfirst : GenerousRuns (allCutoffOf 60 1700000000) (dailyCutoffOf (some 14400) 1700000000)
      threeSnapshots threeSnapshots :=
    .prune (.start (by decide)) (List.Perm.refl _) hgenerous hall hdaily (List.Sublist.refl _)
      survivors_subset
  refine ⟨("live_d", 1699999995) :: survivors threeSnapshots 60 (some 14400) 1699999000, ?_, ?_⟩
  · decide +kernel
  · refine (retention_history 60 (some 14400) 1700000000 _ _ _ (hfits _ (.inr rfl)).1
      (hfits _ (.inr rfl)).2 ?_ (List.Perm.refl _) (by decide)).1
    exact .arrive (.prune hfirst (List.Perm.refl _) hgenerous hall hdaily List.filter_sublist
      fun _ hx => hx) (by decide)

-- ---------------------------------------------------------------------------
-- Settings
-- ---------------------------------------------------------------------------

/-- **Longer retention keeps more**: with more minutes in each tier, and a daily tier
where there was one, every time that was kept is kept, and every snapshot where no two
have the same time. -/
theorem retention_settings (l : List (String × Int)) (all all' : UInt64)
    (daily daily' : Option UInt64) (now : Int) (hnodup : (l.map Prod.fst).Nodup)
    (hrange : ∀ x ∈ l, inDateRange x.2 = true) (hle : all ≤ all')
    (hdailyLe : ∀ d ∈ daily, ∃ d' ∈ daily', d ≤ d') (hall' : RetentionFits now all')
    (hdaily : ∀ d ∈ daily, RetentionFits now d) (hdaily' : ∀ d ∈ daily', RetentionFits now d) :
    timesOf (survivors l all daily now) ⊆ timesOf (survivors l all' daily' now) ∧
    ((l.map Prod.snd).Nodup → ∀ n ∈ computePruneSet l all' daily' now,
      n ∈ computePruneSet l all daily now) := by
  have hleNat : all.toNat ≤ all'.toNat := UInt64.le_iff_toNat_le.mp hle
  have hall : RetentionFits now all := by
    obtain ⟨hsecs, hlo, hhi⟩ := hall'
    exact ⟨by omega, by omega, hhi⟩
  have hrecent : allCutoffOf all' now ≤ allCutoffOf all now := by
    unfold allCutoffOf
    omega
  have hreach : ReachesBack (dailyCutoffOf daily' now) (dailyCutoffOf daily now) := by
    intro c hc
    obtain ⟨d, hd, rfl⟩ := Option.map_eq_some_iff.mp hc
    obtain ⟨d', hd', hdd⟩ := hdailyLe d hd
    have hddNat : d.toNat ≤ d'.toNat := UInt64.le_iff_toNat_le.mp hdd
    exact ⟨now - 60 * (d'.toNat : Int), Option.map_eq_some_iff.mpr ⟨d', hd', rfl⟩, by omega⟩
  have htimes : timesOf (survivors l all daily now) ⊆ timesOf (survivors l all' daily' now) := by
    rw [keptTimes_eq hnodup hrange hall hdaily, keptTimes_eq hnodup hrange hall' hdaily']
    exact tierKeep_mono hrecent hreach
  refine ⟨htimes, fun hdistinct n hn => ?_⟩
  obtain ⟨x, hx, rfl, -⟩ := (computePruneSet_exact hnodup hrange hall' hdaily').old n hn
  by_contra hkept
  have hstays := mem_of_times hdistinct survivors_subset survivors_subset htimes x
    (mem_survivors.mpr ⟨hx, hkept⟩)
  exact (mem_survivors.mp hstays).2 hn

/-- Half an hour of all without a daily tier, against an hour and ten days. -/
theorem retention_settings_threeSnapshots :
    timesOf (survivors threeSnapshots 30 none 1700000000) ⊆
      timesOf (survivors threeSnapshots 60 (some 14400) 1700000000) ∧
    "live_a" ∈ computePruneSet threeSnapshots 30 none 1700000000 := by
  have hmono := retention_settings threeSnapshots 30 60 none (some 14400) 1700000000 (by decide)
    (by decide) (by decide) (by simp)
    (retentionFits_sample (.inr rfl) (.inl rfl)) (by simp)
    (by
      rintro d ⟨⟩
      exact retentionFits_sample (.inr rfl) (.inr rfl))
  exact ⟨hmono.1, hmono.2 (by decide) "live_a" (by decide +kernel)⟩

end Chbk
