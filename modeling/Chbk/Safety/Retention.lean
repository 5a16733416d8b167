import Chbk.Lib.Groups
import Chbk.Model.Gc

/-!
# Tiered retention

What `compute_prune_set` is for: everything younger than one cutoff stays, and
of the days between a second cutoff and that one the latest snapshot each.

* `Tiered` — this, as a property of any prune set.
* `computePruneSet_tiered` — the prune set of the program has it.
* `Tiered.again` — a second run on the survivors prunes nothing.
* `retention_runs` — along any sequence of runs the latest of a day survives
  until it is below both cutoffs.
-/

namespace Chbk

open Lib

-- ---------------------------------------------------------------------------
-- The specification
-- ---------------------------------------------------------------------------

/-- Between the two cutoffs. -/
def InWindow (allCutoff dailyCutoff ts : Int) : Prop := dailyCutoff ≤ ts ∧ ts < allCutoff

/-- A prune set of named times, by the day a time counts for. -/
structure Tiered (allCutoff : Int) (dailyCutoff : Option Int) (day : Int → Int)
    (l : List (String × Int)) (pruned : List String) : Prop where
  nodup : pruned.Nodup
  old : ∀ n ∈ pruned, ∃ x ∈ l, x.1 = n ∧ x.2 < allCutoff
  plain : dailyCutoff = none → ∀ x ∈ l, x.2 < allCutoff → x.1 ∈ pruned
  belowBoth : ∀ c, dailyCutoff = some c → ∀ x ∈ l, x.2 < allCutoff → x.2 < c → x.1 ∈ pruned
  oneADay : ∀ c, dailyCutoff = some c → ∀ x ∈ l, InWindow allCutoff c x.2 →
    ∃ y ∈ l, InWindow allCutoff c y.2 ∧ day y.2 = day x.2 ∧ y.1 ∉ pruned ∧
      ∀ z ∈ l, InWindow allCutoff c z.2 → day z.2 = day x.2 →
        z.2 ≤ y.2 ∧ (z ≠ y → z.1 ∈ pruned)

-- ---------------------------------------------------------------------------
-- One day
-- ---------------------------------------------------------------------------

theorem eq_of_name {l : List (String × Int)} (hnodup : (l.map Prod.fst).Nodup) {x y : String × Int}
    (hx : x ∈ l) (hy : y ∈ l) (h : x.1 = y.1) : x = y :=
  List.inj_on_of_nodup_map hnodup hx hy h

/-- All but one with the largest time. -/
theorem allButLatest_spec {day : List (String × Int)} (hne : day ≠ [])
    (hnodup : (day.map Prod.fst).Nodup) :
    (allButLatest day).Nodup ∧ ∃ x ∈ day, (∀ y ∈ day, y.2 ≤ x.2) ∧
      ∀ n, n ∈ allButLatest day ↔ ∃ y ∈ day, y ≠ x ∧ y.1 = n := by
  obtain ⟨x, hperm, hbest⟩ := exists_best Prod.snd hne
  have hnames : (x.1 :: allButLatest day).Nodup := by
    have hmap := hperm.map Prod.fst
    rw [List.map_cons] at hmap
    exact hmap.nodup_iff.mpr hnodup
  have hx : x ∈ day := hperm.mem_iff.mp (List.mem_cons_self ..)
  refine ⟨(List.nodup_cons.mp hnames).2, x, hx, hbest, ?_⟩
  intro n
  unfold allButLatest
  rw [List.mem_map]
  constructor
  · rintro ⟨y, hy, rfl⟩
    refine ⟨y, hperm.mem_iff.mp (List.mem_cons_of_mem _ hy), ?_, rfl⟩
    rintro rfl
    exact (List.nodup_cons.mp hnames).1 (List.mem_map.mpr ⟨y, hy, rfl⟩)
  · rintro ⟨y, hy, hyx, rfl⟩
    rcases List.mem_cons.mp (hperm.mem_iff.mpr hy) with rfl | hy'
    · exact absurd rfl hyx
    · exact ⟨y, hy', rfl⟩

theorem pushDay_eq (now : Int) :
    pushDay now = pushGroup fun x : String × Int => dayKey now x.2 := by
  funext daily x
  unfold pushDay pushGroup
  dsimp only
  cases daily.lookup (dayKey now x.2) with
  | none => rfl
  | some others => rfl

/-- The days of a list of snapshots, each without its latest. -/
theorem daily_spec (now : Int) {window : List (String × Int)}
    (hnodup : (window.map Prod.fst).Nodup) :
    let pruned := (window.foldl (pushDay now) []).flatMap fun d => allButLatest d.2
    pruned.Nodup ∧ (∀ n ∈ pruned, ∃ x ∈ window, x.1 = n) ∧
      ∀ x ∈ window, ∃ y ∈ window, dayKey now y.2 = dayKey now x.2 ∧ y.1 ∉ pruned ∧
        ∀ z ∈ window, dayKey now z.2 = dayKey now x.2 → z.2 ≤ y.2 ∧ (z ≠ y → z.1 ∈ pruned) := by
  intro pruned
  have hgroups := grouped_foldl (fun x : String × Int => dayKey now x.2) window
  rw [← pushDay_eq] at hgroups
  -- each group is a part of the window with one day
  have hmem : ∀ d ∈ window.foldl (pushDay now) [], ∀ x, x ∈ d.2 ↔ x ∈ window ∧ dayKey now x.2 = d.1 := by
    intro d hd x
    rw [hgroups.filter d hd, List.mem_filter, decide_eq_true_iff]
  have hday : ∀ d ∈ window.foldl (pushDay now) [], d.2 ≠ [] ∧ (d.2.map Prod.fst).Nodup := by
    intro d hd
    constructor
    · obtain ⟨x, hx, hk⟩ := (hgroups.covers d.1).mp (List.mem_map.mpr ⟨d, hd, rfl⟩)
      exact List.ne_nil_of_mem ((hmem d hd x).mpr ⟨hx, hk⟩)
    · rw [hgroups.filter d hd]
      exact (List.filter_sublist.map Prod.fst).nodup hnodup
  have hspec := fun d hd => allButLatest_spec (hday d hd).1 (hday d hd).2
  have hin : ∀ d ∈ window.foldl (pushDay now) [], ∀ n ∈ allButLatest d.2,
      ∃ x ∈ window, dayKey now x.2 = d.1 ∧ x.1 = n := by
    intro d hd n hn
    obtain ⟨x, -, -, hiff⟩ := (hspec d hd).2
    obtain ⟨y, hy, -, rfl⟩ := (hiff n).mp hn
    obtain ⟨hyw, hyd⟩ := (hmem d hd y).mp hy
    exact ⟨y, hyw, hyd, rfl⟩
  refine ⟨?_, ?_, ?_⟩
  · -- names of two days are apart
    refine List.nodup_flatMap.mpr ⟨fun d hd => (hspec d hd).1, ?_⟩
    have hkeys : (window.foldl (pushDay now) []).Pairwise fun d d' => d.1 ≠ d'.1 :=
      List.pairwise_map.mp hgroups.nodup
    refine hkeys.imp_of_mem ?_
    intro d d' hd hd' hne n hn hn'
    obtain ⟨x, hx, hxd, rfl⟩ := hin d hd n hn
    obtain ⟨y, hy, hyd, hname⟩ := hin d' hd' _ hn'
    obtain rfl := eq_of_name hnodup hy hx hname
    exact hne (hxd.symm.trans hyd)
  · intro n hn
    obtain ⟨d, hd, hn⟩ := List.mem_flatMap.mp hn
    obtain ⟨x, hx, -, hname⟩ := hin d hd n hn
    exact ⟨x, hx, hname⟩
  · intro x hx
    obtain ⟨d, hd, hkey⟩ := List.mem_map.mp ((hgroups.covers (dayKey now x.2)).mpr ⟨x, hx, rfl⟩)
    obtain ⟨y, hy, hbest, hiff⟩ := (hspec d hd).2
    obtain ⟨hyw, hyd⟩ := (hmem d hd y).mp hy
    refine ⟨y, hyw, hyd.trans hkey, ?_, ?_⟩
    · intro hn
      obtain ⟨d', hd', hn⟩ := List.mem_flatMap.mp hn
      -- a name belongs to one day only
      obtain ⟨z, hz, hzd, hname⟩ := hin d' hd' _ hn
      obtain rfl := eq_of_name hnodup hz hyw hname
      have hdd : d' = d := List.inj_on_of_nodup_map hgroups.nodup hd' hd (hzd.symm.trans hyd)
      rw [hdd] at hn
      obtain ⟨z', hz', hne, hname'⟩ := (hiff _).mp hn
      exact hne (eq_of_name (hday d hd).2 hz' hy hname')
    · intro z hz hzd
      have hzg : z ∈ d.2 := (hmem d hd z).mpr ⟨hz, hzd.trans hkey.symm⟩
      refine ⟨hbest z hzg, fun hne => ?_⟩
      exact List.mem_flatMap.mpr ⟨d, hd, (hiff z.1).mpr ⟨z, hzg, hne, rfl⟩⟩

-- ---------------------------------------------------------------------------
-- The prune set
-- ---------------------------------------------------------------------------

theorem computePruneSet_tiered {l : List (String × Int)} (hnodup : (l.map Prod.fst).Nodup)
    (all : UInt64) (daily : Option UInt64) (now : Int) :
    Tiered (cutoffBefore now all) (daily.map (cutoffBefore now)) (dayKey now) l
      (computePruneSet l all daily now) := by
  have hsub : ∀ (p : String × Int → Bool), ((l.filter p).map Prod.fst).Nodup := fun p =>
    (List.filter_sublist.map Prod.fst).nodup hnodup
  cases daily with
  | none =>
    have hset : computePruneSet l all none now =
        (l.filter fun x => x.2 < cutoffBefore now all).map Prod.fst := rfl
    refine ⟨hset ▸ hsub _, ?_, ?_, by simp, by simp⟩
    · intro n hn
      obtain ⟨x, hx, rfl⟩ := List.mem_map.mp (hset ▸ hn)
      obtain ⟨hxl, hlt⟩ := List.mem_filter.mp hx
      exact ⟨x, hxl, rfl, of_decide_eq_true hlt⟩
    · intro _ x hx hlt
      rw [hset]
      exact List.mem_map.mpr ⟨x, List.mem_filter.mpr ⟨hx, decide_eq_true hlt⟩, rfl⟩
  | some d =>
    -- the old ones are split at the second cutoff
    have hset : computePruneSet l all (some d) now =
        ((l.filter fun x => x.2 < cutoffBefore now all).filter
          fun x => x.2 < cutoffBefore now d).map Prod.fst ++
        (((l.filter fun x => x.2 < cutoffBefore now all).filter
          fun x => x.2 ≥ cutoffBefore now d).foldl (pushDay now) []).flatMap
          fun g => allButLatest g.2 := rfl
    have hlow : ∀ x, x ∈ (l.filter fun x => x.2 < cutoffBefore now all).filter
        (fun x => x.2 < cutoffBefore now d) ↔
        x ∈ l ∧ x.2 < cutoffBefore now all ∧ x.2 < cutoffBefore now d := by
      intro x
      simp only [List.mem_filter, decide_eq_true_iff, and_assoc]
    have hwin : ∀ x, x ∈ (l.filter fun x => x.2 < cutoffBefore now all).filter
        (fun x => x.2 ≥ cutoffBefore now d) ↔
        x ∈ l ∧ InWindow (cutoffBefore now all) (cutoffBefore now d) x.2 := by
      intro x
      simp only [List.mem_filter, decide_eq_true_iff, InWindow]
      tauto
    have hwnodup : (((l.filter fun x => x.2 < cutoffBefore now all).filter
        fun x => x.2 ≥ cutoffBefore now d).map Prod.fst).Nodup :=
      (List.filter_sublist.map Prod.fst).nodup (hsub _)
    obtain ⟨hnd, hfrom, hbest⟩ := daily_spec now hwnodup
    refine ⟨?_, ?_, by simp, ?_, ?_⟩
    · rw [hset, List.nodup_append]
      refine ⟨(List.filter_sublist.map Prod.fst).nodup (hsub _), hnd, ?_⟩
      intro n hn n' hn' he
      -- one time is not on both sides of the cutoff
      obtain ⟨x, hx, rfl⟩ := List.mem_map.mp hn
      obtain ⟨y, hy, rfl⟩ := hfrom n' hn'
      obtain ⟨hxl, -, hlt⟩ := (hlow x).mp hx
      obtain ⟨hyl, hge, -⟩ := (hwin y).mp hy
      obtain rfl := eq_of_name hnodup hxl hyl he
      omega
    · intro n hn
      rw [hset] at hn
      rcases List.mem_append.mp hn with hn | hn
      · obtain ⟨x, hx, rfl⟩ := List.mem_map.mp hn
        obtain ⟨hxl, hlt, -⟩ := (hlow x).mp hx
        exact ⟨x, hxl, rfl, hlt⟩
      · obtain ⟨x, hx, rfl⟩ := hfrom n hn
        obtain ⟨hxl, -, hlt⟩ := (hwin x).mp hx
        exact ⟨x, hxl, rfl, hlt⟩
    · intro c hc x hx hlt hltc
      obtain rfl := Option.some.inj hc
      rw [hset]
      exact List.mem_append_left _ (List.mem_map.mpr ⟨x, (hlow x).mpr ⟨hx, hlt, hltc⟩, rfl⟩)
    · intro c hc x hx hxw
      obtain rfl := Option.some.inj hc
      obtain ⟨y, hy, hyd, hkept, hall⟩ := hbest x ((hwin x).mpr ⟨hx, hxw⟩)
      obtain ⟨hyl, hyw⟩ := (hwin y).mp hy
      refine ⟨y, hyl, hyw, hyd, ?_, ?_⟩
      · rw [hset]
        intro hn
        rcases List.mem_append.mp hn with hn | hn
        · obtain ⟨x', hx', hname⟩ := List.mem_map.mp hn
          obtain ⟨hxl', -, hlt⟩ := (hlow x').mp hx'
          obtain rfl := eq_of_name hnodup hxl' hyl hname
          have := hyw.1
          omega
        · exact hkept hn
      · intro z hz hzw hzd
        obtain ⟨hle, hpr⟩ := hall z ((hwin z).mpr ⟨hz, hzw⟩) hzd
        refine ⟨hle, fun hne => ?_⟩
        rw [hset]
        exact List.mem_append_right _ (hpr hne)

-- ---------------------------------------------------------------------------
-- Survivors
-- ---------------------------------------------------------------------------

/-- A second run on the survivors of a first one prunes nothing. -/
theorem Tiered.again {allCutoff : Int} {dailyCutoff : Option Int} {day : Int → Int}
    {l l' : List (String × Int)} {pruned pruned' : List String}
    (h : Tiered allCutoff dailyCutoff day l pruned)
    (h' : Tiered allCutoff dailyCutoff day l' pruned')
    (hl : ∀ x, x ∈ l' ↔ x ∈ l ∧ x.1 ∉ pruned) : pruned' = [] := by
  rw [List.eq_nil_iff_forall_not_mem]
  intro n hn
  obtain ⟨x, hx, rfl, hlt⟩ := h'.old n hn
  obtain ⟨hxl, hkept⟩ := (hl x).mp hx
  cases hc : dailyCutoff with
  | none => exact hkept (h.plain hc x hxl hlt)
  | some c =>
    rcases lt_or_ge x.2 c with hlow | hge
    · exact hkept (h.belowBoth c hc x hxl hlt hlow)
    · -- the survivors of its day are one
      obtain ⟨y, hy, hyw, hyd, hykept, -⟩ := h'.oneADay c hc x hx ⟨hge, hlt⟩
      obtain ⟨best, -, -, -, -, hbest⟩ := h.oneADay c hc x hxl ⟨hge, hlt⟩
      obtain ⟨hyl, hyk⟩ := (hl y).mp hy
      have hxb : x = best := by
        by_contra hne
        exact hkept ((hbest x hxl ⟨hge, hlt⟩ rfl).2 hne)
      have hyb : y = best := by
        by_contra hne
        exact hyk ((hbest y hyl hyw hyd).2 hne)
      rw [hyb, ← hxb] at hykept
      exact hykept hn

/-- A kept snapshot of the largest time of its day, in the window. -/
theorem Tiered.latest {allCutoff : Int} {dailyCutoff : Option Int} {day : Int → Int}
    {l : List (String × Int)} {pruned : List String} (h : Tiered allCutoff dailyCutoff day l pruned)
    (hnodup : (l.map Prod.fst).Nodup) {x : String × Int} (hx : x ∈ l)
    (hmax : ∀ y ∈ l, day y.2 = day x.2 → y.2 ≤ x.2)
    (hcut : allCutoff ≤ x.2 ∨ ∃ c, dailyCutoff = some c ∧ c ≤ x.2) :
    ∃ y ∈ l, y.1 ∉ pruned ∧ y.2 = x.2 := by
  rcases lt_or_ge x.2 allCutoff with hlt | hge
  · -- in the window
    obtain ⟨c, hc, hcx⟩ := hcut.resolve_left (by omega)
    obtain ⟨y, hy, -, hyd, hkept, hall⟩ := h.oneADay c hc x hx ⟨hcx, hlt⟩
    have hle := (hall x hx ⟨hcx, hlt⟩ rfl).1
    have hge := hmax y hy hyd
    exact ⟨y, hy, hkept, by omega⟩
  · refine ⟨x, hx, ?_, rfl⟩
    intro hn
    obtain ⟨y, hy, hname, hlt⟩ := h.old x.1 hn
    obtain rfl := eq_of_name hnodup hy hx hname
    omega

-- ---------------------------------------------------------------------------
-- Exact cutoffs
-- ---------------------------------------------------------------------------

/-- The minutes, as seconds, and the cutoff they make fit into an `i64`. -/
def RetentionFits (now : Int) (minutes : UInt64) : Prop :=
  60 * (minutes.toNat : Int) < 2 ^ 63 ∧ -2 ^ 63 ≤ now - 60 * (minutes.toNat : Int) ∧ now < 2 ^ 63

theorem cutoffBefore_eq {now : Int} {minutes : UInt64} (h : RetentionFits now minutes) :
    cutoffBefore now minutes = now - 60 * (minutes.toNat : Int) := by
  obtain ⟨hsecs, hlo, hhi⟩ := h
  have hnat : (0 : Int) ≤ minutes.toNat := Int.natCast_nonneg _
  have hcast : wrapI64 (minutes.toNat : Int) = minutes.toNat := wrapI64_eq (by omega) (by omega)
  have hmul : wrapI64 ((minutes.toNat : Int) * 60) = minutes.toNat * 60 :=
    wrapI64_eq (by omega) (by omega)
  unfold cutoffBefore
  rw [hcast, hmul, wrapI64_eq (by omega) (by omega)]
  omega

/-- The exact cutoffs. -/
def allCutoffOf (all : UInt64) (now : Int) : Int := now - 60 * (all.toNat : Int)

def dailyCutoffOf (daily : Option UInt64) (now : Int) : Option Int :=
  daily.map fun d => now - 60 * (d.toNat : Int)

/-- The day of a time, counted from 1970-01-01. -/
def utcDay (ts : Int) : Int := ts / 86400

theorem Tiered.congr_day {allCutoff : Int} {dailyCutoff : Option Int} {day day' : Int → Int}
    {l : List (String × Int)} {pruned : List String} (h : Tiered allCutoff dailyCutoff day l pruned)
    (hday : ∀ x ∈ l, day x.2 = day' x.2) : Tiered allCutoff dailyCutoff day' l pruned := by
  refine ⟨h.nodup, h.old, h.plain, h.belowBoth, ?_⟩
  intro c hc x hx hxw
  obtain ⟨y, hy, hyw, hyd, hkept, hall⟩ := h.oneADay c hc x hx hxw
  refine ⟨y, hy, hyw, by rw [← hday y hy, ← hday x hx, hyd], hkept, ?_⟩
  intro z hz hzw hzd
  exact hall z hz hzw (by rw [hday z hz, hday x hx, hzd])

/-- The prune set, where the arithmetic is exact and the times are ones that
`chrono` can represent. -/
theorem computePruneSet_exact {l : List (String × Int)} {all : UInt64} {daily : Option UInt64}
    {now : Int} (hnodup : (l.map Prod.fst).Nodup) (hrange : ∀ x ∈ l, inDateRange x.2 = true)
    (hall : RetentionFits now all) (hdaily : ∀ d ∈ daily, RetentionFits now d) :
    Tiered (allCutoffOf all now) (dailyCutoffOf daily now) utcDay l
      (computePruneSet l all daily now) := by
  have h := computePruneSet_tiered hnodup all daily now
  have hcut : daily.map (cutoffBefore now) = dailyCutoffOf daily now := by
    cases daily with
    | none => rfl
    | some d => exact congrArg some (cutoffBefore_eq (hdaily d rfl))
  rw [cutoffBefore_eq hall, hcut] at h
  refine h.congr_day fun x hx => ?_
  unfold dayKey utcDay
  rw [if_pos (hrange x hx)]

-- ---------------------------------------------------------------------------
-- Sequences of runs
-- ---------------------------------------------------------------------------

/-- Runs with fixed retention, with snapshots arriving in between: the time of
the last run, the snapshots there are, and all there ever were. -/
inductive RetentionRuns (all : UInt64) (daily : Option UInt64) :
    Int → List (String × Int) → List (String × Int) → Prop
  | start {now : Int} {l : List (String × Int)} (hnodup : (l.map Prod.fst).Nodup) :
      RetentionRuns all daily now l l
  | arrive {now : Int} {present ever : List (String × Int)} {x : String × Int}
      (h : RetentionRuns all daily now present ever) (hnew : x.1 ∉ ever.map Prod.fst) :
      RetentionRuns all daily now (x :: present) (x :: ever)
  | prune {now now' : Int} {present ever l : List (String × Int)}
      (h : RetentionRuns all daily now present ever) (hl : l.Perm present) (hnow : now ≤ now')
      (hall : RetentionFits now' all) (hdaily : ∀ d ∈ daily, RetentionFits now' d) :
      RetentionRuns all daily now' (l.filter fun x => x.1 ∉ computePruneSet l all daily now') ever

/-- Below both cutoffs. -/
def Expired (all : UInt64) (daily : Option UInt64) (now ts : Int) : Prop :=
  ts < allCutoffOf all now ∧ ∀ c, dailyCutoffOf daily now = some c → ts < c

theorem Expired.mono {all : UInt64} {daily : Option UInt64} {now now' ts : Int} (hnow : now ≤ now')
    (h : Expired all daily now ts) : Expired all daily now' ts := by
  obtain ⟨hall, hdaily⟩ := h
  unfold allCutoffOf at hall
  refine ⟨by unfold allCutoffOf; omega, ?_⟩
  intro c hc
  obtain ⟨d, rfl, rfl⟩ := Option.map_eq_some_iff.mp hc
  have hlt : ts < now - 60 * (d.toNat : Int) := hdaily _ rfl
  show ts < now' - 60 * (d.toNat : Int)
  omega

/-- What holds along such a sequence. -/
structure RetentionInv (all : UInt64) (daily : Option UInt64) (now : Int)
    (present ever : List (String × Int)) : Prop where
  sub : ∀ x ∈ present, x ∈ ever
  nodupEver : (ever.map Prod.fst).Nodup
  nodup : (present.map Prod.fst).Nodup
  latest : ∀ x ∈ ever, (∀ y ∈ ever, utcDay y.2 = utcDay x.2 → y.2 ≤ x.2) →
    ¬ Expired all daily now x.2 → ∃ y ∈ present, y.2 = x.2

/-- One run: of the latest of a day, one stays. -/
theorem RetentionInv.prune {all : UInt64} {daily : Option UInt64} {now now' : Int}
    {present ever l : List (String × Int)} (h : RetentionInv all daily now present ever)
    (hl : l.Perm present) (hnow : now ≤ now') (hall : RetentionFits now' all)
    (hdaily : ∀ d ∈ daily, RetentionFits now' d) (hrange : ∀ x ∈ ever, inDateRange x.2 = true) :
    RetentionInv all daily now'
      (l.filter fun x => x.1 ∉ computePruneSet l all daily now') ever := by
  have hmem : ∀ x, x ∈ l → x ∈ ever := fun x hx => h.sub x (hl.mem_iff.mp hx)
  have hnodup : (l.map Prod.fst).Nodup := (hl.map Prod.fst).nodup_iff.mpr h.nodup
  have htiers := computePruneSet_exact hnodup (fun x hx => hrange x (hmem x hx)) hall hdaily
  refine ⟨fun x hx => hmem x (List.mem_of_mem_filter hx), h.nodupEver,
    (List.filter_sublist.map Prod.fst).nodup hnodup, ?_⟩
  intro x hx hmax hfresh
  -- before this run one of that time was there
  obtain ⟨y, hy, hyx⟩ := h.latest x hx hmax fun hexp => hfresh (hexp.mono hnow)
  have hyl : y ∈ l := hl.mem_iff.mpr hy
  have hmax' : ∀ z ∈ l, utcDay z.2 = utcDay y.2 → z.2 ≤ y.2 := by
    intro z hz hzd
    rw [hyx] at hzd ⊢
    exact hmax z (hmem z hz) hzd
  have hcut : allCutoffOf all now' ≤ y.2 ∨ ∃ c, dailyCutoffOf daily now' = some c ∧ c ≤ y.2 := by
    by_contra hno
    push Not at hno
    rw [hyx] at hno
    exact hfresh ⟨hno.1, hno.2⟩
  obtain ⟨z, hz, hkept, hzy⟩ := htiers.latest hnodup hyl hmax' hcut
  exact ⟨z, List.mem_filter.mpr ⟨hz, by simpa using hkept⟩, hzy.trans hyx⟩

theorem retention_inv {all : UInt64} {daily : Option UInt64} {now : Int}
    {present ever : List (String × Int)} (h : RetentionRuns all daily now present ever)
    (hrange : ∀ x ∈ ever, inDateRange x.2 = true) : RetentionInv all daily now present ever := by
  induction h with
  | start hnodup => exact ⟨fun _ hx => hx, hnodup, hnodup, fun x hx _ _ => ⟨x, hx, rfl⟩⟩
  | @arrive now present ever x _ hnew ih =>
    have hinv := ih fun y hy => hrange y (List.mem_cons_of_mem _ hy)
    have hnew' : x.1 ∉ present.map Prod.fst := by
      intro hin
      obtain ⟨y, hy, hname⟩ := List.mem_map.mp hin
      exact hnew (List.mem_map.mpr ⟨y, hinv.sub y hy, hname⟩)
    refine ⟨?_, List.nodup_cons.mpr ⟨hnew, hinv.nodupEver⟩, List.nodup_cons.mpr ⟨hnew', hinv.nodup⟩,
      ?_⟩
    · intro y hy
      rcases List.mem_cons.mp hy with rfl | hy
      · exact List.mem_cons_self ..
      · exact List.mem_cons_of_mem _ (hinv.sub y hy)
    · intro y hy hmax hfresh
      rcases List.mem_cons.mp hy with rfl | hy
      · exact ⟨y, List.mem_cons_self .., rfl⟩
      · obtain ⟨z, hz, hzy⟩ := hinv.latest y hy
          (fun z hz => hmax z (List.mem_cons_of_mem _ hz)) hfresh
        exact ⟨z, List.mem_cons_of_mem _ hz, hzy⟩
  | prune _ hl hnow hall hdaily ih => exact (ih hrange).prune hl hnow hall hdaily hrange

/-- The tiered retention of `gc-live`: what one run keeps, that a second run
changes nothing, and that along any sequence of runs some snapshot of the
largest time of a day is there until that time is below both cutoffs. -/
theorem retention_spec (all : UInt64) (daily : Option UInt64) :
    (∀ (now : Int) (l : List (String × Int)), (l.map Prod.fst).Nodup →
      (∀ x ∈ l, inDateRange x.2 = true) → RetentionFits now all →
      (∀ d ∈ daily, RetentionFits now d) →
      Tiered (allCutoffOf all now) (dailyCutoffOf daily now) utcDay l
        (computePruneSet l all daily now) ∧
      ∀ l', l'.Perm (l.filter fun x => x.1 ∉ computePruneSet l all daily now) →
        computePruneSet l' all daily now = []) ∧
    ∀ (now : Int) (present ever : List (String × Int)),
      RetentionRuns all daily now present ever → (∀ x ∈ ever, inDateRange x.2 = true) →
      ∀ x ∈ ever, (∀ y ∈ ever, utcDay y.2 = utcDay x.2 → y.2 ≤ x.2) →
        ¬ Expired all daily now x.2 → ∃ y ∈ present, y.2 = x.2 := by
  constructor
  · intro now l hnodup hrange hall hdaily
    have htiers := computePruneSet_exact hnodup hrange hall hdaily
    refine ⟨htiers, fun l' hperm => ?_⟩
    have hmem : ∀ x, x ∈ l' ↔ x ∈ l ∧ x.1 ∉ computePruneSet l all daily now := by
      intro x
      rw [hperm.mem_iff, List.mem_filter, decide_eq_true_iff]
    have hnodup' : (l'.map Prod.fst).Nodup := by
      refine (hperm.map Prod.fst).nodup_iff.mpr ?_
      exact (List.filter_sublist.map Prod.fst).nodup hnodup
    exact htiers.again (computePruneSet_exact hnodup'
      (fun x hx => hrange x ((hmem x).mp hx).1) hall hdaily) hmem
  · intro now present ever hruns hrange
    exact (retention_inv hruns hrange).latest

/-- Two snapshots of one day, and a fresh one. -/
def threeSnapshots : List (String × Int) :=
  [("live_a", 1699661000), ("live_b", 1699665000), ("live_c", 1699999990)]

/-- An hour of all, ten days of one a day. -/
theorem retention_spec_threeSnapshots :
    (Tiered (allCutoffOf 60 1700000000) (dailyCutoffOf (some 14400) 1700000000) utcDay
      threeSnapshots (computePruneSet threeSnapshots 60 (some 14400) 1700000000) ∧
    computePruneSet threeSnapshots 60 (some 14400) 1700000000 = ["live_a"]) ∧
    ∃ y ∈ threeSnapshots.filter fun x =>
      x.1 ∉ computePruneSet threeSnapshots 60 (some 14400) 1700000000, y.2 = 1699665000 := by
  have hnodup : (threeSnapshots.map Prod.fst).Nodup := by decide
  have hrange : ∀ x ∈ threeSnapshots, inDateRange x.2 = true := by decide
  have hall : RetentionFits 1700000000 60 := by
    unfold RetentionFits
    decide
  have hdaily : ∀ d ∈ (some 14400 : Option UInt64), RetentionFits 1700000000 d := by
    rintro d ⟨⟩
    unfold RetentionFits
    decide
  have hpruned : computePruneSet threeSnapshots 60 (some 14400) 1700000000 = ["live_a"] := by
    decide +kernel
  obtain ⟨hone, hruns⟩ := retention_spec 60 (some 14400)
  refine ⟨⟨(hone 1700000000 threeSnapshots hnodup hrange hall hdaily).1, hpruned⟩, ?_⟩
  refine hruns 1700000000 _ threeSnapshots
    (.prune (.start hnodup) (List.Perm.refl _) (le_refl _) hall hdaily) hrange
    ("live_b", 1699665000) (by decide) (by decide) ?_
  -- not below the cutoff ten days ago
  intro hexp
  have hlt : (1699665000 : Int) < 1700000000 - 60 * 14400 := hexp.2 _ rfl
  omega

end Chbk
