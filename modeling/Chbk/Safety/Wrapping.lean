import Chbk.Model.Duration
import Chbk.Safety.Reading
import Chbk.Safety.Retention
import Chbk.Safety.Schedule

/-!
# Retention and grace with wrapping arithmetic

A duration passes through a product in `u64`, a cast to `i64`, a second product
and a subtraction. Up to a wrap of the last difference all of it is exact; past
it the cutoff lies in the future.

* `retention_exact_iff`, `grace_exact_iff` — when no snapshot, and no blob, is
  taken that the exact value protects.
* `large_retention_iff` — both.
* `large_retention_deletes` — two values that take everything.
-/

namespace Chbk

open Lib Prog

-- ---------------------------------------------------------------------------
-- What a duration means
-- ---------------------------------------------------------------------------

/-- The minutes of a unit. -/
def unitMinutes : Char → Option Nat
  | 'm' => some 1
  | 'h' => some 60
  | 'd' => some (60 * 24)
  | 'w' => some (60 * 24 * 7)
  | 'M' => some (60 * 24 * 30)
  | _ => none

/-- The text stands for `n` minutes, without any bound. -/
def Denotes (isAlphabetic : Char → Bool) (s : String) (n : Nat) : Prop :=
  ∃ num unit k, readDuration isAlphabetic (trim s) = .ok (num, unit) ∧ unitMinutes unit = some k ∧
    n = num.toNat * k

theorem Denotes.unique {isAlphabetic : Char → Bool} {s : String} {n n' : Nat}
    (h : Denotes isAlphabetic s n) (h' : Denotes isAlphabetic s n') : n = n' := by
  obtain ⟨num, unit, k, hread, hunit, rfl⟩ := h
  obtain ⟨num', unit', k', hread', hunit', rfl⟩ := h'
  obtain ⟨rfl, rfl⟩ := Prod.mk.inj (Except.ok.inj (hread.symm.trans hread'))
  rw [Option.some.inj (hunit.symm.trans hunit')]

/-- The minutes of an accepted text are its exact value, up to a wrap. -/
theorem inMinutes_ok {num m : UInt64} {unit : Char} (h : inMinutes num unit = .ok m) :
    ∃ k, unitMinutes unit = some k ∧ m.toNat = num.toNat * k % 2 ^ 64 := by
  have hlt := num.toNat_lt
  unfold inMinutes at h
  split at h
  · obtain rfl := Except.ok.inj h
    exact ⟨1, rfl, by omega⟩
  · obtain rfl := Except.ok.inj h
    exact ⟨60, rfl, by rw [UInt64.toNat_mul]; rfl⟩
  · obtain rfl := Except.ok.inj h
    refine ⟨60 * 24, rfl, ?_⟩
    have h60 : (60 : UInt64).toNat = 60 := rfl
    have h24 : (24 : UInt64).toNat = 24 := rfl
    simp only [UInt64.toNat_mul, h60, h24]
    omega
  · obtain rfl := Except.ok.inj h
    refine ⟨60 * 24 * 7, rfl, ?_⟩
    have h60 : (60 : UInt64).toNat = 60 := rfl
    have h24 : (24 : UInt64).toNat = 24 := rfl
    have h7 : (7 : UInt64).toNat = 7 := rfl
    simp only [UInt64.toNat_mul, h60, h24, h7]
    omega
  · obtain rfl := Except.ok.inj h
    refine ⟨60 * 24 * 30, rfl, ?_⟩
    have h60 : (60 : UInt64).toNat = 60 := rfl
    have h24 : (24 : UInt64).toNat = 24 := rfl
    have h30 : (30 : UInt64).toNat = 30 := rfl
    simp only [UInt64.toNat_mul, h60, h24, h30]
    omega
  · cases h

theorem exists_denotes {isAlphabetic : Char → Bool} {s : String} {m : UInt64}
    (h : parseDurationMinutes isAlphabetic s = .ok m) :
    ∃ n, Denotes isAlphabetic s n ∧ m.toNat = n % 2 ^ 64 := by
  unfold parseDurationMinutes at h
  cases hread : readDuration isAlphabetic (trim s) with
  | error e =>
    rw [hread] at h
    cases h
  | ok x =>
    rw [hread] at h
    have hmin : inMinutes x.1 x.2 = .ok m := h
    obtain ⟨k, hunit, hm⟩ := inMinutes_ok hmin
    exact ⟨x.1.toNat * k, ⟨x.1, x.2, k, hread, hunit, rfl⟩, hm⟩

-- ---------------------------------------------------------------------------
-- The cutoff of a prune set
-- ---------------------------------------------------------------------------

/-- However the minutes have wrapped, the cutoff is the exact one, wrapped. -/
theorem cutoffBefore_wrap {now : Int} {m : UInt64} {n : Nat} (hm : m.toNat = n % 2 ^ 64) :
    cutoffBefore now m = wrapI64 (now - 60 * (n : Int)) := by
  unfold cutoffBefore
  obtain ⟨a, ha⟩ := exists_wrapI64_eq (m.toNat : Int)
  obtain ⟨b, hb⟩ := exists_wrapI64_eq (wrapI64 (m.toNat : Int) * 60)
  obtain ⟨c, hc⟩ := exists_wrapI64_eq (now - wrapI64 (wrapI64 (m.toNat : Int) * 60))
  obtain ⟨d, hd⟩ := exists_wrapI64_eq (now - 60 * (n : Int))
  have hr := wrapI64_range (now - wrapI64 (wrapI64 (m.toNat : Int) * 60))
  have hr' := wrapI64_range (now - 60 * (n : Int))
  -- both are congruent, and in the range of an `i64`
  omega

/-- What is pruned is below the cutoff for all, with any names. -/
theorem old_of_mem_computePruneSet {l : List (String × Int)} {m : UInt64} {daily : Option UInt64}
    {now : Int} {name : String} (h : name ∈ computePruneSet l m daily now) :
    ∃ x ∈ l, x.1 = name ∧ x.2 < cutoffBefore now m := by
  unfold computePruneSet at h
  cases daily with
  | none =>
    obtain ⟨x, hx, rfl⟩ := List.mem_map.mp h
    rw [List.mem_filter] at hx
    exact ⟨x, hx.1, rfl, of_decide_eq_true hx.2⟩
  | some d =>
    dsimp only at h
    rw [List.mem_append] at h
    rcases h with h | h
    · obtain ⟨x, hx, rfl⟩ := List.mem_map.mp h
      rw [List.mem_filter, List.mem_filter] at hx
      exact ⟨x, hx.1.1, rfl, of_decide_eq_true hx.1.2⟩
    · obtain ⟨day, hday, hin⟩ := List.mem_flatMap.mp h
      rw [pushDay_eq] at hday
      have hfilter := (grouped_foldl (fun x : String × Int => dayKey now x.2) _).filter day hday
      -- a name of a day is one of its snapshots'
      obtain ⟨x, hx, rfl⟩ := List.mem_map.mp hin
      have hx' : x ∈ day.2 := (List.mem_insertionSort _).mp (List.mem_of_mem_drop hx)
      rw [hfilter, List.mem_filter, List.mem_filter, List.mem_filter] at hx'
      exact ⟨x, hx'.1.1.1, rfl, of_decide_eq_true hx'.1.1.2⟩

/-- Every name that is pruned is one of a snapshot older than the exact value. -/
def NeverTooYoung (m : UInt64) (now : Int) (n : Nat) : Prop :=
  ∀ (l : List (String × Int)) (daily : Option UInt64),
    (∀ x ∈ l, -2 ^ 63 ≤ x.2 ∧ x.2 < 2 ^ 63) → ∀ name ∈ computePruneSet l m daily now,
      ∃ x ∈ l, x.1 = name ∧ 60 * (n : Int) < now - x.2

/-- Where names are distinct: no snapshot whose age is the exact value at most. -/
theorem NeverTooYoung.age {m : UInt64} {now : Int} {n : Nat} (h : NeverTooYoung m now n)
    {l : List (String × Int)} {daily : Option UInt64} (hnodup : (l.map Prod.fst).Nodup)
    (hrange : ∀ x ∈ l, -2 ^ 63 ≤ x.2 ∧ x.2 < 2 ^ 63) {x : String × Int} (hx : x ∈ l)
    (hin : x.1 ∈ computePruneSet l m daily now) : 60 * (n : Int) < now - x.2 := by
  obtain ⟨y, hy, hname, hage⟩ := h l daily hrange x.1 hin
  obtain rfl := eq_of_name hnodup hy hx hname
  exact hage

/-- The exact cutoff is an `i64`, or wraps to the least one, which no time is
below. -/
def RetentionInRange (now : Int) (n : Nat) : Prop :=
  -2 ^ 63 ≤ now - 60 * (n : Int) ∨ wrapI64 (now - 60 * (n : Int)) = -2 ^ 63

theorem retention_exact_iff {m : UInt64} {now : Int} (hlo : -2 ^ 63 ≤ now) (hhi : now < 2 ^ 63)
    {n : Nat} (hm : m.toNat = n % 2 ^ 64) : NeverTooYoung m now n ↔ RetentionInRange now n := by
  have hcut : cutoffBefore now m = wrapI64 (now - 60 * (n : Int)) := cutoffBefore_wrap hm
  constructor
  · intro hnever
    by_contra hno
    obtain ⟨hlow, hmin⟩ : now - 60 * (n : Int) < -2 ^ 63 ∧
        wrapI64 (now - 60 * (n : Int)) ≠ -2 ^ 63 := by
      unfold RetentionInRange at hno
      push Not at hno
      exact hno
    -- a snapshot of the earliest time there is
    have hr := wrapI64_range (now - 60 * (n : Int))
    have hin : "live_" ∈ computePruneSet [("live_", -2 ^ 63)] m none now := by
      have hlt : (-2 ^ 63 : Int) < cutoffBefore now m := by omega
      have htiers := computePruneSet_tiered (l := [("live_", -2 ^ 63)]) (by simp) m none now
      exact htiers.plain rfl ("live_", -2 ^ 63) (List.mem_singleton_self _) hlt
    obtain ⟨x, hx, -, hage⟩ := hnever [("live_", -2 ^ 63)] none (by simp) "live_" hin
    obtain rfl := List.mem_singleton.mp hx
    dsimp only at hage
    omega
  · intro hcond l daily hrange name hin
    obtain ⟨x, hx, hname, hlt⟩ := old_of_mem_computePruneSet hin
    refine ⟨x, hx, hname, ?_⟩
    rw [hcut] at hlt
    have hbounds := hrange x hx
    rcases hcond with hexact | hmin
    · rw [wrapI64_eq hexact (by omega)] at hlt
      omega
    · omega

-- ---------------------------------------------------------------------------
-- The cutoff of a scan
-- ---------------------------------------------------------------------------

/-- The scan of `gc-all` takes the object for an orphan: the cutoff it computes
in world `w` lets it pass. -/
def Selects (hours : UInt64) (w : World) (referenced : List BlobHash) (e : ListEntry)
    (hash : String) : Prop :=
  ∃ tr p cutoff, Proc.Trace Answers Eq ⟨graceCutoff hours, []⟩ w tr p w ∧ p.prog = .done cutoff ∧
    orphanOf referenced cutoff e = some hash

/-- The seconds of the grace period, and the cutoff, are ones the date library
takes. -/
def CutoffTaken (hours : UInt64) (now : Int) : Prop :=
  (graceSecs hours).natAbs ≤ 9223372036854775 ∧ inDateRange (now - graceSecs hours) = true

instance (hours : UInt64) (now : Int) : Decidable (CutoffTaken hours now) :=
  inferInstanceAs (Decidable (_ ∧ _))

theorem ensures_graceCutoff (hours : UInt64) (w : World) :
    Ensures Answers (fun _ => True) (graceCutoff hours) w
      (fun cutoff w' => w' = w ∧ cutoff = w.now - graceSecs hours ∧ CutoffTaken hours w.now)
      fun _ _ => True := by
  refine Ensures.bind (R := fun now w' => w' = w ∧ now = w.now)
    (Ensures.ask trivial fun now w' hans => ⟨hans.2, hans.1⟩) ?_
  rintro now w' ⟨rfl, rfl⟩
  dsimp only
  split
  · exact ⟨trivial, fun r => r.elim⟩
  · rename_i hsecs
    split
    · exact ⟨trivial, fun r => r.elim⟩
    · rename_i hrange
      refine ⟨rfl, rfl, ?_, ?_⟩
      · show (wrapI64 hours.toNat * 3600).natAbs ≤ 9223372036854775
        omega
      · show inDateRange (w'.now - wrapI64 hours.toNat * 3600) = true
        simpa using hrange

/-- The cutoff is computed where it is taken. -/
theorem exists_graceCutoff {hours : UInt64} {w : World} (h : CutoffTaken hours w.now) :
    ∃ tr p, Proc.Trace Answers Eq ⟨graceCutoff hours, []⟩ w tr p w ∧
      p.prog = .done (w.now - graceSecs hours) := by
  have hstep : Proc.Step Answers ⟨graceCutoff hours, []⟩ w
      ⟨.done (w.now - graceSecs hours), [⟨.env .utcNow, w.now⟩]⟩ w := by
    have hrest : (fun now : Int => (do
        let secs := wrapI64 hours.toNat * 3600
        if secs.natAbs > 9223372036854775 then
          return (← askEnv (.panic "TimeDelta::hours out of bounds")).elim
        if !inDateRange (now - secs) then
          return (← askEnv (.panic "`DateTime - TimeDelta` overflowed")).elim
        return now - secs : P Int)) w.now = .done (w.now - graceSecs hours) := by
      have hsecs : ¬ (wrapI64 hours.toNat * 3600).natAbs > 9223372036854775 := by
        have := h.1
        unfold graceSecs at this
        omega
      have hrange : inDateRange (w.now - wrapI64 hours.toNat * 3600) = true := h.2
      dsimp only
      rw [if_neg hsecs, hrange]
      rfl
    have hcall : graceCutoff hours = .call (.env .utcNow) fun now : Int => (do
        let secs := wrapI64 hours.toNat * 3600
        if secs.natAbs > 9223372036854775 then
          return (← askEnv (.panic "TimeDelta::hours out of bounds")).elim
        if !inDateRange (now - secs) then
          return (← askEnv (.panic "`DateTime - TimeDelta` overflowed")).elim
        return now - secs : P Int) := rfl
    rw [hcall, ← hrest]
    exact .call ⟨rfl, rfl⟩
  exact ⟨_, _, .call .start hstep rfl, rfl⟩


/-- No blob is taken that is younger than the exact grace period. -/
def NeverTooFresh (hours : UInt64) (w : World) : Prop :=
  ∀ (referenced : List BlobHash) (e : ListEntry) (hash : String),
    Selects hours w referenced e hash → 3600 * (hours.toNat : Int) ≤ w.now - e.lastModified

/-- The hours are an `i64`, or the command panics on them. -/
def GraceInRange (hours : UInt64) (now : Int) : Prop :=
  hours.toNat < 2 ^ 63 ∨ ¬ CutoffTaken hours now

theorem grace_exact_iff (hours : UInt64) (w : World) :
    NeverTooFresh hours w ↔ GraceInRange hours w.now := by
  constructor
  · intro hnever
    by_contra hno
    obtain ⟨hbig, htaken⟩ : 2 ^ 63 ≤ hours.toNat ∧ CutoffTaken hours w.now := by
      unfold GraceInRange at hno
      push Not at hno
      exact hno
    -- a blob uploaded just now
    obtain ⟨tr, p, htr, hdone⟩ := exists_graceCutoff htaken
    have hneg : graceSecs hours ≤ 0 := by
      obtain ⟨k, hk⟩ := exists_wrapI64_eq (hours.toNat : Int)
      have hr := wrapI64_range (hours.toNat : Int)
      have hlt := hours.toNat_lt
      unfold graceSecs
      omega
    have hsel : Selects hours w [] ⟨blobRemoteKey siteHash, 0, w.now⟩ siteHash := by
      refine ⟨tr, p, _, htr, hdone, ?_⟩
      have hkey : parseUnreferencedBlob (blobRemoteKey siteHash) [] = some siteHash := by
        decide +kernel
      unfold orphanOf
      rw [if_neg (by dsimp only; omega)]
      exact hkey
    have hage := hnever [] _ siteHash hsel
    dsimp only at hage
    omega
  · rintro hcond referenced e hash ⟨tr, p, cutoff, htr, hdone, horphan⟩
    obtain ⟨-, hcut, htaken⟩ := htr.returns (ensures_graceCutoff hours w) hdone
    have hsmall : hours.toNat < 2 ^ 63 := by
      rcases hcond with hsmall | hpanics
      · exact hsmall
      · exact absurd htaken hpanics
    have hsecs : graceSecs hours = 3600 * (hours.toNat : Int) := by
      unfold graceSecs
      rw [wrapI64_eq (by omega) (by omega)]
      omega
    have hle : ¬ e.lastModified > cutoff := by
      intro hgt
      unfold orphanOf at horphan
      rw [if_pos hgt] at horphan
      cases horphan
    omega

-- ---------------------------------------------------------------------------
-- Both
-- ---------------------------------------------------------------------------

/-- Exactly when a retention that was accepted, and a grace period, protect all
that their exact values protect. -/
theorem large_retention_iff {isAlphabetic : Char → Bool} {s : String} {m : UInt64}
    (hparse : parseDurationMinutes isAlphabetic s = .ok m) {now : Int} (hlo : -2 ^ 63 ≤ now)
    (hhi : now < 2 ^ 63) (hours : UInt64) (w : World) :
    ∃ n, Denotes isAlphabetic s n ∧ (NeverTooYoung m now n ↔ RetentionInRange now n) ∧
      (NeverTooFresh hours w ↔ GraceInRange hours w.now) := by
  obtain ⟨n, hden, hm⟩ := exists_denotes hparse
  exact ⟨n, hden, retention_exact_iff hlo hhi hm, grace_exact_iff hours w⟩

theorem large_retention_iff_day :
    ∃ n, Denotes Char.isAlpha "24h" n ∧
      (NeverTooYoung 1440 1700000000 n ↔ RetentionInRange 1700000000 n) ∧
      (NeverTooFresh 24 {} ↔ GraceInRange 24 0) :=
  large_retention_iff (by decide +kernel) (by decide) (by decide) 24 {}

/-- The largest values of all: a snapshot of this second is pruned, and a blob
uploaded this second taken for an orphan. -/
theorem large_retention_deletes :
    parseDurationMinutes Char.isAlpha "18446744073709551615m" = .ok 18446744073709551615 ∧
      Denotes Char.isAlpha "18446744073709551615m" 18446744073709551615 ∧
      "live_a" ∈ computePruneSet [("live_a", 1700000000)] 18446744073709551615 none 1700000000 ∧
      ¬ NeverTooYoung 18446744073709551615 1700000000 18446744073709551615 ∧
      Selects 18446744073709551615 { now := 1700000000 } []
        ⟨blobRemoteKey siteHash, 0, 1700000000⟩ siteHash ∧
      ¬ NeverTooFresh 18446744073709551615 { now := 1700000000 } := by
  have hin : "live_a" ∈ computePruneSet [("live_a", 1700000000)] 18446744073709551615 none
      1700000000 := by decide +kernel
  have hsel : Selects 18446744073709551615 { now := 1700000000 } []
      ⟨blobRemoteKey siteHash, 0, 1700000000⟩ siteHash := by
    have htaken : CutoffTaken 18446744073709551615 1700000000 := by decide +kernel
    obtain ⟨tr, p, htr, hdone⟩ := exists_graceCutoff (w := { now := 1700000000 }) htaken
    exact ⟨tr, p, _, htr, hdone, by decide +kernel⟩
  refine ⟨by decide +kernel, ⟨18446744073709551615, 'm', 1, by decide +kernel, rfl, by decide⟩,
    hin, ?_, hsel, ?_⟩
  · intro hnever
    have hage := hnever.age (by simp) (by simp) (List.mem_singleton_self _) hin
    exact absurd hage (by decide)
  · intro hnever
    exact absurd (hnever _ _ _ hsel) (by decide)

end Chbk
