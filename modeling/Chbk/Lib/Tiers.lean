import Mathlib.Data.Set.Finite.Lemmas
import Mathlib.Order.Basic

/-!
# Tiers

A set of dated items is thinned out: all from one time on are kept, and of the older
ones, back to a second time, the latest of each day. Any order of times and any
division into days will do.

* `tierKeep` — what is kept.
* `tierKeep_mono` — with earlier times more is kept.
* `tierKeep_of_between` — what is not kept does not matter to what is.
-/

namespace Lib

variable {ι τ δ : Type} [LinearOrder τ] {time : ι → τ} {day : τ → δ} {recent recent' : τ}
  {daily daily' : Option τ} {S P : Set ι}

/-- The items from `recent` on, and the latest of each day back to `daily`. -/
def tierKeep (time : ι → τ) (day : τ → δ) (recent : τ) (daily : Option τ) (S : Set ι) : Set ι :=
  {x | x ∈ S ∧ (recent ≤ time x ∨ ∃ c, daily = some c ∧ c ≤ time x ∧
    ∀ z ∈ S, c ≤ time z → time z < recent → day (time z) = day (time x) → time z ≤ time x)}

/-- The daily tier goes back at least as far. -/
def ReachesBack (daily' daily : Option τ) : Prop :=
  ∀ c, daily = some c → ∃ c', daily' = some c' ∧ c' ≤ c

theorem tierKeep_subset : tierKeep time day recent daily S ⊆ S := fun _ hx => hx.1

/-- Later items only make it harder to be the latest. -/
theorem tierKeep_inter (h : P ⊆ S) :
    tierKeep time day recent daily S ∩ P ⊆ tierKeep time day recent daily P := by
  rintro x ⟨⟨-, hx⟩, hxP⟩
  refine ⟨hxP, hx.imp id ?_⟩
  rintro ⟨c, hc, hcx, hmax⟩
  exact ⟨c, hc, hcx, fun z hz => hmax z (h hz)⟩

/-- **With earlier times more is kept.** -/
theorem tierKeep_mono (hrecent : recent' ≤ recent) (hdaily : ReachesBack daily' daily) :
    tierKeep time day recent daily S ⊆ tierKeep time day recent' daily' S := by
  rintro x ⟨hxS, hx⟩
  refine ⟨hxS, ?_⟩
  rcases hx with hx | ⟨c, hc, hcx, hmax⟩
  · exact .inl (hrecent.trans hx)
  · obtain ⟨c', hc', hle⟩ := hdaily c hc
    refine .inr ⟨c', hc', hle.trans hcx, ?_⟩
    intro z hz _ hzr hzd
    -- an item before the old reach is before `x`
    rcases lt_or_ge (time z) c with hzc | hzc
    · exact (hzc.trans_le hcx).le
    · exact hmax z hz hzc (hzr.trans_le hrecent) hzd

/-- **What is not kept does not matter**: thinning out any set between the kept items
and all of them keeps the same. -/
theorem tierKeep_of_between (hfin : S.Finite) (hkeep : tierKeep time day recent daily S ⊆ P)
    (hsub : P ⊆ S) : tierKeep time day recent daily P = tierKeep time day recent daily S := by
  apply Set.Subset.antisymm
  · rintro x ⟨hxP, hx⟩
    refine ⟨hsub hxP, ?_⟩
    rcases hx with hx | ⟨c, hc, hcx, hmax⟩
    · exact .inl hx
    refine .inr ⟨c, hc, hcx, fun z hz hcz hzr hzd => ?_⟩
    -- the latest of the day in `S` is kept, so it is in `P`
    let window : Set ι := {y | y ∈ S ∧ c ≤ time y ∧ time y < recent ∧ day (time y) = day (time x)}
    have hwfin : window.Finite := hfin.subset fun y hy => hy.1
    obtain ⟨y, hy, hymax⟩ := Set.exists_max_image window time hwfin ⟨z, hz, hcz, hzr, hzd⟩
    obtain ⟨hyS, hcy, hyr, hyd⟩ := hy
    have hykeep : y ∈ tierKeep time day recent daily S := by
      refine ⟨hyS, .inr ⟨c, hc, hcy, fun u hu hcu hur hud => ?_⟩⟩
      exact hymax u ⟨hu, hcu, hur, hud.trans hyd⟩
    calc time z ≤ time y := hymax z ⟨hz, hcz, hzr, hzd⟩
      _ ≤ time x := hmax y (hkeep hykeep) hcy hyr hyd
  · intro x hx
    exact tierKeep_inter hsub ⟨hx, hkeep hx⟩

end Lib
