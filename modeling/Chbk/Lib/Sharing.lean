import Mathlib.Data.Set.Basic

/-!
# Owners of shared items

Owners refer to items, and share them. Some owners are removed, with the items
that only they refer to.

* `Sharing.exclusive_union` — what goes with some owners and others, goes with the
  first or then with the others.
* `Sharing.orphans_remove` — an item no owner refers to stays, and no item
  becomes one.
* `Sharing.dangling_remove` — the other owners' references lead where they led.
-/

namespace Lib

/-- Owners, their references, and the items that are there. -/
@[ext] structure Sharing (N H : Type*) where
  owners : Set N
  refs : Set (N × H)
  items : Set H

namespace Sharing

variable {N H : Type*} (s : Sharing N H) (T T' : Set N)

/-- The items that owners in `T` refer to, and no others. -/
def exclusive : Set H := {h | (∃ n ∈ T, (n, h) ∈ s.refs) ∧ ∀ n, (n, h) ∈ s.refs → n ∈ T}

/-- The owners in `T` are removed, with their references and their exclusive
items. -/
def remove : Sharing N H where
  owners := s.owners \ T
  refs := {x ∈ s.refs | x.1 ∉ T}
  items := s.items \ s.exclusive T

/-- The items no owner refers to. -/
def orphans : Set H := {h ∈ s.items | ∀ n, (n, h) ∉ s.refs}

/-- The references to items that are not there. -/
def dangling : Set (N × H) := {x ∈ s.refs | x.2 ∉ s.items}

/-- What two sets of owners have for themselves, the one has for itself, or the
other has once the one is gone. -/
theorem exclusive_union :
    s.exclusive (T ∪ T') = s.exclusive T ∪ (s.remove T).exclusive T' := by
  ext h
  constructor
  · intro ⟨⟨n, hn, hr⟩, hall⟩
    by_cases hleft : ∃ n', (n', h) ∈ s.refs ∧ n' ∉ T
    · -- an owner outside of `T` has it, and it is in `T'`
      obtain ⟨n', hr', hn'⟩ := hleft
      refine .inr ⟨⟨n', (hall n' hr').resolve_left hn', hr', hn'⟩, ?_⟩
      intro n'' hr''
      exact (hall n'' hr''.1).resolve_left hr''.2
    · have honly : ∀ n', (n', h) ∈ s.refs → n' ∈ T := by
        intro n' hr'
        by_contra hn'
        exact hleft ⟨n', hr', hn'⟩
      exact .inl ⟨⟨n, honly n hr, hr⟩, honly⟩
  · rintro (⟨⟨n, hn, hr⟩, hall⟩ | ⟨⟨n, hn, hr⟩, hall⟩)
    · exact ⟨⟨n, .inl hn, hr⟩, fun n' hr' => .inl (hall n' hr')⟩
    · refine ⟨⟨n, .inr hn, hr.1⟩, fun n' hr' => ?_⟩
      by_cases hn' : n' ∈ T
      · exact .inl hn'
      · exact .inr (hall n' ⟨hr', hn'⟩)

theorem orphans_remove : (s.remove T).orphans = s.orphans := by
  ext h
  constructor
  · intro ⟨⟨hitem, hkept⟩, hnone⟩
    refine ⟨hitem, fun n hr => hkept ?_⟩
    -- whoever refers to it is in `T`
    have hall : ∀ n', (n', h) ∈ s.refs → n' ∈ T := by
      intro n' hr'
      by_contra hn'
      exact hnone n' ⟨hr', hn'⟩
    exact ⟨⟨n, hall n hr, hr⟩, hall⟩
  · intro ⟨hitem, hnone⟩
    exact ⟨⟨hitem, fun ⟨⟨n, _, hr⟩, _⟩ => hnone n hr⟩, fun n hr => hnone n hr.1⟩

/-- The references left dangle as they did. -/
theorem dangling_remove : (s.remove T).dangling = {x ∈ s.dangling | x.1 ∉ T} := by
  ext x
  constructor
  · intro ⟨⟨hr, hn⟩, hitem⟩
    refine ⟨⟨hr, fun hi => hitem ⟨hi, fun hex => hn (hex.2 x.1 hr)⟩⟩, hn⟩
  · intro ⟨⟨hr, hitem⟩, hn⟩
    exact ⟨⟨hr, hn⟩, fun hi => hitem hi.1⟩

end Sharing

end Lib
