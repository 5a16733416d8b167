import Mathlib.Data.List.Sort
import Mathlib.Order.Basic

/-!
# Sweeps

A collection with ordered keys is read page by page, while it changes. Each page
goes on from a position and ends at the next one, or at the end of all keys.

* `IsPage` — a page of the collection as it is when the page is read.
* `Swept` — what the pages so far amount to: in order, made of entries that were
  there, and with every key that is there all along up to the position.
* `Swept.goesOn`, `Swept.last` — kept by a page; at the last one nothing is missing.
* `behindCount_lt` — a page that is not empty leaves fewer entries behind it.
-/

namespace Lib

variable {ε κ : Type} [LinearOrder κ]

/-- The key comes after the position; every key does at the start. -/
def Behind (pos : Option κ) (k : κ) : Prop := ∀ t, pos = some t → t < k

/-- The key is at or before the position, if there is one. -/
def UpTo (next : Option κ) (k : κ) : Prop := ∀ t, next = some t → k ≤ t

theorem behind_none (k : κ) : Behind none k := by
  intro t ht
  cases ht

theorem behind_some {t k : κ} : Behind (some t) k ↔ t < k := by
  constructor
  · intro h
    exact h t rfl
  · intro h t' ht'
    rw [← Option.some.inj ht']
    exact h

theorem upTo_some {t k : κ} : UpTo (some t) k ↔ k ≤ t := by
  constructor
  · intro h
    exact h t rfl
  · intro h t' ht'
    rw [← Option.some.inj ht']
    exact h

/-- The entries of a collection from one position to the next, in the order of
their keys. -/
structure IsPage (key : ε → κ) (all : ε → Prop) (pos : Option κ) (page : List ε)
    (next : Option κ) : Prop where
  sorted : page.Pairwise fun a b => key a < key b
  mem : ∀ e, e ∈ page ↔ all e ∧ Behind pos (key e) ∧ UpTo next (key e)
  forward : ∀ t, next = some t → ∀ p, pos = some p → p ≤ t

/-- What has been read up to a position. `was` holds of the entries that were there
at some time, `always` of the keys that were there all the time. -/
structure Swept (key : ε → κ) (was : ε → Prop) (always : κ → Prop) (pos : Option κ)
    (seen : List ε) : Prop where
  sorted : seen.Pairwise fun a b => key a < key b
  was : ∀ e ∈ seen, was e
  before : ∀ e ∈ seen, ¬ Behind pos (key e)
  covers : ∀ k, always k → ¬ Behind pos k → ∃ e ∈ seen, key e = k

variable {key : ε → κ} {was all : ε → Prop} {always : κ → Prop} {pos next : Option κ}
  {seen page : List ε}

theorem Swept.start : Swept key was always none [] where
  sorted := .nil
  was := by simp
  before := by simp
  covers k _ h := absurd (behind_none k) h

/-- The entries of the next page come after those already read. -/
theorem Swept.sorted_append (h : Swept key was always pos seen)
    (hpage : IsPage key all pos page next) :
    (seen ++ page).Pairwise fun a b => key a < key b := by
  refine List.pairwise_append.mpr ⟨h.sorted, hpage.sorted, ?_⟩
  intro a ha b hb
  obtain ⟨-, hb, -⟩ := (hpage.mem b).mp hb
  -- `a` is at or before a position, `b` behind it
  obtain ⟨t, ht, hta⟩ : ∃ t, pos = some t ∧ key a ≤ t := by
    have := h.before a ha
    unfold Behind at this
    push Not at this
    exact this
  exact lt_of_le_of_lt hta (hb t ht)

theorem Swept.was_append (h : Swept key was always pos seen) (hpage : IsPage key all pos page next)
    (hwas : ∀ e, all e → was e) : ∀ e ∈ seen ++ page, was e := by
  intro e he
  rcases List.mem_append.mp he with he | he
  · exact h.was e he
  · exact hwas e ((hpage.mem e).mp he).1

theorem Swept.covers_append (h : Swept key was always pos seen)
    (hpage : IsPage key all pos page next) (hall : ∀ k, always k → ∃ e, all e ∧ key e = k) {k : κ}
    (hk : always k) (hnext : UpTo next k) : ∃ e ∈ seen ++ page, key e = k := by
  by_cases hpos : Behind pos k
  · obtain ⟨e, he, rfl⟩ := hall k hk
    exact ⟨e, List.mem_append_right _ ((hpage.mem e).mpr ⟨he, hpos, hnext⟩), rfl⟩
  · obtain ⟨e, he, rfl⟩ := h.covers k hk hpos
    exact ⟨e, List.mem_append_left _ he, rfl⟩

/-- One more page. -/
theorem Swept.goesOn {t : κ} (h : Swept key was always pos seen)
    (hpage : IsPage key all pos page (some t)) (hwas : ∀ e, all e → was e)
    (hall : ∀ k, always k → ∃ e, all e ∧ key e = k) :
    Swept key was always (some t) (seen ++ page) where
  sorted := h.sorted_append hpage
  was := h.was_append hpage hwas
  before := by
    intro e he
    rw [behind_some, not_lt]
    rcases List.mem_append.mp he with he | he
    · have := h.before e he
      unfold Behind at this
      push Not at this
      obtain ⟨p, hp, hpe⟩ := this
      exact hpe.trans (hpage.forward t rfl p hp)
    · exact upTo_some.mp ((hpage.mem e).mp he).2.2
  covers := by
    intro k hk hbefore
    rw [behind_some, not_lt] at hbefore
    exact h.covers_append hpage hall hk (upTo_some.mpr hbefore)

/-- The last page: the entries are in order, each was there, and every key that was
there all the time is among them. -/
theorem Swept.last (h : Swept key was always pos seen) (hpage : IsPage key all pos page none)
    (hwas : ∀ e, all e → was e) (hall : ∀ k, always k → ∃ e, all e ∧ key e = k) :
    (seen ++ page).Pairwise (fun a b => key a < key b) ∧ (∀ e ∈ seen ++ page, was e) ∧
      ∀ k, always k → ∃ e ∈ seen ++ page, key e = k := by
  refine ⟨h.sorted_append hpage, h.was_append hpage hwas, fun k hk => ?_⟩
  refine h.covers_append hpage hall hk ?_
  intro t ht
  cases ht

-- ---------------------------------------------------------------------------
-- How long a sweep takes
-- ---------------------------------------------------------------------------

/-- How many of the entries are behind a position. -/
def behindCount (key : ε → κ) (entries : List ε) : Option κ → Nat
  | none => entries.length
  | some t => (entries.filter fun e => decide (t < key e)).length

theorem behindCount_le (entries : List ε) (pos : Option κ) :
    behindCount key entries pos ≤ entries.length := by
  cases pos with
  | none => exact le_rfl
  | some t => exact List.length_filter_le _ _

/-- A page that is not empty leaves fewer entries behind its end. -/
theorem behindCount_lt {entries : List ε} {t : κ}
    (hpage : IsPage key (· ∈ entries) pos page (some t)) (hne : page ≠ []) :
    behindCount key entries (some t) < behindCount key entries pos := by
  obtain ⟨e, he⟩ := List.exists_mem_of_ne_nil page hne
  obtain ⟨hmem, hbehind, hupTo⟩ := (hpage.mem e).mp he
  have het : ¬ t < key e := not_lt.mpr (upTo_some.mp hupTo)
  cases pos with
  | none =>
    refine List.length_filter_lt_length_iff_exists.mpr ⟨e, hmem, ?_⟩
    simpa using het
  | some p =>
    have hpt := hpage.forward t rfl p rfl
    have hpe := behind_some.mp hbehind
    have hsplit : (entries.filter fun e => decide (t < key e)) =
        (entries.filter fun e => decide (p < key e)).filter fun e => decide (t < key e) := by
      rw [List.filter_filter]
      refine List.filter_congr fun x _ => ?_
      by_cases hx : t < key x
      · simp [hx, lt_of_le_of_lt hpt hx]
      · simp [hx]
    show (entries.filter _).length < (entries.filter _).length
    rw [hsplit]
    refine List.length_filter_lt_length_iff_exists.mpr
      ⟨e, List.mem_filter.mpr ⟨hmem, by simpa using hpe⟩, ?_⟩
    simpa using het

end Lib
